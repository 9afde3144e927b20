import Avm.Opt.TailCall

/-!
# Inlining

Expands small callees in place.  The block of the call is split at the call.  The blocks of the
callee are copied between the two halves, with registers above those of the caller; its entry becomes
part of the first half, and its returns become jumps to the second half, where a phi merges what they
return.
-/

namespace Avm.Opt.Inlining

open Avm.Ir

/-- The method asks for something that only a call gives. -/
def needsCall (flags : MethodFlags) : Bool :=
  flags.needArguments || flags.needRest || flags.needActivation || flags.setDxns

/-- The depth of the scope stack before the node at a place in a block. -/
def depthAt (f : Func) (b : BlockId) (index : Nat) : Nat :=
  ((f.scopeDepth b : Int) - Edit.scopeChanges f ((f.body b).drop index)).toNat

/-- The callee calls itself or the caller. -/
def isRecursive (ctx : Context) (caller : MethodId) (callee : Func) : Bool :=
  callee.nodeIds.any fun v =>
    match (ReceiverCall.ofNode? callee ctx.pool v).bind fun c => c.target? ctx.env callee.method with
    | some target => target == caller || target == callee.method
    | none => false

/-- The callee returns somewhere. -/
def returns (callee : Func) : Bool :=
  callee.blockIds.any fun b => match (callee.block? b).map (·.terminator) with
    | some (Terminator.leave _) => true
    | _ => false

/-- The callee may stand in place of the call, as far as one can tell without its calls. -/
def fits (ctx : Context) (f : Func) (call : ReceiverCall) (callee : Func) : Bool :=
  decide (callee.nodeCount ≤ ctx.config.inlineThreshold) && !needsCall callee.flags
    && call.args.length == callee.params && returns callee
    && (callee.handlers.isEmpty || depthAt f call.block call.position == 0)

/-- The callee to expand in place of a call, and what was noticed on the way. -/
def candidate (ctx : Context) (f : Func) (call : ReceiverCall) : Option Func × Report :=
  match call.target? ctx.env f.method with
  | none => (none, {})
  | some target =>
    if target = f.method then (none, {})
    else
      let asked : Report := { callees := [target] }
      match ctx.callee? target with
      | none => (none, asked)
      | some callee =>
        if !fits ctx f call callee then (none, asked)
        else if isRecursive ctx f.method callee then
          (none, { asked with
            events := [{ kind := .info, method := some f.method
                         message := target.text ++ " is recursive, not inlined" }] })
        else (some callee, asked)

/-- A handler or an iteration of the callee sees what registers hold when the callee starts. -/
def readsStale (callee : Func) : Bool :=
  !callee.handlers.isEmpty || callee.nodeIds.any fun v =>
    match callee.kind? v with
    | some (.hasNext2 ..) => true
    | _ => false

/-- Where the parts of a callee went in the caller. -/
structure Placement where
  /-- The first half of the block of the call. -/
  head : BlockId
  /-- The register of the callee's receiver. -/
  base : Nat
  /-- The blocks. -/
  blocks : List (BlockId × BlockId)
  /-- The nodes. -/
  values : List (ValueId × ValueId) := []
deriving DecidableEq, Repr, Inhabited

namespace Placement

/-- The operand with its register and its node replaced. -/
def value (p : Placement) (v : Value) : Value :=
  (v.mapRegister (· + p.base)).mapNode fun id => (p.values.lookup id).getD id

/-- The input of a phi with everything replaced. -/
def input (p : Placement) (i : PhiInput) : PhiInput :=
  { i with source := (p.blocks.lookup i.source).getD p.head }

/-- What a copied node does, with everything replaced. -/
def kind (p : Placement) (k : NodeKind) : NodeKind :=
  let k := (k.remapRegisters (· + p.base)).mapOperands
    (Value.mapNode fun id => (p.values.lookup id).getD id)
  match k with
  | .phi inputs => .phi (inputs.map p.input)
  | k => k

/-- The terminator with everything replaced. -/
def terminator (p : Placement) (t : Terminator) : Terminator :=
  (t.mapOperands p.value).mapTargets fun b => (p.blocks.lookup b).getD b

/-- The handler with its block replaced. -/
def handler (p : Placement) (c : Catch) : Catch :=
  { c with target := (p.blocks.lookup c.target).getD c.target }

end Placement

/-- Makes a block for each of the given blocks. -/
def addBlocks : List BlockId → Edit (List (BlockId × BlockId))
  | [] => return []
  | b :: rest => do
    let new ← Edit.addBlock
    return (b, new) :: (← addBlocks rest)

/-- Copies nodes of the callee to a block, as they are. -/
def copyNodes (callee : Func) (target : BlockId) : List ValueId → Edit (List (ValueId × ValueId))
  | [] => return []
  | v :: rest => do
    match callee.kind? v with
    | none | some (.debug _) => copyNodes callee target rest
    | some kind =>
      let new ← Edit.appendNode target kind
      return (v, new) :: (← copyNodes callee target rest)

/-- Copies the nodes of the given blocks of the callee, as they are. -/
def copyBodies (callee : Func) : List (BlockId × BlockId) → Edit (List (ValueId × ValueId))
  | [] => return []
  | (b, target) :: rest => do
    let here ← copyNodes callee target (((callee.block? b).map Block.nodeIds).getD [])
    return here ++ (← copyBodies callee rest)

/-- Adds handlers. -/
def addHandlers : List Catch → Edit Unit
  | [] => return ()
  | c :: rest => do
    let _ ← Edit.addHandler c
    addHandlers rest

/-- Gives copied blocks the handlers of the callee and then those around the call, and the depth of
the scope stack. -/
def coverBlocks (callee : Func) (head : BlockId) (first depth : Nat) (outer : List Nat) :
    List (BlockId × BlockId) → Edit Unit
  | [] => return ()
  | (b, target) :: rest => do
    if target != head then
      Edit.modifyBlock target fun t => { t with scopeDepth := callee.scopeDepth b + depth }
      Edit.setHandlers target ((callee.handlersOf b).map (first + ·) ++ outer)
    coverBlocks callee head first depth outer rest

/-- Ends copied blocks as the callee does, and gives those that return, with what they return. -/
def endBlocks (callee : Func) (p : Placement) (depth : Nat) :
    List (BlockId × BlockId) → Edit (List (BlockId × Value))
  | [] => return []
  | (b, target) :: rest => do
    match ((callee.block? b).map (·.terminator)).map p.terminator with
    | none => endBlocks callee p depth rest
    | some (.leave value) =>
      TailCall.popScopes target (callee.scopeDepth b)
      Edit.modifyBlock target fun t => { t with scopeDepth := depth }
      return (target, value.getD (.const .undefined)) :: (← endBlocks callee p depth rest)
    | some t =>
      Edit.setTerminator target t
      endBlocks callee p depth rest

/-- Merges what the callee returns in place of the result of the call, if that is used. -/
def mergeResults (call : ValueId) (tail : BlockId) (results : List (BlockId × Value)) :
    Edit Unit := do
  if (← get).isUsed call then
    let inputs := results.map fun r => { value := r.2, source := r.1, kind := .jump }
    let phi ← Edit.appendNode tail (.phi inputs)
    modify fun f => f.replaceUses call (.node phi)

/-- Makes blocks jump to a block. -/
def jumpAll (tail : BlockId) : List BlockId → Edit Unit
  | [] => return ()
  | b :: rest => do
    Edit.setTerminator b (.jump tail)
    jumpAll tail rest

/-- What the callee's registers are set to before it starts. -/
def initialStores (call : ReceiverCall) (callee : Func) (base : Nat) : List (Nat × Value) :=
  let args := (call.receiver :: call.args).mapIdx fun i v => (base + i, v)
  let stale := if readsStale callee then TailCall.resets callee else []
  args ++ stale.map fun r => (base + r, .const .undefined)

/-- Expands a callee in place of a call, and gives the second half of the block of the call. -/
def expand (call : ReceiverCall) (callee : Func) : Edit BlockId := do
  let head := call.block
  let tail ← Edit.splitBlock head call.position
  let depth := (← get).scopeDepth head
  let outer := (← get).handlersOf head
  let base ← Edit.reserveRegisters callee.locals
  TailCall.storeAll head (initialStores call callee base)
  let inner := callee.blockIds.filter fun b => b != Func.entry && b != Func.exit
  let blocks := (Func.entry, head) :: (← addBlocks inner)
  let values ← copyBodies callee blocks
  let p : Placement := { head, base, blocks, values }
  modify fun f => values.foldl (fun f e => f.modifyKind e.2 p.kind) f
  let first := (← get).handlers.length
  addHandlers (callee.handlers.map p.handler)
  coverBlocks callee head first depth outer blocks
  let results ← endBlocks callee p depth blocks
  mergeResults call.id tail results
  jumpAll tail (results.map (·.1))
  let _ ← Edit.removeNode call.id
  modify fun f => f.removeTrivialPhis.1
  return tail

/-- Expands the callees of the given calls. -/
def expandAll (ctx : Context) : List ValueId → Report → Edit Report
  | [], report => return report
  | v :: rest, report => do
    match ReceiverCall.ofNode? (← get) ctx.pool v with
    | none => expandAll ctx rest report
    | some call =>
      let (found, noticed) := candidate ctx (← get) call
      match found with
      | none => expandAll ctx rest (report.andThen noticed)
      | some callee =>
        let tail ← expand call callee
        let message := "inlined " ++ MethodId.text callee.method ++ s!" ({callee.nodeCount} nodes) at "
          ++ v.text ++ ", continuing in " ++ tail.text
        let event : Event :=
          { kind := .methodInlined, method := some ctx.method, location := some v, message }
        expandAll ctx rest ((report.andThen noticed).andThen (.event event))

/-- Expands callees in place. -/
def pass : Pass where
  name := "inlining"
  description := "Expands small statically bound callees in place"
  run ctx := do
    let report ← expandAll ctx (← get).nodeIds {}
    return report.noticedFirst

end Avm.Opt.Inlining
