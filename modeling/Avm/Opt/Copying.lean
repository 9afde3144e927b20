import Avm.Opt.Context
import Avm.Opt.Liveness

/-!
# Copy propagation

Replaces readings of registers by the values that were stored there, and removes stores that no
reading sees.  A reading may be replaced where every way to it passes the store and neither the
register nor anything that the value reads is set in between.  A store is seen if its register is
live behind it; handlers may look at registers between any two nodes of the blocks that they cover.
-/

namespace Avm.Opt.Copying

open Avm.Ir

/-- The values that registers are known to hold. -/
abbrev Stores := List (Nat × Value)

/-- The value in place of a reading of a register whose content is known; any other value stays. -/
def forwardValue (stores : Stores) (v : Value) : Value :=
  match v with
  | .reg register _ => (stores.lookup register).getD v
  | _ => v

/-- The value is a reading of a register whose content is known. -/
def isForwarded (stores : Stores) (v : Value) : Bool :=
  (v.register?.bind fun r => stores.lookup r).isSome

/-- What is known behind a node that sets the given registers. -/
def forget (f : Func) (registers : List Nat) (stores : Stores) : Stores :=
  registers.foldl (fun stores r =>
    stores.filter fun e => !f.readsRegister e.2 r && e.1 != r) stores

/-- What is known behind a node. -/
def learn (f : Func) (kind : NodeKind) (stores : Stores) : Stores :=
  let stores := forget f kind.written stores
  match kind with
  | .store register value =>
    if f.readsRegister value register then stores
    else (register, value) :: stores.filter (·.1 != register)
  | _ => stores

/-- Forwards known values to the operands of the nodes of a block, and counts them. -/
def forwardBody : List ValueId → Func → Stores → Nat → Func × Stores × Nat
  | [], f, stores, n => (f, stores, n)
  | v :: rest, f, stores, n =>
    match f.kind? v with
    | none => forwardBody rest f stores n
    | some kind =>
      let f := f.modifyKind v (NodeKind.mapOperands (forwardValue stores))
      let n := n + kind.operands.countP (isForwarded stores)
      forwardBody rest f (learn f (kind.mapOperands (forwardValue stores)) stores) n

/-- Forwards known values to the operands of the terminator of a block, and counts them. -/
def forwardEnd (f : Func) (b : BlockId) (stores : Stores) : Func × Nat :=
  match f.block? b with
  | none => (f, 0)
  | some block =>
    let n := block.terminator.operands.countP (isForwarded stores)
    if n = 0 then (f, 0)
    else match (Edit.setTerminator b (block.terminator.mapOperands (forwardValue stores))).run f with
      | .ok _ f => (f, n)
      | .error _ f => (f, 0)

/-- What is known at the end of each block. -/
abbrev OutStores := Array Stores

/-- What is known at the end of a block. -/
def OutStores.at (out : OutStores) (b : BlockId) : Stores := out[b]?.getD []

/-- What is known at the start of a block: what is known at the end of its only predecessor. -/
def inStores (f : Func) (out : OutStores) (b : BlockId) : Stores :=
  match f.preds b with
  | [(pred, kind)] => if kind = .raise then [] else OutStores.at out pred
  | _ => []

/-- Forwards known values in the given blocks, and counts them. -/
def forwardBlocks : List BlockId → Func → OutStores → Nat → Func × OutStores × Nat
  | [], f, out, n => (f, out, n)
  | b :: rest, f, out, n =>
    let (f, stores, n) := forwardBody (f.body b) f (inStores f out b) n
    let (f, more) := forwardEnd f b stores
    forwardBlocks rest f (out.setIfInBounds b stores) (n + more)

/-- The value of a phi input, with a known value forwarded from the end of the block it comes from. -/
def forwardInput (out : OutStores) (i : PhiInput) : PhiInput :=
  if i.kind = .raise then i
  else { i with value := forwardValue (OutStores.at out i.source) i.value }

/-- A known value is forwarded to the phi input. -/
def isForwardedInput (out : OutStores) (i : PhiInput) : Bool :=
  i.kind != .raise && isForwarded (OutStores.at out i.source) i.value

/-- Forwards known values to the phis of blocks, and counts them. -/
def forwardPhis (out : OutStores) (acc : Func × Nat) (v : ValueId) : Func × Nat :=
  match acc.1.inputs? v with
  | none => acc
  | some inputs =>
    (acc.1.modifyInputs v (List.map (forwardInput out)),
      acc.2 + inputs.countP (isForwardedInput out))

/-- Forwards known values to the readings of registers, and counts them. -/
def forward (f : Func) : Func × Nat :=
  let order := f.reversePostorder Func.entry
  let (f, out, n) := forwardBlocks order f (Array.replicate f.blocks.size []) 0
  (order.flatMap f.phis).foldl (forwardPhis out) (f, n)

/-- The node is a store to a register that is not among those that are live behind it. -/
def isDeadStore (f : Func) (e : ValueId × List Nat) : Bool :=
  match f.kind? e.1 with
  | some (.store register _) => !e.2.contains register
  | _ => false

/-- The stores that no reading sees. -/
def deadStores (f : Func) : List ValueId :=
  let blocks := Liveness.accesses f
  let l := Liveness.of f blocks
  blocks.flatMap fun b => ((Liveness.nodes l b.2).filter (isDeadStore f)).map (·.1)

/-- Removes the stores that no reading sees, and counts them. -/
def removeDeadStores (f : Func) : Func × Nat :=
  let dead := deadStores f
  (dead.foldl Func.dropNode f, dead.length)

/-- Forwards and removes once. -/
def once (method : MethodId) (f : Func) : Func × Report :=
  let (f, forwarded) := forward f
  let (f, stores) := removeDeadStores f
  let (f, copies) := f.removeRedundantCopies
  let (f, nodes) := f.removeDeadNodes
  (f, (Report.counted forwarded .copyPropagated method
      s!"forwarded {forwarded} register reads").andThen
    (Report.counted (stores + copies + nodes) .nodeRemoved method
      s!"removed {stores} dead stores, {copies} copies and {nodes} unused nodes"))

/-- Forwards and removes until nothing changes, at most `fuel` times. -/
def loop (method : MethodId) : Nat → Func → Report → Func × Report
  | 0, f, report => (f, report)
  | fuel + 1, f, report =>
    let (f, more) := once method f
    if more.changed then loop method fuel f (report.andThen more) else (f, report)

/-- Propagates copies. -/
def pass : Pass where
  name := "copy-propagation"
  description := "Forwards stored register values to their reads and removes dead stores"
  run ctx := do
    let (f, report) := loop ctx.method 100 (← get) {}
    set f
    return report

end Avm.Opt.Copying
