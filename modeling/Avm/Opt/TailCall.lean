import Avm.Opt.CallSite

/-!
# Tail calls

Turns a call of a method to itself, whose result the method returns, into a jump to the start.  The
jump sets the parameters to the arguments, sets the other registers that the method sets to undefined
again, and leaves the scopes.
-/

namespace Avm.Opt.TailCall

open Avm.Ir

/-- The call at the end of a block by which the method calls itself and returns the result. -/
def selfCall? (f : Func) (ctx : Context) (b : BlockId) : Option ReceiverCall := do
  let block ← f.block? b
  guard block.isUnprotected
  match block.terminator with
  | .leave (some (.node result)) =>
    guard (block.body.getLast? = some result)
    guard (f.useCount result = 1)
    let call ← ReceiverCall.ofNode? f ctx.pool result
    guard (call.onReceiver ∧ call.args.length = f.params)
    guard (call.target? ctx.env f.method = some f.method)
    return call
  | _ => none

/-- The registers above the arguments that the method sets. -/
def resets (f : Func) : List Nat :=
  Ascending.ofList (f.writtenRegisters.filter (argumentRegisters f.params f.flags ≤ ·))

/-- Copies arguments that read a register about to be set, from a place in a block on. -/
def saveArgs (b : BlockId) (targets : List Nat) : Nat → List Value → Edit (List Value)
  | _, [] => return []
  | position, v :: rest => do
    if ((← get).registersRead v).any targets.contains then
      let copy ← Edit.insertNode b position (.copy v)
      return .node copy :: (← saveArgs b targets (position + 1) rest)
    else return v :: (← saveArgs b targets position rest)

/-- Sets registers at the end of a block. -/
def storeAll (b : BlockId) : List (Nat × Value) → Edit Unit
  | [] => return ()
  | (r, v) :: rest => do
    let _ ← Edit.appendNode b (.store r v)
    storeAll b rest

/-- Leaves a number of scopes at the end of a block. -/
def popScopes (b : BlockId) : Nat → Edit Unit
  | 0 => return ()
  | n + 1 => do
    let _ ← Edit.appendNode b (.scope .pop none)
    popScopes b n

/-- The block to which a method that calls itself jumps.  Its entry is entered only once, so what the
first block merges has to be merged on the edge from the entry. -/
def start : Edit BlockId := do
  let f ← get
  match f.succs Func.entry with
  | [] => throw (.emit (.noEntrySuccessor f.method))
  | (first, _) :: _ =>
    if (f.phis first).isEmpty then return first
    else Edit.splitEdge Func.entry first .fallthrough

/-- Turns a call into a jump, and gives the block to which it jumps. -/
def eliminate (call : ReceiverCall) : Edit BlockId := do
  let f ← get
  let resets := resets f
  let params := (List.range f.params).map (· + 1)
  let args ← saveArgs call.block (params ++ resets) call.position call.args
  let _ ← Edit.removeNode call.id
  storeAll call.block (params.zip args)
  storeAll call.block (resets.map fun r => (r, .const .undefined))
  popScopes call.block ((← get).scopeDepth call.block)
  Edit.modifyBlock call.block fun b => { b with scopeDepth := 0 }
  let target ← start
  Edit.setTerminator call.block (.jump target)
  return target

/-- Turns the self calls at the ends of blocks into jumps. -/
def eliminateAll (ctx : Context) : List BlockId → Report → Edit Report
  | [], report => return report
  | b :: rest, report => do
    match selfCall? (← get) ctx b with
    | none => eliminateAll ctx rest report
    | some call =>
      let target ← eliminate call
      eliminateAll ctx rest (report.andThen (.event
        { kind := .tailCallEliminated, method := some ctx.method, location := some call.id
          message := "self call " ++ call.id.text ++ " in " ++ b.text ++ " now jumps to "
            ++ target.text }))

/-- Turns self calls into jumps. -/
def pass : Pass where
  name := "tail-recursion"
  description := "Turns self tail calls into jumps to the start of the method"
  applies f := !(f.flags.needArguments || f.flags.needRest)
  run ctx := do eliminateAll ctx (← get).blockIds {}

end Avm.Opt.TailCall
