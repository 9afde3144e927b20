import Avm.Opt.Context

/-!
# Calls on a receiver

A call whose receiver and arguments are all operands, so that it can be replaced by code that does
what the callee does.
-/

namespace Avm.Opt

open Avm.Ir

/-- A call that has a receiver and takes nothing else from the stack but its arguments. -/
structure ReceiverCall where
  /-- The node that calls. -/
  id : ValueId
  /-- The block of the node. -/
  block : BlockId
  /-- The place of the node in its block. -/
  position : Nat
  /-- How the callee is named. -/
  dispatch : Dispatch
  /-- The receiver. -/
  receiver : Value
  /-- The arguments. -/
  args : List Value
  /-- The receiver is that of the method that calls. -/
  onReceiver : Bool
deriving DecidableEq, Repr, Inhabited

namespace ReceiverCall

/-- How a call names its callee.  A name of which a part is known only when the call is made does
not count. -/
def dispatch? (pool : Pool) (opcode : Opcode) (index : Nat) : Option Dispatch :=
  match opcode with
  | .callProperty | .callPropLex | .callPropVoid =>
    if pool.runtimeArity? index = some 0 then some (.property index) else none
  | .callMethod => some (.method index)
  | .callStatic => some (.static index)
  | _ => none

/-- The operand is the receiver that the method was called on. -/
def isOwnReceiver (f : Func) (v : Value) : Bool :=
  v.register? == some 0 && !f.registerWrites.contains 0

/-- A node as a call on a receiver. -/
def ofNode? (f : Func) (pool : Pool) (v : ValueId) : Option ReceiverCall := do
  let node ← f.node? v
  match node.kind with
  | .call opcode index argCount operands =>
    let dispatch ← dispatch? pool opcode index
    match operands with
    | [] => none
    | receiver :: args =>
      guard (args.length = argCount)
      let position ← (← f.block? node.block).body.findIdx? (· == v)
      return { id := v, block := node.block, position, dispatch, receiver, args
               onReceiver := isOwnReceiver f receiver }
  | _ => none

/-- The method that the call always reaches, made by the given method. -/
def target? (c : ReceiverCall) (env : Environment) (caller : MethodId) : Option MethodId :=
  let site : CallSite :=
    { caller := caller, dispatch := c.dispatch, onReceiver := c.onReceiver
      argCount := c.args.length }
  ((env.resolveCall site).filter (·.binding.isStatic)).map (·.method)

end ReceiverCall

end Avm.Opt
