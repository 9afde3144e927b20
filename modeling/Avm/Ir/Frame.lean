import Avm.Ir.Value

/-!
# Frames

The operand stack, the scope stack and the registers of a method while its instructions are
followed, each slot with the value that it holds.  Both stacks are listed from the bottom up.
-/

namespace Avm.Ir

/-- What the stacks and registers hold. -/
structure Frame where
  /-- The operand stack, bottom first. -/
  stack : List Value := []
  /-- The scope stack, bottom first. -/
  scope : List Value := []
  /-- The registers. -/
  locals : List Value := []
deriving DecidableEq, Repr, Inhabited

namespace Frame

/-- Puts a value onto the operand stack. -/
def push (f : Frame) (v : Value) : Frame := { f with stack := f.stack ++ [v] }

/-- Takes the top of the operand stack. -/
def pop (f : Frame) : Except Fault (Value × Frame) :=
  match f.stack.getLast? with
  | some v => .ok (v, { f with stack := f.stack.dropLast })
  | none => .error (.frame .underflow)

/-- Takes several values off the operand stack, bottom first. -/
def popN (f : Frame) (n : Nat) : Except Fault (List Value × Frame) :=
  if f.stack.length < n then .error (.frame (.tooShort n f.stack.length))
  else
    let keep := f.stack.length - n
    .ok (f.stack.drop keep, { f with stack := f.stack.take keep })

/-- The top of the operand stack. -/
def peek (f : Frame) : Except Fault Value :=
  match f.stack.getLast? with
  | some v => .ok v
  | none => .error (.frame .underflow)

/-- The value of a register. -/
def getLocal (f : Frame) (r : Nat) : Except Fault Value :=
  match f.locals[r]? with
  | some v => .ok v
  | none => .error (.frame (.noRegister r))

/-- Sets the value of a register. -/
def setLocal (f : Frame) (r : Nat) (v : Value) : Except Fault Frame :=
  if r < f.locals.length then .ok { f with locals := f.locals.set r v }
  else .error (.frame (.noRegister r))

/-- All slots: the operand stack, the scope stack and the registers. -/
def slots (f : Frame) : List Value := f.stack ++ f.scope ++ f.locals

/-- The frame of the same shape with other slots. -/
def withSlots (f : Frame) (vs : List Value) : Frame where
  stack := vs.take f.stack.length
  scope := (vs.drop f.stack.length).take f.scope.length
  locals := vs.drop (f.stack.length + f.scope.length)

end Frame

end Avm.Ir
