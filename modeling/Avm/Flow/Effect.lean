import Avm.Method
import Avm.Pool

/-!
# Stack effects

How many values an instruction takes from and puts onto the operand stack, and by how much it
changes the scope stack.  Calls take their arguments besides what the opcode says, and names take
their run-time parts.
-/

namespace Avm

/-- The effect of an instruction on the stacks. -/
structure StackEffect where
  /-- Values taken from the operand stack. -/
  pops : Nat
  /-- Values put onto the operand stack. -/
  pushes : Nat
  /-- Change of the scope stack. -/
  scope : Int
deriving DecidableEq, Repr, Inhabited

/-- The change of the operand stack. -/
def StackEffect.net (e : StackEffect) : Int := (e.pushes : Int) - e.pops

namespace Instruction

variable {α : Type}

/-- The values that the arguments of a call take; an object literal takes a name with each value. -/
def argumentSlots (i : Instruction α) : Nat :=
  match i.argCount? with
  | none => 0
  | some n => if i.opcode = .newObject then min (2 * n) 0xffffffff else n

/-- The values that the run-time parts of the name take. -/
def nameSlots (i : Instruction α) (pool : Pool) : Except Fault Nat :=
  if i.opcode.takesMultiname then
    let index := i.index?.getD 0
    match pool.runtimeArity? index with
    | some n => .ok n
    | none => .error (.flow (.unknownName i.opcode index))
  else .ok 0

/-- The effect of the instruction on the stacks.  The number of values taken is exact, where the sum
of words would wrap around for calls with almost as many arguments as there are words. -/
def effect (i : Instruction α) (pool : Pool) : Except Fault StackEffect := do
  let info := i.opcode.info
  return ⟨info.pops + i.argumentSlots + (← i.nameSlots pool), info.pushes, info.scope⟩

end Instruction

/-- The number of registers that code needs, those of the arguments included. -/
def Code.localCount (c : Code) (params : Nat) (flags : MethodFlags) : Nat :=
  (c.instrs.flatMap fun e => e.2.registers).foldl (fun n r => max n (min (r + 1) 0xffffffff))
    (argumentRegisters params flags)

end Avm
