import Avm.Opcode

/-!
# Instructions

An instruction is an opcode with its operands.  Branch targets are of a type of their own: markers
while code is edited, positions in a listing with all targets resolved.  The operands need not suit
the opcode; whoever needs that asks for it.
-/

namespace Avm

/-- A name for a place in code that stays good while the code is edited. -/
abbrev Marker := Nat

/-- The number of a register. -/
abbrev Register := Nat

/-- The operands of an instruction with branch targets of type `α`. -/
inductive Operands (α : Type) where
  /-- No operands. -/
  | none
  /-- One byte. -/
  | byte (value : UInt8)
  /-- One index. -/
  | index (value : Nat)
  /-- Two indices. -/
  | pair (first second : Nat)
  /-- One branch target. -/
  | branch (target : α)
  /-- The targets of a switch. -/
  | switch (default : α) (cases : List α)
  /-- A debug record. -/
  | debug (kind : UInt8) (name : Nat) (register : UInt8) (extra : Nat)
deriving DecidableEq, Repr, Inhabited

namespace Operands

variable {α β : Type}

/-- The shape of the operands. -/
def layout : Operands α → Layout
  | none => .none
  | byte _ => .byte
  | index _ => .index
  | pair .. => .pair
  | branch _ => .branch
  | switch .. => .switch
  | debug .. => .debug

/-- The operands with their branch targets replaced. -/
def map (f : α → β) : Operands α → Operands β
  | none => none
  | byte value => byte value
  | index value => index value
  | pair first second => pair first second
  | branch target => branch (f target)
  | switch default cases => switch (f default) (cases.map f)
  | debug kind name register extra => debug kind name register extra

/-- The branch targets; the default of a switch comes first. -/
def targets : Operands α → List α
  | branch target => [target]
  | switch default cases => default :: cases
  | _ => []

/-- The operands in listings, where `label` shows a branch target. -/
def text (label : α → String) : Operands α → String
  | none => ""
  | byte value => s!" {value.toNat}"
  | index value => s!" {value}"
  | pair first second => s!" {first}, {second}"
  | branch target => " " ++ label target
  | switch default cases =>
    " " ++ label default ++ ", [" ++ ", ".intercalate (cases.map label) ++ "]"
  | debug kind name register extra => s!" {kind.toNat}, {name}, {register.toNat}, {extra}"

end Operands

/-- An opcode with its operands. -/
structure Instruction (α : Type) where
  /-- The operation. -/
  opcode : Opcode
  /-- What it works on besides the stacks. -/
  operands : Operands α := .none
deriving DecidableEq, Repr, Inhabited

/-- How a marker is shown. -/
def Marker.text (m : Marker) : String := s!"L{m}"

namespace Instruction

variable {α : Type}

/-- An instruction with one index. -/
def withIndex (opcode : Opcode) (index : Nat) : Instruction α := ⟨opcode, .index index⟩

/-- An instruction with two indices. -/
def withPair (opcode : Opcode) (first second : Nat) : Instruction α := ⟨opcode, .pair first second⟩

/-- An instruction with one byte. -/
def withByte (opcode : Opcode) (value : UInt8) : Instruction α := ⟨opcode, .byte value⟩

/-- A branch. -/
def branch (opcode : Opcode) (target : α) : Instruction α := ⟨opcode, .branch target⟩

/-- A switch. -/
def switch (default : α) (cases : List α) : Instruction α := ⟨.lookupSwitch, .switch default cases⟩

/-- The shortest instruction that pushes a register. -/
def getLocal : Register → Instruction α
  | 0 => ⟨.getLocal0, .none⟩
  | 1 => ⟨.getLocal1, .none⟩
  | 2 => ⟨.getLocal2, .none⟩
  | 3 => ⟨.getLocal3, .none⟩
  | register => withIndex .getLocal register

/-- The shortest instruction that pops into a register. -/
def setLocal : Register → Instruction α
  | 0 => ⟨.setLocal0, .none⟩
  | 1 => ⟨.setLocal1, .none⟩
  | 2 => ⟨.setLocal2, .none⟩
  | 3 => ⟨.setLocal3, .none⟩
  | register => withIndex .setLocal register

/-- The first index among the operands. -/
def index? (i : Instruction α) : Option Nat :=
  match i.operands with
  | .index index | .pair index _ => some index
  | _ => none

/-- The number of arguments that the instruction takes from the stack. -/
def argCount? (i : Instruction α) : Option Nat :=
  match i.opcode, i.operands with
  | .call, .index n | .construct, .index n | .constructSuper, .index n | .applyType, .index n
  | .newObject, .index n | .newArray, .index n => some n
  | .callMethod, .pair _ n | .callStatic, .pair _ n | .callSuper, .pair _ n
  | .callProperty, .pair _ n | .constructProp, .pair _ n | .callPropLex, .pair _ n
  | .callSuperVoid, .pair _ n | .callPropVoid, .pair _ n => some n
  | _, _ => none

/-- The register that the instruction pushes. -/
def localRead? (i : Instruction α) : Option Register :=
  match i.opcode with
  | .getLocal0 => some 0
  | .getLocal1 => some 1
  | .getLocal2 => some 2
  | .getLocal3 => some 3
  | .getLocal => i.index?
  | _ => none

/-- The register that the instruction pops into. -/
def localWrite? (i : Instruction α) : Option Register :=
  match i.opcode with
  | .setLocal0 => some 0
  | .setLocal1 => some 1
  | .setLocal2 => some 2
  | .setLocal3 => some 3
  | .setLocal => i.index?
  | _ => none

/-- The registers that the instruction names. -/
def registers (i : Instruction α) : List Register :=
  match i.opcode, i.operands with
  | .hasNext2, .pair object index => [object, index]
  | .kill, .index r | .incLocal, .index r | .decLocal, .index r | .incLocalI, .index r
  | .decLocalI, .index r => [r]
  | .debug, .debug _ _ r _ => [r.toNat]
  | _, _ => (i.localRead?.or i.localWrite?).toList

/-- The branch targets of the instruction. -/
def targets (i : Instruction α) : List α := i.operands.targets

/-- The instruction with its branch targets replaced. -/
def map {β : Type} (f : α → β) (i : Instruction α) : Instruction β := ⟨i.opcode, i.operands.map f⟩

/-- The instruction in listings. -/
def text (i : Instruction Marker) : String := i.opcode.mnemonic ++ i.operands.text Marker.text

end Instruction

end Avm
