import Avm.Code
import Avm.Wire

/-!
# Encoding

Instructions become bytes in three steps: every instruction is checked and measured, which gives
the byte offset at which each one starts; then markers become offsets; then each instruction is
written, with its targets relative to its own place.
-/

namespace Avm

/-- Code as bytes, with exception handlers given by byte offsets. -/
structure EncodedCode where
  /-- The bytes of the instructions. -/
  bytes : List UInt8
  /-- The exception handlers. -/
  exceptions : List (Handler Nat)
deriving DecidableEq, Repr, Inhabited

namespace Encode

/-- An index has at most thirty bits. -/
def checkIndex (position : Nat) (opcode : Opcode) (value : Nat) : Except Fault Unit :=
  if u30Bound ≤ value then .error (.codec position (.operandTooLarge value opcode)) else .ok ()

/-- The instruction at a position has an encoding, apart from its targets. -/
def check (position : Nat) (i : Instruction Marker) : Except Fault Unit :=
  if i.operands.layout ≠ i.opcode.layout then
    .error (.codec position (.operandShape i.opcode i.operands.layout))
  else match i.operands with
    | .index value => checkIndex position i.opcode value
    | .pair first second => do
      checkIndex position i.opcode first
      checkIndex position i.opcode second
    | .switch _ cases =>
      if cases.isEmpty then .error (.codec position .noCases)
      else checkIndex position i.opcode (cases.length - 1)
    | .debug _ name _ extra => do
      checkIndex position i.opcode name
      checkIndex position i.opcode extra
    | _ => .ok ()

/-- The number of bytes that operands take. -/
def operandSize {α : Type} : Operands α → Nat
  | .none => 0
  | .byte _ => 1
  | .index value => Wire.u30Length value
  | .pair first second => Wire.u30Length first + Wire.u30Length second
  | .branch _ => 3
  | .switch _ cases => 3 + Wire.u30Length (cases.length - 1) + 3 * cases.length
  | .debug _ name _ extra => 2 + Wire.u30Length name + Wire.u30Length extra

/-- The number of bytes that an instruction takes. -/
def size {α : Type} (i : Instruction α) : Nat := 1 + operandSize i.operands

/-- The offsets at which instructions start, the first one at `start`. -/
def starts {α : Type} : Nat → List (InstrId × Instruction α) → List (InstrId × Nat)
  | _, [] => []
  | start, (id, i) :: rest => (id, start) :: starts (start + size i) rest

/-- The offset of a marker in code whose instructions start at the given offsets. -/
def offset? (c : Code) (offsets : List (InstrId × Nat)) (length : Nat) (m : Marker) : Option Nat :=
  match c.markers.target? m with
  | some (.instr id) => offsets.lookup id
  | some .codeEnd => some length
  | none => none

/-- The offset of a branch target, which has to be near enough to `base`. -/
def relocate (c : Code) (offset? : Marker → Option Nat) (field base : Nat) (m : Marker) :
    Except Fault Nat :=
  match offset? m with
  | none => .error (.relocation (.unresolvedBranch m) c.dump)
  | some t =>
    let distance : Int := (t : Int) - base
    if fitsS24 distance then .ok t
    else .error (.relocation (.tooFar m field distance) c.dump)

/-- The instruction at a byte offset, with offsets for its targets. -/
def relocateInstr (c : Code) (offset? : Marker → Option Nat) (start : Nat)
    (i : Instruction Marker) : Except Fault (Instruction Nat) :=
  match i.operands with
  | .branch m => do
    let t ← relocate c offset? (start + 1) (start + 4) m
    return ⟨i.opcode, .branch t⟩
  | .switch default cases => do
    let d ← relocate c offset? (start + 1) start default
    let first := start + 4 + Wire.u30Length (cases.length - 1)
    let ts ← (cases.mapIdx fun k m => (first + 3 * k, m)).mapM fun e =>
      relocate c offset? e.1 start e.2
    return ⟨i.opcode, .switch d ts⟩
  | _ => .ok (i.map fun _ => 0)

/-- The bytes of the operands of an instruction that starts at a byte offset. -/
def operandBytes (start : Nat) : Operands Nat → List UInt8
  | .none => []
  | .byte value => [value]
  | .index value => Wire.writeU30 value
  | .pair first second => Wire.writeU30 first ++ Wire.writeU30 second
  | .branch t => Wire.writeS24 ((t : Int) - (start + 4 : Nat))
  | .switch default cases =>
    Wire.writeS24 ((default : Int) - start) ++ Wire.writeU30 (cases.length - 1)
      ++ cases.flatMap fun (t : Nat) => Wire.writeS24 ((t : Int) - start)
  | .debug kind name register extra =>
    [kind] ++ Wire.writeU30 name ++ [register] ++ Wire.writeU30 extra

/-- The bytes of an instruction that starts at a byte offset. -/
def bytes (start : Nat) (i : Instruction Nat) : List UInt8 :=
  i.opcode.byte :: operandBytes start i.operands

/-- The offset of a place that a handler names. -/
def handlerOffset (c : Code) (offset? : Marker → Option Nat) (m : Marker) : Except Fault Nat :=
  match offset? m with
  | some t => .ok t
  | none => .error (.relocation (.unresolvedHandler m) c.dump)

/-- A handler with offsets for its places. -/
def handler (c : Code) (offset? : Marker → Option Nat) (h : Handler Marker) :
    Except Fault (Handler Nat) := do
  let start ← handlerOffset c offset? h.start
  let stop ← handlerOffset c offset? h.stop
  let target ← handlerOffset c offset? h.target
  return ⟨start, stop, target, h.excType, h.varName⟩

end Encode

/-- The bytes of code, and its exception handlers by byte offsets. -/
def Code.encode (c : Code) : Except Fault EncodedCode := do
  (c.instrs.mapIdx fun position e => (position, e.2)).forM fun e => Encode.check e.1 e.2
  let offsets := Encode.starts 0 c.instrs
  let length := c.instrs.foldl (fun n e => n + Encode.size e.2) 0
  let offset? := Encode.offset? c offsets length
  let is ← (c.instrs.zip offsets).mapM fun (e, o) => do
    let i ← Encode.relocateInstr c offset? o.2 e.2
    return (o.2, i)
  let exceptions ← c.handlers.mapM (Encode.handler c offset?)
  return ⟨is.flatMap fun e => Encode.bytes e.1 e.2, exceptions⟩

end Avm
