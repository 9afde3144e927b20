import Avm.Code
import Avm.Wire

/-!
# Decoding

Bytes become instructions in two steps.  First the bytes are cut into instructions whose branch
targets are byte offsets.  Then each offset becomes a marker of the instruction that starts there;
an offset at which none starts is a fault.  Branch offsets count from the end of the branch, switch
offsets from the start of the switch.
-/

namespace Avm

namespace Decode

/-- The byte offset that a relative offset leads to. -/
def target (length start base : Nat) (relative : Int) : Except Fault Nat :=
  let t : Int := base + relative
  if t < 0 ∨ (length : Int) < t then .error (.codec start (.targetOutside t length))
  else .ok t.toNat

/-- The result of a reader inside the instruction at `start`. -/
def need {α : Type} (start : Nat) : Option α → Except Fault α
  | some a => .ok a
  | none => .error (.codec start (.truncated start))

/-- Reads a number of case offsets. -/
def cases (length start : Nat) : Nat → List UInt8 → Except Fault (List Nat × List UInt8)
  | 0, bytes => .ok ([], bytes)
  | n + 1, bytes => do
    let (relative, bytes) ← need start (Wire.readS24 bytes)
    let t ← target length start start relative
    let (ts, bytes) ← cases length start n bytes
    return (t :: ts, bytes)

/-- Reads the operands of the instruction at `start`. -/
def operands (length start : Nat) (layout : Layout) (bytes : List UInt8) :
    Except Fault (Operands Nat × List UInt8) :=
  match layout with
  | .none => .ok (.none, bytes)
  | .byte => do
    let (value, bytes) ← need start (Wire.readU8 bytes)
    return (.byte value, bytes)
  | .index => do
    let (value, bytes) ← need start (Wire.readU30 bytes)
    return (.index value, bytes)
  | .pair => do
    let (first, bytes) ← need start (Wire.readU30 bytes)
    let (second, bytes) ← need start (Wire.readU30 bytes)
    return (.pair first second, bytes)
  | .branch => do
    let (relative, bytes) ← need start (Wire.readS24 bytes)
    let t ← target length start (start + 4) relative
    return (.branch t, bytes)
  | .switch => do
    let (relative, bytes) ← need start (Wire.readS24 bytes)
    let default ← target length start start relative
    let (count, bytes) ← need start (Wire.readU30 bytes)
    if length ≤ count then
      throw (.codec start (.tooManyCases count length))
    let (ts, bytes) ← cases length start (count + 1) bytes
    return (.switch default ts, bytes)
  | .debug => do
    let (kind, bytes) ← need start (Wire.readU8 bytes)
    let (name, bytes) ← need start (Wire.readU30 bytes)
    let (register, bytes) ← need start (Wire.readU8 bytes)
    let (extra, bytes) ← need start (Wire.readU30 bytes)
    return (.debug kind name register extra, bytes)

/-- Reads the instruction at `start` in code of the given length. -/
def instruction (length start : Nat) (bytes : List UInt8) :
    Except Fault (Instruction Nat × List UInt8) := do
  let (byte, bytes) ← need start (Wire.readU8 bytes)
  match Opcode.ofByte? byte with
  | none => throw (.codec start (.unknownOpcode byte))
  | some opcode =>
    let (ops, bytes) ← operands length start opcode.layout bytes
    return (⟨opcode, ops⟩, bytes)

/-- Cuts at most `fuel` instructions off the bytes from `start` on, each with its offset. -/
def instructions (length : Nat) : Nat → List UInt8 → Except Fault (List (Nat × Instruction Nat))
  | 0, _ => .ok []
  | _, [] => .ok []
  | fuel + 1, bytes => do
    let start := length - bytes.length
    let (i, rest) ← instruction length start bytes
    let is ← instructions length fuel rest
    return ((start, i) :: is)

/-- Gives every branch target of an instruction its marker. -/
def markTargets (t : MarkerTable) (ops : Operands Nat) : MarkerTable × Operands Marker :=
  match ops with
  | .branch target =>
    let (t, m) := t.markOffset target
    (t, .branch m)
  | .switch default cases =>
    let (t, d) := t.markOffset default
    let (t, ms) := cases.foldl (fun (t, ms) c =>
      let (t, m) := MarkerTable.markOffset t c
      (t, ms ++ [m])) (t, [])
    (t, .switch d ms)
  | .none => (t, .none)
  | .byte value => (t, .byte value)
  | .index value => (t, .index value)
  | .pair first second => (t, .pair first second)
  | .debug kind name register extra => (t, .debug kind name register extra)

/-- Adds an instruction with offsets for targets to code. -/
def addInstr (c : Code) (i : Instruction Nat) : Code :=
  let (markers, ops) := markTargets c.markers i.operands
  ({ c with markers := markers }.push ⟨i.opcode, ops⟩).1

/-- Adds a handler with offsets for places to code of the given length. -/
def addHandler (length : Nat) (c : Code) (h : Handler Nat) : Except Fault Code := do
  for offset in [h.start, h.stop, h.target] do
    if length < offset then
      throw (.codec offset (.handlerOutside offset))
  let (markers, start) := c.markers.markOffset h.start
  let (markers, stop) := markers.markOffset h.stop
  let (markers, target) := markers.markOffset h.target
  return { c with
    markers := markers
    handlers := c.handlers ++ [⟨start, stop, target, h.excType, h.varName⟩] }

end Decode

/-- The instructions that bytes encode, with exception handlers given by byte offsets. -/
def Code.decode (bytes : List UInt8) (exceptions : List (Handler Nat)) : Except Fault Code := do
  let length := bytes.length
  if 0x100000000 ≤ length then
    throw (.codec 0 (.codeTooLarge length))
  let is ← Decode.instructions length length bytes
  let code := is.foldl (fun c e => Decode.addInstr c e.2) ({} : Code)
  let code ← exceptions.foldlM (Decode.addHandler length) code
  match code.markers.prepare (is.mapIdx fun id e => (e.1, id)) length with
  | (_, some fault) => throw fault
  | (markers, none) => return { code with markers := markers }

end Avm
