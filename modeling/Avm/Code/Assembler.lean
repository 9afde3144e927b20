import Avm.Code

/-!
# Assembling

A program is a list of statements in which places have names.  A label may be used before or after
it is placed.  The first fault in a program is kept until its end, where it goes before labels that
were used and never placed.
-/

namespace Avm

/-- A statement of an assembler program. -/
inductive Statement where
  /-- Names the place of the next instruction. -/
  | label (name : String)
  /-- An instruction with names for branch targets. -/
  | instr (i : Instruction String)
  /-- An exception handler with names for places. -/
  | handler (h : Handler String)
deriving DecidableEq, Repr

/-- The state of an assembler between two statements. -/
structure Assembler where
  /-- The instructions so far. -/
  code : Code := {}
  /-- The markers of the names that were mentioned. -/
  labels : List (String × Marker) := []
  /-- The names that were placed. -/
  defined : List String := []
  /-- The markers that wait for the next instruction. -/
  pending : List Marker := []
  /-- The first fault. -/
  fault : Option Fault := none
deriving DecidableEq, Repr, Inhabited

namespace Assembler

/-- The marker of a name, made when the name is first mentioned. -/
def marker (a : Assembler) (name : String) : Assembler × Marker :=
  match a.labels.lookup name with
  | some m => (a, m)
  | none =>
    let (markers, m) := a.code.markers.fresh
    ({ a with code := { a.code with markers := markers }, labels := (name, m) :: a.labels }, m)

/-- The markers of several names, in the order of the names. -/
def markersOf (a : Assembler) : List String → Assembler × List Marker
  | [] => (a, [])
  | name :: rest =>
    let (a, m) := a.marker name
    let (a, ms) := a.markersOf rest
    (a, m :: ms)

/-- Keeps the first fault. -/
def fail (a : Assembler) (fault : Fault) : Assembler := { a with fault := a.fault.or (some fault) }

/-- Appends an instruction, and binds the labels before it. -/
def push (a : Assembler) (i : Instruction Marker) : Assembler :=
  let (code, id) := a.code.push i
  { a with
    code := { code with
      markers := a.pending.foldl (fun t m => t.bind m (.instr id)) code.markers }
    pending := [] }

/-- The operands with markers for names. -/
def operands (a : Assembler) : Operands String → Assembler × Operands Marker
  | .none => (a, .none)
  | .byte value => (a, .byte value)
  | .index value => (a, .index value)
  | .pair first second => (a, .pair first second)
  | .debug kind name register extra => (a, .debug kind name register extra)
  | .branch name =>
    let (a, m) := a.marker name
    (a, .branch m)
  | .switch default cases =>
    let (a, d) := a.marker default
    let (a, ms) := a.markersOf cases
    (a, .switch d ms)

/-- Places a label before the next instruction. -/
def label (a : Assembler) (name : String) : Assembler :=
  if name ∈ a.defined then a.fail (.code (.duplicateLabel name))
  else
    let (a, m) := { a with defined := name :: a.defined }.marker name
    { a with pending := a.pending ++ [m] }

/-- Appends an instruction; a switch without cases is a fault and is left out. -/
def instr (a : Assembler) (i : Instruction String) : Assembler :=
  match i.operands with
  | .switch _ [] => a.fail (.code .noCases)
  | ops =>
    let (a, ops) := a.operands ops
    a.push ⟨i.opcode, ops⟩

/-- Adds an exception handler. -/
def handler (a : Assembler) (h : Handler String) : Assembler :=
  let (a, start) := a.marker h.start
  let (a, stop) := a.marker h.stop
  let (a, target) := a.marker h.target
  { a with code := { a.code with
    handlers := a.code.handlers ++ [⟨start, stop, target, h.excType, h.varName⟩] } }

/-- Carries out a statement. -/
def step (a : Assembler) : Statement → Assembler
  | .label name => a.label name
  | .instr i => a.instr i
  | .handler h => a.handler h

/-- The finished code; labels behind the last instruction stand for the end. -/
def finish (a : Assembler) : Except Fault Code :=
  match a.fault with
  | some fault => .error fault
  | none =>
    let undefined := (a.labels.map (·.1)).filter (· ∉ a.defined)
    if undefined.isEmpty then
      .ok { a.code with
        markers := a.pending.foldl (fun t m => t.bind m .codeEnd) a.code.markers }
    else .error (.code (.undefinedLabels (undefined.mergeSort fun x y => decide (x ≤ y))))

end Assembler

/-- The code of an assembler program. -/
def assemble (program : List Statement) : Except Fault Code :=
  (program.foldl Assembler.step {}).finish

end Avm
