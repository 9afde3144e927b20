import Avm.Marker

/-!
# Code

A stream of instructions with its markers and exception handlers.  Instructions keep their number
while others are inserted and removed around them, and markers follow: when an instruction is
removed, its markers move to the instruction behind it.
-/

namespace Avm

/-- An exception handler with places of type `α`. -/
structure Handler (α : Type) where
  /-- The start of the protected range. -/
  start : α
  /-- The end of the protected range, which does not belong to it. -/
  stop : α
  /-- Where the exception is handled. -/
  target : α
  /-- The name of the type of exceptions that are caught. -/
  excType : Nat
  /-- The name of the variable that holds the exception. -/
  varName : Nat
deriving DecidableEq, Repr, Inhabited

theorem Code.lt_of_empty : ∀ id ∈ ([] : List (InstrId × Instruction Marker)).map (·.1), id < 0 := by simp

theorem Code.nodup_empty : (([] : List (InstrId × Instruction Marker)).map (·.1)).Nodup := by simp

/-- A stream of instructions. -/
structure Code where
  /-- The instructions, each with its number. -/
  instrs : List (InstrId × Instruction Marker) := []
  /-- The places that instructions and handlers refer to. -/
  markers : MarkerTable := {}
  /-- The exception handlers, the first one that applies is taken. -/
  handlers : List (Handler Marker) := []
  /-- The number of the next new instruction. -/
  nextId : InstrId := 0
  /-- The numbers in use are below the next one. -/
  lt_nextId : ∀ id ∈ instrs.map (·.1), id < nextId := by first | exact Code.lt_of_empty | simp
  /-- No two instructions have the same number. -/
  nodup : (instrs.map (·.1)).Nodup := by first | exact Code.nodup_empty | simp
deriving DecidableEq, Repr

instance : Inhabited Code := ⟨{}⟩

namespace Code

section Numbers

variable {instrs : List (InstrId × Instruction Marker)} {i : Instruction Marker}

theorem lt_succ_of_perm (c : Code) (h : instrs.Perm ((c.nextId, i) :: c.instrs)) :
    ∀ id ∈ instrs.map (·.1), id < c.nextId + 1 := by
  intro id mem
  obtain rfl | mem := List.mem_cons.1 ((h.map _).mem_iff.1 mem)
  · exact Nat.lt_succ_self _
  · exact Nat.lt_succ_of_lt (c.lt_nextId id mem)

theorem nodup_of_perm (c : Code) (h : instrs.Perm ((c.nextId, i) :: c.instrs)) :
    (instrs.map (·.1)).Nodup := by
  rw [(h.map _).nodup_iff]
  exact List.nodup_cons.2 ⟨fun mem => Nat.lt_irrefl _ (c.lt_nextId _ mem), c.nodup⟩

theorem perm_insert (c : Code) (position : Nat) :
    (c.instrs.take position ++ (c.nextId, i) :: c.instrs.drop position).Perm
      ((c.nextId, i) :: c.instrs) := by
  have middle := @List.perm_middle _ (c.nextId, i) (c.instrs.take position) (c.instrs.drop position)
  rwa [List.take_append_drop] at middle

theorem map_fst_replace (id : InstrId) :
    (instrs.map fun e => if e.1 = id then (e.1, i) else e).map (·.1) = instrs.map (·.1) := by
  rw [List.map_map]
  refine List.map_congr_left fun e _ => ?_
  simp only [Function.comp_apply]
  split
  · rfl
  · rfl

end Numbers

/-- The number of instructions. -/
def size (c : Code) : Nat := c.instrs.length

/-- The place of an instruction in the stream. -/
def position? (c : Code) (id : InstrId) : Option Nat := c.instrs.findIdx? (·.1 == id)

/-- The instruction with a given number. -/
def get? (c : Code) (id : InstrId) : Option (Instruction Marker) := c.instrs.lookup id

/-- The instruction at a place. -/
def at? (c : Code) (position : Nat) : Option (InstrId × Instruction Marker) := c.instrs[position]?

/-- Adds an instruction at the end. -/
def push (c : Code) (i : Instruction Marker) : Code × InstrId :=
  ({ c with
    instrs := c.instrs ++ [(c.nextId, i)]
    nextId := c.nextId + 1
    lt_nextId := c.lt_succ_of_perm (List.perm_append_singleton _ _)
    nodup := c.nodup_of_perm (List.perm_append_singleton _ _) }, c.nextId)

/-- Adds an instruction before the one at a place. -/
def insert (c : Code) (position : Nat) (i : Instruction Marker) : Except Fault (Code × InstrId) :=
  if c.size < position then .error .outOfBounds
  else .ok ({ c with
    instrs := c.instrs.take position ++ (c.nextId, i) :: c.instrs.drop position
    nextId := c.nextId + 1
    lt_nextId := c.lt_succ_of_perm (c.perm_insert position)
    nodup := c.nodup_of_perm (c.perm_insert position) }, c.nextId)

/-- Puts an instruction in the place of another, which it gives back. -/
def replace (c : Code) (id : InstrId) (i : Instruction Marker) :
    Except Fault (Code × Instruction Marker) :=
  match c.get? id with
  | none => .error (.code (.noInstruction id))
  | some old =>
    .ok ({ c with
      instrs := c.instrs.map fun e => if e.1 = id then (e.1, i) else e
      lt_nextId := by rw [map_fst_replace]; exact c.lt_nextId
      nodup := by rw [map_fst_replace]; exact c.nodup }, old)

/-- The place behind the instruction at a position. -/
def anchorAfter (c : Code) (position : Nat) : Anchor :=
  match c.at? (position + 1) with
  | some (next, _) => .instr next
  | none => .codeEnd

/-- Removes an instruction, which it gives back; its markers move to the next one. -/
def remove (c : Code) (id : InstrId) : Except Fault (Code × Instruction Marker) :=
  match c.position? id, c.get? id with
  | some position, some old =>
    .ok ({ c with
      instrs := c.instrs.eraseIdx position
      markers := c.markers.rebind (.instr id) (c.anchorAfter position)
      lt_nextId := fun id mem =>
        c.lt_nextId id (((List.eraseIdx_sublist c.instrs position).map _).subset mem)
      nodup := c.nodup.sublist ((List.eraseIdx_sublist c.instrs position).map _) }, old)
  | _, _ => .error (.code (.noInstruction id))

/-- The position that a marker stands for; the end of the code counts as one. -/
def resolve? (c : Code) (m : Marker) : Option Nat :=
  match c.markers.target? m with
  | some (.instr id) => c.position? id
  | some .codeEnd => some c.size
  | none => none

/-- The position of a handler's marker. -/
def resolveHandlerMarker (c : Code) (m : Marker) : Except Fault Nat :=
  match c.resolve? m with
  | some position => .ok position
  | none => .error (.code (.unboundHandler m))

/-- A handler with positions for markers. -/
def resolveHandler (c : Code) (h : Handler Marker) : Except Fault (Handler Nat) := do
  let start ← c.resolveHandlerMarker h.start
  let stop ← c.resolveHandlerMarker h.stop
  let target ← c.resolveHandlerMarker h.target
  return ⟨start, stop, target, h.excType, h.varName⟩

/-- The handlers with positions for markers. -/
def resolvedHandlers (c : Code) : Except Fault (List (Handler Nat)) :=
  c.handlers.mapM c.resolveHandler

/-- An instruction with positions for markers; of several unbound markers the last is reported. -/
def resolveInstr (c : Code) (e : InstrId × Instruction Marker) : Except Fault (Instruction Nat) :=
  match e.2.targets.reverse.find? fun m => (c.resolve? m).isNone with
  | some m => .error (.code (.unboundBranch e.2.opcode e.1 m))
  | none => .ok (e.2.map fun m => (c.resolve? m).getD 0)

/-- The instructions with positions for markers. -/
def listing (c : Code) : Except Fault (List (Instruction Nat)) := c.instrs.mapM c.resolveInstr

/-- The markers that are bound to an anchor. -/
def labelsAt (c : Code) (a : Anchor) : List Marker :=
  (c.markers.bindings.zipIdx.filter (·.1 == .bound a)).map (·.2)

/-- A line for each marker that is bound to an anchor. -/
def labelLines (c : Code) (a : Anchor) : String :=
  String.join ((c.labelsAt a).map fun m => m.text ++ ":\n")

/-- A number with blanks before it, at least four characters wide. -/
def column (n : Nat) : String :=
  let digits := toString n
  String.ofList (List.replicate (4 - digits.length) ' ') ++ digits

/-- The lines of one instruction: the markers bound to it, and the instruction with its position. -/
def instrLines (c : Code) (position : Nat) (e : InstrId × Instruction Marker) : String :=
  let dangling := e.2.targets.filter fun m => (c.markers.target? m).isNone
  c.labelLines (.instr e.1) ++ "  " ++ column position ++ "  " ++ e.2.text
    ++ String.join (dangling.map fun m => "  ; " ++ m.text ++ "?") ++ "\n"

/-- The line of one handler. -/
def handlerLine (index : Nat) (h : Handler Marker) : String :=
  s!"  handler {index}: {h.start.text} .. {h.stop.text} -> {h.target.text} " ++
    s!"(type {h.excType}, var {h.varName})\n"

/-- The whole stream as text. -/
def dump (c : Code) : String :=
  String.join (c.instrs.mapIdx c.instrLines) ++ c.labelLines .codeEnd
    ++ String.join (c.handlers.mapIdx handlerLine)

end Code

/-- The operands have the shape that the opcode asks for, and a switch has cases. -/
def Instruction.check {α : Type} (i : Instruction α) : Except Fault Unit :=
  if i.operands.layout ≠ i.opcode.layout then
    .error (.code (.operandShape i.opcode i.operands.layout))
  else match i.operands with
    | .switch _ [] => .error (.code .noCases)
    | _ => .ok ()

end Avm
