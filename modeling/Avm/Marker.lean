import Avm.Fault
import Avm.Instruction

/-!
# Markers

Code refers to its own places by markers.  A marker is bound to an anchor, that is, to an
instruction or to the end of the code; or it waits for the instruction at a byte offset; or it is
not bound at all.  Several markers may be bound to one anchor.  The first of them is the canonical
one, which is given to whoever asks for a marker of that anchor.
-/

namespace Avm

/-- The lasting number of an instruction, which stays good while code is edited. -/
abbrev InstrId := Nat

/-- A place in code. -/
inductive Anchor where
  /-- Right before an instruction. -/
  | instr (id : InstrId)
  /-- Behind the last instruction. -/
  | codeEnd
deriving DecidableEq, Repr, Inhabited

/-- What a marker stands for. -/
inductive Binding where
  /-- The instruction at a byte offset, once it is known. -/
  | pending (offset : Nat)
  /-- Nothing. -/
  | unbound
  /-- A place in code. -/
  | bound (anchor : Anchor)
deriving DecidableEq, Repr, Inhabited

/-- The markers of a piece of code. -/
structure MarkerTable where
  /-- What each marker stands for. -/
  bindings : List Binding := []
  /-- The canonical markers of anchors. -/
  canonical : List (Anchor × Marker) := []
  /-- The markers that wait for a byte offset. -/
  waiting : List (Nat × Marker) := []
deriving DecidableEq, Repr, Inhabited

namespace MarkerTable

/-- The number of markers. -/
def size (t : MarkerTable) : Nat := t.bindings.length

/-- The canonical marker of an anchor. -/
def markerFor? (t : MarkerTable) (a : Anchor) : Option Marker := t.canonical.lookup a

/-- The anchor that a marker is bound to. -/
def target? (t : MarkerTable) (m : Marker) : Option Anchor :=
  match t.bindings[m]? with
  | some (.bound a) => some a
  | _ => none

/-- The table with one more marker, and that marker. -/
def allocate (t : MarkerTable) (b : Binding) : MarkerTable × Marker :=
  ({ t with bindings := t.bindings ++ [b] }, t.size)

/-- Makes a marker canonical unless its anchor has a canonical marker already. -/
def offer (t : MarkerTable) (a : Anchor) (m : Marker) : MarkerTable :=
  match t.markerFor? a with
  | some _ => t
  | none => { t with canonical := (a, m) :: t.canonical }

/-- The canonical marker of an anchor, made if there is none yet. -/
def mark (t : MarkerTable) (a : Anchor) : MarkerTable × Marker :=
  match t.markerFor? a with
  | some m => (t, m)
  | none =>
    let (t, m) := t.allocate (.bound a)
    ({ t with canonical := (a, m) :: t.canonical }, m)

/-- A marker that is bound to nothing. -/
def fresh (t : MarkerTable) : MarkerTable × Marker := t.allocate .unbound

/-- Binds a marker to an anchor; nothing changes if there is no such marker. -/
def bind (t : MarkerTable) (m : Marker) (a : Anchor) : MarkerTable :=
  if m < t.size then { t with bindings := t.bindings.set m (.bound a) }.offer a m else t

/-- The marker of a byte offset, made if there is none yet. -/
def markOffset (t : MarkerTable) (offset : Nat) : MarkerTable × Marker :=
  match t.waiting.lookup offset with
  | some m => (t, m)
  | none =>
    let (t, m) := t.allocate (.pending offset)
    ({ t with waiting := (offset, m) :: t.waiting }, m)

/-- The place at a byte offset, where the instructions start at the offsets of a list. -/
def anchorAt? (starts : List (Nat × InstrId)) (length offset : Nat) : Option Anchor :=
  if offset = length then some .codeEnd else (starts.lookup offset).map .instr

/-- Binds those of the given markers that wait for an offset, up to the first one that waits for an
offset at which no instruction starts. -/
def settle (starts : List (Nat × InstrId)) (length : Nat) :
    List Marker → MarkerTable → MarkerTable × Option Fault
  | [], t => (t, none)
  | m :: rest, t =>
    match t.bindings[m]? with
    | some (.pending offset) =>
      match anchorAt? starts length offset with
      | some a => settle starts length rest (t.bind m a)
      | none => (t, some (.codec offset (.notABoundary offset)))
    | _ => settle starts length rest t

/-- Binds every marker that waits for an offset.  A fault leaves the markers before the faulty one
bound. -/
def prepare (t : MarkerTable) (starts : List (Nat × InstrId)) (length : Nat) :
    MarkerTable × Option Fault :=
  match settle starts length (List.range t.size) t with
  | (t, none) => ({ t with waiting := [] }, none)
  | (t, some fault) => (t, some fault)

/-- Some marker still waits for an offset. -/
def hasPending (t : MarkerTable) : Bool :=
  t.bindings.any fun
    | .pending _ => true
    | _ => false

/-- Moves all markers of one anchor to another. -/
def rebind (t : MarkerTable) (source target : Anchor) : MarkerTable :=
  if source = target then t
  else match t.markerFor? source with
    | none => t
    | some m =>
      { t with
        bindings := t.bindings.map fun b => if b = Binding.bound source then .bound target else b
        canonical := t.canonical.filter (·.1 != source) }.offer target m

end MarkerTable

end Avm
