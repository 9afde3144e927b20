import Avm.Proofs.Code.Thinning

/-!
# Markers follow the code

Code is edited by adding, replacing and removing instructions, and its markers are bound and moved meanwhile.
Whatever was done before, a marker stays with its instruction or with the end of the code: positions behind an
instruction that is removed go down by one, and those from the place of a new instruction on go up by one.  For
removal that takes a canonical marker for each anchor that some marker is bound to, which is what every edit
keeps.  A marker that stands for no position goes on to stand for none, but for one that is bound to the number
that the new instruction gets: whoever names an instruction before it is there finds it once it is.

The main statement is `resolve?_of_steps`.
-/

namespace Avm.Code

open MarkerTable

/-- An edit of code. -/
inductive Step where
  /-- Adds an instruction at the end. -/
  | push (i : Instruction Marker)
  /-- Adds an instruction before the one at a place. -/
  | insert (position : Nat) (i : Instruction Marker)
  /-- Puts an instruction in the place of another. -/
  | replace (id : InstrId) (i : Instruction Marker)
  /-- Removes an instruction. -/
  | remove (id : InstrId)
  /-- Does something with the markers. -/
  | markers (op : MarkerTable.Op)
deriving DecidableEq, Repr

/-- The code behind an edit; one that fails leaves it as it is. -/
def Step.apply : Step → Code → Code
  | push i, c => (c.push i).1
  | insert position i, c => ((c.insert position i).toOption.map (·.1)).getD c
  | replace id i, c => ((c.replace id i).toOption.map (·.1)).getD c
  | remove id, c => ((c.remove id).toOption.map (·.1)).getD c
  | markers op, c => { c with markers := op.apply c.markers }

/-- The code behind a number of edits, one after another. -/
def edited (steps : List Step) (c : Code) : Code := steps.foldl (fun c step => step.apply c) c

/-- The anchors that an operation on markers names. -/
def anchorsOf : MarkerTable.Op → List Anchor
  | .mark a => [a]
  | .fresh | .markOffset _ => []
  | .bind _ a => [a]
  | .prepare starts _ => .codeEnd :: starts.map fun e => .instr e.2
  | .rebind source target => [source, target]

/-- The anchor is the end of the code, or an instruction whose number was given out. -/
def Given (c : Code) (a : Anchor) : Prop := ∀ id, a = .instr id → id < c.nextId

/-- The edit names no instruction whose number was not given out. -/
def Step.Names : Step → Code → Prop
  | markers op, c => ∀ a ∈ anchorsOf op, c.Given a
  | _, _ => True

/-- None of the edits names an instruction whose number was not given out at that time. -/
def Names : List Step → Code → Prop
  | [], _ => True
  | step :: steps, c => step.Names c ∧ Names steps (step.apply c)

/-- No marker is bound to an instruction whose number was not given out. -/
def Sincere (c : Code) : Prop := ∀ m a, c.markers.target? m = some a → c.Given a

variable {c c' : Code} {id k : InstrId} {i old : Instruction Marker} {p q : Nat} {m : Marker} {step : Step}

section Positions

lemma ahead_remove (here : c.at? p = some (id, i)) (inside : q ≤ c.size) :
    c.ahead (· != id) q = if q ≤ p then q else q - 1 := by
  induction q with
  | zero => rw [if_pos (Nat.zero_le p)]; rfl
  | succ q ih =>
    have there : c.at? q = some (c.instrs.get ⟨q, inside⟩) := List.getElem?_eq_getElem inside
    rw [ahead_succ there, ih (Nat.le_of_succ_le inside)]
    by_cases place : q = p
    · subst place
      rw [here] at there
      rw [← Option.some.inj there, if_pos le_rfl, if_neg (Nat.not_succ_le_self q)]
      simp
    · have other : (c.instrs.get ⟨q, inside⟩).1 ≠ id := by
        intro same
        apply place
        apply at?_inj _ here
        · exact (c.instrs.get ⟨q, inside⟩).2
        · rw [there, ← same]
      rw [if_pos (bne_iff_ne.2 other)]
      split
      · rw [if_pos (by omega)]
      · rw [if_neg (by omega)]
        omega

lemma insert_eq_ok (inside : p ≤ c.size) : ∃ c', c.insert p i = .ok (c', c.nextId) ∧
    c'.instrs = c.instrs.take p ++ (c.nextId, i) :: c.instrs.drop p ∧ c'.markers = c.markers ∧
      c'.nextId = c.nextId + 1 := by
  rw [insert, if_neg (Nat.not_lt.2 inside)]
  exact ⟨_, rfl, rfl, rfl, rfl⟩

lemma position?_insert (inside : p ≤ c.size)
    (instrs : c'.instrs = c.instrs.take p ++ (c.nextId, i) :: c.instrs.drop p) :
    c'.position? k = if k = c.nextId then some p else (c.position? k).map fun q => if q < p then q else q + 1 := by
  have length : (c.instrs.take p).length = p := List.length_take_of_le inside
  by_cases new : k = c.nextId
  · rw [if_pos new, new]
    apply position?_of_at? (i := i)
    rw [at?, instrs, List.getElem?_append_right length.le, length, Nat.sub_self]
    rfl
  · rw [if_neg new]
    cases found : c.position? k with
    | none =>
      rw [Option.map_none]
      apply List.findIdx?_eq_none_iff.2
      intro e mem
      have absent := List.findIdx?_eq_none_iff.1 found
      rw [instrs, List.mem_append, List.mem_cons] at mem
      rcases mem with mem | rfl | mem
      · exact absent e (List.mem_of_mem_take mem)
      · exact beq_eq_false_iff_ne.2 (Ne.symm new)
      · exact absent e (List.mem_of_mem_drop mem)
    | some q =>
      obtain ⟨j, there⟩ := at?_of_position? found
      rw [Option.map_some]
      apply position?_of_at? (i := j)
      rw [at?, instrs]
      split
      · rename_i before
        rw [List.getElem?_append_left (length.symm ▸ before), List.getElem?_take_of_lt before]
        exact there
      · rename_i behind
        rw [List.getElem?_append_right (by omega), length, Nat.succ_sub (Nat.not_lt.1 behind), List.getElem?_cons_succ,
          List.getElem?_drop, Nat.add_sub_cancel' (Nat.not_lt.1 behind)]
        exact there

lemma position?_replace (instrs : c'.instrs = c.instrs.map fun e => if e.1 = id then (e.1, i) else e) :
    c'.position? k = c.position? k := by
  rw [position?, instrs, List.findIdx?_map, position?]
  congr 1
  funext e
  rw [Function.comp_apply]
  split
  · rfl
  · rfl

lemma resolve?_congr (markers : c'.markers = c.markers) (size : c'.size = c.size)
    (position : ∀ k, c'.position? k = c.position? k) : c'.resolve? m = c.resolve? m := by
  rw [resolve?, resolve?, markers]
  split
  · exact position _
  · rw [size]
  · rfl

end Positions

section Steps

lemma mem_of_anchorAt? {starts : List (Nat × InstrId)} {length offset : Nat} {a : Anchor}
    (found : anchorAt? starts length offset = some a) : a ∈ anchorsOf (.prepare starts length) := by
  rw [anchorAt?] at found
  split at found
  · obtain rfl := Option.some.inj found
    exact List.mem_cons_self
  · obtain ⟨id, known, rfl⟩ := Option.map_eq_some_iff.1 found
    apply List.mem_cons_of_mem
    obtain ⟨before, behind, split, -⟩ := List.lookup_eq_some_iff.1 known
    exact List.mem_map.2 ⟨(offset, id), split ▸ List.mem_append_cons_self, rfl⟩

lemma mem_anchorsOf_of_settle {starts : List (Nat × InstrId)} {length : Nat} {ms : List Marker} {t : MarkerTable}
    {a : Anchor} (bound : (settle starts length ms t).1.target? m = some a) :
    t.target? m = some a ∨ a ∈ anchorsOf (.prepare starts length) := by
  induction ms generalizing t with
  | nil => exact .inl bound
  | cons k ms ih =>
    rw [settle] at bound
    split at bound
    · rename_i offset waits
      split at bound
      · rename_i b found
        rcases ih bound with before | named
        · rw [target?_bind (List.getElem?_eq_some_iff.1 waits).1] at before
          split at before
          · exact .inr (Option.some.inj before ▸ mem_of_anchorAt? found)
          · exact .inl before
        · exact .inr named
      · exact .inl bound
    · exact ih bound

lemma mem_anchorsOf_of_target? {t : MarkerTable} {op : MarkerTable.Op} {a : Anchor}
    (bound : (op.apply t).target? m = some a) : t.target? m = some a ∨ a ∈ anchorsOf op := by
  cases op with
  | mark b =>
    rw [Op.apply, target?_mark] at bound
    split at bound
    · exact .inr (List.mem_singleton.2 (Option.some.inj bound).symm)
    · exact .inl bound
  | fresh =>
    rw [Op.apply, fresh, target?_allocate (by rintro _ ⟨⟩)] at bound
    exact .inl bound
  | bind k b =>
    rw [Op.apply] at bound
    by_cases there : k < t.size
    · rw [target?_bind there] at bound
      split at bound
      · exact .inr (List.mem_singleton.2 (Option.some.inj bound).symm)
      · exact .inl bound
    · rw [MarkerTable.bind, if_neg there] at bound
      exact .inl bound
  | markOffset offset =>
    rw [Op.apply, markOffset_keeps.1] at bound
    exact .inl bound
  | prepare starts length =>
    apply mem_anchorsOf_of_settle
    rw [Op.apply, prepare] at bound
    split at bound
    · rename_i eq
      rw [eq]
      exact bound
    · rename_i eq
      rw [eq]
      exact bound
  | rebind source target =>
    rw [Op.apply] at bound
    by_cases same : source = target
    · rw [rebind, if_pos same] at bound
      exact .inl bound
    cases known : t.markerFor? source with
    | none =>
      rw [rebind_of_unknown known] at bound
      exact .inl bound
    | some k =>
      rw [target?_rebind same known] at bound
      split at bound
      · obtain rfl := Option.some.inj bound
        exact .inr (List.mem_cons_of_mem _ List.mem_cons_self)
      · exact .inl bound

lemma Given.mono {a : Anchor} (given : c.Given a) (more : c.nextId ≤ c'.nextId) : c'.Given a :=
  fun id same => (given id same).trans_le more

lemma lt_nextId_of_at? (here : c.at? p = some (id, i)) : id < c.nextId :=
  c.lt_nextId id (List.mem_map.2 ⟨(id, i), List.mem_of_getElem? here, rfl⟩)

lemma given_anchorAfter : c.Given (c.anchorAfter p) := by
  intro k same
  rw [anchorAfter] at same
  split at same
  · rename_i there
    cases same
    exact lt_nextId_of_at? there
  · cases same

/-- Every edit keeps that anchors with markers have canonical markers, and that markers are bound to nothing but
instructions whose numbers were given out if it names no others. -/
lemma Step.keeps (covers : c.markers.Covers) : (step.apply c).markers.Covers ∧
    (step.Names c → c.Sincere → (step.apply c).Sincere) := by
  -- An edit that leaves the markers alone gives out no fewer numbers.
  have still (c' : Code) (markers : c'.markers = c.markers) (more : c.nextId ≤ c'.nextId) :
      c'.markers.Covers ∧ (c.Sincere → c'.Sincere) := by
    refine ⟨markers ▸ covers, fun sincere m a bound => (sincere m a ?_).mono more⟩
    rw [← markers]
    exact bound
  cases step with
  | push i =>
    have kept := still (c.push i).1 rfl (Nat.le_succ _)
    exact ⟨kept.1, fun _ => kept.2⟩
  | insert p i =>
    by_cases inside : p ≤ c.size
    · obtain ⟨c', inserted, -, markers, next⟩ := insert_eq_ok (i := i) inside
      have kept := still c' markers (next ▸ Nat.le_succ _)
      rw [apply, inserted]
      exact ⟨kept.1, fun _ => kept.2⟩
    · rw [apply, Code.insert, if_pos (Nat.lt_of_not_le inside)]
      exact ⟨covers, fun _ sincere => sincere⟩
  | replace id i =>
    rw [apply, Code.replace]
    split
    · exact ⟨covers, fun _ sincere => sincere⟩
    · have kept := still _ rfl le_rfl
      exact ⟨kept.1, fun _ => kept.2⟩
  | remove id =>
    rw [apply, Code.remove]
    split
    · rename_i place old found _
      refine ⟨covers.rebind, fun _ sincere m a bound => ?_⟩
      have given : c.Given a := by
        have moved : ((Op.rebind (.instr id) (c.anchorAfter place)).apply c.markers).target? m = some a := bound
        rcases mem_anchorsOf_of_target? moved with before | named
        · exact sincere m a before
        · rcases List.mem_pair.1 named with rfl | rfl
          · obtain ⟨j, there⟩ := at?_of_position? found
            rintro k ⟨⟩
            exact lt_nextId_of_at? there
          · exact given_anchorAfter
      exact given
    · exact ⟨covers, fun _ sincere => sincere⟩
  | markers op =>
    refine ⟨covers.apply op, fun names sincere m a bound => ?_⟩
    rcases mem_anchorsOf_of_target? bound with before | named
    · exact sincere m a before
    · exact names a named

lemma covers_edited (covers : c.markers.Covers) (steps : List Step) : (edited steps c).markers.Covers := by
  induction steps generalizing c with
  | nil => exact covers
  | cons step steps ih => exact ih (Step.keeps covers).1

lemma sincere_edited {steps : List Step} (covers : c.markers.Covers) (names : Names steps c) (sincere : c.Sincere) :
    (edited steps c).Sincere := by
  induction steps generalizing c with
  | nil => exact sincere
  | cons step steps ih =>
    obtain ⟨first, others⟩ := names
    exact ih (Step.keeps covers).1 others ((Step.keeps covers).2 first sincere)

end Steps

/-- Inserting an instruction moves markers at its place and behind it up, and markers of its number to it. -/
lemma resolve?_insert (inside : p ≤ c.size) (instrs : c'.instrs = c.instrs.take p ++ (c.nextId, i) :: c.instrs.drop p)
    (markers : c'.markers = c.markers) : c'.resolve? m = if c.markers.target? m = some (.instr c.nextId) then some p
      else (c.resolve? m).map fun q => if q < p then q else q + 1 := by
  rw [resolve?, resolve?, markers]
  cases bound : c.markers.target? m with
  | none => rfl
  | some a =>
    cases a with
    | codeEnd =>
      have length : c'.size = c.size + 1 := by
        rw [size, instrs, List.length_append, List.length_cons, List.length_take_of_le inside, List.length_drop]
        change p + (c.size - p + 1) = c.size + 1
        omega
      rw [if_neg (by simp), Option.map_some, if_neg (Nat.not_lt.2 inside)]
      exact congrArg some length
    | instr k =>
      by_cases new : k = c.nextId
      · subst new
        rw [if_pos rfl]
        dsimp only
        rw [position?_insert inside instrs, if_pos rfl]
      · rw [if_neg fun same => new (Anchor.instr.inj (Option.some.inj same))]
        dsimp only
        rw [position?_insert inside instrs, if_neg new]

/-- However code was edited, an instruction can be removed, and markers behind it go down by one; an instruction can be
inserted, and markers at its place and behind it go up by one; and replacing an instruction moves no marker.  Markers
without a position have none afterwards, but for those that are bound to the number that an inserted instruction
gets.  There are none of these if only instructions whose numbers were given out were named. -/
theorem resolve?_of_steps (steps : List Step) :
    (∀ p id i, (edited steps {}).at? p = some (id, i) → ∃ c', (edited steps {}).remove id = .ok (c', i) ∧
      ∀ m, c'.resolve? m = ((edited steps {}).resolve? m).map fun q => if q ≤ p then q else q - 1) ∧
    (∀ p i, p ≤ (edited steps {}).size → ∃ c', (edited steps {}).insert p i = .ok (c', (edited steps {}).nextId) ∧
      ∀ m, c'.resolve? m =
        if (edited steps {}).markers.target? m = some (.instr (edited steps {}).nextId) then some p
        else ((edited steps {}).resolve? m).map fun q => if q < p then q else q + 1) ∧
    (∀ p id i old, (edited steps {}).at? p = some (id, old) → ∃ c', (edited steps {}).replace id i = .ok (c', old) ∧
      ∀ m, c'.resolve? m = (edited steps {}).resolve? m) ∧
    (Names steps {} → ∀ m, (edited steps {}).markers.target? m ≠ some (.instr (edited steps {}).nextId)) := by
  have covers := covers_edited (c := {}) Covers.empty steps
  generalize after : edited steps {} = c at covers ⊢
  refine ⟨fun p id i here => ?_, fun p i inside => ?_, fun p id i old here => ?_, fun names m bound => ?_⟩
  · obtain ⟨c', removed, thins⟩ := thins_remove covers here
    refine ⟨c', removed, fun m => ?_⟩
    rw [thins.resolve?]
    cases found : c.resolve? m with
    | none => rfl
    | some q => exact congrArg some (ahead_remove here (le_of_resolve? found))
  · obtain ⟨c', inserted, instrs, markers, -⟩ := insert_eq_ok (i := i) inside
    exact ⟨c', inserted, fun m => resolve?_insert inside instrs markers⟩
  · rw [replace, get?_of_at? here]
    refine ⟨_, rfl, fun m => resolve?_congr rfl ?_ fun k => position?_replace rfl⟩
    exact List.length_map _
  · have sincere := sincere_edited Covers.empty names (nofun : Sincere {})
    rw [after] at sincere
    exact Nat.lt_irrefl _ (sincere m _ bound _ rfl)

/-- Two instructions, a marker of the second one, one of the end and one of nothing. -/
theorem resolve?_of_steps_twoInstrs :
    let nop : Instruction Marker := ⟨.nop, .none⟩
    let steps : List Step :=
      [.push nop, .push nop, .markers (.mark (.instr 1)), .markers (.mark .codeEnd), .markers .fresh]
    (∃ c', (edited steps {}).remove 0 = .ok (c', nop) ∧
      c'.resolve? 0 = some 0 ∧ c'.resolve? 1 = some 1 ∧ c'.resolve? 2 = none) ∧
    (∃ c', (edited steps {}).insert 1 nop = .ok (c', 2) ∧
      c'.resolve? 0 = some 2 ∧ c'.resolve? 1 = some 3 ∧ c'.resolve? 2 = none) ∧
    (∃ c', (edited steps {}).replace 0 nop = .ok (c', nop) ∧ c'.resolve? 0 = some 1) ∧
    ∀ m, (edited steps {}).markers.target? m ≠ some (.instr 2) := by
  intro nop steps
  obtain ⟨removes, inserts, replaces, none⟩ := resolve?_of_steps steps
  refine ⟨?_, ?_, ?_, none ?_⟩
  · obtain ⟨c', removed, moved⟩ := removes 0 0 nop (by decide)
    refine ⟨c', removed, ?_⟩
    rw [moved, moved, moved]
    decide
  · obtain ⟨c', inserted, moved⟩ := inserts 1 nop (by decide)
    refine ⟨c', inserted, ?_⟩
    rw [moved, moved, moved]
    decide
  · obtain ⟨c', replaced, moved⟩ := replaces 0 0 nop nop (by decide)
    refine ⟨c', replaced, ?_⟩
    rw [moved]
    decide
  · refine ⟨trivial, trivial, ?_, ?_, ?_, trivial⟩
    · rintro a mem k rfl
      obtain ⟨⟩ := List.mem_singleton.1 mem
      decide
    · rintro a mem k rfl
      cases List.mem_singleton.1 mem
    · nofun

/-- A marker of an instruction that is not there yet stands for no position, and finds it once it is inserted. -/
theorem not_resolve?_none_insert : ¬∀ steps p i c' id m, (edited steps {}).insert p i = .ok (c', id) →
    (edited steps {}).resolve? m = none → c'.resolve? m = none := by
  intro all
  have absent := all [.markers (.mark (.instr 0))] 0 ⟨.nop, .none⟩ _ _ 0 rfl (by decide)
  exact absurd absent (by decide)

end Avm.Code
