import Avm.Proofs.Code.Reading

/-!
# Canonical markers

Whoever asks for the marker of an anchor gets the canonical one, so it should be bound to that anchor.  A
table keeps what markers are bound to and which markers are canonical apart from each other.  `Agrees` says
that the two agree, `Covers` that every anchor that some marker is bound to has a canonical marker.  All
operations keep the second.  All but one keep the first: a marker that is canonical for one anchor may be
bound to another one, and then the first anchor still gives it away.

The main statement is `covers_and_agrees_iff`.
-/

namespace Avm.MarkerTable

/-- An operation on the markers of a piece of code. -/
inductive Op where
  /-- Asks for the canonical marker of an anchor. -/
  | mark (a : Anchor)
  /-- Makes a marker that is bound to nothing. -/
  | fresh
  /-- Binds a marker. -/
  | bind (m : Marker) (a : Anchor)
  /-- Asks for the marker of a byte offset. -/
  | markOffset (offset : Nat)
  /-- Binds the markers that wait for offsets. -/
  | prepare (starts : List (Nat × InstrId)) (length : Nat)
  /-- Moves the markers of one anchor to another. -/
  | rebind (source target : Anchor)
deriving DecidableEq, Repr, Inhabited

/-- The table behind an operation, also if that is at fault. -/
def Op.apply : Op → MarkerTable → MarkerTable
  | mark a, t => (t.mark a).1
  | fresh, t => t.fresh.1
  | bind m a, t => t.bind m a
  | markOffset offset, t => (t.markOffset offset).1
  | prepare starts length, t => (t.prepare starts length).1
  | rebind source target, t => t.rebind source target

/-- The table behind operations one after another. -/
def run (ops : List Op) (t : MarkerTable) : MarkerTable := ops.foldl (fun t op => op.apply t) t

/-- Canonical markers are bound to the anchors that they are canonical for. -/
def Agrees (t : MarkerTable) : Prop := ∀ a m, t.markerFor? a = some m → t.target? m = some a

/-- Anchors that markers are bound to have canonical markers. -/
def Covers (t : MarkerTable) : Prop := ∀ a m, t.target? m = some a → (t.markerFor? a).isSome

/-- The operation binds no marker that is canonical for another anchor. -/
def Op.Spares (t : MarkerTable) : Op → Prop
  | bind m a => m < t.size → ∀ b, t.markerFor? b = some m → b = a
  | _ => True

/-- None of the operations binds a marker that is canonical for another anchor at that time. -/
def Spares : List Op → MarkerTable → Prop
  | [], _ => True
  | op :: ops, t => op.Spares t ∧ Spares ops (op.apply t)

variable {t : MarkerTable} {a b source target : Anchor} {m k : Marker} {offset length : Nat}
  {starts : List (Nat × InstrId)}

section Views

lemma target?_eq_some : t.target? m = some a ↔ t.bindings[m]? = some (.bound a) := by
  rw [target?]
  split
  · rename_i c found
    simp [found]
  · rename_i other
    simp only [reduceCtorEq, false_iff]
    exact other a

@[simp] lemma target?_offer : (t.offer a m).target? k = t.target? k := by
  rw [offer]
  split
  · rfl
  · rfl

@[simp] lemma markerFor?_offer :
    (t.offer a m).markerFor? b = (t.markerFor? b).or (if b = a then some m else none) := by
  rw [offer]
  split
  · rename_i c known
    by_cases same : b = a
    · rw [same, known]
      rfl
    · simp [same]
  · rename_i unknown
    rw [markerFor?, List.lookup_cons]
    by_cases same : b = a
    · subst same
      simp [unknown]
    · simp [same, beq_false_of_ne same, markerFor?]

lemma target?_bind (there : m < t.size) :
    (t.bind m a).target? k = if k = m then some a else t.target? k := by
  rw [bind, if_pos there, target?_offer, target?]
  by_cases same : k = m
  · subst same
    simp [List.getElem?_set_self there]
  · simp [same, List.getElem?_set_ne (Ne.symm same), target?]

lemma markerFor?_bind (there : m < t.size) :
    (t.bind m a).markerFor? b = (t.markerFor? b).or (if b = a then some m else none) := by
  rw [bind, if_pos there, markerFor?_offer]
  rfl

lemma target?_allocate {binding : Binding} (free : ∀ a, binding ≠ .bound a) :
    (t.allocate binding).1.target? k = t.target? k := by
  refine Option.ext fun a => ?_
  rw [target?_eq_some, target?_eq_some, allocate, List.getElem?_append]
  split
  · rfl
  · rename_i outside
    rw [List.getElem?_eq_none (Nat.le_of_not_lt outside), List.getElem?_singleton]
    split
    · simp [free a]
    · rfl

lemma mark_eq (unknown : t.markerFor? a = none) : t.mark a =
    ({ (t.allocate (.bound a)).1 with canonical := (a, t.size) :: t.canonical }, t.size) := by
  rw [mark, unknown]
  rfl

lemma target?_mark : (t.mark a).1.target? k =
    if t.markerFor? a = none ∧ k = t.size then some a else t.target? k := by
  cases known : t.markerFor? a with
  | some c => simp [mark, known]
  | none =>
    rw [mark_eq known, target?]
    simp only [allocate, List.getElem?_append, true_and]
    by_cases same : k = t.size
    · simp [same, size]
    · by_cases below : k < t.size
      · have inside : k < t.bindings.length := below
        simp [same, inside, target?]
      · have outside : ¬k < t.bindings.length := below
        have above : t.bindings.length < k := lt_of_le_of_ne (Nat.le_of_not_lt below) (Ne.symm same)
        simp [same, outside, target?, Nat.sub_ne_zero_of_lt above]

lemma markerFor?_mark : (t.mark a).1.markerFor? b =
    (t.markerFor? b).or (if b = a then some t.size else none) := by
  cases known : t.markerFor? a with
  | some c =>
    rw [mark, known]
    by_cases same : b = a
    · rw [same, known]
      rfl
    · simp [same]
  | none =>
    rw [mark_eq known, markerFor?, List.lookup_cons]
    by_cases same : b = a
    · subst same
      simp [known]
    · simp [same, beq_false_of_ne same, markerFor?]

lemma lookup_filter {l : List (Anchor × Marker)} :
    (l.filter (·.1 != source)).lookup b = if b = source then none else l.lookup b := by
  induction l with
  | nil => simp
  | cons e l ih =>
    obtain ⟨c, m⟩ := e
    rw [List.filter_cons]
    by_cases gone : c = source
    · subst gone
      by_cases same : b = c
      · simpa [same] using ih
      · simpa [List.lookup_cons, same, beq_false_of_ne same] using ih
    · by_cases same : b = c
      · subst same
        simp [gone]
      · simpa [List.lookup_cons, gone, beq_false_of_ne same] using ih

lemma rebind_eq (other : source ≠ target) (known : t.markerFor? source = some m) :
    t.rebind source target = { t with
      bindings := t.bindings.map fun b => if b = Binding.bound source then .bound target else b
      canonical := t.canonical.filter (·.1 != source) }.offer target m := by
  rw [rebind, if_neg other, known]

lemma target?_rebind (other : source ≠ target) (known : t.markerFor? source = some m) :
    (t.rebind source target).target? k =
      if t.target? k = some source then some target else t.target? k := by
  rw [rebind_eq other known, target?_offer, target?, List.getElem?_map, target?]
  cases t.bindings[k]? with
  | none => rfl
  | some binding =>
    cases binding with
    | bound c =>
      by_cases same : c = source
      · simp [same]
      · simp [same]
    | _ => rfl

lemma markerFor?_rebind (other : source ≠ target) (known : t.markerFor? source = some m) :
    (t.rebind source target).markerFor? b = if b = source then none
      else (t.markerFor? b).or (if b = target then some m else none) := by
  rw [rebind_eq other known, markerFor?_offer, markerFor?, lookup_filter]
  by_cases same : b = source
  · simp [same, other]
  · simp [same, markerFor?]

lemma rebind_of_unknown (unknown : t.markerFor? source = none) : t.rebind source target = t := by
  rw [rebind, unknown]
  split
  · rfl
  · rfl

end Views

section Agreement

lemma Agrees.empty : Agrees {} := nofun

lemma Covers.empty : Covers {} := nofun

lemma Agrees.congr {t' : MarkerTable} (h : t.Agrees) (targets : ∀ k, t'.target? k = t.target? k)
    (canonical : ∀ b, t'.markerFor? b = t.markerFor? b) : t'.Agrees := by
  intro b k found
  rw [canonical] at found
  rw [targets]
  exact h b k found

lemma Covers.congr {t' : MarkerTable} (h : t.Covers) (targets : ∀ k, t'.target? k = t.target? k)
    (canonical : ∀ b, t'.markerFor? b = t.markerFor? b) : t'.Covers := by
  intro b k found
  rw [targets] at found
  rw [canonical]
  exact h b k found

lemma Agrees.lt_size (h : t.Agrees) (found : t.markerFor? a = some m) : m < t.size :=
  (List.getElem?_eq_some_iff.1 (target?_eq_some.1 (h a m found))).1

/-- A binding keeps the agreement exactly if it takes the marker from no anchor that gives it away. -/
lemma agrees_bind_iff (h : t.Agrees) (there : m < t.size) :
    (t.bind m a).Agrees ↔ ∀ b, t.markerFor? b = some m → b = a := by
  constructor
  · intro after b known
    have canonical : (t.bind m a).markerFor? b = some m := by
      rw [markerFor?_bind there, known]
      rfl
    have bound := after b m canonical
    rw [target?_bind there, if_pos rfl] at bound
    exact (Option.some.inj bound).symm
  · intro spares b k found
    rw [markerFor?_bind there, Option.or_eq_some_iff] at found
    rw [target?_bind there]
    obtain known | ⟨-, new⟩ := found
    · split
      · rename_i same
        subst same
        rw [spares b known]
      · exact h b k known
    · split at new
      · rename_i same
        rw [if_pos (Option.some.inj new).symm, same]
      · cases new

lemma Covers.bind (h : t.Covers) (there : m < t.size) : (t.bind m a).Covers := by
  intro b k bound
  rw [target?_bind there] at bound
  rw [markerFor?_bind there, Option.isSome_or]
  split at bound
  · rw [if_pos (Option.some.inj bound).symm]
    simp
  · rw [h b k bound]
    rfl

lemma settle_keeps (starts : List (Nat × InstrId)) (length : Nat) (ms : List Marker) (h : t.Covers) :
    (settle starts length ms t).1.Covers ∧ (t.Agrees → (settle starts length ms t).1.Agrees) := by
  induction ms generalizing t with
  | nil => exact ⟨h, id⟩
  | cons m ms ih =>
    rw [settle]
    split
    · rename_i offset waits
      have there : m < t.size := (List.getElem?_eq_some_iff.1 waits).1
      split
      · rename_i a _
        refine ⟨(ih (h.bind there)).1, fun agrees => (ih (h.bind there)).2 ?_⟩
        refine (agrees_bind_iff agrees there).2 fun b known => ?_
        have bound := target?_eq_some.1 (agrees b m known)
        rw [waits] at bound
        cases bound
      · exact ⟨h, id⟩
    · exact ih h

lemma prepare_keeps (h : t.Covers) :
    (t.prepare starts length).1.Covers ∧ (t.Agrees → (t.prepare starts length).1.Agrees) := by
  obtain ⟨covers, agrees⟩ := settle_keeps starts length (List.range t.size) h
  rw [prepare]
  split
  · rename_i t' eq
    rw [eq] at covers agrees
    exact ⟨covers.congr (fun _ => rfl) fun _ => rfl,
      fun before => (agrees before).congr (fun _ => rfl) fun _ => rfl⟩
  · rename_i t' fault eq
    rw [eq] at covers agrees
    exact ⟨covers, agrees⟩

lemma Agrees.mark (h : t.Agrees) : (t.mark a).1.Agrees := by
  intro b k found
  rw [markerFor?_mark, Option.or_eq_some_iff] at found
  rw [target?_mark]
  obtain known | ⟨unknown, new⟩ := found
  · rw [if_neg fun both => (h.lt_size known).ne both.2]
    exact h b k known
  · split at new
    · rename_i same
      subst same
      rw [if_pos ⟨unknown, (Option.some.inj new).symm⟩]
    · cases new

lemma Covers.mark (h : t.Covers) : (t.mark a).1.Covers := by
  intro b k bound
  rw [target?_mark] at bound
  rw [markerFor?_mark, Option.isSome_or]
  split at bound
  · rw [if_pos (Option.some.inj bound).symm]
    simp
  · rw [h b k bound]
    rfl

lemma Agrees.target?_mark_self (h : t.Agrees) : (t.mark a).1.target? (t.mark a).2 = some a := by
  cases known : t.markerFor? a with
  | some m =>
    rw [MarkerTable.mark, known]
    exact h a m known
  | none =>
    rw [target?_mark, known, mark_eq known]
    simp

lemma Agrees.rebind (h : t.Agrees) : (t.rebind source target).Agrees := by
  by_cases same : source = target
  · rwa [MarkerTable.rebind, if_pos same]
  cases known : t.markerFor? source with
  | none => rwa [rebind_of_unknown known]
  | some m =>
    intro b k found
    rw [markerFor?_rebind same known] at found
    rw [target?_rebind same known]
    split at found
    · cases found
    · rename_i other
      obtain old | ⟨-, new⟩ := Option.or_eq_some_iff.1 found
      · rw [h b k old, if_neg (fun eq => other (Option.some.inj eq))]
      · split at new
        · rename_i here
          obtain rfl := Option.some.inj new
          rw [h source m known, if_pos rfl, here]
        · cases new

lemma Covers.rebind (h : t.Covers) : (t.rebind source target).Covers := by
  by_cases same : source = target
  · rwa [MarkerTable.rebind, if_pos same]
  cases known : t.markerFor? source with
  | none => rwa [rebind_of_unknown known]
  | some m =>
    intro b k bound
    rw [target?_rebind same known] at bound
    rw [markerFor?_rebind same known]
    split at bound
    · obtain rfl := Option.some.inj bound
      rw [if_neg (Ne.symm same), if_pos rfl, Option.isSome_or]
      simp
    · rename_i apart
      have other : b ≠ source := fun eq => apart (eq ▸ bound)
      rw [if_neg other, Option.isSome_or, h b k bound]
      rfl

lemma markOffset_keeps : (∀ k, (t.markOffset offset).1.target? k = t.target? k) ∧
    ∀ b, (t.markOffset offset).1.markerFor? b = t.markerFor? b := by
  rw [markOffset]
  split
  · exact ⟨fun _ => rfl, fun _ => rfl⟩
  · exact ⟨fun _ => target?_allocate (by rintro _ ⟨⟩), fun _ => rfl⟩

end Agreement

/-- Every operation keeps the canonical markers of anchors that markers are bound to. -/
lemma Covers.apply (h : t.Covers) (op : Op) : (op.apply t).Covers := by
  cases op with
  | mark a => exact h.mark
  | fresh => exact h.congr (fun _ => target?_allocate nofun) fun _ => rfl
  | bind m a =>
    rw [Op.apply]
    by_cases there : m < t.size
    · exact h.bind there
    · rwa [MarkerTable.bind, if_neg there]
  | markOffset offset => exact h.congr markOffset_keeps.1 markOffset_keeps.2
  | prepare starts length => exact (prepare_keeps h).1
  | rebind source target => exact h.rebind

/-- An operation keeps the agreement exactly if it binds no marker that is canonical for another anchor. -/
lemma agrees_apply_iff (agrees : t.Agrees) (covers : t.Covers) (op : Op) :
    (op.apply t).Agrees ↔ op.Spares t := by
  cases op with
  | mark a => exact iff_of_true agrees.mark trivial
  | fresh => exact iff_of_true (agrees.congr (fun _ => target?_allocate nofun) fun _ => rfl) trivial
  | bind m a =>
    rw [Op.apply, Op.Spares]
    by_cases there : m < t.size
    · rw [agrees_bind_iff agrees there]
      exact (imp_iff_right there).symm
    · rw [MarkerTable.bind, if_neg there]
      exact iff_of_true agrees fun inside => absurd inside there
  | markOffset offset => exact iff_of_true (agrees.congr markOffset_keeps.1 markOffset_keeps.2) trivial
  | prepare starts length => exact iff_of_true ((prepare_keeps covers).2 agrees) trivial
  | rebind source target => exact iff_of_true agrees.rebind trivial

lemma Covers.run (h : t.Covers) (ops : List Op) : (run ops t).Covers := by
  induction ops generalizing t with
  | nil => exact h
  | cons op ops ih => exact ih (h.apply op)

lemma agrees_run_iff (agrees : t.Agrees) (covers : t.Covers) (ops : List Op) :
    (∀ n, (run (ops.take n) t).Agrees) ↔ Spares ops t := by
  induction ops generalizing t with
  | nil => exact iff_of_true (fun n => by rwa [List.take_nil]) trivial
  | cons op ops ih =>
    rw [Spares, ← agrees_apply_iff agrees covers]
    constructor
    · intro all
      have first : (op.apply t).Agrees := all 1
      exact ⟨first, (ih first (covers.apply op)).1 fun n => all (n + 1)⟩
    · rintro ⟨first, rest⟩ n
      cases n with
      | zero => exact agrees
      | succ n => exact (ih first (covers.apply op)).2 rest n

/-- Whatever is done to a new table, anchors that markers are bound to have canonical markers.  Canonical
markers are bound to their anchors all along exactly if no operation binds a marker that is canonical for
another anchor, and as long as they are, asking for the marker of an anchor gives one that is bound to it. -/
theorem covers_and_agrees_iff (ops : List Op) :
    (∀ a m, (run ops {}).target? m = some a → ((run ops {}).markerFor? a).isSome) ∧
    ((∀ n a m, (run (ops.take n) {}).markerFor? a = some m →
      (run (ops.take n) {}).target? m = some a) ↔ Spares ops {}) ∧
    (Spares ops {} → ∀ a, ((run ops {}).mark a).1.target? ((run ops {}).mark a).2 = some a) := by
  have along := agrees_run_iff Agrees.empty Covers.empty ops
  refine ⟨Covers.empty.run ops, along, fun spares a => ?_⟩
  have last := along.2 spares ops.length
  rw [List.take_length] at last
  exact last.target?_mark_self

/-- The marker of the end is bound to an instruction, and the end still gives it away. -/
theorem not_agrees_run :
    ¬∀ ops a m, (run ops {}).markerFor? a = some m → (run ops {}).target? m = some a := by
  intro all
  have moved := all [.mark .codeEnd, .bind 0 (.instr 0)] .codeEnd 0 (by decide)
  exact absurd moved (by decide)

end Avm.MarkerTable
