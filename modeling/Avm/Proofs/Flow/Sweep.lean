import Avm.Flow.Sweep
import Avm.Proofs.Sequence

/-!
# What sweeping leaves

Sweeping changes two things, the instructions and the handlers, and counts the first only.  Here is
what a count of zero means.  `Code.trimmed` is the code without the handlers that cover nothing.  The
main statement is `sweep_eq_ok_zero`: no instruction goes exactly if every instruction is reached, also
in the trimmed code, and then the trimmed code is what is left.
-/

namespace Avm.Code

/-- The code without the handlers that cover nothing, given the positions of its handlers. -/
def trimmed (c : Code) (resolved : List (Handler Nat)) : Code :=
  { c with
    handlers := ((c.handlers.zip resolved).filter fun e => e.2.start < e.2.stop).map (·.1) }

/-- Every instruction has a vertex. -/
def AllReached (c : Code) (g : FlowGraph) : Prop := ∀ e ∈ c.instrs, g.contains e.1 = true

variable {c c' : Code} {g : FlowGraph} {resolved : List (Handler Nat)}

lemma length_resolvedHandlers (h : c.resolvedHandlers = .ok resolved) :
    c.handlers.length = resolved.length :=
  (mapM_eq_ok.1 h).length_eq

lemma forall₂_covering {hs : List (Handler Marker)} (all : List.Forall₂
    (fun a b => c.resolveHandler a = .ok b) hs resolved) :
    List.Forall₂ (fun a b => c.resolveHandler a = .ok b)
      (((hs.zip resolved).filter fun e => e.2.start < e.2.stop).map (·.1))
      (resolved.filter fun x => x.start < x.stop) := by
  induction all with
  | nil => exact .nil
  | @cons a b _ _ head _ ih =>
    rw [List.zip_cons_cons, List.filter_cons, List.filter_cons]
    by_cases covers : b.start < b.stop
    · simp only [covers, decide_true, if_true, List.map_cons]
      exact .cons head ih
    · simp only [covers, decide_false, Bool.false_eq_true, if_false]
      exact ih

lemma resolvedHandlers_trimmed (h : c.resolvedHandlers = .ok resolved) :
    (c.trimmed resolved).resolvedHandlers =
      .ok (resolved.filter fun x => x.start < x.stop) := by
  rw [resolvedHandlers, mapM_eq_ok] at h ⊢
  exact forall₂_covering h

lemma trimmed_eq_self (h : c.resolvedHandlers = .ok resolved)
    (covers : ∀ x ∈ resolved, x.start < x.stop) : c.trimmed resolved = c := by
  have all : (c.handlers.zip resolved).filter (fun e => e.2.start < e.2.stop)
      = c.handlers.zip resolved := by
    rw [List.filter_eq_self]
    rintro ⟨a, b⟩ mem
    exact decide_eq_true (covers b (List.of_mem_zip mem).2)
  have first : (c.handlers.zip resolved).map (·.1) = c.handlers :=
    List.map_fst_zip (Nat.le_of_eq (length_resolvedHandlers h))
  rw [trimmed, all, first]

/-- The number of handlers that cover nothing. -/
def emptyCount (c : Code) (resolved : List (Handler Nat)) : Nat :=
  c.handlers.length - (c.trimmed resolved).handlers.length

lemma dropEmptyHandlers_eq (h : c.resolvedHandlers = .ok resolved) :
    c.dropEmptyHandlers = .ok (c.trimmed resolved, c.emptyCount resolved) := by
  simp only [dropEmptyHandlers, h, ok_bind, pure_eq_ok, emptyCount, trimmed, List.length_map]

lemma emptyCount_eq_zero (h : c.resolvedHandlers = .ok resolved) :
    c.emptyCount resolved = 0 ↔ ∀ x ∈ resolved, x.start < x.stop := by
  have lengths := length_resolvedHandlers h
  have kept := length_resolvedHandlers (resolvedHandlers_trimmed h)
  rw [emptyCount, kept, lengths]
  constructor
  · intro zero
    have := List.length_filter_le (fun x : Handler Nat => decide (x.start < x.stop)) resolved
    have same := List.length_filter_eq_length_iff.1 (Nat.le_antisymm this (by omega))
    exact fun x mem => of_decide_eq_true (same x mem)
  · intro covers
    rw [List.filter_eq_self.2 fun x mem => decide_eq_true (covers x mem), Nat.sub_self]

lemma sweepOnce_eq_ok_zero : c.sweepOnce g = .ok (c', 0) ↔ c' = c ∧ c.AllReached g := by
  have dead : ((c.instrs.map (·.1)).filter fun id => !g.contains id) = [] ↔ c.AllReached g := by
    simp [AllReached, List.filter_eq_nil_iff]
  simp only [sweepOnce, bind_eq_ok, pure_eq_ok, Except.ok.injEq, Prod.mk.injEq,
    List.length_eq_zero_iff, dead]
  constructor
  · rintro ⟨d, removed, rfl, reached⟩
    rw [dead.2 reached, removeAll] at removed
    exact ⟨(Except.ok.inj removed).symm, reached⟩
  · rintro ⟨rfl, reached⟩
    exact ⟨c', by rw [dead.2 reached, removeAll], rfl, reached⟩

lemma sweepHandlers_of_covers {fuel removed : Nat} (h : c.resolvedHandlers = .ok resolved)
    (covers : ∀ x ∈ resolved, x.start < x.stop) :
    sweepHandlers fuel c removed = .ok (c, removed) := by
  cases fuel with
  | zero => rfl
  | succ fuel =>
    have none_empty := (emptyCount_eq_zero h).2 covers
    simp only [sweepHandlers, dropEmptyHandlers_eq h, ok_bind, none_empty, if_true, pure_eq_ok,
      trimmed_eq_self h covers]

lemma le_of_sweepHandlers {fuel removed n : Nat} (h : sweepHandlers fuel c removed = .ok (c', n)) :
    removed ≤ n := by
  induction fuel generalizing c removed with
  | zero =>
    obtain ⟨-, rfl⟩ := Prod.mk.inj (Except.ok.inj h)
    exact Nat.le_refl _
  | succ fuel ih =>
    simp only [sweepHandlers, bind_eq_ok] at h
    obtain ⟨⟨d, dropped⟩, -, h⟩ := h
    split at h
    · obtain ⟨-, rfl⟩ := Prod.mk.inj (Except.ok.inj h)
      exact Nat.le_refl _
    · simp only [bind_eq_ok] at h
      obtain ⟨_, -, ⟨d', more⟩, -, h⟩ := h
      exact Nat.le_trans (Nat.le_add_right _ _) (ih h)

/-- Sweeping removes no instruction exactly if every instruction is reached, also once the handlers
that cover nothing are gone, and the trimmed code is what is left. -/
lemma sweep_eq_ok_zero (h : c.resolvedHandlers = .ok resolved) :
    c.sweep g = .ok (c', 0) ↔ c' = c.trimmed resolved ∧ c.AllReached g ∧
      ((∃ x ∈ resolved, x.stop ≤ x.start) →
        ∃ g', FlowGraph.build (c.trimmed resolved) = .ok g' ∧ c.AllReached g') := by
  have covering : (c.trimmed resolved).resolvedHandlers = .ok _ := resolvedHandlers_trimmed h
  have covers : ∀ x ∈ resolved.filter (fun x => x.start < x.stop), x.start < x.stop :=
    fun x mem => of_decide_eq_true (List.mem_filter.1 mem).2
  have some_empty : c.emptyCount resolved ≠ 0 ↔ ∃ x ∈ resolved, x.stop ≤ x.start := by
    rw [ne_eq, emptyCount_eq_zero h]
    simp only [not_forall, not_lt, exists_prop]
  constructor
  · intro swept
    simp only [sweep, bind_eq_ok] at swept
    obtain ⟨⟨d, removed⟩, once, swept⟩ := swept
    -- A count never shrinks, so both counts on the way to zero are zero.
    obtain rfl : removed = 0 := Nat.le_zero.1 (le_of_sweepHandlers swept)
    obtain ⟨rfl, reached⟩ := sweepOnce_eq_ok_zero.1 once
    simp only [sweepHandlers, dropEmptyHandlers_eq h, ok_bind] at swept
    split at swept
    · rename_i zero
      obtain ⟨rfl, -⟩ := Prod.mk.inj (Except.ok.inj swept)
      exact ⟨rfl, reached, fun empty => absurd zero (some_empty.2 empty)⟩
    · simp only [bind_eq_ok] at swept
      obtain ⟨g', built, ⟨e, more⟩, again, swept⟩ := swept
      obtain rfl : more = 0 := by
        have := le_of_sweepHandlers swept
        omega
      obtain ⟨rfl, reached'⟩ := sweepOnce_eq_ok_zero.1 again
      rw [sweepHandlers_of_covers covering covers] at swept
      obtain ⟨rfl, -⟩ := Prod.mk.inj (Except.ok.inj swept)
      exact ⟨rfl, reached, fun _ => ⟨g', built, reached'⟩⟩
  · rintro ⟨rfl, reached, rebuilt⟩
    have once : c.sweepOnce g = .ok (c, 0) := sweepOnce_eq_ok_zero.2 ⟨rfl, reached⟩
    simp only [sweep, once, ok_bind, sweepHandlers, dropEmptyHandlers_eq h]
    split
    · rfl
    · rename_i nonzero
      obtain ⟨g', built, reached'⟩ := rebuilt (some_empty.1 nonzero)
      have again : (c.trimmed resolved).sweepOnce g' = .ok (c.trimmed resolved, 0) :=
        sweepOnce_eq_ok_zero.2 ⟨rfl, reached'⟩
      simp only [built, again, ok_bind]
      exact sweepHandlers_of_covers covering covers

end Avm.Code
