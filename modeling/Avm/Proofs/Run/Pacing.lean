import Avm.Proofs.Run.Graph

/-!
# Runs that take different numbers of steps

Two graphs may do the same in different numbers of steps, so what is compared is everything that is seen of a
run at one time or another.  What happens is logged once and for good, so this says what the run does in which
order, and how it ends if it ends.

Two machines keep pace if states that belong together come, after some steps of each, to states that belong together
again, and nothing new is seen on the way.  Then all that is seen of one of them at one time or another is seen of the
other.  A graph without inner graphs is a tower of one graph.

The main definitions are `Func.asked` and `Func.Gives`: what a run asks for, and how it comes out.  The main statements
are `Stutters.seen_eq`: it is enough that each step of one run is matched by some number of steps of the other, if a
step that is matched by none uses up some of the nodes that are still to come; and `Paced.range_eq`.
-/

/-! ## Steps that are matched by none -/

namespace Avm.Ir

variable {V : Type}

namespace Func

/-- What is seen of a run at one time or another. -/
def seen (f : Func) (S : Semantics V) (registers : Nat → V) : Set (List (Occurrence V) × Option (Ending V)) :=
  Set.range fun n => (f.run S registers n).report

end Func

/-- Each step of one run is matched by some steps of the other, and nothing more is seen on the way. -/
structure Stutters (step step' : Thread V → Thread V) (R : Thread V → Thread V → Prop) : Prop where
  report : ∀ t t', R t t' → t'.report = t.report
  next : ∀ t t', R t t' → ∃ n, R (step t) (step'^[n] t') ∧ (∀ i < n, (step'^[i] t').report = t'.report) ∧
    (n = 0 → (step t).rest.length < t.rest.length)

namespace Stutters

variable {step step' : Thread V → Thread V} {R : Thread V → Thread V → Prop} {t t' : Thread V}
  (h : Stutters step step' R)
include h

lemma exists_right (related : R t t') (n : Nat) : ∃ m, R (step^[n] t) (step'^[m] t') := by
  induction n with
  | zero => exact ⟨0, related⟩
  | succ n ih =>
    obtain ⟨m, related⟩ := ih
    obtain ⟨j, related, -⟩ := h.next _ _ related
    rw [← Function.iterate_succ_apply' step, ← Function.iterate_add_apply] at related
    exact ⟨j + m, related⟩

/-- Steps that are matched by none use up the nodes of the block, so the other run goes on at last. -/
lemma exists_left (related : R t t') (m : Nat) : ∃ n, (step^[n] t).report = (step'^[m] t').report := by
  induction m using Nat.strong_induction_on generalizing t t' with
  | _ m ih =>
    induction size : t.rest.length using Nat.strong_induction_on generalizing t with
    | _ size shorter =>
      obtain ⟨j, related', quiet, uses⟩ := h.next t t' related
      obtain before | after := Nat.lt_or_ge m j
      · refine ⟨0, ?_⟩
        rw [quiet m before]
        exact (h.report t t' related).symm
      · have along : step'^[m - j] (step'^[j] t') = step'^[m] t' := by
          rw [← Function.iterate_add_apply, Nat.sub_add_cancel after]
        rcases Nat.eq_zero_or_pos j with rfl | pos
        · obtain ⟨n, same⟩ := shorter _ (size ▸ uses rfl) related' rfl
          exact ⟨n + 1, same⟩
        · obtain ⟨n, same⟩ := ih (m - j) (by omega) related'
          exact ⟨n + 1, same.trans (congrArg Thread.report along)⟩

end Stutters

lemma Stutters.seen_eq {f g : Func} {S : Semantics V} {R : Thread V → Thread V → Prop} {registers : Nat → V}
    (h : Stutters (f.step S) (g.step S) R) (start : R (f.start S registers) (g.start S registers)) :
    g.seen S registers = f.seen S registers := by
  refine Set.Subset.antisymm ?_ ?_
  · rintro _ ⟨m, rfl⟩
    exact h.exists_left start m
  · rintro _ ⟨n, rfl⟩
    obtain ⟨m, related⟩ := h.exists_right start n
    exact ⟨m, h.report _ _ related⟩

end Avm.Ir

/-! ## Machines that keep pace -/

namespace Avm

/-- What comes out of a run: the value that is returned, which is undefined if there is none, or the exception. -/
def Ending.result {V : Type} (undefined : V) : Ending V → Except V V
  | returned x => .ok (x.getD undefined)
  | thrown x => .error x

namespace Ir

/-- Two machines come to states that belong together, each by at least one step, and until then nothing new is
seen. -/
def Rejoin {α β ω : Type} (step : α → α) (step' : β → β) (see : α → ω) (see' : β → ω) (R : α → β → Prop) (a : α)
    (b : β) :
    Prop :=
  ∃ i j, 0 < i ∧ 0 < j ∧ R (step^[i] a) (step'^[j] b) ∧ (∀ n < i, see (step^[n] a) = see a) ∧
    ∀ n < j, see' (step'^[n] b) = see' b

lemma Rejoin.mono {α β ω : Type} {step : α → α} {step' : β → β} {see : α → ω} {see' : β → ω} {R Q : α → β → Prop}
    {a : α}
    {b : β} (h : Rejoin step step' see see' R a b) (weaker : ∀ a b, R a b → Q a b) :
      Rejoin step step' see see' Q a b := by
  obtain ⟨i, j, pos, pos', related, quiet, quiet'⟩ := h
  exact ⟨i, j, pos, pos', weaker _ _ related, quiet, quiet'⟩

lemma Rejoin.once {α β ω : Type} {step : α → α} {step' : β → β} {see : α → ω} {see' : β → ω} {R : α → β → Prop}
    {a : α} {b : β}
    (related : R (step a) (step' b)) : Rejoin step step' see see' R a b := by
  refine ⟨1, 1, Nat.one_pos, Nat.one_pos, related, fun n less => ?_, fun n less => ?_⟩
  · rw [Nat.lt_one_iff.1 less, Function.iterate_zero_apply]
  · rw [Nat.lt_one_iff.1 less, Function.iterate_zero_apply]

/-- States that belong together look alike, and the machines come from them to such states again. -/
structure Paced {α β ω : Type} (step : α → α) (step' : β → β) (see : α → ω) (see' : β → ω) (R : α → β → Prop) :
    Prop where
  same : ∀ a b, R a b → see' b = see a
  next : ∀ a b, R a b → Rejoin step step' see see' R a b

namespace Paced

variable {α β ω : Type} {step : α → α} {step' : β → β} {see : α → ω} {see' : β → ω} {R : α → β → Prop} {a : α} {b : β}

lemma symm (paced : Paced step step' see see' R) : Paced step' step see' see fun b a => R a b where
  same b a related := (paced.same a b related).symm
  next b a related := by
    obtain ⟨i, j, pos, pos', related, quiet, quiet'⟩ := paced.next a b related
    exact ⟨j, i, pos', pos, related, quiet', quiet⟩

variable (paced : Paced step step' see see' R)
include paced

lemma exists_later (related : R a b) (n : Nat) : ∃ i j, n ≤ i ∧ R (step^[i] a) (step'^[j] b) := by
  induction n with
  | zero => exact ⟨0, 0, Nat.le_refl 0, related⟩
  | succ n ih =>
    obtain ⟨i, j, le, related⟩ := ih
    obtain ⟨i', j', pos, -, related, -⟩ := paced.next _ _ related
    rw [← Function.iterate_add_apply, ← Function.iterate_add_apply] at related
    exact ⟨i' + i, j' + j, by omega, related⟩

lemma exists_seen (related : R a b) (n : Nat) : ∃ m, see' (step'^[m] b) = see (step^[n] a) := by
  induction n using Nat.strong_induction_on generalizing a b with
  | _ n ih =>
    obtain ⟨i, j, pos, -, related', quiet, -⟩ := paced.next a b related
    rcases Nat.lt_or_ge n i with before | after
    · exact ⟨0, (paced.same a b related).trans (quiet n before).symm⟩
    · obtain ⟨m, seen⟩ := ih (n - i) (by omega) related'
      rw [← Function.iterate_add_apply, ← Function.iterate_add_apply, Nat.sub_add_cancel after] at seen
      exact ⟨m + j, seen⟩

lemma range_eq (related : R a b) : Set.range (fun n => see (step^[n] a)) = Set.range fun n => see' (step'^[n] b) := by
  refine Set.Subset.antisymm ?_ ?_
  · rintro _ ⟨n, rfl⟩
    exact paced.exists_seen related n
  · rintro _ ⟨n, rfl⟩
    exact paced.symm.exists_seen related n

end Paced

variable {V : Type}

/-- What the surroundings were asked so far. -/
def Thread.asked (t : Thread V) : List (Request V) := t.log.filterMap Occurrence.request?

namespace Func

variable (f : Func) (S : Semantics V) (host : Func → ValueId → Option Func) (registers : Nat → V)

/-- What the surroundings are asked at one time or another, each time with all that they were asked before. -/
def asked : Set (List (Request V)) := Set.range fun n => (f.tower S host registers n).thread.asked

/-- The run ends with a result, and this is what the surroundings were asked. -/
def Gives (trace : List (Request V)) (result : Except V V) : Prop :=
  ∃ ending, f.Performs S host registers trace ending ∧ ending.result (S.const .undefined) = result

variable {f S registers}

lemma tower_alone (n : Nat) : f.tower S (fun _ _ => none) registers n = ⟨f, f.run S registers n, []⟩ := by
  induction n with
  | zero => rfl
  | succ n ih =>
    have next : f.run S registers (n + 1) = f.step S (f.run S registers n) := Function.iterate_succ_apply' _ _ _
    rw [tower, Function.iterate_succ_apply', ← tower, ih, next, Tower.step]
    split
    · rename_i ended
      rw [step_ended (Option.isSome_iff_ne_none.1 ended)]
      rfl
    · dsimp only
      split
      · rfl
      · rfl

end Func

end Ir

end Avm
