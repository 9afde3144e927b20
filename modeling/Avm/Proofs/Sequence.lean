import Mathlib.Tactic

/-!
# Steps that may fail, one after another

When a sequence of steps succeeds, and where it fails: both parts of a bind, the elements of a `mapM` or
a `forM`.  Proofs take a computation apart with these and never open the error monad itself.
-/

namespace Avm

variable {ε α β : Type}

lemma bind_eq_ok {x : Except ε α} {f : α → Except ε β} {b : β} :
    (x >>= f) = .ok b ↔ ∃ a, x = .ok a ∧ f a = .ok b := by
  cases x with
  | ok a => simp [bind, Except.bind]
  | error e => simp [bind, Except.bind]

@[simp] lemma ok_bind (a : α) (f : α → Except ε β) : ((Except.ok a : Except ε α) >>= f) = f a := rfl

@[simp] lemma error_bind (e : ε) (f : α → Except ε β) :
    ((Except.error e : Except ε α) >>= f) = .error e := rfl

@[simp] lemma pure_eq_ok (a : α) : (pure a : Except ε α) = .ok a := rfl

@[simp] lemma throw_eq_error (e : ε) : (throw e : Except ε α) = .error e := rfl

lemma exists_of_toOption {x : Except ε α} {p : α → Bool} (holds : x.toOption.any p = true) :
    ∃ a, x = .ok a ∧ p a = true := by
  cases x with
  | error e => cases holds
  | ok a => exact ⟨a, rfl, holds⟩

/-- A list is worked off if every element is, and the results come in the same order. -/
lemma mapM_eq_ok {f : α → Except ε β} {l : List α} {r : List β} :
    l.mapM f = .ok r ↔ List.Forall₂ (fun a b => f a = .ok b) l r := by
  induction l generalizing r with
  | nil =>
    simp only [List.mapM_nil, pure_eq_ok, Except.ok.injEq, List.forall₂_nil_left_iff]
    exact eq_comm
  | cons a l ih =>
    simp only [List.mapM_cons, bind_eq_ok, pure_eq_ok, Except.ok.injEq, List.forall₂_cons_left_iff]
    constructor
    · rintro ⟨b, hb, r, hr, rfl⟩
      exact ⟨b, r, hb, ih.1 hr, rfl⟩
    · rintro ⟨b, r, hb, hr, rfl⟩
      exact ⟨b, hb, r, ih.2 hr, rfl⟩

lemma exists_mem_of_mem_left {R : α → β → Prop} {l : List α} {r : List β} {a : α}
    (h : List.Forall₂ R l r) (mem : a ∈ l) : ∃ b ∈ r, R a b := by
  induction h with
  | nil => exact absurd mem (by simp)
  | cons rel _ ih =>
    obtain rfl | mem := List.mem_cons.1 mem
    · exact ⟨_, List.mem_cons_self, rel⟩
    · obtain ⟨b, hb, rel⟩ := ih mem
      exact ⟨b, List.mem_cons_of_mem _ hb, rel⟩

lemma exists_mem_of_mem_right {R : α → β → Prop} {l : List α} {r : List β} {b : β}
    (h : List.Forall₂ R l r) (mem : b ∈ r) : ∃ a ∈ l, R a b :=
  exists_mem_of_mem_left h.flip mem

lemma forM_eq_ok {f : α → Except ε Unit} {l : List α} :
    l.forM f = .ok () ↔ ∀ a ∈ l, f a = .ok () := by
  induction l with
  | nil => simp [List.forM]
  | cons a l ih =>
    rw [List.forM, bind_eq_ok]
    constructor
    · rintro ⟨_, head, tail⟩
      exact List.forall_mem_cons.2 ⟨head, ih.1 tail⟩
    · intro h
      obtain ⟨head, tail⟩ := List.forall_mem_cons.1 h
      exact ⟨(), head, ih.2 tail⟩

lemma exists_of_forM_eq_error {f : α → Except ε Unit} {l : List α} {e : ε} (h : l.forM f = .error e) :
    ∃ a ∈ l, f a = .error e := by
  induction l with
  | nil => cases h
  | cons a l ih =>
    rw [List.forM] at h
    cases head : f a with
    | error e' =>
      rw [head] at h
      obtain rfl := Except.error.inj h
      exact ⟨a, List.mem_cons_self, head⟩
    | ok _ =>
      rw [head] at h
      obtain ⟨b, mem, failed⟩ := ih h
      exact ⟨b, List.mem_cons_of_mem _ mem, failed⟩

lemma bind_eq_error_iff {x : Except ε α} {f : α → Except ε β} {e : ε} :
    (x >>= f) = .error e ↔ x = .error e ∨ ∃ a, x = .ok a ∧ f a = .error e := by
  cases x with
  | ok a => simp [bind, Except.bind]
  | error e => simp [bind, Except.bind]

lemma exists_of_mapM_eq_error {f : α → Except ε β} {l : List α} {e : ε} (h : l.mapM f = .error e) :
    ∃ a ∈ l, f a = .error e := by
  induction l with
  | nil => cases h
  | cons a l ih =>
    rw [List.mapM_cons, bind_eq_error_iff] at h
    obtain head | ⟨b, -, h⟩ := h
    · exact ⟨a, List.mem_cons_self, head⟩
    · obtain tail | ⟨bs, -, h⟩ := bind_eq_error_iff.1 h
      · obtain ⟨a, mem, failed⟩ := ih tail
        exact ⟨a, List.mem_cons_of_mem _ mem, failed⟩
      · cases h

lemma mem_of_lookup [BEq α] [LawfulBEq α] {a : α} {b : β} {l : List (α × β)} (found : l.lookup a = some b) :
    (a, b) ∈ l := by
  obtain ⟨l₁, l₂, rfl, -⟩ := List.lookup_eq_some_iff.1 found
  exact List.mem_append_right l₁ List.mem_cons_self

lemma lookup_of_mem [BEq α] [LawfulBEq α] {a : α} {b : β} {l : List (α × β)}
    (nodup : (l.map (·.1)).Nodup) (mem : (a, b) ∈ l) : l.lookup a = some b := by
  obtain ⟨l₁, l₂, rfl⟩ := List.append_of_mem mem
  refine List.lookup_eq_some_iff.2 ⟨l₁, l₂, rfl, fun e there => ?_⟩
  rw [List.map_append, List.nodup_append] at nodup
  rw [bne_iff_ne]
  exact (nodup.2.2 e.1 (List.mem_map_of_mem there) a (by simp)).symm

lemma foldl_keeps {α β γ : Type} (p : β → γ) {step : β → α → β} (keeps : ∀ b a, p (step b a) = p b) {l : List α}
    {b : β} : p (l.foldl step b) = p b := by
  induction l generalizing b with
  | nil => rfl
  | cons a l ih => rw [List.foldl_cons, ih, keeps]

end Avm
