import Avm.Graph.Order
import Mathlib.Tactic

/-!
# Sets of numbers and searches

Ascending lists and marks are sets of numbers, and a depth-first search leaves every node that can be
reached.  The search goes at most as deep as it has fuel; as every node that it enters is new, there is
enough fuel as long as there is more of it than of nodes that were not entered.

The main statement is `Graph.mem_reversePostorder_of_mem`: what is found is closed under successors.
-/

namespace Avm

namespace Ascending

lemma mem_insert {n m : Nat} {l : List Nat} : m ∈ insert n l ↔ m = n ∨ m ∈ l := by
  induction l with
  | nil => simp [insert]
  | cons x rest ih =>
    rw [insert]
    split_ifs with less same
    · rw [List.mem_cons]
    · subst same
      simp
    · rw [List.mem_cons, ih, List.mem_cons]
      tauto

lemma mem_foldl_insert {m : Nat} {l acc : List Nat} :
    m ∈ l.foldl (fun acc n => insert n acc) acc ↔ m ∈ acc ∨ m ∈ l := by
  induction l generalizing acc with
  | nil => simp
  | cons n rest ih =>
    rw [List.foldl_cons, ih, mem_insert, List.mem_cons]
    tauto

@[simp] lemma mem_ofList {m : Nat} {l : List Nat} : m ∈ ofList l ↔ m ∈ l := by
  rw [ofList, mem_foldl_insert]
  simp

lemma pairwise_insert {n : Nat} {l : List Nat} (h : l.Pairwise (· < ·)) :
    (insert n l).Pairwise (· < ·) := by
  induction l with
  | nil => simp [insert]
  | cons x rest ih =>
    obtain ⟨below, sorted⟩ := List.pairwise_cons.1 h
    rw [insert]
    split_ifs with less same
    · refine List.pairwise_cons.2 ⟨?_, h⟩
      intro y mem
      obtain rfl | mem := List.mem_cons.1 mem
      · exact less
      · exact Nat.lt_trans less (below y mem)
    · exact h
    · refine List.pairwise_cons.2 ⟨?_, ih sorted⟩
      intro y mem
      obtain rfl | mem := mem_insert.1 mem
      · omega
      · exact below y mem

lemma pairwise_ofList (l : List Nat) : (ofList l).Pairwise (· < ·) := by
  have sorted : ∀ (l acc : List Nat), acc.Pairwise (· < ·) →
      (l.foldl (fun acc n => insert n acc) acc).Pairwise (· < ·) := by
    intro l
    induction l with
    | nil => exact fun acc h => h
    | cons n rest ih => exact fun acc h => ih _ (pairwise_insert h)
  exact sorted l [] List.Pairwise.nil

lemma nodup_ofList (l : List Nat) : (ofList l).Nodup := (pairwise_ofList l).imp Nat.ne_of_lt

end Ascending

namespace Graph

namespace Marks

variable {s : Marks} {n m bound : Nat}

@[simp] lemma size_add : (s.add n).bits.size = s.bits.size := Array.size_setIfInBounds

@[simp] lemma not_has_none : (Marks.none bound).has n = false := by
  rw [has, Marks.none, Array.getElem?_replicate]
  split <;> rfl

lemma lt_of_has (h : s.has n = true) : n < s.bits.size := by
  by_contra above
  rw [has, Array.getElem?_eq_none (Nat.le_of_not_lt above)] at h
  cases h

lemma has_add : (s.add n).has m = true ↔ s.has m = true ∨ (m = n ∧ n < s.bits.size) := by
  rw [has, add, Array.getElem?_setIfInBounds]
  split
  · rename_i same
    subst same
    split
    · rename_i lt
      simp [lt]
    · rename_i ge
      simp [has, ge]
  · rename_i other
    simp [has, Ne.symm other]

lemma has_addAll {ns : List Nat} : (s.addAll ns).has m = true ↔
    s.has m = true ∨ (m ∈ ns ∧ m < s.bits.size) := by
  induction ns generalizing s with
  | nil => simp [addAll]
  | cons n ns ih =>
    rw [addAll, List.foldl_cons, ← addAll, ih, has_add, size_add, List.mem_cons]
    constructor
    · rintro ((old | ⟨rfl, lt⟩) | ⟨mem, lt⟩)
      · exact .inl old
      · exact .inr ⟨.inl rfl, lt⟩
      · exact .inr ⟨.inr mem, lt⟩
    · rintro (old | ⟨rfl | mem, lt⟩)
      · exact .inl (.inl old)
      · exact .inl (.inr ⟨rfl, lt⟩)
      · exact .inr ⟨mem, lt⟩

@[simp] lemma size_addAll {ns : List Nat} : (s.addAll ns).bits.size = s.bits.size := by
  induction ns generalizing s with
  | nil => rfl
  | cons n ns ih => rw [addAll, List.foldl_cons, ← addAll, ih, size_add]

lemma has_ofList {ns : List Nat} : (ofList bound ns).has m = true ↔ m ∈ ns ∧ m < bound := by
  rw [ofList, has_addAll, not_has_none]
  simp [Marks.none]

end Marks

namespace Walk

variable {count fuel : Nat} {succ : Nat → List Nat} {w w' w'' : Walk} {node : Nat}

/-- The nodes that were not entered. -/
def unseen (count : Nat) (w : Walk) : Finset Nat :=
  (Finset.range count).filter fun n => w.seen.has n = false

/-- What a search does from one state to another: it enters nodes, leaves all that it enters, and has
entered their successors then. -/
structure Explores (count : Nat) (succ : Nat → List Nat) (w w' : Walk) : Prop where
  size : w'.seen.bits.size = w.seen.bits.size
  grows : ∀ n, w.seen.has n = true → w'.seen.has n = true
  finished : ∀ n, n ∈ w'.finished ↔ n ∈ w.finished ∨ (w'.seen.has n = true ∧ w.seen.has n = false)
  closed : ∀ n, w'.seen.has n = true → w.seen.has n = false → ∀ m ∈ succ n, m < count →
    w'.seen.has m = true
  once : (∀ n ∈ w.finished, w.seen.has n = true) → w.finished.Nodup → w'.finished.Nodup

lemma Explores.refl (w : Walk) : Explores count succ w w :=
  ⟨rfl, fun _ h => h, by simp, fun n new old => by simp [new] at old, fun _ once => once⟩

lemma Explores.trans (h : Explores count succ w w') (h' : Explores count succ w' w'') :
    Explores count succ w w'' where
  size := h'.size.trans h.size
  grows n old := h'.grows n (h.grows n old)
  finished n := by
    rw [h'.finished, h.finished]
    have first := h.grows n
    have second := h'.grows n
    generalize w.seen.has n = x, w'.seen.has n = y, w''.seen.has n = z at first second ⊢
    cases x <;> cases y <;> cases z <;> simp_all
  closed n new old m mem lt := by
    cases between : w'.seen.has n with
    | true => exact h'.grows m (h.closed n between old m mem lt)
    | false => exact h'.closed n new between m mem lt
  once seen start := by
    refine h'.once (fun n mem => ?_) (h.once seen start)
    obtain old | new := (h.finished n).1 mem
    · exact h.grows n (seen n old)
    · exact new.1

lemma Explores.unseen_subset (h : Explores count succ w w') : unseen count w' ⊆ unseen count w := by
  intro n mem
  rw [unseen, Finset.mem_filter] at mem ⊢
  refine ⟨mem.1, ?_⟩
  cases old : w.seen.has n with
  | false => rfl
  | true => rw [h.grows n old] at mem; exact absurd mem.2 (by simp)

lemma card_unseen_add (size : w.seen.bits.size = count) (new : w.seen.has node = false) (inside : node < count) :
    (unseen count { w with seen := w.seen.add node }).card < (unseen count w).card := by
  apply Finset.card_lt_card
  refine (Finset.ssubset_iff_of_subset fun n mem => ?_).2 ⟨node, ?_, ?_⟩
  · rw [unseen, Finset.mem_filter] at mem ⊢
    refine ⟨mem.1, ?_⟩
    rw [Bool.eq_false_iff] at mem ⊢
    exact fun old => mem.2 (Marks.has_add.2 (.inl old))
  · exact Finset.mem_filter.2 ⟨Finset.mem_range.2 inside, new⟩
  · simp [unseen, Marks.has_add, size, inside]

lemma explores_foldl {l : List Nat} (size : w.seen.bits.size = count)
    (enough : (unseen count w).card < fuel)
    (visit : ∀ w node, w.seen.bits.size = count → (unseen count w).card < fuel →
      Explores count succ w (visit count succ fuel w node) ∧
        (node < count → (Walk.visit count succ fuel w node).seen.has node = true)) :
    Explores count succ w (l.foldl (Walk.visit count succ fuel) w) ∧
      ∀ m ∈ l, m < count → (l.foldl (Walk.visit count succ fuel) w).seen.has m = true := by
  induction l generalizing w with
  | nil => exact ⟨.refl w, by simp⟩
  | cons n l ih =>
    obtain ⟨first, entered⟩ := visit w n size enough
    obtain ⟨rest, all⟩ := ih (first.size.trans size)
      ((Finset.card_le_card first.unseen_subset).trans_lt enough)
    refine ⟨first.trans rest, List.forall_mem_cons.2 ⟨fun lt => ?_, all⟩⟩
    exact rest.grows n (entered lt)

lemma explores_visit (size : w.seen.bits.size = count) (enough : (unseen count w).card < fuel) :
    Explores count succ w (visit count succ fuel w node) ∧
      (node < count → (visit count succ fuel w node).seen.has node = true) := by
  induction fuel generalizing w node with
  | zero => exact absurd enough (Nat.not_lt_zero _)
  | succ fuel ih =>
    rw [visit]
    split
    · rename_i stop
      refine ⟨.refl w, fun lt => ?_⟩
      obtain seen | outside := stop
      · exact seen
      · omega
    · rename_i go
      rw [not_or, Bool.not_eq_true, Nat.not_le] at go
      obtain ⟨new, inside⟩ := go
      set entered : Walk := { w with seen := w.seen.add node } with entered_eq
      have here : entered.seen.has node = true := Marks.has_add.2 (.inr ⟨rfl, size ▸ inside⟩)
      have only (n) : entered.seen.has n = true ↔ w.seen.has n = true ∨ n = node := by
        rw [entered_eq, Marks.has_add, size]
        simp [inside]
      have fewer : (unseen count entered).card < (unseen count w).card := card_unseen_add size new inside
      obtain ⟨inner, all⟩ := explores_foldl (l := succ node) (w := entered)
        (by rw [entered_eq, Marks.size_add, size]) (by omega) fun w n size enough => ih size enough
      refine ⟨?_, fun _ => inner.grows node here⟩
      constructor
      case size => rw [inner.size, entered_eq, Marks.size_add]
      case grows => exact fun n old => inner.grows n ((only n).2 (.inl old))
      case finished =>
        intro n
        have kept := inner.grows n
        rw [List.mem_cons, inner.finished]
        rw [only n] at kept
        by_cases same : n = node
        · subst same
          simp [new, inner.grows n here]
        · have unchanged : entered.seen.has n = w.seen.has n := by
            rw [Bool.eq_iff_iff, only n, or_iff_left same]
          rw [unchanged, or_iff_right same]
      case closed =>
        intro n found old m mem lt
        by_cases same : n = node
        · subst same
          exact all m mem lt
        · have unchanged : entered.seen.has n = false := by
            rw [Bool.eq_false_iff, ne_eq, only n, not_or, Bool.not_eq_true]
            exact ⟨old, same⟩
          exact inner.closed n found unchanged m mem lt
      case once =>
        intro seen once
        have seen' : ∀ n ∈ entered.finished, entered.seen.has n = true :=
          fun n mem => (only n).2 (.inl (seen n mem))
        refine List.nodup_cons.2 ⟨fun mem => ?_, inner.once seen' once⟩
        obtain old | late := (inner.finished node).1 mem
        · rw [seen node old] at new
          cases new
        · rw [here] at late
          exact absurd late.2 (by simp)

end Walk

variable {count start : Nat} {succ : Nat → List Nat}

lemma explores_reversePostorder : Walk.Explores count succ { seen := .none count }
      (Walk.visit count succ (count + 1) { seen := .none count } start) ∧
    (start < count →
      (Walk.visit count succ (count + 1) { seen := .none count } start).seen.has start = true) := by
  refine Walk.explores_visit (by simp [Marks.none]) (Nat.lt_succ_of_le ?_)
  exact (Finset.card_filter_le _ _).trans (by rw [Finset.card_range])

lemma mem_reversePostorder {n : Nat} : n ∈ reversePostorder count succ start ↔
    (Walk.visit count succ (count + 1) { seen := .none count } start).seen.has n = true := by
  rw [reversePostorder, explores_reversePostorder.1.finished]
  simp

lemma lt_of_mem_reversePostorder {n : Nat} (found : n ∈ reversePostorder count succ start) : n < count := by
  have size : (Walk.visit count succ (count + 1) { seen := .none count } start).seen.bits.size = count := by
    rw [explores_reversePostorder.1.size]
    simp [Marks.none]
  rw [← size]
  exact Marks.lt_of_has (mem_reversePostorder.1 found)

lemma nodup_reversePostorder : (reversePostorder count succ start).Nodup :=
  explores_reversePostorder.1.once (fun _ none => by cases none) List.nodup_nil

lemma start_mem_reversePostorder (inside : start < count) :
    start ∈ reversePostorder count succ start :=
  mem_reversePostorder.2 (explores_reversePostorder.2 inside)

lemma mem_reversePostorder_of_mem {n m : Nat} (found : n ∈ reversePostorder count succ start)
    (mem : m ∈ succ n) (inside : m < count) : m ∈ reversePostorder count succ start := by
  rw [mem_reversePostorder] at found ⊢
  exact explores_reversePostorder.1.closed n found (by simp) m mem inside

end Graph

end Avm
