import Avm.Proofs.Ir.Weighing

/-!
# Phis that merge a single value

Phis that merge a single value are removed in rounds.  A removal may make another phi merge a single value, so
rounds go on until one removes nothing.  Each removal takes a node away, so there are fewer rounds than nodes
and the bound on the number of rounds is never what ends them.

The main statements are `trivialValue?_removeTrivialPhis` and `removeTrivialPhis_eq_self`.
-/

namespace Avm.Ir.Func

variable {f : Func} {v w : ValueId}

/-- The nodes that exist. -/
def census (f : Func) : Finset ValueId := (Finset.range f.nodes.size).filter fun v => (f.node? v).isSome

lemma mem_census : v ∈ f.census ↔ (f.node? v).isSome := by
  rw [census, Finset.mem_filter, Finset.mem_range, and_iff_right_iff_imp]
  exact lt_size_of_node?

lemma card_census_le : f.census.card ≤ f.nodes.size := by
  refine (Finset.card_filter_le _ _).trans ?_
  rw [Finset.card_range]

lemma isSome_node?_replaceUses {new : Value} : ((f.replaceUses v new).node? w).isSome = (f.node? w).isSome := by
  have same : ((f.replaceUses v new).shape? w).isSome = (f.shape? w).isSome := by rw [shape?_replaceUses]
  rwa [shape?, shape?, Option.isSome_map, Option.isSome_map] at same

lemma isSome_of_trivialValue? {x : Value} (trivial : f.trivialValue? v = some x) : (f.inputs? v).isSome := by
  by_contra none
  rw [Option.not_isSome_iff_eq_none] at none
  simp [trivialValue?, merged, none] at trivial

lemma removeTrivialPhi_fewer (acc : Func × Nat) (v : ValueId) :
    (removeTrivialPhi acc v).2 + (removeTrivialPhi acc v).1.census.card = acc.2 + acc.1.census.card := by
  rw [removeTrivialPhi]
  split
  · rename_i x trivial
    have there : (acc.1.node? v).isSome := by
      have phi := isSome_of_trivialValue? trivial
      rw [inputs?_eq] at phi
      cases here : acc.1.node? v with
      | none => simp [here] at phi
      | some n => rfl
    have gone : ((acc.1.replaceUses v x).dropNode v).census = acc.1.census.erase v := by
      ext w
      rw [mem_census, node?_dropNode, Finset.mem_erase, mem_census]
      split
      · rename_i same
        simp [same]
      · rename_i other
        rw [isSome_node?_replaceUses, and_iff_right other]
    have mem : v ∈ acc.1.census := mem_census.2 there
    have positive : 0 < acc.1.census.card := Finset.card_pos.2 ⟨v, mem⟩
    rw [gone, Finset.card_erase_of_mem mem]
    omega
  · rfl

lemma foldl_removeTrivialPhi_fewer (vs : List ValueId) (acc : Func × Nat) :
    (vs.foldl removeTrivialPhi acc).2 + (vs.foldl removeTrivialPhi acc).1.census.card = acc.2 + acc.1.census.card := by
  induction vs generalizing acc with
  | nil => rfl
  | cons v vs ih => exact (ih _).trans (removeTrivialPhi_fewer acc v)

lemma le_foldl_removeTrivialPhi (vs : List ValueId) (acc : Func × Nat) : acc.2 ≤ (vs.foldl removeTrivialPhi acc).2 := by
  induction vs generalizing acc with
  | nil => exact Nat.le_refl _
  | cons v vs ih =>
    refine le_trans ?_ (ih (removeTrivialPhi acc v))
    rw [removeTrivialPhi]
    split
    · exact Nat.le_succ _
    · exact Nat.le_refl _

lemma foldl_removeTrivialPhi_of_none {vs : List ValueId} {acc : Func × Nat}
    (none : ∀ v ∈ vs, acc.1.trivialValue? v = none) : vs.foldl removeTrivialPhi acc = acc := by
  induction vs with
  | nil => rfl
  | cons v vs ih =>
    have first : removeTrivialPhi acc v = acc := by rw [removeTrivialPhi, none v List.mem_cons_self]
    rw [List.foldl_cons, first]
    exact ih fun w mem => none w (List.mem_cons_of_mem _ mem)

lemma foldl_removeTrivialPhi_eq {vs : List ValueId} {acc : Func × Nat}
    (same : (vs.foldl removeTrivialPhi acc).2 = acc.2) : ∀ v ∈ vs, acc.1.trivialValue? v = none := by
  induction vs with
  | nil => exact fun v mem => absurd mem List.not_mem_nil
  | cons v vs ih =>
    rw [List.foldl_cons] at same
    have first : acc.1.trivialValue? v = none := by
      cases trivial : acc.1.trivialValue? v with
      | none => rfl
      | some x =>
        have more := le_foldl_removeTrivialPhi vs (removeTrivialPhi acc v)
        rw [same, removeTrivialPhi, trivial] at more
        exact absurd more (Nat.not_succ_le_self _)
    have stays : removeTrivialPhi acc v = acc := by rw [removeTrivialPhi, first]
    rw [stays] at same
    intro w mem
    cases List.mem_cons.1 mem with
    | inl here => rw [here, first]
    | inr later => exact ih same w later

lemma removeTrivialPhisLoop_spec (fuel : Nat) (acc : Func × Nat) (enough : acc.1.census.card < fuel) :
    ∀ v ∈ (removeTrivialPhisLoop fuel acc).1.nodeIds, (removeTrivialPhisLoop fuel acc).1.trivialValue? v = none := by
  induction fuel generalizing acc with
  | zero => exact absurd enough (Nat.not_lt_zero _)
  | succ fuel ih =>
    rw [removeTrivialPhisLoop]
    split
    · rename_i same
      have none := foldl_removeTrivialPhi_eq same
      rw [foldl_removeTrivialPhi_of_none none]
      exact none
    · rename_i more
      have fewer := foldl_removeTrivialPhi_fewer acc.1.nodeIds acc
      have grows := le_foldl_removeTrivialPhi acc.1.nodeIds acc
      exact ih _ (by omega)

lemma trivialValue?_removeTrivialPhis (f : Func) :
    ∀ v ∈ f.removeTrivialPhis.1.nodeIds, f.removeTrivialPhis.1.trivialValue? v = none :=
  removeTrivialPhisLoop_spec _ _ (Nat.lt_succ_of_le card_census_le)

lemma removeTrivialPhis_eq_self (none : ∀ v ∈ f.nodeIds, f.trivialValue? v = none) : f.removeTrivialPhis = (f, 0) := by
  have round : f.nodeIds.foldl removeTrivialPhi (f, 0) = (f, 0) := foldl_removeTrivialPhi_of_none none
  rw [removeTrivialPhis, removeTrivialPhisLoop]
  dsimp only
  rw [round, if_pos rfl]

lemma exists_ne_of_trivialValue? {is : List PhiInput} {i : PhiInput} (inputs : f.inputs? v = some is)
    (none : f.trivialValue? v = none) (mem : i ∈ is) (other : i.value ≠ .node v) :
    ∃ j ∈ is, j.value ≠ .node v ∧ j.value ≠ i.value := by
  have merged : f.merged v = is.map (·.value) := by rw [merged, inputs, Option.getD_some]
  have apart (x : Value) : x ∈ (is.map (·.value)).filter (· != .node v) ↔ ∃ j ∈ is, j.value ≠ .node v ∧
    j.value = x := by
    simp only [List.mem_filter, List.mem_map, bne_iff_ne]
    constructor
    · rintro ⟨⟨j, mem, rfl⟩, ne⟩
      exact ⟨j, mem, ne, rfl⟩
    · rintro ⟨j, mem, ne, rfl⟩
      exact ⟨⟨j, mem, rfl⟩, ne⟩
  rw [trivialValue?, merged] at none
  split at none
  · rename_i empty
    have mem := (apart i.value).2 ⟨i, mem, other, rfl⟩
    rw [empty] at mem
    cases mem
  · rename_i first more split
    rw [split] at apart
    by_cases same : first = i.value
    · -- Some later value differs from the first.
      have differs : more.all (· == first) = false := by
        rw [ite_eq_right_iff, Bool.eq_false_iff] at *
        exact fun all => Option.some_ne_none _ (none all)
      obtain ⟨x, there, ne⟩ := List.all_eq_false.1 differs
      obtain ⟨j, mem, away, rfl⟩ := (apart x).1 (List.mem_cons_of_mem _ there)
      rw [beq_iff_eq, same] at ne
      exact ⟨j, mem, away, ne⟩
    · obtain ⟨j, mem, away, rfl⟩ := (apart first).1 List.mem_cons_self
      exact ⟨j, mem, away, same⟩

end Avm.Ir.Func
