import Avm.Proofs.Depth.Reduction

/-!
# Walked and coarse bounds

The depth of a graph is found by walking its trails, or bounded coarsely by summing up its nodes if
there are too many.  Both give bounds of all trails, and so does the bound that is computed for a graph
of blocks, which is made smaller before.

The main statement is `StackBounds.raw_bounds`, about all trails of a graph of blocks.
-/

namespace Avm

/-- The one of two depths that belongs to a stack. -/
def StackKind.pick (k : StackKind) (stack scope : Int) : Int :=
  match k with
  | .operand => stack
  | .scope => scope

lemma foldlM_visits {α β : Type} {f : β → α → Option β} {R : β → β → Prop} (refl : ∀ p, R p p)
    (trans : ∀ p q r, R p q → R q r → R p r) (forward : ∀ p a q, f p a = some q → R p q)
    {l : List α} {p q : β} (h : l.foldlM f p = some q) :
    R p q ∧ ∀ a ∈ l, ∃ p₁ p₂, f p₁ a = some p₂ ∧ R p₂ q := by
  induction l generalizing p with
  | nil =>
    obtain rfl := Option.some.inj h
    exact ⟨refl p, fun a mem => absurd mem List.not_mem_nil⟩
  | cons x rest ih =>
    rw [List.foldlM_cons] at h
    obtain ⟨p₁, first, h⟩ := Option.bind_eq_some_iff.1 h
    obtain ⟨later, visits⟩ := ih h
    refine ⟨trans p p₁ q (forward p x p₁ first) later, ?_⟩
    exact List.forall_mem_cons.2 ⟨⟨p, p₁, first, later⟩, visits⟩

namespace DepthGraph

variable {g : DepthGraph} {n m a b : Nat} {k : StackKind} {rest path : List Nat}

/-- The highest depth of one of the stacks. -/
def Progress.on (p : Progress) (k : StackKind) : Int := k.pick p.stack p.scope

lemma Progress.on_note (p : Progress) (s : Summary) (stack scope : Int) (k : StackKind) :
    (p.note s stack scope).on k = max (p.on k) (k.pick stack scope + (s.on k).peak) := by
  cases k <;> rfl

lemma Trail.of_append {later : List Nat} (h : g.Trail (later ++ n :: rest)) :
    g.Trail (n :: rest) := by
  induction later with
  | nil => exact h
  | cons x later ih =>
    refine ih ?_
    generalize eq : x :: later ++ n :: rest = t at h
    cases h with
    | root =>
      have := congrArg List.length eq
      simp at this
    | step trail edge new =>
      obtain ⟨-, tail⟩ := List.cons.inj eq
      rw [← tail] at trail
      exact trail

lemma Trail.eq_or_append {t : List Nat} (h : g.Trail t) :
    t = [0] ∨ ∃ n later, t = n :: (later ++ [0]) := by
  induction h with
  | root => exact .inl rfl
  | @step p q rest _ _ _ ih =>
    obtain eq | ⟨n, later, eq⟩ := ih
    · obtain ⟨rfl, rfl⟩ := List.cons.inj eq
      exact .inr ⟨q, [], rfl⟩
    · obtain ⟨rfl, rfl⟩ := List.cons.inj eq
      exact .inr ⟨q, p :: later, rfl⟩

lemma Trail.length_le (h : g.Trail (n :: path)) : path.length ≤ g.size := by
  have below : path ⊆ List.range g.size :=
    fun m mem => List.mem_range.2 (lt_size_of_isSome (h.isSome_of_mem mem))
  have := (List.subperm_of_subset (List.nodup_cons.1 h.nodup).2 below).length_le
  rwa [List.length_range] at this

lemma Trail.last_step (h : g.Trail (m :: n :: rest)) : m ∈ g.succs n ∧ m ∉ n :: rest := by
  cases h with
  | step _ edge new => exact ⟨edge, new⟩

/-- A walk only raises the highest depths, and raises them to those of every trail that goes on from
its path. -/
lemma walk_bounds {fuel : Nat} {stack scope : Int} {p p' : Progress}
    (enough : g.size < (n :: rest).length + fuel)
    (depth : ∀ k : StackKind, k.pick stack scope = g.height k (n :: rest))
    (h : g.walk fuel (n :: rest) n stack scope p = some p') :
    (∀ k, p.on k ≤ p'.on k) ∧ ∀ k m later, g.Trail (m :: (later ++ n :: rest)) →
      g.height k (later ++ n :: rest) + ((g.summary m).on k).peak ≤ p'.on k := by
  induction fuel generalizing n rest stack scope p p' with
  | zero =>
    -- The path is as long as a trail can get, so none goes on from it.
    obtain rfl := Option.some.inj h
    refine ⟨fun k => le_refl _, fun k m later trail => ?_⟩
    have := trail.length_le
    rw [List.length_append] at this
    omega
  | succ fuel ih =>
    rw [walk] at h
    have enough' (m : Nat) : g.size < (m :: n :: rest).length + fuel := by
      rw [List.length_cons]
      omega
    have depth' (m : Nat) (k : StackKind) :
        k.pick (stack + (g.summary m).stack.net) (scope + (g.summary m).scope.net)
          = g.height k (m :: n :: rest) := by
      rw [height_cons, ← depth k]
      cases k with
      | operand => exact add_comm _ _
      | scope => exact add_comm _ _
    obtain ⟨rises, visits⟩ := foldlM_visits (R := fun p q => ∀ k, p.on k ≤ q.on k)
      (fun p k => le_refl _) (fun p q r hpq hqr k => le_trans (hpq k) (hqr k)) (by
        intro p m q visit k
        split_ifs at visit
        · obtain rfl := Option.some.inj visit
          exact le_refl _
        · have rises := (ih (enough' m) (depth' m) visit).1 k
          rw [Progress.on_note] at rises
          exact le_trans (le_max_left _ _) rises) h
    -- The node that a trail goes on to first is visited, and the walk goes on from there.
    have visit {x : Nat} (trail : g.Trail (x :: n :: rest)) : ∃ p₁ p₂ : Progress,
        (∀ k, p₂.on k ≤ p'.on k) ∧
        g.walk fuel (x :: n :: rest) x (stack + (g.summary x).stack.net)
          (scope + (g.summary x).scope.net) (p₁.note (g.summary x) stack scope) = some p₂ := by
      obtain ⟨edge, new⟩ := trail.last_step
      obtain ⟨p₁, p₂, step, later⟩ := visits x (List.mem_reverse.2 edge)
      split_ifs at step with seen spent
      · exact absurd (by simpa using seen) new
      · exact ⟨_, p₂, later, step⟩
    refine ⟨rises, fun k m later trail => ?_⟩
    obtain rfl | ⟨later, x, rfl⟩ := List.eq_nil_or_concat later
    · obtain ⟨p₁, p₂, after, walked⟩ := visit trail
      have noted := (ih (enough' m) (depth' m) walked).1 k
      rw [Progress.on_note, depth k] at noted
      exact le_trans (le_trans (le_max_right _ _) noted) (after k)
    · rw [List.concat_eq_append, List.append_assoc, List.singleton_append] at trail ⊢
      have first : g.Trail (x :: n :: rest) := by
        rw [← List.cons_append] at trail
        exact trail.of_append
      obtain ⟨p₁, p₂, after, walked⟩ := visit first
      exact le_trans ((ih (enough' x) (depth' x) walked).2 k m later trail) (after k)

lemma bounded_walkPaths {budget : Nat} {bounds : Int × Int}
    (h : g.walkPaths budget = some bounds) : g.Bounded k (k.pick bounds.1 bounds.2) := by
  obtain ⟨p, walked, rfl⟩ := Option.map_eq_some_iff.1 h
  have depth (k : StackKind) : k.pick (g.summary 0).stack.net (g.summary 0).scope.net
      = g.height k [0] := by
    rw [height_cons, height_nil, add_zero]
    cases k <;> rfl
  obtain ⟨rises, deep⟩ := walk_bounds (by rw [List.length_singleton]; omega) depth walked
  intro n rest trail
  obtain eq | ⟨m, later, eq⟩ := trail.eq_or_append
  · obtain ⟨rfl, rfl⟩ := List.cons.inj eq
    have noted := rises k
    rw [Progress.on_note] at noted
    have root := le_trans (le_max_right _ _) noted
    cases k with
    | operand => exact root
    | scope => exact root
  · obtain ⟨rfl, rfl⟩ := List.cons.inj eq
    exact deep k n later trail

lemma foldl_add_eq_sum {α : Type} (f : α → Int) (l : List α) (start : Int) :
    l.foldl (fun n s => n + f s) start = start + (l.map f).sum := by
  induction l generalizing start with
  | nil => simp
  | cons x rest ih =>
    rw [List.foldl_cons, ih, List.map_cons, List.sum_cons]
    ring

lemma le_foldl_max {α : Type} (f : α → Int) (l : List α) (start : Int) :
    start ≤ l.foldl (fun m s => max m (f s)) start ∧
      ∀ x ∈ l, f x ≤ l.foldl (fun m s => max m (f s)) start := by
  induction l generalizing start with
  | nil => exact ⟨le_refl _, fun x mem => absurd mem List.not_mem_nil⟩
  | cons x rest ih =>
    obtain ⟨above, all⟩ := ih (max start (f x))
    refine ⟨le_trans (le_max_left _ _) above, List.forall_mem_cons.2 ⟨?_, all⟩⟩
    exact le_trans (le_max_right _ _) above

lemma mem_live : n ∈ g.live ↔ (g.node? n).isSome = true := by
  rw [live, List.mem_filter, List.mem_range]
  exact ⟨fun h => h.2, fun h => ⟨lt_size_of_isSome h, h⟩⟩

lemma height_le_sum_live (sub : rest ⊆ g.live) (nodup : rest.Nodup) :
    g.height k rest ≤ (g.live.map fun n => max ((g.summary n).on k).net 0).sum := by
  have each : g.height k rest ≤ (rest.map fun n => max ((g.summary n).on k).net 0).sum :=
    List.sum_le_sum fun n _ => le_max_left _ _
  obtain ⟨l, perm, sublist⟩ := List.subperm_of_subset nodup sub
  refine le_trans each ?_
  rw [← (perm.map fun n => max ((g.summary n).on k).net 0).sum_eq]
  refine (sublist.map _).sum_le_sum ?_
  intro x mem
  obtain ⟨n, -, rfl⟩ := List.mem_map.1 mem
  exact le_max_right _ _

lemma bounded_coarseBound : g.Bounded k (k.pick g.coarseBound.1 g.coarseBound.2) := by
  intro n rest trail
  have sub : rest ⊆ g.live := fun m mem => mem_live.2 (trail.isSome_of_mem mem)
  have heights := @height_le_sum_live g k rest sub (List.nodup_cons.1 trail.nodup).2
  have eq : k.pick g.coarseBound.1 g.coarseBound.2 =
      (g.live.map g.summary).foldl (fun n s => n + max (s.on k).net 0) 0 +
        (g.live.map g.summary).foldl (fun m s => max m (s.on k).peak) 0 := by
    cases k <;> rfl
  obtain ⟨nonneg, above⟩ :=
    le_foldl_max (fun s : Summary => (s.on k).peak) (g.live.map g.summary) 0
  have peak : ((g.summary n).on k).peak ≤
      (g.live.map g.summary).foldl (fun m s => max m (s.on k).peak) 0 := by
    cases there : g.node? n with
    | none =>
      rw [summary, there]
      simpa using nonneg
    | some d =>
      have live : n ∈ g.live := mem_live.2 (by rw [there]; rfl)
      exact above _ (List.mem_map_of_mem live)
  rw [eq, foldl_add_eq_sum, zero_add, List.map_map]
  exact add_le_add heights peak

end DepthGraph

namespace BlockGraph

/-- The effect of a block. -/
def summary (b : BlockGraph) (i : Nat) : Summary := b.summaries[i]?.getD {}

/-- The blocks that a block continues at. -/
def succs (b : BlockGraph) (i : Nat) : List Nat := b.successors[i]?.getD []

/-- Starts and successors are blocks. -/
structure InRange (b : BlockGraph) : Prop where
  roots : ∀ e ∈ b.roots, e.1 < b.summaries.length
  succs : ∀ i, ∀ j ∈ b.succs i, j < b.summaries.length

/-- The list is a path of blocks from a start of control that passes no block twice; its last block
comes first. -/
inductive Trail (b : BlockGraph) (start : Summary) : List Nat → Prop
  | root {i : Nat} : (i, start) ∈ b.roots → Trail b start [i]
  | step {i j : Nat} {rest : List Nat} : Trail b start (i :: rest) → j ∈ b.succs i → j ∉ i :: rest →
      Trail b start (j :: i :: rest)

/-- What blocks add to the depth of a stack. -/
def height (b : BlockGraph) (k : StackKind) (is : List Nat) : Int :=
  (is.map fun i => ((b.summary i).on k).net).sum

lemma height_cons {b : BlockGraph} {k : StackKind} {i : Nat} {is : List Nat} :
    b.height k (i :: is) = ((b.summary i).on k).net + b.height k is := rfl

/-- The number of the node that stands for a block. -/
def number (b : BlockGraph) (i : Nat) : Nat := 1 + b.roots.length + i

end BlockGraph

namespace DepthGraph

variable {b : BlockGraph} {n m i j r : Nat} {k : StackKind} {start : Summary} {rest : List Nat}

lemma node?_ofBlocks_root : (ofBlocks b).node? 0 =
    some ⟨{}, (List.range b.roots.length).map (· + 1)⟩ := by
  simp [node?, ofBlocks]

lemma node?_ofBlocks_start (h : b.roots[r]? = some (i, start)) :
    (ofBlocks b).node? (1 + r) = some ⟨start, [b.number i]⟩ := by
  obtain ⟨lt, value⟩ := List.getElem?_eq_some_iff.1 h
  simp [node?, ofBlocks, Nat.add_comm 1 r, List.getElem?_append, lt, value, BlockGraph.number]

lemma node?_ofBlocks_block : (ofBlocks b).node? (b.number i) = b.summaries[i]?.map fun s =>
    ⟨s, Ascending.ofList ((b.succs i).map b.number)⟩ := by
  have le : ¬b.roots.length + i < b.roots.length := by omega
  have sub : b.roots.length + i - b.roots.length = i := by omega
  have shift : b.number i = b.roots.length + i + 1 := by
    rw [BlockGraph.number]
    omega
  rw [shift]
  simp only [node?, ofBlocks, List.getElem?_toArray, List.getElem?_map, List.cons_append,
    List.getElem?_cons_succ, List.getElem?_append, List.length_map, le, if_false, sub,
    List.getElem?_mapIdx]
  cases b.summaries[i]? <;> rfl

lemma summary_ofBlocks : (ofBlocks b).summary (b.number i) = b.summary i := by
  rw [summary, node?_ofBlocks_block, BlockGraph.summary]
  cases b.summaries[i]? <;> rfl

lemma succs_ofBlocks (lt : i < b.summaries.length) :
    (ofBlocks b).succs (b.number i) = Ascending.ofList ((b.succs i).map b.number) := by
  rw [succs, node?_ofBlocks_block, List.getElem?_eq_getElem lt]
  rfl

lemma succs_ofBlocks_of_le (le : b.summaries.length ≤ i) : (ofBlocks b).succs (b.number i) = [] := by
  rw [succs, node?_ofBlocks_block, List.getElem?_eq_none le]
  rfl

lemma succs_ofBlocks_root :
    (ofBlocks b).succs 0 = (List.range b.roots.length).map (· + 1) := by
  rw [succs, node?_ofBlocks_root]
  rfl

lemma succs_ofBlocks_start (h : b.roots[r]? = some (i, start)) :
    (ofBlocks b).succs (1 + r) = [b.number i] := by
  rw [succs, node?_ofBlocks_start h]
  rfl

lemma node_cases (b : BlockGraph) (n : Nat) :
    n = 0 ∨ (∃ r i start, b.roots[r]? = some (i, start) ∧ n = 1 + r) ∨ ∃ i, n = b.number i := by
  rcases Nat.eq_zero_or_pos n with rfl | pos
  · exact .inl rfl
  · rcases Nat.lt_or_ge (n - 1) b.roots.length with lt | le
    · exact .inr (.inl ⟨n - 1, _, _, List.getElem?_eq_getElem lt, by omega⟩)
    · refine .inr (.inr ⟨n - 1 - b.roots.length, ?_⟩)
      rw [BlockGraph.number]
      omega

lemma mem_succs_ofBlocks (h : m ∈ (ofBlocks b).succs n) :
    (∃ r < b.roots.length, n = 0 ∧ m = 1 + r) ∨
    (∃ e ∈ b.roots, m = b.number e.1) ∨ ∃ i, ∃ j ∈ b.succs i, m = b.number j := by
  obtain rfl | ⟨r, i, start, root, rfl⟩ | ⟨i, rfl⟩ := node_cases b n
  · rw [succs_ofBlocks_root] at h
    obtain ⟨r, mem, rfl⟩ := List.mem_map.1 h
    exact .inl ⟨r, List.mem_range.1 mem, rfl, Nat.add_comm r 1⟩
  · rw [succs_ofBlocks_start root] at h
    exact .inr (.inl ⟨_, List.mem_of_getElem? root, List.mem_singleton.1 h⟩)
  · rcases Nat.lt_or_ge i b.summaries.length with lt | le
    · rw [succs_ofBlocks lt, Ascending.mem_ofList] at h
      obtain ⟨j, mem, rfl⟩ := List.mem_map.1 h
      exact .inr (.inr ⟨i, j, mem, rfl⟩)
    · rw [succs_ofBlocks_of_le le] at h
      exact absurd h List.not_mem_nil

lemma isSome_ofBlocks_block (lt : i < b.summaries.length) :
    ((ofBlocks b).node? (b.number i)).isSome = true := by
  rw [node?_ofBlocks_block, List.getElem?_eq_getElem lt]
  rfl

lemma tidy_ofBlocks (range : b.InRange) : (ofBlocks b).Tidy := by
  constructor
  case closed =>
    intro n m edge
    obtain ⟨r, lt, -, rfl⟩ | ⟨e, mem, rfl⟩ | ⟨i, j, mem, rfl⟩ := mem_succs_ofBlocks edge
    · rw [node?_ofBlocks_start (List.getElem?_eq_getElem lt)]
      rfl
    · exact isSome_ofBlocks_block (range.roots e mem)
    · exact isSome_ofBlocks_block (range.succs i j mem)
  case nodup =>
    intro n
    obtain rfl | ⟨r, i, start, root, rfl⟩ | ⟨i, rfl⟩ := node_cases b n
    · rw [succs_ofBlocks_root]
      exact List.nodup_range.map (add_left_injective 1)
    · rw [succs_ofBlocks_start root]
      exact List.nodup_singleton _
    · rcases Nat.lt_or_ge i b.summaries.length with lt | le
      · rw [succs_ofBlocks lt]
        exact Ascending.nodup_ofList _
      · rw [succs_ofBlocks_of_le le]
        exact List.nodup_nil
  case root =>
    intro n edge
    obtain ⟨r, -, rfl, -⟩ | ⟨e, -, zero⟩ | ⟨i, j, -, zero⟩ := mem_succs_ofBlocks edge
    · rfl
    · rw [BlockGraph.number] at zero
      omega
    · rw [BlockGraph.number] at zero
      omega

lemma trail_ofBlocks (range : b.InRange) {t : List Nat} (trail : b.Trail start t) :
    (∀ i ∈ t, i < b.summaries.length) ∧ ∃ r i, b.roots[r]? = some (i, start) ∧
      (ofBlocks b).Trail (t.map b.number ++ [1 + r, 0]) := by
  induction trail with
  | @root i mem =>
    obtain ⟨r, root⟩ := List.getElem?_of_mem mem
    have lt := (List.getElem?_eq_some_iff.1 root).1
    refine ⟨List.forall_mem_singleton.2 (range.roots _ mem), r, i, root, ?_⟩
    have first : (1 + r) ∈ (ofBlocks b).succs 0 := by
      rw [succs_ofBlocks_root]
      exact List.mem_map.2 ⟨r, List.mem_range.2 lt, Nat.add_comm r 1⟩
    have second : b.number i ∈ (ofBlocks b).succs (1 + r) := by
      rw [succs_ofBlocks_start root]
      exact List.mem_singleton_self _
    refine (Trail.root.step first ?_).step second ?_
    · simp
    · simp only [BlockGraph.number, List.mem_cons, List.not_mem_nil, or_false, not_or]
      omega
  | @step i j rest _ edge new ih =>
    obtain ⟨below, r, first, root, trail'⟩ := ih
    refine ⟨List.forall_mem_cons.2 ⟨range.succs i j edge, below⟩, r, first, root, ?_⟩
    have lt := (List.getElem?_eq_some_iff.1 root).1
    have edge' : b.number j ∈ (ofBlocks b).succs (b.number i) := by
      rw [succs_ofBlocks (below i List.mem_cons_self), Ascending.mem_ofList]
      exact List.mem_map_of_mem edge
    have injective : Function.Injective b.number := fun x y eq => Nat.add_left_cancel eq
    have fresh : b.number j ∉ (i :: rest).map b.number ++ [1 + r, 0] := by
      rw [List.mem_append, not_or, List.mem_map_of_injective injective]
      refine ⟨new, ?_⟩
      simp only [BlockGraph.number, List.mem_cons, List.not_mem_nil, or_false, not_or]
      omega
    exact trail'.step edge' fresh

lemma height_ofBlocks (root : b.roots[r]? = some (i, start)) :
    (ofBlocks b).height k (rest.map b.number ++ [1 + r, 0]) =
      b.height k rest + (start.on k).net := by
  have inner : (fun n => (((ofBlocks b).summary n).on k).net) ∘ b.number
      = fun i => ((b.summary i).on k).net := by
    funext i
    rw [Function.comp_apply, summary_ofBlocks]
  have first : (ofBlocks b).summary (1 + r) = start := by
    rw [summary, node?_ofBlocks_start root]
    rfl
  have zero : (ofBlocks b).summary 0 = {} := by
    rw [summary, node?_ofBlocks_root]
    rfl
  rw [height, List.map_append, List.sum_append, List.map_map, inner]
  simp [first, zero, BlockGraph.height]

end DepthGraph

/-- The bound of a graph of blocks is one of all its trails, on both stacks and for any number of
steps that may be walked. -/
theorem StackBounds.raw_bounds {b : BlockGraph} (range : b.InRange) (budget : Nat) {start : Summary}
    {i : Nat} {rest : List Nat} (trail : b.Trail start (i :: rest)) (k : StackKind) :
    (start.on k).net + b.height k rest + ((b.summary i).on k).peak ≤
      k.pick (raw b budget).1 (raw b budget).2 := by
  have bounded : (DepthGraph.ofBlocks b).reduce.Bounded k
      (k.pick (raw b budget).1 (raw b budget).2) := by
    rw [raw]
    cases walked : (DepthGraph.ofBlocks b).reduce.walkPaths budget with
    | none => exact DepthGraph.bounded_coarseBound
    | some bounds => exact DepthGraph.bounded_walkPaths walked
  obtain ⟨-, r, first, root, trail'⟩ := DepthGraph.trail_ofBlocks range trail
  rw [List.map_cons, List.cons_append] at trail'
  have deep := DepthGraph.bounded_of_reduce (DepthGraph.tidy_ofBlocks range) bounded _ _ trail'
  rw [DepthGraph.summary_ofBlocks, DepthGraph.height_ofBlocks root] at deep
  omega

end Avm
