import Avm.Proofs.Depth.Walk

/-!
# Rewriting ends

Making a graph of summaries smaller rewrites it at one place after another.  Each rewrite takes away nodes or edges, so
there is no endless sequence of them, in whatever order they are made.  The loop that makes them ends where none can be
made any more, and the bound that is then computed is one of all trails of the blocks.

The main statement is `trails_bounded_and_reduced`.
-/

namespace Avm.DepthGraph

open Relation (ReflTransGen)

variable {g g' : DepthGraph} {n m a b : Nat} {target : Option Nat} {keep : Nat} {others : List Nat}
  {degrees : Array Nat}

/-- One of the three changes that make a graph smaller, at one place. -/
inductive Rewrites (g : DepthGraph) : DepthGraph → Prop
  | merge {a b : Nat} : g.Chain a b → Rewrites g (g.mergeWith a b)
  | delete {n : Nat} : n ∈ g.live → n ≠ 0 → (∀ x, n ∉ g.succs x) → Rewrites g (g.removeNode n)
  | join {a : Nat} {target : Option Nat} {keep : Nat} {others : List Nat} :
      g.Group a target (keep :: others) →
      2 ≤ (keep :: others).length + (g.isDirect a target).toNat →
      Rewrites g (g.joinGroup a target keep others)

/-- No rewrite applies. -/
def Reduced (g : DepthGraph) : Prop := ∀ g', ¬g.Rewrites g'

lemma Tidy.rewrites (tidy : g.Tidy) (h : g.Rewrites g') : g'.Tidy := by
  cases h with
  | merge chain => exact tidy.mergeWith chain
  | delete => exact tidy.removeNode
  | join group => exact group.tidy_joinGroup tidy

lemma Tidy.rewritten (tidy : g.Tidy) (h : ReflTransGen Rewrites g g') : g'.Tidy := by
  induction h with
  | refl => exact tidy
  | tail _ step ih => exact ih.rewrites step

section Weight

/-- What a node counts for in the weight of its graph: itself and the edges that leave it. -/
def cost (g : DepthGraph) (n : Nat) : Nat := (g.node? n).elim 0 fun d => 1 + d.succs.length

lemma weight_eq_sum : g.weight = ∑ n ∈ Finset.range g.size, g.cost n := by
  have sum : ∀ (l : List (Option DepthNode)) (start : Nat),
      l.foldl (fun n d => n + d.elim 0 fun d => 1 + d.succs.length) start =
        start + ∑ n ∈ Finset.range l.length, (l[n]?.join).elim 0 fun d => 1 + d.succs.length := by
    intro l
    induction l with
    | nil => simp
    | cons d l ih =>
      intro start
      rw [List.foldl_cons, ih, List.length_cons, Finset.sum_range_succ']
      simp only [List.getElem?_cons_succ, List.getElem?_cons_zero, Option.join_some]
      omega
  rw [weight, sum, Nat.zero_add, Array.length_toList]
  exact Finset.sum_congr rfl fun n _ => by rw [cost, node?, Array.getElem?_toList]

lemma cost_pos (h : (g.node? n).isSome = true) : 0 < g.cost n := by
  obtain ⟨d, there⟩ := Option.isSome_iff_exists.1 h
  rw [cost, there, Option.elim_some]
  omega

lemma cost_eq (h : (g.node? n).isSome = true) : g.cost n = 1 + (g.succs n).length := by
  obtain ⟨d, there⟩ := Option.isSome_iff_exists.1 h
  rw [cost, succs, there]
  rfl

lemma cost_setNode_self {d : DepthNode} (lt : n < g.size) :
    (g.setNode n d).cost n = 1 + d.succs.length := by
  rw [cost, node?_setNode_self lt]
  rfl

lemma cost_setNode_ne {d : DepthNode} (ne : m ≠ n) : (g.setNode n d).cost m = g.cost m := by
  rw [cost, node?_setNode_ne ne, cost]

lemma cost_removeNode_self : (g.removeNode n).cost n = 0 := by
  rw [cost, node?_removeNode, if_pos rfl]
  rfl

lemma cost_removeNode_le : (g.removeNode n).cost m ≤ g.cost m := by
  rw [cost, node?_removeNode, cost]
  split
  · exact Nat.zero_le _
  · cases g.node? m with
    | none => exact Nat.le_refl _
    | some d => exact Nat.add_le_add_left (List.length_filter_le _ _) 1

lemma cost_foldl_removeNode_le : (others.foldl removeNode g).cost m ≤ g.cost m := by
  induction others generalizing g with
  | nil => exact Nat.le_refl _
  | cons n rest ih => exact ih.trans cost_removeNode_le

lemma cost_foldl_removeNode_of_mem (mem : m ∈ others) : (others.foldl removeNode g).cost m = 0 := by
  induction others generalizing g with
  | nil => cases mem
  | cons n rest ih =>
    rw [List.foldl_cons]
    obtain rfl | mem := List.mem_cons.1 mem
    · exact Nat.le_zero.1 (cost_foldl_removeNode_le.trans (Nat.le_of_eq cost_removeNode_self))
    · exact ih mem

/-- A graph is lighter if, up to an exchange of nodes, no node costs more and one costs less. -/
lemma weight_lt_of_cost (places : Equiv.Perm Nat) (size : g'.size = g.size)
    (inside : ∀ n, places n < g.size ↔ n < g.size) (le : ∀ n, g'.cost (places n) ≤ g.cost n)
    (lt : m < g.size) (less : g'.cost (places m) < g.cost m) : g'.weight < g.weight := by
  rw [weight_eq_sum, weight_eq_sum, size]
  have moved : ∑ n ∈ Finset.range g.size, g'.cost (places n) =
      ∑ n ∈ Finset.range g.size, g'.cost n :=
    Finset.sum_equiv places (by simp [inside]) fun _ _ => rfl
  rw [← moved]
  exact Finset.sum_lt_sum (fun n _ => le n) ⟨m, Finset.mem_range.2 lt, less⟩

lemma length_ofList_le (l : List Nat) : (Ascending.ofList l).length ≤ l.length :=
  (List.subperm_of_subset (Ascending.nodup_ofList l) fun _ mem => Ascending.mem_ofList.1 mem).length_le

lemma weight_mergeWith_lt (tidy : g.Tidy) (chain : g.Chain a b) :
    (g.mergeWith a b).weight < g.weight := by
  have edge : b ∈ g.succs a := chain.only ▸ List.mem_singleton_self b
  have first := isSome_of_mem_succs edge
  have second := tidy.closed a b edge
  have gone : (g.mergeWith a b).cost b = 0 := by
    rw [mergeWith, cost_setNode_ne chain.other, cost_removeNode_self]
  -- The first node takes over the edges of the second, and the second is gone.
  refine weight_lt_of_cost (m := a) (Equiv.swap a b) (by rw [mergeWith, size_setNode, size_removeNode])
    (fun n => ?_) (fun n => ?_) (lt_size_of_isSome first) ?_
  · have lt := lt_size_of_isSome first
    have lt' := lt_size_of_isSome second
    rw [Equiv.swap_apply_def]
    split_ifs with same same
    · simp [same, lt, lt']
    · simp [same, lt, lt']
    · exact Iff.rfl
  · rw [Equiv.swap_apply_def]
    split_ifs with isFirst isSecond
    · rw [gone]
      exact Nat.zero_le _
    · rw [isSecond, cost_eq second, mergeWith, cost_setNode_self chain.lt_size]
      have := length_ofList_le ((g.succs b).map fun s => if s = b then a else s)
      rw [List.length_map] at this
      exact Nat.add_le_add_left this 1
    · rw [mergeWith, cost_setNode_ne isFirst]
      exact cost_removeNode_le
  · rw [Equiv.swap_apply_left, gone]
    exact cost_pos first

lemma weight_removeNode_lt (there : (g.node? n).isSome = true) : (g.removeNode n).weight < g.weight := by
  refine weight_lt_of_cost (m := n) (Equiv.refl Nat) size_removeNode (fun _ => Iff.rfl)
    (fun _ => cost_removeNode_le) (lt_size_of_isSome there) ?_
  rw [Equiv.refl_apply, cost_removeNode_self]
  exact cost_pos there

lemma size_pruned : (g.pruned a target others).size = g.size := by
  rw [pruned]
  split
  · rw [size_setNode, size_foldl_removeNode]
  · exact size_foldl_removeNode

lemma cost_pruned_le (apart : a ∉ others) : (g.pruned a target others).cost m ≤ g.cost m := by
  rw [pruned]
  split
  · rename_i direct
    by_cases same : m = a
    · have there : ((others.foldl removeNode g).node? a).isSome = true := by
        obtain ⟨t, -, edge⟩ := exists_of_isDirect direct
        exact isSome_node?_foldl_removeNode.2 ⟨apart, isSome_of_mem_succs edge⟩
      rw [same, cost_setNode_self (lt_size_of_isSome there)]
      have le : (others.foldl removeNode g).cost a ≤ g.cost a := cost_foldl_removeNode_le
      refine le_trans ?_ le
      rw [cost_eq there]
      exact Nat.add_le_add_left (List.length_filter_le _ _) 1
    · rw [cost_setNode_ne same]
      exact cost_foldl_removeNode_le
  · exact cost_foldl_removeNode_le

lemma cost_pruned_lt (apart : a ∉ others) (direct : g.isDirect a target = true)
    (reach : ∀ t ∈ target, t ∉ others) : (g.pruned a target others).cost a < g.cost a := by
  obtain ⟨t, eq, edge⟩ := exists_of_isDirect direct
  have there : ((others.foldl removeNode g).node? a).isSome = true :=
    isSome_node?_foldl_removeNode.2 ⟨apart, isSome_of_mem_succs edge⟩
  rw [pruned, if_pos direct, cost_setNode_self (lt_size_of_isSome there)]
  have le : (others.foldl removeNode g).cost a ≤ g.cost a := cost_foldl_removeNode_le
  refine lt_of_lt_of_le ?_ le
  rw [cost_eq there]
  refine Nat.add_lt_add_left ?_ 1
  rw [List.length_filter_lt_length_iff_exists]
  exact ⟨t, mem_succs_foldl_removeNode.2 ⟨apart, reach t eq, edge⟩, by simp [eq]⟩

lemma weight_joinGroup_lt (tidy : g.Tidy) (group : g.Group a target (keep :: others))
    (ways : 2 ≤ (keep :: others).length + (g.isDirect a target).toNat) :
    (g.joinGroup a target keep others).weight < g.weight := by
  have apart : a ∉ others := fun mem => group.apart (List.mem_cons_of_mem _ mem)
  have there {b : Nat} (mem : b ∈ keep :: others) : (g.node? b).isSome = true :=
    tidy.closed a b (group.branch b mem)
  have cost {x : Nat} (ne : x ≠ keep) :
      (g.joinGroup a target keep others).cost x = (g.pruned a target others).cost x := by
    rw [joinGroup_eq, cost_setNode_ne ne]
  have size : (g.joinGroup a target keep others).size = g.size := by
    rw [joinGroup_eq, size_setNode, size_pruned]
  have le (x : Nat) : (g.joinGroup a target keep others).cost x ≤ g.cost x := by
    by_cases same : x = keep
    · rw [same, joinGroup_eq, cost_setNode_self (group.keep_lt tidy),
        cost_eq (there List.mem_cons_self)]
    · rw [cost same]
      exact cost_pruned_le apart
  -- A second branch is gone, or else the direct edge.
  cases others with
  | cons other rest =>
    have mem : other ∈ keep :: other :: rest := List.mem_cons_of_mem _ List.mem_cons_self
    have ne : other ≠ keep := by
      rintro rfl
      exact group.keep_not_mem List.mem_cons_self
    refine weight_lt_of_cost (m := other) (Equiv.refl Nat) size (fun _ => Iff.rfl) le
      (lt_size_of_isSome (there mem)) ?_
    have first : other ≠ a := by
      rintro rfl
      exact group.apart mem
    rw [Equiv.refl_apply, cost ne, pruned]
    have gone : ((other :: rest).foldl removeNode g).cost other = 0 :=
      cost_foldl_removeNode_of_mem List.mem_cons_self
    split
    · rw [cost_setNode_ne first, gone]
      exact cost_pos (there mem)
    · rw [gone]
      exact cost_pos (there mem)
  | nil =>
    have direct : g.isDirect a target = true := by
      by_contra not
      rw [Bool.not_eq_true] at not
      rw [not, Bool.toNat_false, List.length_singleton] at ways
      omega
    have edge := group.branch keep List.mem_cons_self
    have ne : a ≠ keep := (group.other keep List.mem_cons_self).symm
    refine weight_lt_of_cost (m := a) (Equiv.refl Nat) size (fun _ => Iff.rfl) le
      (lt_size_of_mem_succs edge) ?_
    rw [Equiv.refl_apply, cost ne]
    exact cost_pruned_lt apart direct fun _ _ => List.not_mem_nil

lemma weight_lt_of_rewrites (tidy : g.Tidy) (h : g.Rewrites g') : g'.weight < g.weight := by
  cases h with
  | merge chain => exact weight_mergeWith_lt tidy chain
  | delete there => exact weight_removeNode_lt (mem_live.1 there)
  | join group ways => exact weight_joinGroup_lt tidy group ways

lemma eq_or_weight_lt (tidy : g.Tidy) (h : ReflTransGen Rewrites g g') :
    g' = g ∨ g'.weight < g.weight := by
  induction h with
  | refl => exact .inl rfl
  | tail before step ih =>
    have less := weight_lt_of_rewrites (tidy.rewritten before) step
    obtain rfl | less' := ih
    · exact .inr less
    · exact .inr (less.trans less')

lemma weight_le_of_rewritten (tidy : g.Tidy) (h : ReflTransGen Rewrites g g') :
    g'.weight ≤ g.weight := by
  obtain rfl | less := eq_or_weight_lt tidy h
  · exact Nat.le_refl _
  · exact less.le

lemma acc_rewrites (tidy : g.Tidy) : Acc (fun h h' : DepthGraph => h'.Rewrites h) g := by
  induction weight : g.weight using Nat.strong_induction_on generalizing g with
  | _ w ih =>
    subst weight
    exact .intro g fun g' step => ih _ (weight_lt_of_rewrites tidy step) (tidy.rewrites step) rfl

end Weight

section Passes

lemma rewritten_mergeChain {fuel : Nat} :
    ReflTransGen Rewrites g (mergeChain degrees a fuel g) := by
  induction fuel generalizing g with
  | zero => exact .refl
  | succ fuel ih =>
    rw [mergeChain]
    split
    · exact .refl
    · rename_i b found
      exact .head (.merge (chain_of_chainSucc? found)) ih

lemma rewritten_foldl_mergeChain {ns : List Nat} :
    ReflTransGen Rewrites g (ns.foldl (fun g a => mergeChain degrees a g.size g) g) := by
  induction ns generalizing g with
  | nil => exact .refl
  | cons n rest ih => exact rewritten_mergeChain.trans ih

lemma rewritten_mergeChains : ReflTransGen Rewrites g g.mergeChains := rewritten_foldl_mergeChain

lemma rewritten_foldl_removeNode {ns : List Nat} (nodup : ns.Nodup)
    (h : ∀ n ∈ ns, n ∈ g.live ∧ n ≠ 0 ∧ ∀ x, n ∉ g.succs x) :
    ReflTransGen Rewrites g (ns.foldl removeNode g) := by
  induction ns generalizing g with
  | nil => exact .refl
  | cons n rest ih =>
    obtain ⟨new, nodup⟩ := List.nodup_cons.1 nodup
    obtain ⟨⟨there, inner, orphan⟩, more⟩ := List.forall_mem_cons.1 h
    refine .head (.delete there inner orphan) (ih nodup fun m mem => ?_)
    obtain ⟨there', inner', orphan'⟩ := more m mem
    have ne : m ≠ n := by
      rintro rfl
      exact new mem
    refine ⟨?_, inner', fun x edge => orphan' x (mem_succs_removeNode.1 edge).2.2⟩
    exact mem_live.2 (isSome_node?_removeNode.2 ⟨ne, mem_live.1 there'⟩)

/-- The nodes that are deleted together. -/
def orphans (g : DepthGraph) : List Nat :=
  g.live.filter fun n => n != 0 && g.inDegrees[n]?.getD 0 == 0 && (g.preds n).isEmpty

lemma of_mem_orphans (mem : n ∈ g.orphans) : n ∈ g.live ∧ n ≠ 0 ∧ ∀ x, n ∉ g.succs x := by
  obtain ⟨there, test⟩ := List.mem_filter.1 mem
  simp only [Bool.and_eq_true, bne_iff_ne, List.isEmpty_iff] at test
  refine ⟨there, test.1.1, fun x edge => ?_⟩
  rw [← mem_preds, test.2] at edge
  exact List.not_mem_nil edge

lemma nodup_orphans : g.orphans.Nodup := (List.nodup_range.filter _).filter _

lemma rewritten_deleteOrphans : ReflTransGen Rewrites g g.deleteOrphans :=
  rewritten_foldl_removeNode nodup_orphans fun _ => of_mem_orphans

lemma rewrites_collapseAt (tidy : g.Tidy) (h : g.collapseAt degrees a = some g') :
    g.Rewrites g' := by
  rw [collapseAt] at h
  split at h
  · cases h
  · obtain ⟨⟨target, members⟩, mem, h⟩ := List.exists_of_findSome?_eq_some h
    cases members with
    | nil => cases h
    | cons keep others =>
      dsimp only at h
      split at h
      · cases h
      · rename_i ways
        obtain rfl := Option.some.inj h
        exact .join (group_of_mem_branchGroups tidy mem) (Nat.le_of_not_lt ways)

lemma rewritten_collapse (tidy : g.Tidy) : ReflTransGen Rewrites g g.collapse := by
  rw [collapse]
  cases found : (List.range g.size).findSome? (g.collapseAt g.inDegrees) with
  | none => exact .refl
  | some g' =>
    obtain ⟨a, -, h⟩ := List.exists_of_findSome?_eq_some found
    exact .single (rewrites_collapseAt tidy h)

/-- What the loop does once. -/
def round (g : DepthGraph) : DepthGraph := g.mergeChains.deleteOrphans.collapse

lemma rewritten_round (tidy : g.Tidy) : ReflTransGen Rewrites g g.round := by
  have before : ReflTransGen Rewrites g g.mergeChains.deleteOrphans :=
    rewritten_mergeChains.trans rewritten_deleteOrphans
  exact before.trans (rewritten_collapse (tidy.rewritten before))

end Passes

section Degrees

lemma size_countUp {counts : Array Nat} {ns : List Nat} : (countUp counts ns).size = counts.size := by
  induction ns generalizing counts with
  | nil => rfl
  | cons n ns ih => exact ih.trans (Array.size_modify ..)

lemma getElem?_countUp {counts : Array Nat} {ns : List Nat} (lt : n < counts.size) :
    (countUp counts ns)[n]?.getD 0 = counts[n]?.getD 0 + ns.count n := by
  induction ns generalizing counts with
  | nil => rfl
  | cons m ns ih =>
    have less : n < (counts.modify m (· + 1)).size := by rwa [Array.size_modify]
    rw [countUp, List.foldl_cons, ← countUp, ih less, List.count_cons, Array.getElem?_modify]
    have there : counts[n]? = some counts[n] := Array.getElem?_eq_getElem lt
    by_cases same : m = n
    · subst same
      simp only [there, if_pos, Option.map_some, Option.getD_some, beq_self_eq_true]
      omega
    · simp [same]

lemma getElem?_foldl_countUp {l : List (Option DepthNode)} {counts : Array Nat} {i : Nat}
    (lt : n < counts.size) (nodup : ∀ d, some d ∈ l → d.succs.Nodup) :
    (l.foldl (fun counts d => countUp counts ((d.map (·.succs)).getD [])) counts)[n]?.getD 0 =
      counts[n]?.getD 0 + (predsFrom n i l).length := by
  induction l generalizing counts i with
  | nil => rfl
  | cons d l ih =>
    have more : ∀ d, some d ∈ l → d.succs.Nodup := fun d mem => nodup d (List.mem_cons_of_mem _ mem)
    rw [List.foldl_cons, ih (i := i + 1) (by rwa [size_countUp]) more, getElem?_countUp lt, predsFrom]
    cases d with
    | none => simp
    | some d =>
      have once := List.nodup_iff_count_le_one.1 (nodup d List.mem_cons_self) n
      by_cases mem : n ∈ d.succs
      · have := List.count_pos_iff.2 mem
        simp only [Option.map_some, Option.getD_some, Option.any_some, List.contains_iff_mem.2 mem,
          if_true, List.length_cons]
        omega
      · simp [mem, List.count_eq_zero_of_not_mem mem]

lemma getElem?_inDegrees (tidy : g.Tidy) (lt : n < g.size) :
    g.inDegrees[n]?.getD 0 = (g.preds n).length := by
  have nodup : ∀ d, some d ∈ g.nodes.toList → d.succs.Nodup := by
    intro d mem
    obtain ⟨k, there⟩ := List.getElem?_of_mem mem
    have := tidy.nodup k
    rw [Array.getElem?_toList] at there
    rwa [succs, node?, there] at this
  rw [inDegrees, getElem?_foldl_countUp (i := 0) (by rwa [Array.size_replicate]) nodup]
  simp [lt, preds]

lemma nodup_predsFrom {l : List (Option DepthNode)} {i : Nat} : (predsFrom n i l).Nodup := by
  induction l generalizing i with
  | nil => exact List.nodup_nil
  | cons d l ih =>
    rw [predsFrom]
    split
    · refine List.nodup_cons.2 ⟨fun mem => ?_, ih⟩
      obtain ⟨k, -, eq, -⟩ := mem_predsFrom.1 mem
      omega
    · exact ih

lemma hasOnePred_of_entered (tidy : g.Tidy) (edge : n ∈ g.succs a)
    (only : ∀ x, n ∈ g.succs x → x = a) : g.hasOnePred g.inDegrees n = true := by
  have one : g.preds n = [a] := by
    refine List.perm_singleton.1 ((List.perm_ext_iff_of_nodup nodup_predsFrom
      (List.nodup_singleton a)).2 fun x => ?_)
    rw [List.mem_singleton]
    refine ⟨fun mem => only x (mem_preds.1 mem), ?_⟩
    rintro rfl
    exact mem_preds.2 edge
  have lt := lt_size_of_isSome (tidy.closed a n edge)
  rw [hasOnePred, getElem?_inDegrees tidy lt, one]
  rfl

end Degrees

section Rounds

variable (tidy : g.Tidy)

include tidy

/-- A chain is merged when its first node is looked at, unless others were merged before. -/
lemma weight_mergeChains_lt (chain : g.Chain a b) : g.mergeChains.weight < g.weight := by
  have edge : b ∈ g.succs a := chain.only ▸ List.mem_singleton_self b
  have lt : a < g.size := lt_size_of_mem_succs edge
  obtain ⟨before, behind, split⟩ := List.append_of_mem (List.mem_range.2 lt)
  have merged : mergeChain g.inDegrees a g.size g =
      mergeChain g.inDegrees a (g.size - 1) (g.mergeWith a b) := by
    have found : g.chainSucc? g.inDegrees a = some b := by
      rw [chainSucc?, chain.only]
      simp [chain.other, chain.inner, hasOnePred_of_entered tidy edge chain.entered]
    obtain ⟨size, eq⟩ := Nat.exists_eq_add_of_lt lt
    rw [eq, mergeChain, found]
    rfl
  rw [mergeChains, split, List.foldl_append, List.foldl_cons]
  have earlier : ReflTransGen Rewrites g (before.foldl (fun h n => mergeChain g.inDegrees n h.size h) g) :=
    rewritten_foldl_mergeChain
  obtain same | less := eq_or_weight_lt tidy earlier
  · rw [same, merged]
    have step : g.Rewrites (g.mergeWith a b) := .merge chain
    exact lt_of_le_of_lt (weight_le_of_rewritten (tidy.rewrites step)
      (rewritten_mergeChain.trans rewritten_foldl_mergeChain)) (weight_lt_of_rewrites tidy step)
  · exact lt_of_le_of_lt (weight_le_of_rewritten (tidy.rewritten rewritten_foldl_mergeChain)
      (rewritten_mergeChain.trans rewritten_foldl_mergeChain)) less

lemma weight_deleteOrphans_lt (there : n ∈ g.live) (inner : n ≠ 0) (orphan : ∀ x, n ∉ g.succs x) :
    g.deleteOrphans.weight < g.weight := by
  have none : g.preds n = [] :=
    List.eq_nil_iff_forall_not_mem.2 fun x mem => orphan x (mem_preds.1 mem)
  have mem : n ∈ g.orphans := by
    refine List.mem_filter.2 ⟨there, ?_⟩
    simp [inner, none, getElem?_inDegrees tidy (lt_size_of_isSome (mem_live.1 there))]
  obtain same | less := eq_or_weight_lt tidy rewritten_deleteOrphans
  · -- The node is gone, so the graph is not the same.
    have gone : ((g.orphans.foldl removeNode g).node? n).isSome = false := by
      rw [Bool.eq_false_iff]
      exact fun h => (isSome_node?_foldl_removeNode.1 h).1 mem
    have same' : g.orphans.foldl removeNode g = g := same
    rw [same', mem_live.1 there] at gone
    cases gone
  · exact less

omit tidy in
lemma Group.length_le (group : g.Group a target (keep :: others)) :
    (keep :: others).length + (g.isDirect a target).toNat ≤ (g.succs a).length := by
  cases direct : g.isDirect a target with
  | false => exact (List.subperm_of_subset group.nodup group.branch).length_le
  | true =>
    obtain ⟨t, eq, edge⟩ := exists_of_isDirect direct
    have new : t ∉ keep :: others := group.target_not_mem (by rw [eq]; exact List.mem_singleton_self t)
    have fits : t :: keep :: others ⊆ g.succs a := List.cons_subset.2 ⟨edge, group.branch⟩
    exact (List.subperm_of_subset (List.nodup_cons.2 ⟨new, group.nodup⟩) fits).length_le

lemma weight_collapse_lt (group : g.Group a target (keep :: others))
    (ways : 2 ≤ (keep :: others).length + (g.isDirect a target).toNat) :
    g.collapse.weight < g.weight := by
  have branch {b : Nat} (mem : b ∈ keep :: others) :
      b ∈ (g.succs a).filter (fun b => b != a && (g.succs b).length ≤ 1 &&
        (g.succs b).head? != some b && g.hasOnePred g.inDegrees b) ∧ (g.succs b).head? = target := by
    have edge := group.branch b mem
    have leads := group.leads b mem
    have outside : b ∉ g.succs b := fun loop => group.other b mem (group.entered b mem b loop)
    have short : (g.succs b).length ≤ 1 := by
      rw [leads]
      exact Option.length_toList_le
    have away : (g.succs b).head? ≠ some b := fun head => outside (List.mem_of_head? head)
    refine ⟨List.mem_filter.2 ⟨edge, ?_⟩, by rw [leads]; cases target <;> rfl⟩
    simp [group.other b mem, short, away, hasOnePred_of_entered tidy edge (group.entered b mem)]
  -- The branches of the group are among those that are sorted under its place.
  obtain ⟨whole, all⟩ := mem_foldl_addBranch (fun b => (g.succs b).head?)
    ((g.succs a).filter fun b => b != a && (g.succs b).length ≤ 1 &&
      (g.succs b).head? != some b && g.hasOnePred g.inDegrees b)
  obtain ⟨⟨place, members⟩, mem, same⟩ := all keep (branch List.mem_cons_self).1
  obtain rfl : place = target := same.trans (branch List.mem_cons_self).2
  have found : (place, members) ∈ g.branchGroups g.inDegrees a := mem
  have more : (keep :: others).length ≤ members.length := by
    refine (List.subperm_of_subset group.nodup fun b mem' => ?_).length_le
    rw [show members = _ from whole _ mem, List.mem_filter]
    exact ⟨(branch mem').1, decide_eq_true (branch mem').2⟩
  have several := ways.trans group.length_le
  have some : g.collapseAt g.inDegrees a ≠ none := by
    rw [collapseAt, if_neg several.not_gt, Ne, List.findSome?_eq_none_iff]
    intro none
    have here := none _ found
    cases members with
    | nil => simp at more
    | cons first rest =>
      dsimp only at here
      rw [if_neg (by omega)] at here
      cases here
  have lt : a < g.size := lt_size_of_mem_succs (group.branch keep List.mem_cons_self)
  rw [collapse]
  cases result : (List.range g.size).findSome? (g.collapseAt g.inDegrees) with
  | none => exact absurd (List.findSome?_eq_none_iff.1 result a (List.mem_range.2 lt)) some
  | some g' =>
    obtain ⟨c, -, h⟩ := List.exists_of_findSome?_eq_some result
    exact weight_lt_of_rewrites tidy (rewrites_collapseAt tidy h)

lemma weight_round_lt (step : g.Rewrites g') : g.round.weight < g.weight := by
  have first : ReflTransGen Rewrites g g.mergeChains := rewritten_mergeChains
  have tidy₁ := tidy.rewritten first
  have second : ReflTransGen Rewrites g.mergeChains g.mergeChains.deleteOrphans :=
    rewritten_deleteOrphans
  have tidy₂ := tidy₁.rewritten second
  have third := rewritten_collapse tidy₂
  have le₂ := weight_le_of_rewritten tidy₁ second
  have le₃ := weight_le_of_rewritten tidy₂ third
  obtain same | less := eq_or_weight_lt tidy first
  · rw [same] at tidy₂ second third le₂ le₃
    rw [round, same]
    obtain same' | less := eq_or_weight_lt tidy second
    · rw [same'] at third le₃ ⊢
      cases step with
      | merge chain =>
        have less := weight_mergeChains_lt tidy chain
        rw [same] at less
        exact absurd less (lt_irrefl _)
      | delete there inner orphan =>
        have less := weight_deleteOrphans_lt tidy there inner orphan
        rw [same'] at less
        exact absurd less (lt_irrefl _)
      | join group ways => exact weight_collapse_lt tidy group ways
    · exact lt_of_le_of_lt le₃ less
  · exact lt_of_le_of_lt (le₃.trans le₂) less

lemma rewritten_reduceLoop {fuel : Nat} : ReflTransGen Rewrites g (reduceLoop fuel g) := by
  induction fuel generalizing g with
  | zero => exact .refl
  | succ fuel ih =>
    have once := rewritten_round tidy
    rw [reduceLoop]
    split
    · exact once.trans (ih (tidy.rewritten once))
    · exact once

/-- With as much fuel as the graph weighs, the loop ends because nothing is left to do. -/
lemma reduced_reduceLoop {fuel : Nat} (enough : g.weight ≤ fuel) : (reduceLoop fuel g).Reduced := by
  induction fuel generalizing g with
  | zero =>
    intro g' step
    have less := weight_lt_of_rewrites tidy step
    omega
  | succ fuel ih =>
    have once := rewritten_round tidy
    rw [reduceLoop]
    split
    · rename_i less
      exact ih (tidy.rewritten once) (by omega)
    · rename_i notLess
      obtain same | less := eq_or_weight_lt tidy once
      · intro g' step
        change g.round.Rewrites g' at step
        rw [same] at step
        exact notLess (weight_round_lt tidy step)
      · exact absurd less notLess

end Rounds

end Avm.DepthGraph

namespace Avm.BlockGraph

open DepthGraph (Rewrites Reduced)

/-- The bound of a graph of blocks is one of every path from a start that passes no block twice, however many steps may
be walked.  The rewrites that make its graph smaller come to an end in any order, and what the loop leaves is a
graph in which none is left to make. -/
theorem trails_bounded_and_reduced {b : BlockGraph} (range : b.InRange) :
    (∀ (budget : Nat) (start : Summary) (i : Nat) (rest : List Nat), b.Trail start (i :: rest) →
      ∀ k : StackKind, (start.on k).net + b.height k rest + ((b.summary i).on k).peak ≤
        k.pick (StackBounds.raw b budget).1 (StackBounds.raw b budget).2) ∧
    Acc (fun h h' : DepthGraph => h'.Rewrites h) (.ofBlocks b) ∧
    Relation.ReflTransGen Rewrites (.ofBlocks b) (DepthGraph.ofBlocks b).reduce ∧
    (DepthGraph.ofBlocks b).reduce.Reduced := by
  have tidy := DepthGraph.tidy_ofBlocks range
  refine ⟨fun budget start i rest trail k => StackBounds.raw_bounds range budget trail k, ?_, ?_, ?_⟩
  · exact DepthGraph.acc_rewrites tidy
  · exact DepthGraph.rewritten_reduceLoop tidy
  · exact DepthGraph.reduced_reduceLoop tidy (Nat.le_refl _)

/-- Two branches of different height that meet, with a way back from there to the start. -/
def diamondLoop : BlockGraph where
  summaries := [⟨⟨1, 1⟩, ⟨0, 0⟩⟩, ⟨⟨3, 0⟩, ⟨0, 0⟩⟩, ⟨⟨1, 0⟩, ⟨0, 0⟩⟩, ⟨⟨2, 1⟩, ⟨1, 1⟩⟩, ⟨⟨0, -2⟩, ⟨0, -1⟩⟩]
  successors := [[1, 2], [3], [3], [0, 4], []]
  roots := [(0, {})]

lemma inRange_diamondLoop : diamondLoop.InRange := by
  refine ⟨by decide, fun i j mem => ?_⟩
  rcases Nat.lt_or_ge i 5 with lt | le
  · interval_cases i <;> exact (by decide : ∀ j ∈ _, j < 5) j mem
  · rw [succs, List.getElem?_eq_none (by exact le)] at mem
    cases mem

/-- The path through the higher branch gets to four, which the bound covers with every budget. -/
theorem trails_bounded_and_reduced_diamondLoop :
    diamondLoop.InRange ∧ diamondLoop.Trail {} [1, 0] ∧
    (∀ budget, 4 ≤ (StackBounds.raw diamondLoop budget).1) ∧
    (DepthGraph.ofBlocks diamondLoop).reduce.Reduced := by
  have trail : diamondLoop.Trail {} [1, 0] := .step (.root (by decide)) (by decide) (by decide)
  obtain ⟨bounded, -, -, reduced⟩ := trails_bounded_and_reduced inRange_diamondLoop
  exact ⟨inRange_diamondLoop, trail, fun budget => bounded budget {} 1 [0] trail .operand, reduced⟩

end Avm.BlockGraph
