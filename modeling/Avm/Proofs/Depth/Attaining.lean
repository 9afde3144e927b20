import Avm.Proofs.Depth.Rewriting
import Avm.Proofs.Depth.Soundness

/-!
# Bounds that are attained

Where code has consistent depths, every node of its graph of summaries is entered at one depth, whatever the way that
leads there.  So ways that are joined end at the same depth, and joining them makes up no depth that was not there
before.  If all trails of the smaller graph are walked, the bounds are the greatest depths of the code.

The main statement is `StackBounds.isGreatest_analyze`.
-/

namespace Avm

namespace DepthGraph

variable {g g' : DepthGraph} {n m a b : Nat} {k : StackKind} {target : Option Nat} {keep : Nat}
  {others : List Nat} {depth : Nat → Int} {top : Int}

/-- Every node is entered at a depth of its own, to which each edge leads from the depth at its source, and no node
gets deeper than `top`. -/
structure Level (g : DepthGraph) (k : StackKind) (depth : Nat → Int) (top : Int) : Prop where
  root : depth 0 = 0
  next : ∀ n m, m ∈ g.succs n → depth m = depth n + ((g.summary n).on k).net
  entered : ∀ n, (g.node? n).isSome = true → depth n ≤ top
  inside : ∀ n, (g.node? n).isSome = true → depth n + ((g.summary n).on k).peak ≤ top

lemma Level.mergeWith (level : g.Level k depth top) (tidy : g.Tidy) (chain : g.Chain a b) :
    (g.mergeWith a b).Level k depth top := by
  have edge : b ∈ g.succs a := chain.only ▸ List.mem_singleton_self b
  have first := isSome_of_mem_succs edge
  have second := tidy.closed a b edge
  have passed := level.next a b edge
  have gone : (g.mergeWith a b).node? b = none := by
    rw [DepthGraph.mergeWith, node?_setNode_ne chain.other, node?_removeNode, if_pos rfl]
  have there {n : Nat} (h : ((g.mergeWith a b).node? n).isSome = true) (na : n ≠ a) :
      n ≠ b ∧ (g.node? n).isSome = true := by
    rw [DepthGraph.mergeWith, node?_setNode_ne na] at h
    exact isSome_node?_removeNode.1 h
  refine ⟨level.root, fun n m step => ?_, fun n h => ?_, fun n h => ?_⟩
  · by_cases na : n = a
    · subst na
      obtain ⟨s, behind, eq⟩ := chain.mem_succs_self.1 step
      have sb : s ≠ b := by
        rintro rfl
        exact chain.other (chain.entered s behind)
      rw [if_neg sb] at eq
      subst eq
      rw [chain.summary_self, Summary.on_andThen, Delta.andThen, level.next b s behind, passed]
      exact add_assoc _ _ _
    · have nb : n ≠ b := by
        rintro rfl
        rw [succs, gone] at step
        cases step
      rw [succs_mergeWith na nb] at step
      rw [summary_mergeWith na nb]
      exact level.next n m (List.mem_filter.1 step).1
  · by_cases na : n = a
    · rw [na]
      exact level.entered a first
    · exact level.entered n (there h na).2
  · by_cases na : n = a
    · have inner := level.inside a first
      have outer := level.inside b second
      rw [na, chain.summary_self, Summary.on_andThen, Delta.andThen]
      dsimp only
      omega
    · obtain ⟨nb, h⟩ := there h na
      rw [summary_mergeWith na nb]
      exact level.inside n h

lemma Level.removeNode (level : g.Level k depth top) : (g.removeNode n).Level k depth top := by
  refine ⟨level.root, fun x m step => ?_, fun x h => ?_, fun x h => ?_⟩
  · obtain ⟨ne, -, step⟩ := mem_succs_removeNode.1 step
    rw [summary_removeNode ne]
    exact level.next x m step
  · exact level.entered x (isSome_node?_removeNode.1 h).2
  · obtain ⟨ne, h⟩ := isSome_node?_removeNode.1 h
    rw [summary_removeNode ne]
    exact level.inside x h

lemma peak_joined_le {limit : Int} (kept : ((g.summary keep).on k).peak ≤ limit)
    (more : ∀ b ∈ others, ((g.summary b).on k).peak ≤ limit) (direct : 0 ≤ limit) :
    ((g.joined a target keep others).on k).peak ≤ limit := by
  have fold : ∀ s : Summary, (s.on k).peak ≤ limit →
      ((others.foldl (fun s b => s.join (g.summary b)) s).on k).peak ≤ limit := by
    induction others with
    | nil => exact fun s h => h
    | cons b rest ih =>
      intro s h
      obtain ⟨first, more⟩ := List.forall_mem_cons.1 more
      refine ih more _ ?_
      rw [Summary.on_join]
      exact max_le h first
  rw [joined]
  split
  · rw [Summary.on_join, Summary.on_default]
    exact max_le (fold _ kept) direct
  · exact fold _ kept

lemma net_joined_eq {change : Int} (kept : ((g.summary keep).on k).net = change)
    (more : ∀ b ∈ others, ((g.summary b).on k).net = change)
    (direct : g.isDirect a target = true → change = 0) :
    ((g.joined a target keep others).on k).net = change := by
  have fold : ∀ s : Summary, (s.on k).net = change →
      ((others.foldl (fun s b => s.join (g.summary b)) s).on k).net = change := by
    induction others with
    | nil => exact fun s h => h
    | cons b rest ih =>
      intro s h
      obtain ⟨first, more⟩ := List.forall_mem_cons.1 more
      refine ih more _ ?_
      rw [Summary.on_join, Delta.join, h, first]
      exact max_self change
  rw [joined]
  split
  · rename_i isDirect
    rw [Summary.on_join, Summary.on_default, Delta.join, fold _ kept, direct isDirect]
    exact max_self 0
  · exact fold _ kept

lemma isSome_of_node?_pruned (direct : (g.node? a).isSome = true) {x : Nat}
    (h : ((g.pruned a target others).node? x).isSome = true) : (g.node? x).isSome = true := by
  rw [pruned] at h
  split at h
  · by_cases same : x = a
    · rw [same]
      exact direct
    · rw [node?_setNode_ne same] at h
      exact (isSome_node?_foldl_removeNode.1 h).2
  · exact (isSome_node?_foldl_removeNode.1 h).2

lemma Level.joinGroup (level : g.Level k depth top) (tidy : g.Tidy)
    (group : g.Group a target (keep :: others)) :
    (g.joinGroup a target keep others).Level k depth top := by
  have source : (g.node? a).isSome = true :=
    isSome_of_mem_succs (group.branch keep List.mem_cons_self)
  -- The branches are all entered at the depth at which their common source is left.
  have enter {b : Nat} (mem : b ∈ keep :: others) : depth b = depth keep := by
    rw [level.next a b (group.branch b mem), level.next a keep (group.branch keep List.mem_cons_self)]
  have live {b : Nat} (mem : b ∈ keep :: others) : (g.node? b).isSome = true :=
    tidy.closed a b (group.branch b mem)
  have there {x : Nat} (h : ((g.joinGroup a target keep others).node? x).isSome = true)
      (ne : x ≠ keep) : (g.node? x).isSome = true := by
    rw [joinGroup_eq, node?_setNode_ne ne] at h
    exact isSome_of_node?_pruned source h
  have outside {x : Nat} (h : ((g.joinGroup a target keep others).node? x).isSome = true)
      (ne : x ≠ keep) : x ∉ others := by
    intro mem
    rw [joinGroup_eq, node?_setNode_ne ne, pruned] at h
    have gone : ((others.foldl DepthGraph.removeNode g).node? x).isSome = true := by
      split at h
      · have apart : x ≠ a := by
          rintro rfl
          exact group.apart (List.mem_cons_of_mem _ mem)
        rwa [node?_setNode_ne apart] at h
      · exact h
    exact (isSome_node?_foldl_removeNode.1 gone).1 mem
  refine ⟨level.root, fun x m step => ?_, fun x h => ?_, fun x h => ?_⟩
  · by_cases same : x = keep
    · subst same
      rw [group.succs_keep tidy] at step
      rw [group.summary_keep tidy]
      have leads {b : Nat} (mem : b ∈ x :: others) :
          ((g.summary b).on k).net = depth m - depth x := by
        have := level.next b m (by rw [group.leads b mem]; exact step)
        rw [enter mem] at this
        omega
      rw [net_joined_eq (leads List.mem_cons_self)
        (fun b mem => leads (List.mem_cons_of_mem _ mem)) fun direct => ?_]
      · omega
      · obtain ⟨t, eq, edge⟩ := exists_of_isDirect direct
        rw [eq, Option.toList_some, List.mem_singleton] at step
        have first := level.next a x (group.branch x List.mem_cons_self)
        rw [step, level.next a t edge, first]
        exact sub_self _
    · obtain ⟨notOther, -, step, -⟩ := (group.mem_succs same).1 step
      have absent : x ∉ keep :: others := fun mem => (List.mem_cons.1 mem).elim same notOther
      rw [summary_joinGroup absent]
      exact level.next x m step
  · by_cases same : x = keep
    · rw [same]
      exact level.entered keep (live List.mem_cons_self)
    · exact level.entered x (there h same)
  · by_cases same : x = keep
    · rw [same, group.summary_keep tidy]
      have inside {b : Nat} (mem : b ∈ keep :: others) :
          ((g.summary b).on k).peak ≤ top - depth keep := by
        have := level.inside b (live mem)
        rw [enter mem] at this
        omega
      have entered := level.entered keep (live List.mem_cons_self)
      have peak : ((g.joined a target keep others).on k).peak ≤ top - depth keep :=
        peak_joined_le (inside List.mem_cons_self) (fun b mem => inside (List.mem_cons_of_mem _ mem)) (by omega)
      omega
    · rw [summary_joinGroup fun mem => (List.mem_cons.1 mem).elim same (outside h same)]
      exact level.inside x (there h same)

lemma Level.rewrites (level : g.Level k depth top) (tidy : g.Tidy) (h : g.Rewrites g') :
    g'.Level k depth top := by
  cases h with
  | merge chain => exact level.mergeWith tidy chain
  | delete => exact level.removeNode
  | join group => exact level.joinGroup tidy group

lemma Level.rewritten (level : g.Level k depth top) (tidy : g.Tidy)
    (h : Relation.ReflTransGen Rewrites g g') : g'.Level k depth top := by
  induction h with
  | refl => exact level
  | tail before step ih => exact ih.rewrites (tidy.rewritten before) step

lemma foldlM_keeps {α β : Type} {f : β → α → Option β} {P : β → Prop} {l : List α} {p q : β}
    (keeps : ∀ a ∈ l, ∀ p q, f p a = some q → P p → P q) (h : l.foldlM f p = some q) (start : P p) :
    P q := by
  induction l generalizing p with
  | nil =>
    obtain rfl := Option.some.inj h
    exact start
  | cons x rest ih =>
    rw [List.foldlM_cons] at h
    obtain ⟨p₁, first, h⟩ := Option.bind_eq_some_iff.1 h
    obtain ⟨keep, more⟩ := List.forall_mem_cons.1 keeps
    exact ih more h (keep p p₁ first start)

lemma Level.walk_le (level : g.Level k depth top) (tidy : g.Tidy) {fuel : Nat} {path : List Nat}
    {stack scope : Int} {p p' : Progress}
    (left : k.pick stack scope = depth n + ((g.summary n).on k).net) (start : p.on k ≤ top)
    (h : g.walk fuel path n stack scope p = some p') : p'.on k ≤ top := by
  induction fuel generalizing path n stack scope p p' with
  | zero =>
    obtain rfl := Option.some.inj h
    exact start
  | succ fuel ih =>
    rw [walk] at h
    refine foldlM_keeps (P := fun p : Progress => p.on k ≤ top) (fun m mem p q visit start => ?_) h start
    have edge : m ∈ g.succs n := List.mem_reverse.1 mem
    have enters := level.next n m edge
    split_ifs at visit with seen spent
    · obtain rfl := Option.some.inj visit
      exact start
    · refine ih ?_ ?_ visit
      · have : k.pick (stack + (g.summary m).stack.net) (scope + (g.summary m).scope.net) =
            k.pick stack scope + ((g.summary m).on k).net := by
          cases k <;> rfl
        rw [this, left, enters]
      · rw [Progress.on_note, left, ← enters]
        exact max_le start (level.inside m (tidy.closed n m edge))

lemma Level.walkPaths_le (level : g.Level k depth top) (tidy : g.Tidy) (nonneg : 0 ≤ top)
    {budget : Nat} {bounds : Int × Int} (h : g.walkPaths budget = some bounds) :
    k.pick bounds.1 bounds.2 ≤ top := by
  obtain ⟨p, walked, rfl⟩ := Option.map_eq_some_iff.1 h
  have root : ((g.summary 0).on k).peak ≤ top := by
    cases there : g.node? 0 with
    | none =>
      rw [summary, there]
      exact (Summary.on_default k).symm ▸ nonneg
    | some d =>
      have inside := level.inside 0 (by rw [there]; rfl)
      rwa [level.root, zero_add] at inside
  refine level.walk_le (n := 0) tidy ?_ ?_ walked
  · rw [level.root, zero_add]
    cases k <;> rfl
  · rw [Progress.on_note]
    have zero : k.pick 0 0 = 0 := by cases k <;> rfl
    rw [zero, zero_add]
    exact max_le (by cases k <;> exact nonneg) root

end DepthGraph

namespace BlockGraph

open FlowGraph (Stands)

variable {g : FlowGraph} {code : Code} {handlers : List (Handler Nat)} {pool : Pool}
  {depth : StackKind → Nat → Int} {b : BlockGraph} {n x : NodeId} {p i j : Nat} {k : StackKind}
  {block : List NodeId} {top : Int}

/-- The depth at which a node of the graph that is made of blocks is entered, from those of the blocks. -/
def nodeDepth (b : BlockGraph) (depth : Nat → Int) (n : Nat) : Int :=
  if n < b.number 0 then 0 else depth (n - b.number 0)

lemma nodeDepth_number {depth : Nat → Int} : b.nodeDepth depth (b.number i) = depth i := by
  have : ¬b.number i < b.number 0 := by
    rw [number, number]
    omega
  rw [nodeDepth, if_neg this, number, number, Nat.add_zero, Nat.add_sub_cancel_left]

lemma nodeDepth_start {depth : Nat → Int} {r : Nat} (lt : r ≤ b.roots.length) :
    b.nodeDepth depth r = 0 := by
  refine if_pos ?_
  rw [number]
  omega

lemma level_ofBlocks {depth : Nat → Int} (nonneg : 0 ≤ top)
    (roots : ∀ e ∈ b.roots, (e.2.on k).net = depth e.1 ∧ (e.2.on k).peak ≤ top)
    (next : ∀ i, ∀ j ∈ b.succs i, depth j = depth i + ((b.summary i).on k).net)
    (inside : ∀ i < b.summaries.length, depth i ≤ top ∧
      depth i + ((b.summary i).on k).peak ≤ top) :
    (DepthGraph.ofBlocks b).Level k (b.nodeDepth depth) top := by
  have zero : (DepthGraph.ofBlocks b).summary 0 = {} := by
    rw [DepthGraph.summary, DepthGraph.node?_ofBlocks_root]
    rfl
  have start {r i : Nat} {s : Summary} (root : b.roots[r]? = some (i, s)) :
      (DepthGraph.ofBlocks b).summary (1 + r) = s ∧ b.nodeDepth depth (1 + r) = 0 := by
    have lt := (List.getElem?_eq_some_iff.1 root).1
    refine ⟨?_, nodeDepth_start (by omega)⟩
    rw [DepthGraph.summary, DepthGraph.node?_ofBlocks_start root]
    rfl
  have below {i : Nat} (h : ((DepthGraph.ofBlocks b).node? (b.number i)).isSome = true) :
      i < b.summaries.length := by
    rw [DepthGraph.node?_ofBlocks_block, Option.isSome_map] at h
    exact (List.getElem?_eq_some_iff.1 (Option.isSome_iff_exists.1 h).choose_spec).1
  refine ⟨nodeDepth_start (Nat.zero_le _), fun n m edge => ?_, fun n h => ?_, fun n h => ?_⟩
  · obtain rfl | ⟨r, i, s, root, rfl⟩ | ⟨i, rfl⟩ := DepthGraph.node_cases b n
    · rw [DepthGraph.succs_ofBlocks_root] at edge
      obtain ⟨r, mem, rfl⟩ := List.mem_map.1 edge
      have lt := List.mem_range.1 mem
      rw [zero, Summary.on_default, nodeDepth_start (Nat.zero_le _), nodeDepth_start (by omega)]
      rfl
    · rw [DepthGraph.succs_ofBlocks_start root, List.mem_singleton] at edge
      obtain ⟨summary, entered⟩ := start root
      rw [edge, nodeDepth_number, summary, entered, zero_add]
      exact (roots _ (List.mem_of_getElem? root)).1.symm
    · have lt := below (DepthGraph.isSome_of_mem_succs edge)
      rw [DepthGraph.succs_ofBlocks lt, Ascending.mem_ofList] at edge
      obtain ⟨j, mem, rfl⟩ := List.mem_map.1 edge
      rw [nodeDepth_number, nodeDepth_number, DepthGraph.summary_ofBlocks]
      exact next i j mem
  · obtain rfl | ⟨r, i, s, root, rfl⟩ | ⟨i, rfl⟩ := DepthGraph.node_cases b n
    · rwa [nodeDepth_start (Nat.zero_le _)]
    · rwa [(start root).2]
    · rw [nodeDepth_number]
      exact (inside i (below h)).1
  · obtain rfl | ⟨r, i, s, root, rfl⟩ | ⟨i, rfl⟩ := DepthGraph.node_cases b n
    · rw [nodeDepth_start (Nat.zero_le _), zero, Summary.on_default, zero_add]
      exact nonneg
    · obtain ⟨summary, entered⟩ := start root
      rw [entered, summary, zero_add]
      exact (roots _ (List.mem_of_getElem? root)).2
    · rw [nodeDepth_number, DepthGraph.summary_ofBlocks]
      exact (inside i (below h)).2

/-- The depths before and after the instructions that control can come to are at most `top`. -/
def Below (code : Code) (pool : Pool) (depth : StackKind → Nat → Int) (k : StackKind) (top : Int) :
    Prop :=
  ∀ p id i e, code.Reachable p → code.at? p = some (id, i) → i.effect pool = .ok e →
    depth k p ≤ top ∧ depth k p + e.on k ≤ top

lemma Below.limits (below : Below code pool depth k top) (spec : FlowGraph.Spec code handlers g)
    (ordered : n ∈ g.order) {s : Summary} (sum : vertexSummary g code pool n = .ok s) :
    depthAt g code depth k n ≤ top ∧ depthAt g code depth k n + (s.on k).net ≤ top := by
  obtain ⟨p, stands⟩ := (mem_order spec).1 ordered
  obtain ⟨⟨id, i⟩, here, -⟩ := id stands
  obtain ⟨e, effect, on⟩ := vertexSummary_eq_ok stands here sum
  rw [depthAt, positionOf_eq stands, on k]
  exact below p id i e (stands.reachable spec.reached) here effect

/-- The depth at which a block is entered. -/
def blockDepth (g : FlowGraph) (code : Code) (depth : StackKind → Nat → Int) (k : StackKind) (i : Nat) :
    Int :=
  ((members g)[i]?.bind List.head?).elim 0 (depthAt g code depth k)

lemma blockDepth_eq (here : (members g)[i]? = some block) (isBlock : IsBlock g n block) :
    blockDepth g code depth k i = depthAt g code depth k n := by
  obtain ⟨-, -, rfl⟩ := isBlock
  rw [blockDepth, here]
  rfl

section Building

variable (spec : FlowGraph.Spec code handlers g) (depths : code.Depths pool depth)
  (built : build g code pool = .ok b)
include spec depths built

lemma blockDepth_le (below : Below code pool depth k top) {i : Nat} (lt : i < b.summaries.length) :
    blockDepth g code depth k i ≤ top ∧ blockDepth g code depth k i + ((b.summary i).on k).peak ≤ top := by
  have lt' : i < (members g).length := (build_eq_ok built).1.length_eq ▸ lt
  have here : (members g)[i]? = some (members g)[i] := List.getElem?_eq_getElem lt'
  obtain ⟨n, isBlock⟩ := mem_members.1 (List.mem_of_getElem? here)
  obtain ⟨inside, -, least⟩ := summary_of_block spec depths built here isBlock k
  have limits := fun x mem s => below.limits spec (s := s) (inside x mem).1
  obtain ⟨-, s, sum, -⟩ := inside n isBlock.mem
  rw [blockDepth_eq here isBlock]
  exact ⟨(limits n isBlock.mem s sum).1, least top limits⟩

/-- A start gets no deeper than the block that it leads to begins. -/
lemma root_le (below : Below code pool depth k top) {e : Nat × Summary} (mem : e ∈ b.roots) :
    (e.2.on k).net = blockDepth g code depth k e.1 ∧ (e.2.on k).peak ≤ top := by
  obtain ⟨sums, -, roots⟩ := build_eq_ok built
  obtain ⟨i, start⟩ := e
  rw [roots] at mem
  obtain ⟨n, block, here, isBlock, net⟩ := depth_of_root spec depths mem
  have lt : i < b.summaries.length := by
    rw [← sums.length_eq]
    exact (List.getElem?_eq_some_iff.1 here).1
  have entered := (blockDepth_le spec depths built below lt).1
  rw [blockDepth_eq here isBlock] at entered ⊢
  refine ⟨net k, ?_⟩
  rw [← net k] at entered
  obtain ⟨-, -, -, rfl⟩ | ⟨-, -, -, -, rfl⟩ := mem_findRoots.1 mem
  · rw [Summary.on_default] at entered ⊢
    exact entered
  · cases k with
    | operand => exact entered
    | scope => exact entered

lemma blockDepth_of_mem_succs {i j : Nat} (edge : j ∈ b.succs i) :
    blockDepth g code depth k j = blockDepth g code depth k i + ((b.summary i).on k).net := by
  cases here : (members g)[i]? with
  | none =>
    rw [succs, (build_eq_ok built).2.1, List.getElem?_map, here] at edge
    cases edge
  | some block =>
    obtain ⟨n, isBlock⟩ := mem_members.1 (List.mem_of_getElem? here)
    rw [succs_of_block built here, mem_blockSuccessors] at edge
    obtain ⟨x, last, ⟨m, kind⟩, edge, found⟩ := edge
    obtain ⟨inside, ends, -⟩ := summary_of_block spec depths built here isBlock k
    obtain ⟨s, sum, left⟩ := ends x last
    have ordered := (inside x (List.mem_of_getLast? last)).1
    obtain ⟨j, next, found', there, isNext⟩ :=
      blockOf?_leader (mem_order_of_edge spec ordered edge) (isBlock.isLeader_of_last spec last edge)
    obtain rfl := Option.some.inj (found.symm.trans found')
    rw [blockDepth_eq there isNext, blockDepth_eq here isBlock, left]
    exact depthAt_of_edge spec depths ordered edge sum k

lemma level_build (below : Below code pool depth k top) (nonneg : 0 ≤ top) :
    (DepthGraph.ofBlocks b).Level k (b.nodeDepth (blockDepth g code depth k)) top :=
  level_ofBlocks nonneg (fun _ mem => root_le spec depths built below mem)
    (fun _ _ edge => blockDepth_of_mem_succs spec depths built edge)
    fun _ lt => blockDepth_le spec depths built below lt

end Building

end BlockGraph

/-- The depths of a stack before and after the instructions that control can come to. -/
def Code.reachedDepths (code : Code) (pool : Pool) (depth : StackKind → Nat → Int) (k : StackKind) :
    Set Int :=
  {d | ∃ p id i e, code.Reachable p ∧ code.at? p = some (id, i) ∧ i.effect pool = .ok e ∧
    (d = depth k p ∨ d = depth k p + e.on k)}

lemma Code.finite_reachedDepths (code : Code) (pool : Pool) (depth : StackKind → Nat → Int)
    (k : StackKind) : (code.reachedDepths pool depth k).Finite := by
  -- Each position has at most two depths.
  have finite : (⋃ p ∈ Set.Iio code.size, {d : Int | ∃ id i e, code.at? p = some (id, i) ∧
      i.effect pool = .ok e ∧ (d = depth k p ∨ d = depth k p + e.on k)}).Finite := by
    refine (Set.finite_Iio _).biUnion fun p _ => ?_
    cases here : code.at? p with
    | none => simp
    | some e =>
      cases effect : e.2.effect pool with
      | error fault =>
        refine Set.Finite.subset Set.finite_empty ?_
        rintro d ⟨id, i, e', eq, effect', -⟩
        obtain rfl := Option.some.inj eq
        rw [effect] at effect'
        cases effect'
      | ok change =>
        refine Set.Finite.subset (Set.toFinite {depth k p, depth k p + change.on k}) ?_
        rintro d ⟨id, i, e', eq, effect', value⟩
        obtain rfl := Option.some.inj eq
        obtain rfl := Except.ok.inj (effect.symm.trans effect')
        exact value
  refine finite.subset ?_
  rintro d ⟨p, id, i, e, -, here, effect, value⟩
  exact Set.mem_biUnion (Code.lt_size_of_at? here) ⟨id, i, e, here, effect, value⟩

namespace StackBounds

variable {g : FlowGraph} {code : Code} {pool : Pool} {budget : Nat} {bounds : StackBounds}
  {b : BlockGraph} {depth : StackKind → Nat → Int}

/-- If code has consistent depths and all paths of its blocks are walked, the bounds are the greatest depths before and
after the instructions that control can come to. -/
theorem isGreatest_analyze (built : FlowGraph.build code = .ok g)
    (blocks : BlockGraph.build g code pool = .ok b)
    (walked : ((DepthGraph.ofBlocks b).reduce.walkPaths budget).isSome = true)
    (analyzed : analyze g code pool budget = .ok bounds) (depths : code.Depths pool depth)
    (k : StackKind) : IsGreatest (code.reachedDepths pool depth k) (bounds.on k) := by
  obtain ⟨handlers, spec⟩ := FlowGraph.build_sound built
  obtain ⟨b', blocks', h⟩ := bind_eq_ok.1 analyzed
  obtain rfl := Except.ok.inj (blocks.symm.trans blocks')
  obtain rfl := Except.ok.inj h
  have upper {p : Nat} {id : InstrId} {i : Instruction Marker} (reach : code.Reachable p)
      (here : code.at? p = some (id, i)) :=
    BlockGraph.depth_le_raw spec depths blocks budget reach here
  -- The first instruction has the depth zero, so there is a greatest depth.
  obtain ⟨-, ⟨name, i⟩, start, -⟩ := spec.vertex 0 .first
  obtain ⟨e, effect, above⟩ := upper .first start
  have first : (0 : Int) ∈ code.reachedDepths pool depth k :=
    ⟨0, name, i, e, .first, start, effect, .inl (depths.first k).symm⟩
  obtain ⟨top, mem, greatest⟩ :=
    Set.exists_max_image _ (fun d => d) (code.finite_reachedDepths pool depth k) ⟨0, first⟩
  have nonneg : 0 ≤ top := greatest 0 first
  have below : BlockGraph.Below code pool depth k top := fun p id i e reach here effect =>
    ⟨greatest _ ⟨p, id, i, e, reach, here, effect, .inl rfl⟩,
      greatest _ ⟨p, id, i, e, reach, here, effect, .inr rfl⟩⟩
  have level := BlockGraph.level_build spec depths blocks below nonneg
  obtain ⟨raws, paths⟩ := Option.isSome_iff_exists.1 walked
  have tidy := DepthGraph.tidy_ofBlocks (BlockGraph.inRange_build blocks)
  have steps : Relation.ReflTransGen DepthGraph.Rewrites (DepthGraph.ofBlocks b) (DepthGraph.ofBlocks b).reduce :=
    DepthGraph.rewritten_reduceLoop tidy
  have le := (level.rewritten tidy steps).walkPaths_le (tidy.rewritten steps) nonneg paths
  have raw_eq : raw b budget = raws := by rw [raw, paths]; rfl
  have ge : top ≤ k.pick raws.1 raws.2 := by
    obtain ⟨p, id, i, e, reach, here, effect, value⟩ := mem
    obtain ⟨e', effect', above⟩ := upper reach here
    obtain rfl := Except.ok.inj (effect.symm.trans effect')
    rw [raw_eq] at above
    obtain rfl | rfl := value
    · exact (above k).1
    · exact (above k).2
  have small : top ≤ 0xffffffff := by
    obtain ⟨p, id, i, e, reach, here, effect, rfl | rfl⟩ := mem
    · exact depths.small k p reach
    · exact depths.small_after spec reach here effect k
  have value : ((ofBlocks b budget).on k : Int) = top := by
    rw [on_ofBlocks, raw_eq, clamp, le_antisymm le ge]
    omega
  rw [value]
  exact ⟨mem, fun d there => greatest d there⟩

/-- The bounds of the loop are its greatest depths. -/
theorem isGreatest_analyze_looping :
    ∃ g b, FlowGraph.build Code.looping = .ok g ∧ BlockGraph.build g Code.looping {} = .ok b ∧
      ((DepthGraph.ofBlocks b).reduce.walkPaths 16).isSome = true ∧
      analyze g Code.looping {} 16 = .ok ⟨2, 1⟩ ∧ Code.looping.Depths {} Code.loopingDepth ∧
      ∀ k, IsGreatest (Code.looping.reachedDepths {} Code.loopingDepth k) ((⟨2, 1⟩ : StackBounds).on k) := by
  have run : (FlowGraph.build Code.looping >>= fun g => analyze g Code.looping {} 16) =
      .ok ⟨2, 1⟩ := by
    decide +kernel
  have walks : (FlowGraph.build Code.looping >>= fun g => BlockGraph.build g Code.looping {} >>= fun b =>
      .ok ((DepthGraph.ofBlocks b).reduce.walkPaths 16).isSome) = .ok true := by
    decide +kernel
  obtain ⟨g, built, analyzed⟩ := bind_eq_ok.1 run
  obtain ⟨g', built', walks⟩ := bind_eq_ok.1 walks
  obtain rfl := Except.ok.inj (built.symm.trans built')
  obtain ⟨b, blocks, walks⟩ := bind_eq_ok.1 walks
  have walked := Except.ok.inj walks
  exact ⟨g, b, built, blocks, walked, analyzed, Code.depths_looping,
    isGreatest_analyze built blocks walked analyzed Code.depths_looping⟩

end StackBounds

end Avm
