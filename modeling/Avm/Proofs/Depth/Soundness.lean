import Avm.Proofs.Depth.Blocks

/-!
# Stack bounds are never too small

Depths of the stacks before the instructions are consistent if they start as the method and its
handlers do, and change along the ways of the code as the instructions say.  The bounds that are
computed for code are at least all depths of all consistent depths, before and after every instruction
that control can come to.

The main statement is `StackBounds.depth_le_analyze`.
-/

namespace Avm

/-- The change of one of the stacks. -/
def StackEffect.on (e : StackEffect) : StackKind → Int
  | .operand => e.net
  | .scope => e.scope

/-- The bound of one of the stacks. -/
def StackBounds.on (b : StackBounds) : StackKind → Nat
  | .operand => b.maxStack
  | .scope => b.maxScope

/-- The depths of the stacks before the instructions agree with each other: the method starts with
empty stacks, a handler with the exception on the operand stack, and an instruction leaves the depths
for those that come next that its effect makes of its own.  All are 32-bit numbers at most. -/
structure Code.Depths (code : Code) (pool : Pool) (depth : StackKind → Nat → Int) : Prop where
  first : ∀ k, depth k 0 = 0
  handler : ∀ handlers, code.resolvedHandlers = .ok handlers → ∀ h ∈ handlers,
    depth .operand h.target = 1 ∧ depth .scope h.target = 0
  next : ∀ p q id i kind e, code.Reachable p → code.at? p = some (id, i) → code.Way p i kind q →
    i.effect pool = .ok e → ∀ k, depth k q = depth k p + e.on k
  small : ∀ k p, code.Reachable p → depth k p ≤ 0xffffffff

namespace BlockGraph

open FlowGraph (Stands)

variable {g : FlowGraph} {code : Code} {handlers : List (Handler Nat)} {pool : Pool}
  {depth : StackKind → Nat → Int} {b : BlockGraph} {n m x y : NodeId} {p q i j : Nat}
  {kind : EdgeKind} {k : StackKind} {s start : Summary} {block : List NodeId} {rest : List Nat}

/-- The position that a vertex stands for. -/
def positionOf (g : FlowGraph) (code : Code) (n : NodeId) : Nat :=
  ((g.instr? n).bind code.position?).getD 0

lemma positionOf_eq (stands : Stands code g.graph n (some p)) : positionOf g code n = p := by
  obtain ⟨⟨id, i⟩, here, node⟩ := stands
  rw [positionOf, FlowGraph.instr?, node]
  simp [Code.position?_of_at? here]

lemma not_stands_entry (spec : FlowGraph.Spec code handlers g) :
    ¬Stands code g.graph FlowGraph.entry (some p) := by
  rintro ⟨e, -, node⟩
  obtain ⟨_, nodes⟩ := spec.outside
  rw [Digraph.node?, ← nodes] at node
  cases node

lemma normal_edge (spec : FlowGraph.Spec code handlers g)
    (stands : Stands code g.graph n (some p)) (edge : (m, kind) ∈ normalFrom g n) :
    ∃ id i q, code.at? p = some (id, i) ∧ code.Way p i kind q ∧ Stands code g.graph m (some q) := by
  obtain ⟨mem, normal⟩ := mem_normalFrom.1 edge
  generalize eq : (⟨n, m, kind⟩ : Digraph.Edge EdgeKind) = e at mem
  cases (spec.edges e).1 mem with
  | entry first =>
    cases eq
    exact absurd stands (not_stands_entry spec)
  | @prescribed _ _ p' id i _ place there here way target =>
    cases eq
    obtain rfl := stands.position_inj there
    cases way with
    | way way => exact ⟨id, i, _, here, way, target⟩
    | leave => exact absurd normal Bool.false_ne_true
    | escape => exact absurd normal Bool.false_ne_true
    | caught => exact absurd normal Bool.false_ne_true

lemma exists_normal_edge (spec : FlowGraph.Spec code handlers g) (reach : code.Reachable p)
    (stands : Stands code g.graph n (some p)) {id : InstrId} {i : Instruction Marker}
    (here : code.at? p = some (id, i)) (way : code.Way p i kind q) :
    ∃ m, Stands code g.graph m (some q) ∧ (m, kind) ∈ normalFrom g n := by
  obtain ⟨m, target⟩ := spec.vertex q (.next reach here way)
  refine ⟨m, target, mem_normalFrom.2 ⟨?_, ?_⟩⟩
  · exact (spec.edges _).2 (.prescribed stands here (.way way) target)
  · cases way <;> rfl

lemma vertexSummary_eq_ok (stands : Stands code g.graph n (some p)) {id : InstrId}
    {i : Instruction Marker} (here : code.at? p = some (id, i))
    (h : vertexSummary g code pool n = .ok s) :
    ∃ e, i.effect pool = .ok e ∧ ∀ k, s.on k = Delta.step (e.on k) := by
  obtain ⟨e, there, node⟩ := stands
  obtain rfl := Option.some.inj (here.symm.trans there)
  rw [vertexSummary, FlowGraph.instr?, node] at h
  simp only [Option.bind_some, Code.get?_of_at? here] at h
  obtain ⟨e, effect, h⟩ := bind_eq_ok.1 h
  obtain rfl := Except.ok.inj h
  refine ⟨e, effect, fun k => ?_⟩
  cases k <;> rfl

lemma mem_order_of_edge (spec : FlowGraph.Spec code handlers g) (ordered : n ∈ g.order)
    (edge : (m, kind) ∈ normalFrom g n) : m ∈ g.order := by
  obtain ⟨p, stands⟩ := (mem_order spec).1 ordered
  obtain ⟨-, -, q, -, -, target⟩ := normal_edge spec stands edge
  exact (mem_order spec).2 ⟨q, target⟩

/-- The depth of a stack before the instruction of a vertex. -/
def depthAt (g : FlowGraph) (code : Code) (depth : StackKind → Nat → Int) (k : StackKind)
    (n : NodeId) : Int :=
  depth k (positionOf g code n)

lemma depthAt_of_edge (spec : FlowGraph.Spec code handlers g) (depths : code.Depths pool depth)
    (ordered : n ∈ g.order) (edge : (m, kind) ∈ normalFrom g n)
    (sum : vertexSummary g code pool n = .ok s) (k : StackKind) :
    depthAt g code depth k m = depthAt g code depth k n + (s.on k).net := by
  obtain ⟨p, stands⟩ := (mem_order spec).1 ordered
  obtain ⟨id, i, q, here, way, target⟩ := normal_edge spec stands edge
  obtain ⟨e, effect, on⟩ := vertexSummary_eq_ok stands here sum
  have reach : code.Reachable p := stands.reachable spec.reached
  rw [depthAt, depthAt, positionOf_eq stands, positionOf_eq target, on k]
  exact depths.next p q id i kind e reach here way effect k

lemma peak_eq (spec : FlowGraph.Spec code handlers g) (ordered : n ∈ g.order)
    (sum : vertexSummary g code pool n = .ok s) (k : StackKind) :
    (s.on k).peak = max (s.on k).net 0 := by
  obtain ⟨p, stands⟩ := (mem_order spec).1 ordered
  obtain ⟨⟨id, i⟩, here, -⟩ := id stands
  obtain ⟨e, -, on⟩ := vertexSummary_eq_ok stands here sum
  rw [on k]
  rfl

/-- The effects of vertices that follow on one another reach the depths before and after each of them
and no others, and end with the depth after the last one.  The effects are added to one that leads to
the first vertex, from a place where the depth is `base`. -/
lemma foldl_andThen (spec : FlowGraph.Spec code handlers g) (depths : code.Depths pool depth)
    {l : List NodeId} {parts : List Summary} {acc : Summary} {base : Int} (ordered : n ∈ g.order)
    (chain : (n :: l).IsChain (Continues g))
    (sums : List.Forall₂ (fun x s => vertexSummary g code pool x = .ok s) (n :: l) parts)
    (arrived : base + (acc.on k).net = depthAt g code depth k n) :
    (acc.on k).peak ≤ ((parts.foldl Summary.andThen acc).on k).peak ∧
    (∀ x ∈ n :: l, x ∈ g.order ∧ ∃ s, vertexSummary g code pool x = .ok s ∧
      depthAt g code depth k x ≤ base + ((parts.foldl Summary.andThen acc).on k).peak ∧
      depthAt g code depth k x + (s.on k).net ≤
        base + ((parts.foldl Summary.andThen acc).on k).peak) ∧
    (∀ x, (n :: l).getLast? = some x → ∃ s, vertexSummary g code pool x = .ok s ∧
      base + ((parts.foldl Summary.andThen acc).on k).net =
        depthAt g code depth k x + (s.on k).net) ∧
    ∀ top, base + (acc.on k).peak ≤ top → (∀ x ∈ n :: l, ∀ s, vertexSummary g code pool x = .ok s →
      depthAt g code depth k x ≤ top ∧ depthAt g code depth k x + (s.on k).net ≤ top) →
      base + ((parts.foldl Summary.andThen acc).on k).peak ≤ top := by
  induction l generalizing n parts acc with
  | nil =>
    obtain ⟨s, _, sum, none, rfl⟩ := List.forall₂_cons_left_iff.1 sums
    obtain rfl := List.forall₂_nil_left_iff.1 none
    have peak := peak_eq spec ordered sum k
    simp only [List.foldl_cons, List.foldl_nil, Summary.on_andThen, Delta.andThen]
    refine ⟨le_max_left _ _, ?_, ?_, ?_⟩
    · rw [List.forall_mem_singleton]
      refine ⟨ordered, s, sum, ?_, ?_⟩
      · omega
      · omega
    · intro x last
      obtain rfl : n = x := Option.some.inj last
      exact ⟨s, sum, by omega⟩
    · intro top before limits
      obtain ⟨entered, left⟩ := limits n List.mem_cons_self s sum
      omega
  | cons m l ih =>
    obtain ⟨s, parts, sum, more, rfl⟩ := List.forall₂_cons_left_iff.1 sums
    obtain ⟨continues, chain⟩ := List.isChain_cons_cons.1 chain
    have edge : (m, EdgeKind.fallthrough) ∈ normalFrom g n := by
      rw [continues.1]
      exact List.mem_singleton_self _
    have peak := peak_eq spec ordered sum k
    have next := depthAt_of_edge spec depths ordered edge sum k
    -- The first vertex is taken into `acc`, which leads to the second then.
    have arrived' : base + ((acc.andThen s).on k).net = depthAt g code depth k m := by
      rw [Summary.on_andThen, Delta.andThen, next]
      dsimp only
      omega
    obtain ⟨above, inside, last, least⟩ :=
      ih (mem_order_of_edge spec ordered edge) chain more arrived'
    rw [Summary.on_andThen, Delta.andThen] at above least
    dsimp only at above least
    have left := le_trans (le_max_left _ _) above
    have right := le_trans (le_max_right _ _) above
    refine ⟨left, List.forall_mem_cons.2 ⟨⟨ordered, s, sum, ?_, ?_⟩, inside⟩, ?_, ?_⟩
    · rw [List.foldl_cons]
      omega
    · rw [List.foldl_cons]
      omega
    · intro x isLast
      rw [List.getLast?_cons_cons] at isLast
      exact last x isLast
    · intro top before limits
      obtain ⟨first, limits⟩ := List.forall_mem_cons.1 limits
      obtain ⟨entered, left⟩ := first s sum
      exact least top (by omega) limits

lemma build_eq_ok (h : build g code pool = .ok b) :
    List.Forall₂ (fun block s => blockSummary g code pool block = .ok s) (members g) b.summaries ∧
    b.successors = (members g).map (blockSuccessors g (members g)) ∧
    b.roots = findRoots g (members g) := by
  obtain ⟨summaries, sums, h⟩ := bind_eq_ok.1 h
  obtain rfl := Except.ok.inj h
  exact ⟨mapM_eq_ok.1 sums, rfl, rfl⟩

lemma succs_of_block (built : build g code pool = .ok b) (here : (members g)[i]? = some block) :
    b.succs i = blockSuccessors g (members g) block := by
  obtain ⟨-, successors, -⟩ := build_eq_ok built
  rw [succs, successors, List.getElem?_map, here]
  rfl

/-- The effect of a block reaches the depths before and after each of its vertices and no others, and
ends with the depth after its last one. -/
lemma summary_of_block (spec : FlowGraph.Spec code handlers g) (depths : code.Depths pool depth)
    (built : build g code pool = .ok b) (here : (members g)[i]? = some block)
    (isBlock : IsBlock g n block) (k : StackKind) :
    (∀ x ∈ block, x ∈ g.order ∧ ∃ s, vertexSummary g code pool x = .ok s ∧
      depthAt g code depth k x ≤ depthAt g code depth k n + ((b.summary i).on k).peak ∧
      depthAt g code depth k x + (s.on k).net ≤
        depthAt g code depth k n + ((b.summary i).on k).peak) ∧
    (∀ x, block.getLast? = some x → ∃ s, vertexSummary g code pool x = .ok s ∧
      depthAt g code depth k n + ((b.summary i).on k).net =
        depthAt g code depth k x + (s.on k).net) ∧
    ∀ top, (∀ x ∈ block, ∀ s, vertexSummary g code pool x = .ok s →
      depthAt g code depth k x ≤ top ∧ depthAt g code depth k x + (s.on k).net ≤ top) →
      depthAt g code depth k n + ((b.summary i).on k).peak ≤ top := by
  obtain ⟨sums, -, -⟩ := build_eq_ok built
  obtain ⟨lengths, each⟩ := List.forall₂_iff_get.1 sums
  obtain ⟨lt, rfl⟩ := List.getElem?_eq_some_iff.1 here
  have sum : blockSummary g code pool (members g)[i] = .ok (b.summary i) := by
    rw [summary, List.getElem?_eq_getElem (lengths ▸ lt)]
    exact each i lt (lengths ▸ lt)
  obtain ⟨parts, mapped, sum⟩ := bind_eq_ok.1 sum
  have chain := isBlock.isChain
  obtain ⟨ordered, -, eq⟩ := isBlock
  rw [eq] at mapped chain ⊢
  rw [← Except.ok.inj sum]
  have arrived : depthAt g code depth k n + (({} : Summary).on k).net =
      depthAt g code depth k n := by
    rw [Summary.on_default]
    exact add_zero _
  obtain ⟨-, inside, last, least⟩ := foldl_andThen spec depths ordered chain (mapM_eq_ok.1 mapped) arrived
  refine ⟨inside, last, fun top limits => least top ?_ limits⟩
  obtain ⟨-, s, sum, -⟩ := inside n List.mem_cons_self
  rw [Summary.on_default]
  exact (add_zero _).trans_le (limits n List.mem_cons_self s sum).1

lemma stands_of_entry (spec : FlowGraph.Spec code handlers g)
    (edge : (n, kind) ∈ g.edgesFrom FlowGraph.entry) :
    Stands code g.graph n (some 0) ∧ isLeader g n = true := by
  have mem := Digraph.mem_outgoing.1 edge
  constructor
  · generalize eq : (⟨FlowGraph.entry, n, kind⟩ : Digraph.Edge EdgeKind) = e at mem
    cases (spec.edges e).1 mem with
    | entry first =>
      cases eq
      exact first
    | prescribed there =>
      cases eq
      exact absurd there (not_stands_entry spec)
  · have entered : (g.edgesTo n).any (fun e => e.1 == FlowGraph.entry) = true :=
      List.any_eq_true.2 ⟨_, Digraph.mem_incoming.2 mem, beq_self_eq_true _⟩
    simp [isLeader, entered]

lemma isLeader_of_handler (target : g.isHandlerTarget n = true) : isLeader g n = true := by
  simp [isLeader, target]

lemma mem_findRoots : (i, start) ∈ findRoots g (members g) ↔
    (∃ e, (g.edgesFrom FlowGraph.entry).head? = some e ∧ blockOf? (members g) e.1 = some i ∧
      start = {}) ∨
    ∃ n ∈ g.order, g.isHandlerTarget n = true ∧ blockOf? (members g) n = some i ∧
      start = { stack := .fixed 1 } := by
  simp only [findRoots, List.mem_append, Option.mem_toList, Option.map_eq_some_iff,
    Option.bind_eq_some_iff, List.mem_filterMap, List.mem_filter, Prod.mk.injEq]
  constructor
  · rintro (⟨j, ⟨e, head, found⟩, rfl, rfl⟩ | ⟨n, ⟨mem, target⟩, j, found, rfl, rfl⟩)
    · exact .inl ⟨e, head, found, rfl⟩
    · exact .inr ⟨n, mem, target, found, rfl⟩
  · rintro (⟨e, head, found, rfl⟩ | ⟨n, mem, target, found, rfl⟩)
    · exact .inl ⟨i, ⟨e, head, found⟩, rfl, rfl⟩
    · exact .inr ⟨n, ⟨mem, target⟩, i, found, rfl, rfl⟩

lemma depth_of_root (spec : FlowGraph.Spec code handlers g) (depths : code.Depths pool depth)
    (h : (i, start) ∈ findRoots g (members g)) :
    ∃ n block, (members g)[i]? = some block ∧ IsBlock g n block ∧
      ∀ k, (start.on k).net = depthAt g code depth k n := by
  obtain ⟨⟨n, kind⟩, head, found, rfl⟩ | ⟨n, ordered, target, found, rfl⟩ := mem_findRoots.1 h
  · obtain ⟨stands, leader⟩ := stands_of_entry spec (List.mem_of_head? head)
    obtain ⟨j, block, found', here, isBlock⟩ :=
      blockOf?_leader ((mem_order spec).2 ⟨0, stands⟩) leader
    obtain rfl := Option.some.inj (found.symm.trans found')
    refine ⟨n, block, here, isBlock, fun k => ?_⟩
    rw [depthAt, positionOf_eq stands, depths.first, Summary.on_default]
  · obtain ⟨j, block, found', here, isBlock⟩ := blockOf?_leader ordered (isLeader_of_handler target)
    obtain rfl := Option.some.inj (found.symm.trans found')
    obtain ⟨h, mem, stands⟩ := exists_mem_of_mem_right spec.targets (List.contains_iff_mem.1 target)
    obtain ⟨operand, scope⟩ := depths.handler handlers spec.resolved h mem
    refine ⟨n, block, here, isBlock, fun k => ?_⟩
    rw [depthAt, positionOf_eq stands]
    cases k with
    | operand => exact operand.symm
    | scope => exact scope.symm

lemma trail_depth (spec : FlowGraph.Spec code handlers g) (depths : code.Depths pool depth)
    (built : build g code pool = .ok b) (trail : b.Trail start (i :: rest)) :
    ∃ n block, (members g)[i]? = some block ∧ IsBlock g n block ∧
      ∀ k, (start.on k).net + b.height k rest = depthAt g code depth k n := by
  generalize eq : i :: rest = t at trail
  induction trail generalizing i rest with
  | root mem =>
    obtain ⟨rfl, rfl⟩ := List.cons.inj eq
    obtain ⟨-, -, roots⟩ := build_eq_ok built
    obtain ⟨n, block, here, isBlock, start⟩ := depth_of_root spec depths (roots ▸ mem)
    refine ⟨n, block, here, isBlock, fun k => ?_⟩
    rw [height, List.map_nil, List.sum_nil, add_zero, start k]
  | @step i' j before trail edge new ih =>
    obtain ⟨rfl, rfl⟩ := List.cons.inj eq
    obtain ⟨n, block, here, isBlock, arrived⟩ := ih rfl
    rw [succs_of_block built here, mem_blockSuccessors] at edge
    obtain ⟨x, last, ⟨m, kind⟩, edge, found⟩ := edge
    have leader := isBlock.isLeader_of_last spec last edge
    have ends := fun k => (summary_of_block spec depths built here isBlock k).2.1 x last
    have ordered := ((summary_of_block spec depths built here isBlock .operand).1 x
      (List.mem_of_getLast? last)).1
    obtain ⟨j, next, found', there, isNext⟩ :=
      blockOf?_leader (mem_order_of_edge spec ordered edge) leader
    obtain rfl := Option.some.inj (found.symm.trans found')
    refine ⟨m, next, there, isNext, fun k => ?_⟩
    obtain ⟨s, sum, left⟩ := ends k
    have entered := depthAt_of_edge spec depths ordered edge sum k
    have before := arrived k
    rw [height_cons]
    omega

lemma Trail.of_append {later : List Nat} (h : b.Trail start (later ++ i :: rest)) :
    b.Trail start (i :: rest) := by
  induction later with
  | nil => exact h
  | cons x later ih =>
    refine ih ?_
    generalize eq : x :: later ++ i :: rest = t at h
    cases h with
    | root =>
      have := congrArg List.length eq
      simp at this
    | step trail edge new =>
      obtain ⟨-, tail⟩ := List.cons.inj eq
      rw [← tail] at trail
      exact trail

lemma exists_trail_root (built : build g code pool = .ok b)
    (ordered : n ∈ g.order) (leader : isLeader g n = true)
    (root : ∀ i, blockOf? (members g) n = some i → ∃ start, (i, start) ∈ findRoots g (members g)) :
    ∃ i block m start rest, (members g)[i]? = some block ∧ IsBlock g m block ∧ n ∈ block ∧
      b.Trail start (i :: rest) := by
  obtain ⟨i, block, found, here, isBlock⟩ := blockOf?_leader ordered leader
  obtain ⟨start, mem⟩ := root i found
  obtain ⟨-, -, roots⟩ := build_eq_ok built
  exact ⟨i, block, n, start, [], here, isBlock, isBlock.mem, .root (roots ▸ mem)⟩

lemma exists_trail (spec : FlowGraph.Spec code handlers g) (built : build g code pool = .ok b)
    (reach : code.Reachable p) (stands : Stands code g.graph n (some p)) :
    ∃ i block m start rest, (members g)[i]? = some block ∧ IsBlock g m block ∧ n ∈ block ∧
      b.Trail start (i :: rest) := by
  induction reach generalizing n with
  | first =>
    have edge : (n, EdgeKind.fallthrough) ∈ g.edgesFrom FlowGraph.entry :=
      Digraph.mem_outgoing.2 ((spec.edges _).2 (.entry stands))
    refine exists_trail_root built ((mem_order spec).2 ⟨0, stands⟩) (stands_of_entry spec edge).2 ?_
    intro i found
    obtain ⟨⟨m, kind⟩, head⟩ : ∃ e, (g.edgesFrom FlowGraph.entry).head? = some e := by
      cases list : g.edgesFrom FlowGraph.entry with
      | nil =>
        rw [list] at edge
        exact absurd edge List.not_mem_nil
      | cons e rest => exact ⟨e, rfl⟩
    have first := (stands_of_entry spec (List.mem_of_head? head)).1
    obtain rfl := stands.vertex_inj spec.nodup first
    exact ⟨_, mem_findRoots.2 (.inl ⟨_, head, found, rfl⟩)⟩
  | @handler hs h resolved mem =>
    obtain rfl := Except.ok.inj (resolved.symm.trans spec.resolved)
    obtain ⟨m, isTarget, there⟩ := exists_mem_of_mem_left spec.targets mem
    obtain rfl := stands.vertex_inj spec.nodup there
    have target : g.isHandlerTarget n = true := List.contains_iff_mem.2 isTarget
    have ordered := (mem_order spec).2 ⟨h.target, stands⟩
    refine exists_trail_root built ordered (isLeader_of_handler target) ?_
    exact fun i found => ⟨_, mem_findRoots.2 (.inr ⟨n, ordered, target, found, rfl⟩)⟩
  | @next p q id ins kind reach here way ih =>
    obtain ⟨x, source⟩ := spec.vertex p reach
    obtain ⟨m, target, edge⟩ := exists_normal_edge spec reach source here way
    obtain rfl := stands.vertex_inj spec.nodup target
    obtain ⟨i, block, first, start, rest, there, isBlock, inside, trail⟩ := ih source
    cases leader : isLeader g n with
    | false =>
      exact ⟨i, block, first, start, rest, there, isBlock,
        isBlock.stays spec inside edge leader, trail⟩
    | true =>
      have last := isBlock.last_of_edge inside edge leader
      obtain ⟨j, next, found, position, isNext⟩ :=
        blockOf?_leader ((mem_order spec).2 ⟨q, stands⟩) leader
      have step : j ∈ b.succs i := by
        rw [succs_of_block built there, mem_blockSuccessors]
        exact ⟨x, last, _, edge, found⟩
      -- If the trail came by the next block before, it is cut off there.
      by_cases seen : j ∈ i :: rest
      · obtain ⟨later, before, eq⟩ := List.append_of_mem seen
        rw [eq] at trail
        exact ⟨j, next, n, start, before, position, isNext, isNext.mem, trail.of_append⟩
      · exact ⟨j, next, n, start, i :: rest, position, isNext, isNext.mem, trail.step step seen⟩

lemma inRange_build (built : build g code pool = .ok b) : b.InRange := by
  obtain ⟨sums, successors, roots⟩ := build_eq_ok built
  have found {n : NodeId} {j : Nat} (h : blockOf? (members g) n = some j) :
      j < b.summaries.length := by
    rw [← sums.length_eq]
    exact (List.findIdx?_eq_some_iff_getElem.1 h).1
  constructor
  case roots =>
    rintro ⟨i, start⟩ mem
    rw [roots] at mem
    obtain ⟨e, -, h, -⟩ | ⟨n, -, -, h, -⟩ := mem_findRoots.1 mem
    · exact found h
    · exact found h
  case succs =>
    intro i j mem
    cases here : (members g)[i]? with
    | none =>
      rw [succs, successors, List.getElem?_map, here] at mem
      exact absurd mem List.not_mem_nil
    | some block =>
      rw [succs_of_block built here, mem_blockSuccessors] at mem
      obtain ⟨x, -, e, -, h⟩ := mem
      exact found h

lemma depth_le_raw (spec : FlowGraph.Spec code handlers g) (depths : code.Depths pool depth)
    (built : build g code pool = .ok b) (budget : Nat) {id : InstrId} {i : Instruction Marker}
    (reach : code.Reachable p) (here : code.at? p = some (id, i)) :
    ∃ e, i.effect pool = .ok e ∧ ∀ k,
      depth k p ≤ k.pick (StackBounds.raw b budget).1 (StackBounds.raw b budget).2 ∧
      depth k p + e.on k ≤ k.pick (StackBounds.raw b budget).1 (StackBounds.raw b budget).2 := by
  obtain ⟨n, stands⟩ := spec.vertex p reach
  obtain ⟨j, block, -, start, rest, there, -, inside, trail⟩ := exists_trail spec built reach stands
  obtain ⟨m, block', there', isBlock, arrived⟩ := trail_depth spec depths built trail
  obtain rfl := Option.some.inj (there.symm.trans there')
  have summary := fun k => (summary_of_block spec depths built there isBlock k).1 n inside
  obtain ⟨-, s, sum, -, -⟩ := summary .operand
  obtain ⟨e, effect, on⟩ := vertexSummary_eq_ok stands here sum
  refine ⟨e, effect, fun k => ?_⟩
  have deep := StackBounds.raw_bounds (inRange_build built) budget trail k
  rw [arrived k] at deep
  obtain ⟨-, s', sum', before, after⟩ := summary k
  obtain rfl := Except.ok.inj (sum.symm.trans sum')
  rw [depthAt, positionOf_eq stands] at before after
  rw [on k] at after
  exact ⟨before.trans deep, after.trans deep⟩

end BlockGraph

lemma Opcode.pushes_eq_zero {op : Opcode} (out : op.flow = .leave ∨ op.flow = .raise) :
    op.info.pushes = 0 ∧ op.info.scope = 0 := by
  revert out
  cases op <;> decide

lemma Instruction.effect_le_zero {i : Instruction Marker} {pool : Pool} {e : StackEffect}
    (effect : i.effect pool = .ok e) (out : i.opcode.flow = .leave ∨ i.opcode.flow = .raise)
    (k : StackKind) : e.on k ≤ 0 := by
  obtain ⟨slots, -, h⟩ := bind_eq_ok.1 effect
  obtain rfl := Except.ok.inj h
  obtain ⟨pushes, scope⟩ := Opcode.pushes_eq_zero out
  cases k with
  | operand =>
    rw [StackEffect.on, StackEffect.net]
    dsimp only
    omega
  | scope => exact le_of_eq scope

section Bounds

variable {g : FlowGraph} {code : Code} {pool : Pool} {budget : Nat} {bounds : StackBounds}
  {depth : StackKind → Nat → Int} {p : Nat} {id : InstrId} {i : Instruction Marker}

/-- The depth after an instruction is a 32-bit number as well: it is the depth before another one, or
is no more than the depth before this one. -/
lemma Code.Depths.small_after {handlers : List (Handler Nat)} {e : StackEffect}
    (depths : code.Depths pool depth) (spec : FlowGraph.Spec code handlers g)
    (reach : code.Reachable p) (here : code.at? p = some (id, i)) (effect : i.effect pool = .ok e)
    (k : StackKind) : depth k p + e.on k ≤ 0xffffffff := by
  by_cases out : i.opcode.flow = .leave ∨ i.opcode.flow = .raise
  · have change := Instruction.effect_le_zero effect out k
    have before := depths.small k p reach
    omega
  · rw [not_or] at out
    obtain ⟨kind, q, way⟩ := (spec.defined p id i reach here).exists_way out.1 out.2
    rw [← depths.next p q id i kind e reach here way effect k]
    exact depths.small k q (.next reach here way)

namespace StackBounds

lemma le_clamp {d m : Int} (le : d ≤ m) (small : d ≤ 0xffffffff) : d ≤ clamp m := by
  rw [clamp]
  omega

lemma on_ofBlocks (b : BlockGraph) (k : StackKind) :
    (ofBlocks b budget).on k = clamp (k.pick (raw b budget).1 (raw b budget).2) := by
  cases k <;> rfl

/-- The bounds of code are at least the depths before and after every instruction that control can
come to, whatever depths are consistent. -/
theorem depth_le_analyze (built : FlowGraph.build code = .ok g)
    (analyzed : analyze g code pool budget = .ok bounds) (depths : code.Depths pool depth)
    (reach : code.Reachable p) (here : code.at? p = some (id, i)) :
    ∃ e, i.effect pool = .ok e ∧
      ∀ k, depth k p ≤ bounds.on k ∧ depth k p + e.on k ≤ bounds.on k := by
  obtain ⟨handlers, spec⟩ := FlowGraph.build_sound built
  obtain ⟨b, blocks, h⟩ := bind_eq_ok.1 analyzed
  obtain rfl := Except.ok.inj h
  obtain ⟨e, effect, deep⟩ := BlockGraph.depth_le_raw spec depths blocks budget reach here
  refine ⟨e, effect, fun k => ?_⟩
  rw [on_ofBlocks]
  constructor
  · exact le_clamp (deep k).1 (depths.small k p reach)
  · exact le_clamp (deep k).2 (depths.small_after spec reach here effect k)

end StackBounds

end Bounds

/-- Code that counts in a loop with an object on the scope stack, and drops what it catches there. -/
def Code.looping : Code where
  instrs := [(0, ⟨.getLocal0, .none⟩), (1, ⟨.pushScope, .none⟩), (2, .withByte .pushByte 3),
    (3, ⟨.label, .none⟩), (4, ⟨.decrement, .none⟩), (5, ⟨.dup, .none⟩), (6, .branch .ifTrue 0),
    (7, ⟨.returnValue, .none⟩), (8, ⟨.pop, .none⟩), (9, ⟨.returnVoid, .none⟩)]
  markers := { bindings := [.bound (.instr 3), .bound (.instr 7), .bound (.instr 8)] }
  handlers := [⟨0, 1, 2, 0, 0⟩]
  nextId := 10

/-- The depths before its instructions. -/
def Code.loopingDepth : StackKind → Nat → Int
  | .operand, p => if p = 6 then 2 else if p ∈ [0, 2, 9] then 0 else 1
  | .scope, p => if 2 ≤ p ∧ p ≤ 7 then 1 else 0

lemma Code.depths_looping : Code.looping.Depths {} Code.loopingDepth where
  first k := by cases k <;> rfl
  handler := by
    intro handlers resolved
    obtain rfl : [⟨3, 7, 8, 0, 0⟩] = handlers := Except.ok.inj resolved
    decide
  next := by
    intro p q id i kind e _ here way effect k
    have lt : p < 10 := Code.lt_size_of_at? here
    interval_cases p
    all_goals
      obtain ⟨rfl, rfl⟩ := Prod.mk.inj (Option.some.inj here)
      obtain rfl := Except.ok.inj effect
      cases way with
      | next flow =>
        first
        | exact absurd flow (by decide)
        | cases k <;> rfl
      | whenTrue flow operands branches =>
        first
        | exact absurd flow (by decide)
        | obtain rfl := Operands.branch.inj operands
          obtain rfl : 3 = q := Option.some.inj branches.1
          cases k <;> rfl
      | whenFalse flow operands =>
        first
        | exact absurd flow (by decide)
        | cases k <;> rfl
      | jump flow => exact absurd flow (by decide)
      | switchDefault flow => exact absurd flow (by decide)
      | switchCase flow => exact absurd flow (by decide)
  small := by
    intro k p _
    cases k <;> rw [loopingDepth] <;> split_ifs <;> decide

/-- The loop stays below its bounds, which are found by walking its paths. -/
theorem StackBounds.depth_le_analyze_looping :
    ∃ g, FlowGraph.build Code.looping = .ok g ∧
      analyze g Code.looping {} 16 = .ok ⟨2, 1⟩ ∧
      Code.looping.Depths {} Code.loopingDepth ∧ Code.looping.Reachable 5 ∧
      ∃ e, (⟨.dup, .none⟩ : Instruction Marker).effect {} = .ok e ∧
        ∀ k, Code.loopingDepth k 5 ≤ (⟨2, 1⟩ : StackBounds).on k ∧
          Code.loopingDepth k 5 + e.on k ≤ (⟨2, 1⟩ : StackBounds).on k := by
  have run : (FlowGraph.build Code.looping >>= fun g => analyze g Code.looping {} 16) =
      .ok ⟨2, 1⟩ := by
    decide +kernel
  obtain ⟨g, built, analyzed⟩ := bind_eq_ok.1 run
  have step (p : Nat) (e) (h : Code.looping.instrs[p]? = some e) (flow : e.2.opcode.flow = .next)
      (reach : Code.looping.Reachable p) : Code.looping.Reachable (p + 1) :=
    .next reach h (.next flow)
  have reach : Code.looping.Reachable 5 := by
    refine step 4 _ rfl rfl (step 3 _ rfl rfl (step 2 _ rfl rfl (step 1 _ rfl rfl ?_)))
    exact step 0 _ rfl rfl .first
  exact ⟨g, built, analyzed, Code.depths_looping, reach,
    depth_le_analyze built analyzed Code.depths_looping reach rfl⟩

end Avm
