import Avm.Proofs.Depth.Walk
import Avm.Proofs.Flow.Building

/-!
# Blocks of a control flow graph

The vertices of a control flow graph fall into blocks: from a leader on, as long as control can only
fall through to a vertex that it can only come to so.  Every vertex is in a block, whose leader stands
first in it, and control leaves a block only at its end and enters another at its leader.

The main statement is `blockOf?_leader`, where a leader is found.
-/

namespace Avm

namespace BlockGraph

variable {g : FlowGraph} {n m x y : NodeId} {kind : EdgeKind} {fuel i : Nat}

lemma mem_normalFrom : (m, kind) ∈ normalFrom g n ↔
    ⟨n, m, kind⟩ ∈ g.graph.edges ∧ isNormal kind = true := by
  rw [normalFrom, List.mem_filter, FlowGraph.edgesFrom, Digraph.mem_outgoing]

lemma mem_normalTo : (n, kind) ∈ normalTo g m ↔
    ⟨n, m, kind⟩ ∈ g.graph.edges ∧ isNormal kind = true := by
  rw [normalTo, List.mem_filter, FlowGraph.edgesTo, Digraph.mem_incoming]

/-- From the first vertex control can only fall through to the second, which starts no block. -/
def Continues (g : FlowGraph) (x y : NodeId) : Prop :=
  normalFrom g x = [(y, .fallthrough)] ∧ isLeader g y = false

lemma not_leader (h : isLeader g y = false) : g.isHandlerTarget y = false ∧
    (∀ e ∈ g.edgesTo y, e.1 ≠ FlowGraph.entry) ∧
    ∃ x, normalTo g y = [(x, .fallthrough)] ∧ Continues g x y := by
  have inner := h
  simp only [isLeader, Bool.or_eq_false_iff, bne_eq_false_iff_eq, List.any_eq_false, beq_iff_eq,
    Bool.or_eq_true, bne_iff_ne, not_or, not_not, Prod.forall] at h
  obtain ⟨⟨⟨handler, count⟩, entered⟩, falls⟩ := h
  have sources : (normalTo g y).filter (fun e => e.1 != FlowGraph.entry) = normalTo g y := by
    rw [List.filter_eq_self]
    rintro ⟨x, kind⟩ mem
    exact bne_iff_ne.2 (entered x kind (List.mem_filter.1 mem).1)
  rw [sources] at count
  obtain ⟨⟨x, kind⟩, only⟩ := List.length_eq_one_iff.1 count
  have mem : (x, kind) ∈ normalTo g y := only ▸ List.mem_singleton_self _
  obtain ⟨rfl, single⟩ := falls x kind mem
  obtain ⟨e, onlyFrom⟩ := List.length_eq_one_iff.1 single
  have back : (y, EdgeKind.fallthrough) ∈ normalFrom g x := mem_normalFrom.2 (mem_normalTo.1 mem)
  rw [onlyFrom, List.mem_singleton] at back
  refine ⟨handler, fun e mem => entered e.1 e.2 mem, x, only, ?_, inner⟩
  rw [onlyFrom, back]

lemma Continues.mem_normalTo (h : Continues g x y) : (x, .fallthrough) ∈ normalTo g y := by
  rw [BlockGraph.mem_normalTo, ← mem_normalFrom, h.1]
  exact List.mem_singleton_self _

lemma Continues.unique (hx : Continues g x n) (hy : Continues g y n) : x = y := by
  obtain ⟨-, -, z, only, -⟩ := not_leader hx.2
  have fromX := hx.mem_normalTo
  have fromY := hy.mem_normalTo
  rw [only, List.mem_singleton] at fromX fromY
  exact congrArg Prod.fst (fromX.trans fromY.symm)

lemma continues_of_edge (edge : (y, kind) ∈ normalFrom g x) (inner : isLeader g y = false) :
    Continues g x y := by
  obtain ⟨-, -, z, only, continues⟩ := not_leader inner
  have into : (x, kind) ∈ normalTo g y := BlockGraph.mem_normalTo.2 (mem_normalFrom.1 edge)
  rw [only, List.mem_singleton] at into
  obtain ⟨rfl, -⟩ := Prod.mk.inj into
  exact continues

lemma run_succ (g : FlowGraph) (fuel : Nat) (n : NodeId) :
    (∃ m, Continues g n m ∧ run g (fuel + 1) n = m :: run g fuel m) ∨
    ((∀ m, ¬Continues g n m) ∧ run g (fuel + 1) n = []) := by
  rw [run]
  split
  · rename_i next single
    split
    · rename_i leader
      refine .inr ⟨?_, rfl⟩
      rintro m ⟨only, inner⟩
      rw [single] at only
      obtain ⟨rfl, -⟩ := Prod.mk.inj (List.singleton_inj.1 only)
      exact absurd leader (Bool.eq_false_iff.1 inner)
    · rename_i inner
      exact .inl ⟨next, ⟨single, Bool.eq_false_iff.2 inner⟩, rfl⟩
  · rename_i other
    refine .inr ⟨?_, rfl⟩
    rintro m ⟨only, -⟩
    exact other m only

lemma isChain_run : (n :: run g fuel n).IsChain (Continues g) := by
  induction fuel generalizing n with
  | zero => exact List.isChain_singleton n
  | succ fuel ih =>
    obtain ⟨m, continues, eq⟩ | ⟨-, eq⟩ := run_succ g fuel n
    · rw [eq]
      exact List.isChain_cons_cons.2 ⟨continues, ih⟩
    · rw [eq]
      exact List.isChain_singleton n

lemma mem_run_of_continues (mem : x ∈ n :: run g fuel n) (continues : Continues g x y) :
    y ∈ n :: run g fuel n ∨ (n :: run g fuel n).length = fuel + 1 := by
  induction fuel generalizing n with
  | zero => exact .inr rfl
  | succ fuel ih =>
    obtain ⟨m, next, eq⟩ | ⟨none, eq⟩ := run_succ g fuel n
    · rw [eq] at mem ⊢
      obtain rfl | mem := List.mem_cons.1 mem
      · obtain ⟨rfl, -⟩ := Prod.mk.inj (List.singleton_inj.1 (next.1.symm.trans continues.1))
        exact .inl (List.mem_cons_of_mem _ List.mem_cons_self)
      · obtain found | cut := ih mem
        · exact .inl (List.mem_cons_of_mem _ found)
        · exact .inr (by rw [List.length_cons, cut])
    · rw [eq, List.mem_singleton] at mem
      exact absurd continues (mem ▸ none y)

lemma last_run_of_continues (last : (n :: run g fuel n).getLast? = some x)
    (continues : Continues g x y) : (n :: run g fuel n).length = fuel + 1 := by
  induction fuel generalizing n with
  | zero => rfl
  | succ fuel ih =>
    obtain ⟨m, next, eq⟩ | ⟨none, eq⟩ := run_succ g fuel n
    · rw [eq] at last ⊢
      rw [List.getLast?_cons_cons] at last
      rw [List.length_cons, ih last]
    · rw [eq] at last
      obtain rfl := Option.some.inj last
      exact absurd continues (none y)

lemma nodup_of_isChain {l : List NodeId} (chain : (n :: l).IsChain (Continues g))
    (leader : isLeader g n = true) : (n :: l).Nodup := by
  rw [List.nodup_iff_getElem?_ne_getElem?]
  intro i
  -- If a vertex came twice so would the one before it, and in the end the leader.
  induction i with
  | zero =>
    intro j less lt same
    obtain ⟨j, rfl⟩ : ∃ k, j = k + 1 := ⟨j - 1, by omega⟩
    have inner := (chain.getElem j lt).2
    rw [List.getElem?_eq_getElem lt] at same
    rw [← Option.some.inj same] at inner
    exact absurd leader (Bool.eq_false_iff.1 inner)
  | succ i ih =>
    intro j less lt same
    obtain ⟨j, rfl⟩ : ∃ k, j = k + 1 := ⟨j - 1, by omega⟩
    have continues := chain.getElem i (by omega)
    rw [List.getElem?_eq_getElem lt, List.getElem?_eq_getElem (by omega)] at same
    rw [Option.some.inj same] at continues
    refine ih j (by omega) (by omega) ?_
    rw [List.getElem?_eq_getElem (by omega), List.getElem?_eq_getElem (by omega),
      continues.unique (chain.getElem j lt)]

variable {code : Code} {handlers : List (Handler Nat)} {block : List NodeId}

lemma target_lt (spec : FlowGraph.Spec code handlers g) (edge : ⟨x, y, kind⟩ ∈ g.graph.edges) :
    y < g.graph.nodeCount := by
  cases (spec.edges _).1 edge with
  | entry stands => exact stands.lt
  | @prescribed _ _ p id i _ place _ _ _ stands =>
    cases place with
    | some q => exact stands.lt
    | none =>
      obtain ⟨_, nodes⟩ := spec.outside
      rw [show y = FlowGraph.exit from stands, Digraph.nodeCount, ← nodes]
      simp [FlowGraph.exit]

lemma length_run_le (spec : FlowGraph.Spec code handlers g) (leader : isLeader g n = true)
    (lt : n < g.graph.nodeCount) :
    (n :: run g g.graph.nodeCount n).length ≤ g.graph.nodeCount := by
  have chain := @isChain_run g n g.graph.nodeCount
  have below : n :: run g g.graph.nodeCount n ⊆ List.range g.graph.nodeCount := by
    intro x mem
    obtain ⟨i, less, rfl⟩ := List.getElem_of_mem mem
    rw [List.mem_range]
    cases i with
    | zero => exact lt
    | succ i =>
      have edge := (chain.getElem i less).mem_normalTo
      exact target_lt spec (mem_normalTo.1 edge).1
  have := (List.subperm_of_subset (nodup_of_isChain chain leader) below).length_le
  rwa [List.length_range] at this

lemma mem_order (spec : FlowGraph.Spec code handlers g) :
    n ∈ g.order ↔ ∃ p, FlowGraph.Stands code g.graph n (some p) := by
  rw [spec.order, List.mem_filterMap]
  constructor
  · rintro ⟨e, mem, found⟩
    obtain ⟨p, here⟩ := List.getElem?_of_mem mem
    exact ⟨p, e, here, (findIdx?_beq_eq_some spec.nodup).1 found⟩
  · rintro ⟨p, e, here, node⟩
    exact ⟨e, List.mem_of_getElem? here, (findIdx?_beq_eq_some spec.nodup).2 node⟩

/-- The list is the block of a leader. -/
def IsBlock (g : FlowGraph) (n : NodeId) (block : List NodeId) : Prop :=
  n ∈ g.order ∧ isLeader g n = true ∧ block = n :: run g g.graph.nodeCount n

lemma mem_members : block ∈ members g ↔ ∃ n, IsBlock g n block := by
  rw [members, List.mem_map]
  constructor
  · rintro ⟨n, mem, rfl⟩
    obtain ⟨mem, leader⟩ := List.mem_filter.1 mem
    exact ⟨n, mem, leader, rfl⟩
  · rintro ⟨n, mem, leader, rfl⟩
    exact ⟨n, List.mem_filter.2 ⟨mem, leader⟩, rfl⟩

lemma IsBlock.mem (h : IsBlock g n block) : n ∈ block := by
  obtain ⟨-, -, rfl⟩ := h
  exact List.mem_cons_self

lemma IsBlock.isChain (h : IsBlock g n block) : block.IsChain (Continues g) := by
  obtain ⟨-, -, rfl⟩ := h
  exact isChain_run

lemma IsBlock.eq_of_leader (h : IsBlock g n block) (mem : x ∈ block)
    (leader : isLeader g x = true) : x = n := by
  have chain := h.isChain
  obtain ⟨-, -, rfl⟩ := h
  obtain ⟨i, less, rfl⟩ := List.getElem_of_mem mem
  cases i with
  | zero => rfl
  | succ i => exact absurd leader (Bool.eq_false_iff.1 (chain.getElem i less).2)

lemma IsBlock.stays (spec : FlowGraph.Spec code handlers g) (h : IsBlock g n block)
    (mem : x ∈ block) (edge : (y, kind) ∈ normalFrom g x) (inner : isLeader g y = false) : y ∈ block := by
  obtain ⟨ordered, leader, rfl⟩ := h
  obtain ⟨p, stands⟩ := (mem_order spec).1 ordered
  obtain found | cut := mem_run_of_continues mem (continues_of_edge edge inner)
  · exact found
  · have := length_run_le spec leader stands.lt
    omega

lemma IsBlock.isLeader_of_last (spec : FlowGraph.Spec code handlers g) (h : IsBlock g n block)
    (last : block.getLast? = some x) (edge : (y, kind) ∈ normalFrom g x) : isLeader g y = true := by
  obtain ⟨ordered, leader, rfl⟩ := h
  obtain ⟨p, stands⟩ := (mem_order spec).1 ordered
  by_contra inner
  have cut := last_run_of_continues last (continues_of_edge edge (Bool.eq_false_iff.2 inner))
  have := length_run_le spec leader stands.lt
  omega

lemma IsBlock.last_of_edge (h : IsBlock g n block) (mem : x ∈ block)
    (edge : (y, kind) ∈ normalFrom g x) (leader : isLeader g y = true) :
    block.getLast? = some x := by
  obtain ⟨i, less, rfl⟩ := List.getElem_of_mem mem
  by_cases more : i + 1 < block.length
  · have continues := h.isChain.getElem i more
    rw [continues.1, List.mem_singleton] at edge
    obtain ⟨rfl, -⟩ := Prod.mk.inj edge
    exact absurd leader (Bool.eq_false_iff.1 continues.2)
  · rw [List.getLast?_eq_getElem?, show block.length - 1 = i by omega,
      List.getElem?_eq_getElem less]

lemma blockOf?_leader (ordered : n ∈ g.order) (leader : isLeader g n = true) :
    ∃ i block, blockOf? (members g) n = some i ∧ (members g)[i]? = some block ∧
      IsBlock g n block := by
  have own : IsBlock g n (n :: run g g.graph.nodeCount n) := ⟨ordered, leader, rfl⟩
  cases found : blockOf? (members g) n with
  | none =>
    have absent := List.findIdx?_eq_none_iff.1 found _ (mem_members.2 ⟨n, own⟩)
    simp at absent
  | some i =>
    obtain ⟨lt, contains, -⟩ := List.findIdx?_eq_some_iff_getElem.1 found
    have here := List.getElem?_eq_getElem lt
    obtain ⟨m, block⟩ := mem_members.1 (List.mem_of_getElem? here)
    obtain rfl := block.eq_of_leader (List.contains_iff_mem.1 contains) leader
    exact ⟨i, _, rfl, here, block⟩

lemma mem_foldl_distinct {l seen : List Nat} {j : Nat} :
    j ∈ l.foldl (fun seen b => if seen.contains b then seen else seen ++ [b]) seen ↔
      j ∈ seen ∨ j ∈ l := by
  induction l generalizing seen with
  | nil => simp
  | cons b rest ih =>
    rw [List.foldl_cons, ih, List.mem_cons]
    split
    · rename_i known
      have : b ∈ seen := by simpa using known
      constructor
      · tauto
      · rintro (mem | rfl | mem)
        · exact .inl mem
        · exact .inl this
        · exact .inr mem
    · rw [List.mem_append, List.mem_singleton]
      tauto

lemma mem_blockSuccessors {blocks : List (List NodeId)} {j : Nat} :
    j ∈ blockSuccessors g blocks block ↔ ∃ x, block.getLast? = some x ∧
      ∃ e ∈ normalFrom g x, blockOf? blocks e.1 = some j := by
  rw [blockSuccessors]
  cases block.getLast? with
  | none => simp
  | some x =>
    simp only [mem_foldl_distinct, List.not_mem_nil, false_or, List.mem_filterMap,
      Option.some.injEq, exists_eq_left']

end BlockGraph

end Avm
