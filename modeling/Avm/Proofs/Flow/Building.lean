import Avm.Proofs.Flow.Ways

/-!
# Control flow graphs are built right

A control flow graph is built with a list of positions that still have to be looked at.  The
invariant `Builder.Inv` says that the vertices stand for the positions that were looked at or wait, and
that every edge is prescribed; `Builder.Settled` says that everything prescribed at a position is there.
Looking at a position keeps the first and settles the position, so that nothing is missing when no
position waits.

The main statement is `build_sound`: a graph that is built satisfies `FlowGraph.Spec`.
-/

namespace Avm

lemma findIdx?_beq_eq_some {α : Type} [DecidableEq α] {l : List α} (nodup : l.Nodup) {a : α}
    {n : Nat} : l.findIdx? (· == a) = some n ↔ l[n]? = some a := by
  have found {m} (h : l.findIdx? (· == a) = some m) : l[m]? = some a := by
    obtain ⟨lt, here, -⟩ := List.findIdx?_eq_some_iff_getElem.1 h
    rw [List.getElem?_eq_getElem lt, LawfulBEq.eq_of_beq here]
  constructor
  · exact found
  · intro here
    cases other : l.findIdx? (· == a) with
    | none =>
      have absent := List.findIdx?_eq_none_iff.1 other a (List.mem_of_getElem? here)
      simp at absent
    | some m =>
      have lt := (List.getElem?_eq_some_iff.1 here).1
      rw [(List.getElem?_inj lt nodup).1 (here.trans (found other).symm)]

lemma Digraph.mem_outgoing {ν ε : Type} {g : Digraph ν ε} {n m : NodeId} {label : ε} :
    (m, label) ∈ g.outgoing n ↔ ⟨n, m, label⟩ ∈ g.edges := by
  rw [outgoing, List.mem_filterMap]
  constructor
  · rintro ⟨⟨s, t, l⟩, mem, eq⟩
    split at eq
    · rename_i same
      obtain ⟨rfl, rfl⟩ := Prod.mk.inj (Option.some.inj eq)
      exact same ▸ mem
    · cases eq
  · intro mem
    exact ⟨_, mem, if_pos rfl⟩

lemma Digraph.mem_incoming {ν ε : Type} {g : Digraph ν ε} {n m : NodeId} {label : ε} :
    (n, label) ∈ g.incoming m ↔ ⟨n, m, label⟩ ∈ g.edges := by
  rw [incoming, List.mem_filterMap]
  constructor
  · rintro ⟨⟨s, t, l⟩, mem, eq⟩
    split at eq
    · rename_i same
      obtain ⟨rfl, rfl⟩ := Prod.mk.inj (Option.some.inj eq)
      exact same ▸ mem
    · cases eq
  · intro mem
    exact ⟨_, mem, if_pos rfl⟩

namespace FlowGraph

variable {code : Code} {handlers : List (Handler Nat)}

/-- The vertex stands for a position, or for the outside of the method. -/
def Stands (code : Code) (graph : Digraph Vertex EdgeKind) (n : NodeId) : Option Nat → Prop
  | none => n = exit
  | some p => ∃ e, code.at? p = some e ∧ graph.node? n = some (.instr e.1)

/-- The edge is the one into the method, or one that the code prescribes. -/
inductive Justified (code : Code) (handlers : List (Handler Nat))
    (graph : Digraph Vertex EdgeKind) : Digraph.Edge EdgeKind → Prop
  | entry {n} : Stands code graph n (some 0) → Justified code handlers graph ⟨entry, n, .fallthrough⟩
  | prescribed {n m p id i kind place} : Stands code graph n (some p) → code.at? p = some (id, i) →
      code.Prescribes handlers p i kind place → Stands code graph m place →
      Justified code handlers graph ⟨n, m, kind⟩

/-- Nodes and edges are only added. -/
structure Grows (graph graph' : Digraph Vertex EdgeKind) : Prop where
  nodes : graph.nodes <+: graph'.nodes
  edges : graph.edges ⊆ graph'.edges

lemma Grows.refl (graph : Digraph Vertex EdgeKind) : Grows graph graph :=
  ⟨List.prefix_refl _, List.Subset.refl _⟩

lemma Grows.trans {a b c : Digraph Vertex EdgeKind} (h : Grows a b) (h' : Grows b c) : Grows a c :=
  ⟨h.nodes.trans h'.nodes, fun _ mem => h'.edges (h.edges mem)⟩

section Stands

variable {graph graph' : Digraph Vertex EdgeKind} {n m : NodeId} {p q : Nat} {place : Option Nat}

lemma Stands.grows (h : Stands code graph n place) (grows : Grows graph graph') :
    Stands code graph' n place := by
  cases place with
  | none => exact h
  | some p =>
    obtain ⟨e, here, node⟩ := h
    obtain ⟨lt, value⟩ := List.getElem?_eq_some_iff.1 node
    exact ⟨e, here, (List.prefix_iff_getElem?.1 grows.nodes n lt).trans (congrArg some value)⟩

lemma Stands.lt (h : Stands code graph n (some p)) : n < graph.nodeCount := by
  obtain ⟨_, -, node⟩ := h
  exact (List.getElem?_eq_some_iff.1 node).1

lemma Stands.position_inj (hp : Stands code graph n (some p)) (hq : Stands code graph n (some q)) :
    p = q := by
  obtain ⟨⟨id, i⟩, atp, nodep⟩ := hp
  obtain ⟨⟨id', j⟩, atq, nodeq⟩ := hq
  obtain rfl : id = id' := Vertex.instr.inj (Option.some.inj (nodep.symm.trans nodeq))
  exact Code.at?_inj atp atq

lemma Stands.vertex_inj (nodup : graph.nodes.Nodup) (hn : Stands code graph n (some p))
    (hm : Stands code graph m (some p)) : n = m := by
  have lt := hn.lt
  obtain ⟨e, atn, noden⟩ := hn
  obtain ⟨e', atm, nodem⟩ := hm
  obtain rfl : e = e' := Option.some.inj (atn.symm.trans atm)
  exact (List.getElem?_inj lt nodup).1 (noden.trans nodem.symm)

lemma Stands.reachable (reached : ∀ n id, graph.node? n = some (.instr id) →
    ∃ p i, code.at? p = some (id, i) ∧ code.Reachable p) (h : Stands code graph n (some p)) :
    code.Reachable p := by
  obtain ⟨⟨id, i⟩, here, node⟩ := h
  obtain ⟨q, j, there, reach⟩ := reached n id node
  rwa [Code.at?_inj here there]

lemma Justified.grows {e : Digraph.Edge EdgeKind} (h : Justified code handlers graph e)
    (grows : Grows graph graph') : Justified code handlers graph' e := by
  cases h with
  | entry first => exact .entry (first.grows grows)
  | prescribed source here way target =>
    exact .prescribed (source.grows grows) here way (target.grows grows)

end Stands

namespace Builder

/-- What holds while a graph is built: `seen` are the positions that were looked at. -/
structure Inv (code : Code) (handlers : List (Handler Nat)) (seen : List Nat) (b : Builder) :
    Prop where
  outside : [.entry, .exit] <+: b.graph.nodes
  nodup : b.graph.nodes.Nodup
  reached : ∀ n id, b.graph.node? n = some (.instr id) →
    ∃ p i, code.at? p = some (id, i) ∧ code.Reachable p
  covering : ∀ n p, Stands code b.graph n (some p) →
    b.covering.lookup n = if (handlersAt handlers p).isEmpty then none else some (handlersAt handlers p)
  fresh : ∀ n, b.graph.nodeCount ≤ n → b.covering.lookup n = none
  edges : ∀ e ∈ b.graph.edges, Justified code handlers b.graph e
  edges_nodup : b.graph.edges.Nodup
  tracked : ∀ p, p ∈ seen ++ b.worklist ↔ ∃ n, Stands code b.graph n (some p)
  tracked_nodup : (seen ++ b.worklist).Nodup

/-- Control can only go on from a position to where there are instructions, and everything that is
prescribed there is in the graph. -/
structure Settled (code : Code) (handlers : List (Handler Nat)) (graph : Digraph Vertex EdgeKind)
    (p : Nat) : Prop where
  defined : ∀ id i, code.at? p = some (id, i) → code.Defined p i
  edges : ∀ n id i kind place, Stands code graph n (some p) → code.at? p = some (id, i) →
    code.Prescribes handlers p i kind place →
    ∃ m, Stands code graph m place ∧ ⟨n, m, kind⟩ ∈ graph.edges

variable {seen : List Nat} {b b' : Builder} {n m source target : NodeId} {p : Nat}
  {kind : EdgeKind}

lemma connect_eq_ok (h : b.connect source target kind = .ok b') :
    (⟨source, target, kind⟩ ∈ b.graph.edges ∧ b' = b) ∨
    (⟨source, target, kind⟩ ∉ b.graph.edges ∧
      b' = { b with graph := { b.graph with edges := b.graph.edges ++ [⟨source, target, kind⟩] } }) := by
  rw [connect] at h
  split at h
  · rename_i k found
    obtain ⟨lt, here, -⟩ := List.findIdx?_eq_some_iff_getElem.1 found
    simp only [Bool.and_eq_true, beq_iff_eq] at here
    obtain ⟨⟨rfl, rfl⟩, rfl⟩ := here
    exact .inl ⟨List.getElem_mem lt, (Except.ok.inj h).symm⟩
  · rename_i absent
    refine .inr ⟨?_, ?_⟩
    · intro mem
      have := List.findIdx?_eq_none_iff.1 absent _ mem
      simp at this
    · simp only [Digraph.addEdge, bind_eq_ok] at h
      obtain ⟨⟨graph, k⟩, added, h⟩ := h
      split_ifs at added
      obtain ⟨rfl, -⟩ := Prod.mk.inj (Except.ok.inj added)
      exact (Except.ok.inj h).symm

/-- A justified edge keeps the invariant, and is there then. -/
lemma connect_inv (inv : Inv code handlers seen b)
    (just : Justified code handlers b.graph ⟨source, target, kind⟩)
    (h : b.connect source target kind = .ok b') :
    Inv code handlers seen b' ∧ Grows b.graph b'.graph ∧
      ⟨source, target, kind⟩ ∈ b'.graph.edges := by
  obtain ⟨mem, rfl⟩ | ⟨new, rfl⟩ := connect_eq_ok h
  · exact ⟨inv, Grows.refl _, mem⟩
  · have grows : Grows b.graph
        { b.graph with edges := b.graph.edges ++ [⟨source, target, kind⟩] } :=
      ⟨List.prefix_refl _, List.subset_append_left _ _⟩
    refine ⟨?_, grows, List.mem_append_right _ List.mem_cons_self⟩
    refine { inv with edges := ?_, edges_nodup := ?_ }
    · intro e mem
      obtain mem | mem := List.mem_append.1 mem
      · exact (inv.edges e mem).grows grows
      · rw [List.mem_singleton.1 mem]
        exact just.grows grows
    · rw [List.nodup_append]
      refine ⟨inv.edges_nodup, List.nodup_singleton _, ?_⟩
      rintro e mem _ last rfl
      exact new (List.mem_singleton.1 last ▸ mem)

lemma vertex_eq_ok (h : b.vertex code handlers p = .ok (b', n)) :
    ∃ id i, code.at? p = some (id, i) ∧
      ((b.graph.nodes.findIdx? (· == .instr id) = some n ∧ b' = b) ∨
       (.instr id ∉ b.graph.nodes ∧ n = b.graph.nodeCount ∧ b' =
          { graph := { b.graph with nodes := b.graph.nodes ++ [.instr id] }
            covering := if (handlersAt handlers p).isEmpty then b.covering
              else (n, handlersAt handlers p) :: b.covering
            worklist := p :: b.worklist })) := by
  rw [vertex] at h
  split at h
  · cases h
  · rename_i id i here
    refine ⟨id, i, here, ?_⟩
    split at h
    · rename_i k found
      obtain ⟨rfl, rfl⟩ := Prod.mk.inj (Except.ok.inj h)
      exact .inl ⟨found, rfl⟩
    · rename_i absent
      obtain ⟨rfl, rfl⟩ := Prod.mk.inj (Except.ok.inj h)
      refine .inr ⟨?_, rfl, rfl⟩
      intro mem
      have := List.findIdx?_eq_none_iff.1 absent _ mem
      simp at this

lemma stands_addNode {graph : Digraph Vertex EdgeKind} {id : InstrId} {i : Instruction Marker}
    (here : code.at? p = some (id, i)) {k q : Nat}
    (h : Stands code { graph with nodes := graph.nodes ++ [.instr id] } k (some q)) :
    Stands code graph k (some q) ∨ (k = graph.nodeCount ∧ q = p) := by
  obtain ⟨⟨id', j⟩, there, node⟩ := h
  rw [Digraph.node?, List.getElem?_append] at node
  split at node
  · exact .inl ⟨(id', j), there, node⟩
  · obtain ⟨lt, value⟩ := List.getElem?_eq_some_iff.1 node
    rw [List.length_singleton] at lt
    rw [List.getElem_singleton] at value
    obtain rfl : id = id' := Vertex.instr.inj value
    exact .inr ⟨by rw [Digraph.nodeCount]; omega, Code.at?_inj there here⟩

/-- A vertex for a reachable position keeps the invariant, and stands for it then. -/
lemma vertex_inv (inv : Inv code handlers seen b) (reach : code.Reachable p)
    (h : b.vertex code handlers p = .ok (b', n)) :
    Inv code handlers seen b' ∧ Grows b.graph b'.graph ∧ Stands code b'.graph n (some p) := by
  obtain ⟨id, i, here, ⟨found, rfl⟩ | ⟨new, rfl, rfl⟩⟩ := vertex_eq_ok h
  · exact ⟨inv, Grows.refl _, (id, i), here, (findIdx?_beq_eq_some inv.nodup).1 found⟩
  · have grows : Grows b.graph { b.graph with nodes := b.graph.nodes ++ [.instr id] } :=
      ⟨List.prefix_append _ _, List.Subset.refl _⟩
    have stands : Stands code { b.graph with nodes := b.graph.nodes ++ [.instr id] }
        b.graph.nodeCount (some p) :=
      ⟨(id, i), here, List.getElem?_concat_length⟩
    -- The position is new, as its number would be among the nodes otherwise.
    have untracked : p ∉ seen ++ b.worklist := by
      rw [inv.tracked]
      rintro ⟨k, ⟨id', j⟩, there, node⟩
      obtain ⟨rfl, -⟩ := Prod.mk.inj (Option.some.inj (here.symm.trans there))
      exact new (List.mem_of_getElem? node)
    refine ⟨?_, grows, stands⟩
    constructor
    case outside => exact inv.outside.trans grows.nodes
    case nodup =>
      rw [List.nodup_append]
      refine ⟨inv.nodup, List.nodup_singleton _, ?_⟩
      rintro v mem _ last rfl
      exact new (List.mem_singleton.1 last ▸ mem)
    case reached =>
      intro k id' node
      rw [Digraph.node?, List.getElem?_append] at node
      split at node
      · exact inv.reached k id' node
      · have value := List.mem_singleton.1 (List.mem_of_getElem? node)
        obtain rfl : id' = id := Vertex.instr.inj value
        exact ⟨p, i, here, reach⟩
    case covering =>
      intro k q there
      obtain old | ⟨rfl, rfl⟩ := stands_addNode here there
      · have other : (k == b.graph.nodeCount) = false := beq_false_of_ne (Nat.ne_of_lt old.lt)
        rw [← inv.covering k q old]
        split
        · rfl
        · rw [List.lookup_cons, other]
      · split
        · exact inv.fresh _ (Nat.le_refl _)
        · rw [List.lookup_cons_self]
    case fresh =>
      intro k le
      rw [Digraph.nodeCount, List.length_append, List.length_singleton] at le
      have old : b.covering.lookup k = none := inv.fresh k (by rw [Digraph.nodeCount]; omega)
      have other : (k == b.graph.nodeCount) = false :=
        beq_false_of_ne (by rw [Digraph.nodeCount]; omega)
      dsimp only
      split
      · exact old
      · rw [List.lookup_cons, other]
        exact old
    case edges => exact fun e mem => (inv.edges e mem).grows grows
    case edges_nodup => exact inv.edges_nodup
    case tracked =>
      intro q
      have middle : q ∈ seen ++ p :: b.worklist ↔ q = p ∨ q ∈ seen ++ b.worklist := by
        rw [(List.perm_middle).mem_iff, List.mem_cons]
      rw [middle, inv.tracked]
      constructor
      · rintro (rfl | ⟨k, old⟩)
        · exact ⟨_, stands⟩
        · exact ⟨k, old.grows grows⟩
      · rintro ⟨k, there⟩
        obtain old | ⟨-, rfl⟩ := stands_addNode here there
        · exact .inr ⟨k, old⟩
        · exact .inl rfl
    case tracked_nodup =>
      rw [(List.perm_middle).nodup_iff, List.nodup_cons]
      exact ⟨untracked, inv.tracked_nodup⟩

/-- Asks for an edge of a kind to a position or to the outside. -/
def request (code : Code) (handlers : List (Handler Nat)) (source : NodeId) (b : Builder)
    (way : EdgeKind × Option Nat) : Except Fault Builder :=
  match way.2 with
  | some q => b.follow code handlers source q way.1
  | none => b.connect source exit way.1

variable {id : InstrId} {i : Instruction Marker} {ways : List (EdgeKind × Option Nat)}

lemma branch_eq_ok {marker : Marker} (h : b.branch code handlers source marker kind = .ok b') :
    ∃ q, code.BranchesTo marker q ∧ request code handlers source b (kind, some q) = .ok b' := by
  simp only [branch, bind_eq_ok] at h
  obtain ⟨q, position, h⟩ := h
  exact ⟨q, targetPosition_eq_ok.1 position, h⟩

lemma cases_eq_ok {k : Nat} {ms : List Marker}
    (h : Builder.cases code handlers source k ms b = .ok b') :
    ∃ qs, List.Forall₂ code.BranchesTo ms qs ∧
      (qs.mapIdx fun j q => (EdgeKind.switchCase (k + j), some q)).foldlM
        (request code handlers source) b = .ok b' := by
  induction ms generalizing k b with
  | nil => exact ⟨[], .nil, h⟩
  | cons marker rest ih =>
    simp only [Builder.cases, bind_eq_ok] at h
    obtain ⟨b₁, head, tail⟩ := h
    obtain ⟨q, branches, asked⟩ := branch_eq_ok head
    obtain ⟨qs, all, asks⟩ := ih tail
    refine ⟨q :: qs, .cons branches all, ?_⟩
    have shift : (fun j q => (EdgeKind.switchCase (k + (j + 1)), some q))
        = fun j (q : Nat) => (EdgeKind.switchCase (k + 1 + j), some q) := by
      funext j q
      rw [Nat.add_assoc, Nat.add_comm 1 j]
    rw [List.mapIdx_cons, List.foldlM_cons, shift]
    exact bind_eq_ok.2 ⟨b₁, asked, asks⟩

lemma mem_cases {ms : List Marker} {qs : List Nat} (all : List.Forall₂ code.BranchesTo ms qs)
    {r : Nat} : (kind, some r) ∈ (qs.mapIdx fun j q => (EdgeKind.switchCase (0 + j), some q)) ↔
      ∃ k c, kind = .switchCase k ∧ ms[k]? = some c ∧ code.BranchesTo c r := by
  obtain ⟨lengths, branches⟩ := List.forall₂_iff_get.1 all
  simp only [List.mem_mapIdx, Nat.zero_add, Prod.mk.injEq, Option.some.injEq]
  constructor
  · rintro ⟨k, lt, rfl, rfl⟩
    exact ⟨k, _, rfl, List.getElem?_eq_getElem (lengths ▸ lt), branches k (lengths ▸ lt) lt⟩
  · rintro ⟨k, c, rfl, case, branch⟩
    obtain ⟨lt, rfl⟩ := List.getElem?_eq_some_iff.1 case
    exact ⟨k, lengths ▸ lt, rfl, (branch.iff_eq.1 (branches k lt (lengths ▸ lt)))⟩

lemma raises_eq_ok {ks : List Nat} (h : raises code handlers source ks b = .ok b') :
    ((ks.filterMap (handlers[·]?)).map fun h => (EdgeKind.raise, some h.target)).foldlM
      (request code handlers source) b = .ok b' := by
  induction ks generalizing b with
  | nil => exact h
  | cons k rest ih =>
    rw [raises] at h
    split at h
    · rename_i absent
      rw [List.filterMap_cons_none absent]
      exact ih h
    · rename_i handler found
      obtain ⟨b₁, head, tail⟩ := bind_eq_ok.1 h
      rw [List.filterMap_cons_some found, List.map_cons, List.foldlM_cons]
      exact bind_eq_ok.2 ⟨b₁, head, ih tail⟩

lemma lt_size_of_follow (h : b.follow code handlers source p kind = .ok b') : p < code.size := by
  obtain ⟨⟨b₁, n⟩, made, -⟩ := bind_eq_ok.1 h
  obtain ⟨id, i, here, -⟩ := vertex_eq_ok made
  exact Code.lt_size_of_at? here

lemma flow_eq_ok (covered : (b.covering.lookup n).isNone = (handlersAt handlers p).isEmpty)
    (h : b.flow code handlers n p i = .ok b') :
    code.Defined p i ∧ ∃ ways : List (EdgeKind × Option Nat),
      (∀ kind q, (kind, some q) ∈ ways ↔ code.Way p i kind q) ∧
      (∀ kind, (kind, none) ∈ ways ↔ code.Prescribes handlers p i kind none) ∧
      ways.foldlM (request code handlers n) b = .ok b' := by
  rw [flow] at h
  split at h
  case h_1 flow =>
    have inside : code.Defined p i := by
      simp only [Code.Defined, flow]
      exact lt_size_of_follow h
    refine ⟨inside, [(.fallthrough, some (p + 1))], ?_, ?_, bind_eq_ok.2 ⟨b', h, rfl⟩⟩
    · simp [Code.way_next flow]
    · simp [Code.prescribes_none, flow]
  case h_2 m flow operands =>
    obtain ⟨q, branches, asked⟩ := branch_eq_ok h
    have inside : code.Defined p i := by
      simp only [Code.Defined, flow, operands]
      exact ⟨q, branches⟩
    refine ⟨inside, [(.jump, some q)], ?_, ?_, bind_eq_ok.2 ⟨b', asked, rfl⟩⟩
    · intro kind r
      rw [Code.way_jump flow operands]
      simp [branches.iff_eq]
    · simp [Code.prescribes_none, flow]
  case h_3 m flow operands =>
    obtain ⟨b₁, taken, h⟩ := bind_eq_ok.1 h
    obtain ⟨q, branches, asked⟩ := branch_eq_ok taken
    have inside : code.Defined p i := by
      simp only [Code.Defined, flow, operands]
      exact ⟨⟨q, branches⟩, lt_size_of_follow h⟩
    refine ⟨inside, [(.whenTrue, some q), (.whenFalse, some (p + 1))], ?_, ?_,
      bind_eq_ok.2 ⟨b₁, asked, bind_eq_ok.2 ⟨b', h, rfl⟩⟩⟩
    · intro kind r
      rw [Code.way_conditional flow operands]
      simp [branches.iff_eq]
    · simp [Code.prescribes_none, flow]
  case h_4 m ms flow operands =>
    obtain ⟨b₁, default, h⟩ := bind_eq_ok.1 h
    obtain ⟨q, branches, asked⟩ := branch_eq_ok default
    obtain ⟨qs, all, asks⟩ := cases_eq_ok h
    have inside : code.Defined p i := by
      simp only [Code.Defined, flow, operands]
      refine List.forall_mem_cons.2 ⟨⟨q, branches⟩, fun c mem => ?_⟩
      obtain ⟨r, -, branches⟩ := exists_mem_of_mem_left all mem
      exact ⟨r, branches⟩
    refine ⟨inside, (.switchDefault, some q) :: qs.mapIdx fun j q => (.switchCase (0 + j), some q),
      ?_, ?_, bind_eq_ok.2 ⟨b₁, asked, asks⟩⟩
    · intro kind r
      rw [Code.way_switch flow operands, List.mem_cons, mem_cases all, Prod.mk.injEq,
        Option.some.injEq, branches.iff_eq]
    · simp [Code.prescribes_none, flow]
  case h_5 flow =>
    refine ⟨by simp only [Code.Defined, flow], [(.leave, none)], ?_, ?_, bind_eq_ok.2 ⟨b', h, rfl⟩⟩
    · simp [Code.not_way_of_leave flow]
    · simp [Code.prescribes_none, flow]
  case h_6 flow =>
    rw [covered] at h
    split_ifs at h with uncovered
    · refine ⟨by simp only [Code.Defined, flow], [(.raise, none)], ?_, ?_, bind_eq_ok.2 ⟨b', h, rfl⟩⟩
      · simp [Code.not_way_of_raise flow]
      · rw [handlersAt_isEmpty] at uncovered
        simpa [Code.prescribes_none, flow] using uncovered
    · refine ⟨by simp only [Code.Defined, flow], [], ?_, ?_, h⟩
      · simp [Code.not_way_of_raise flow]
      · rw [handlersAt_isEmpty] at uncovered
        simp [Code.prescribes_none, flow, uncovered]
  case h_7 => cases h

lemma Inv.lookup (inv : Inv code handlers seen b) (stands : Stands code b.graph n (some p)) :
    (b.covering.lookup n).getD [] = handlersAt handlers p := by
  rw [inv.covering n p stands]
  split
  · rename_i empty
    exact (List.isEmpty_iff.1 empty).symm
  · rfl

lemma Inv.isNone_lookup (inv : Inv code handlers seen b)
    (stands : Stands code b.graph n (some p)) :
    (b.covering.lookup n).isNone = (handlersAt handlers p).isEmpty := by
  rw [inv.covering n p stands]
  split
  · rename_i empty
    exact empty.symm
  · rename_i nonempty
    exact (Bool.eq_false_iff.2 nonempty).symm

section Requests

variable (resolved : code.resolvedHandlers = .ok handlers) (reach : code.Reachable p)
  (here : code.at? p = some (id, i))

include resolved reach here

/-- A request for something prescribed keeps the invariant, and is met then. -/
lemma request_inv {way : EdgeKind × Option Nat} (inv : Inv code handlers seen b)
    (stands : Stands code b.graph source (some p))
    (prescribed : code.Prescribes handlers p i way.1 way.2)
    (h : request code handlers source b way = .ok b') :
    Inv code handlers seen b' ∧ Grows b.graph b'.graph ∧
      ∃ m, Stands code b'.graph m way.2 ∧ ⟨source, m, way.1⟩ ∈ b'.graph.edges := by
  obtain ⟨kind, place⟩ := way
  cases place with
  | none =>
    have just := Justified.prescribed stands here prescribed (m := exit) rfl
    obtain ⟨inv', grows, mem⟩ := connect_inv inv just h
    exact ⟨inv', grows, exit, rfl, mem⟩
  | some q =>
    obtain ⟨⟨b₁, m⟩, made, connected⟩ := bind_eq_ok.1 h
    obtain ⟨inv₁, grows₁, target⟩ := vertex_inv inv (prescribed.reachable resolved reach here) made
    have just := Justified.prescribed (stands.grows grows₁) here prescribed target
    obtain ⟨inv', grows, mem⟩ := connect_inv inv₁ just connected
    exact ⟨inv', grows₁.trans grows, m, target.grows grows, mem⟩

lemma requests_inv (inv : Inv code handlers seen b)
    (stands : Stands code b.graph source (some p))
    (prescribed : ∀ w ∈ ways, code.Prescribes handlers p i w.1 w.2)
    (h : ways.foldlM (request code handlers source) b = .ok b') :
    Inv code handlers seen b' ∧ Grows b.graph b'.graph ∧
      ∀ w ∈ ways, ∃ m, Stands code b'.graph m w.2 ∧ ⟨source, m, w.1⟩ ∈ b'.graph.edges := by
  induction ways generalizing b with
  | nil =>
    obtain rfl := Except.ok.inj h
    exact ⟨inv, Grows.refl _, fun w mem => absurd mem List.not_mem_nil⟩
  | cons way rest ih =>
    obtain ⟨b₁, head, tail⟩ := bind_eq_ok.1 h
    obtain ⟨first, others⟩ := List.forall_mem_cons.1 prescribed
    obtain ⟨inv₁, grows₁, m, target, edge⟩ :=
      request_inv resolved reach here inv stands first head
    obtain ⟨inv', grows, met⟩ := ih inv₁ (stands.grows grows₁) others tail
    refine ⟨inv', grows₁.trans grows, List.forall_mem_cons.2 ⟨?_, met⟩⟩
    exact ⟨m, target.grows grows, grows.edges edge⟩

lemma raises_inv (throws : i.opcode.canThrow = true) (inv : Inv code handlers seen b)
    (stands : Stands code b.graph n (some p))
    (h : raises code handlers n ((b.covering.lookup n).getD []) b = .ok b') :
    Inv code handlers seen b' ∧ Grows b.graph b'.graph ∧ ∀ h ∈ handlers, h.Covers p →
      ∃ m, Stands code b'.graph m (some h.target) ∧ ⟨n, m, .raise⟩ ∈ b'.graph.edges := by
  have asked := raises_eq_ok h
  rw [inv.lookup stands] at asked
  have prescribed : ∀ w ∈ ((handlersAt handlers p).filterMap (handlers[·]?)).map
      (fun h => (EdgeKind.raise, some h.target)), code.Prescribes handlers p i w.1 w.2 := by
    intro w asked
    obtain ⟨h, mem, rfl⟩ := List.mem_map.1 asked
    obtain ⟨mem, covers⟩ := mem_filterMap_handlersAt.1 mem
    exact .caught throws mem covers
  obtain ⟨inv', grows, met⟩ := requests_inv resolved reach here inv stands prescribed asked
  refine ⟨inv', grows, fun h mem covers => ?_⟩
  exact met _ (List.mem_map.2 ⟨h, mem_filterMap_handlersAt.2 ⟨mem, covers⟩, rfl⟩)

/-- Looking at a position keeps the invariant and settles the position. -/
lemma visit_inv (inv : Inv code handlers seen b) (stands : Stands code b.graph n (some p))
    (h : b.visit code handlers p = .ok b') :
    Inv code handlers seen b' ∧ Grows b.graph b'.graph ∧ Settled code handlers b'.graph p := by
  have found : b.graph.nodes.findIdx? (· == .instr id) = some n := by
    obtain ⟨e, there, node⟩ := stands
    obtain rfl := Option.some.inj (here.symm.trans there)
    exact (findIdx?_beq_eq_some inv.nodup).2 node
  simp only [visit, here, found, bind_eq_ok] at h
  obtain ⟨b₁, flowed, h⟩ := h
  obtain ⟨defined, ways, inside, outside, asked⟩ := flow_eq_ok (inv.isNone_lookup stands) flowed
  have prescribed : ∀ w ∈ ways, code.Prescribes handlers p i w.1 w.2 := by
    rintro ⟨kind, place⟩ mem
    cases place with
    | none => exact (outside kind).1 mem
    | some q => exact .way ((inside kind q).1 mem)
  obtain ⟨inv₁, grows₁, met₁⟩ := requests_inv resolved reach here inv stands prescribed asked
  have stands₁ := stands.grows grows₁
  -- What is left are the ways to handlers, which only an instruction that may throw has.
  obtain ⟨inv', grows, caught⟩ : Inv code handlers seen b' ∧ Grows b₁.graph b'.graph ∧
      (i.opcode.canThrow = true → ∀ h ∈ handlers, h.Covers p →
        ∃ m, Stands code b'.graph m (some h.target) ∧ ⟨n, m, .raise⟩ ∈ b'.graph.edges) := by
    split at h
    · rename_i throws
      obtain ⟨inv', grows, caught⟩ := raises_inv resolved reach here throws inv₁ stands₁ h
      exact ⟨inv', grows, fun _ => caught⟩
    · rename_i silent
      obtain rfl := Except.ok.inj h
      exact ⟨inv₁, Grows.refl _, fun throws => absurd throws silent⟩
  refine ⟨inv', grows₁.trans grows, ?_, ?_⟩
  · intro id' i' here'
    obtain ⟨-, rfl⟩ := Prod.mk.inj (Option.some.inj (here.symm.trans here'))
    exact defined
  intro n' id' i' kind place stands' here' way
  obtain rfl := stands'.vertex_inj inv'.nodup (stands₁.grows grows)
  obtain ⟨-, rfl⟩ := Prod.mk.inj (Option.some.inj (here.symm.trans here'))
  have met {w : EdgeKind × Option Nat} (mem : w ∈ ways) :
      ∃ m, Stands code b'.graph m w.2 ∧ ⟨n', m, w.1⟩ ∈ b'.graph.edges := by
    obtain ⟨m, target, edge⟩ := met₁ w mem
    exact ⟨m, target.grows grows, grows.edges edge⟩
  cases way with
  | way way => exact met ((inside _ _).2 way)
  | leave flow => exact met ((outside _).2 (.leave flow))
  | escape flow uncovered => exact met ((outside _).2 (.escape flow uncovered))
  | caught throws mem covers => exact caught throws _ mem covers

end Requests

lemma Settled.grows {graph graph' : Digraph Vertex EdgeKind} (settled : Settled code handlers graph p)
    (stands : Stands code graph n (some p)) (nodup : graph'.nodes.Nodup)
    (grows : Grows graph graph') : Settled code handlers graph' p := by
  refine ⟨settled.defined, ?_⟩
  intro n' id i kind place stands' here way
  obtain rfl := stands'.vertex_inj nodup (stands.grows grows)
  obtain ⟨m, target, edge⟩ := settled.edges n' id i kind place stands here way
  exact ⟨m, target.grows grows, grows.edges edge⟩

lemma Inv.length_le (inv : Inv code handlers seen b) :
    (seen ++ b.worklist).length ≤ code.size := by
  have below : seen ++ b.worklist ⊆ List.range code.size := by
    intro p mem
    obtain ⟨n, e, here, -⟩ := (inv.tracked p).1 mem
    exact List.mem_range.2 (Code.lt_size_of_at? here)
  have := (List.subperm_of_subset inv.tracked_nodup below).length_le
  rwa [List.length_range] at this

lemma Inv.pop {rest : List Nat} (inv : Inv code handlers seen b) (h : b.worklist = p :: rest) :
    Inv code handlers (p :: seen) { b with worklist := rest } := by
  have perm : (p :: seen ++ rest).Perm (seen ++ b.worklist) := by
    rw [h]
    exact List.perm_middle.symm
  refine { inv with tracked := ?_, tracked_nodup := ?_ }
  · intro q
    rw [perm.mem_iff]
    exact inv.tracked q
  · rw [perm.nodup_iff]
    exact inv.tracked_nodup

lemma run_inv {fuel : Nat} (resolved : code.resolvedHandlers = .ok handlers)
    (inv : Inv code handlers seen b) (settled : ∀ p ∈ seen, Settled code handlers b.graph p)
    (enough : code.size ≤ fuel + seen.length) (h : run code handlers fuel b = .ok b') :
    ∃ seen', Inv code handlers seen' b' ∧ b'.worklist = [] ∧ Grows b.graph b'.graph ∧
      ∀ p ∈ seen', Settled code handlers b'.graph p := by
  induction fuel generalizing seen b with
  | zero =>
    -- As many positions are seen as there are, so none waits.
    obtain rfl := Except.ok.inj h
    have count := inv.length_le
    rw [List.length_append] at count
    exact ⟨seen, inv, List.length_eq_zero_iff.1 (by omega), Grows.refl _, settled⟩
  | succ fuel ih =>
    rw [run] at h
    split at h
    · rename_i empty
      obtain rfl := Except.ok.inj h
      exact ⟨seen, inv, empty, Grows.refl _, settled⟩
    · rename_i p rest waiting
      obtain ⟨b₁, visited, h⟩ := bind_eq_ok.1 h
      have popped := inv.pop waiting
      obtain ⟨n, stands⟩ := (popped.tracked p).1 (List.mem_append_left _ List.mem_cons_self)
      obtain ⟨⟨id, i⟩, here, -⟩ := id stands
      obtain ⟨inv₁, grows₁, done⟩ :=
        visit_inv resolved (stands.reachable popped.reached) here popped stands visited
      have settled₁ : ∀ q ∈ p :: seen, Settled code handlers b₁.graph q := by
        refine List.forall_mem_cons.2 ⟨done, fun q mem => ?_⟩
        obtain ⟨m, there⟩ := (inv.tracked q).1 (List.mem_append_left _ mem)
        exact (settled q mem).grows there inv₁.nodup grows₁
      have enough₁ : code.size ≤ fuel + (p :: seen).length := by
        rw [List.length_cons]
        omega
      obtain ⟨seen', inv', empty, grows, all⟩ := ih inv₁ settled₁ enough₁ h
      exact ⟨seen', inv', empty, grows₁.trans grows, all⟩

lemma targets_inv {hs : List (Handler Nat)} {ns : List NodeId}
    (resolved : code.resolvedHandlers = .ok handlers) (subset : hs ⊆ handlers)
    (inv : Inv code handlers seen b) (h : targets code handlers hs b = .ok (b', ns)) :
    Inv code handlers seen b' ∧ Grows b.graph b'.graph ∧
      List.Forall₂ (fun h n => Stands code b'.graph n (some h.target)) hs ns := by
  induction hs generalizing b ns with
  | nil =>
    obtain ⟨rfl, rfl⟩ := Prod.mk.inj (Except.ok.inj h)
    exact ⟨inv, Grows.refl _, .nil⟩
  | cons handler rest ih =>
    obtain ⟨mem, subset⟩ := List.cons_subset.1 subset
    obtain ⟨⟨b₁, n⟩, made, h⟩ := bind_eq_ok.1 h
    obtain ⟨⟨b₂, ms⟩, more, h⟩ := bind_eq_ok.1 h
    obtain ⟨rfl, rfl⟩ := Prod.mk.inj (Except.ok.inj h)
    obtain ⟨inv₁, grows₁, stands⟩ := vertex_inv inv (.handler resolved mem) made
    obtain ⟨inv', grows, all⟩ := ih subset inv₁ more
    exact ⟨inv', grows₁.trans grows, .cons (stands.grows grows) all⟩

lemma inv_empty : Inv code handlers [] {} := by
  have nothing {n p} : ¬Stands code ({} : Builder).graph n (some p) := by
    rintro ⟨e, -, node⟩
    have := List.mem_of_getElem? node
    simp at this
  constructor
  case outside => exact List.prefix_refl _
  case nodup => decide
  case reached =>
    intro n id node
    have := List.mem_of_getElem? node
    simp at this
  case covering => exact fun n p stands => absurd stands nothing
  case fresh => exact fun n le => rfl
  case edges => exact fun e mem => absurd mem List.not_mem_nil
  case edges_nodup => exact List.nodup_nil
  case tracked =>
    intro p
    constructor
    · exact fun mem => absurd mem List.not_mem_nil
    · exact fun ⟨n, stands⟩ => absurd stands nothing
  case tracked_nodup => exact List.nodup_nil

end Builder

/-- What the control flow graph of code is, said on the code. -/
structure Spec (code : Code) (handlers : List (Handler Nat)) (g : FlowGraph) : Prop where
  /-- The handlers have positions. -/
  resolved : code.resolvedHandlers = .ok handlers
  /-- Entry and exit come first. -/
  outside : [.entry, .exit] <+: g.graph.nodes
  /-- An instruction has one vertex. -/
  nodup : g.graph.nodes.Nodup
  /-- An instruction with a vertex is one that control can come to. -/
  reached : ∀ n id, g.graph.node? n = some (.instr id) →
    ∃ p i, code.at? p = some (id, i) ∧ code.Reachable p
  /-- A position that control can come to has a vertex. -/
  vertex : ∀ p, code.Reachable p → ∃ n, Stands code g.graph n (some p)
  /-- Control can only go on to where there are instructions. -/
  defined : ∀ p id i, code.Reachable p → code.at? p = some (id, i) → code.Defined p i
  /-- The edges are those that the code prescribes. -/
  edges : ∀ e, e ∈ g.graph.edges ↔ Justified code handlers g.graph e
  /-- There is one edge of a kind between two vertices. -/
  edges_nodup : g.graph.edges.Nodup
  /-- The handlers of a vertex are those that cover its position. -/
  covering : ∀ n p, Stands code g.graph n (some p) →
    g.coveringHandlers n = Builder.handlersAt handlers p
  /-- The handlers start where they say. -/
  targets : List.Forall₂ (fun h n => Stands code g.graph n (some h.target)) handlers g.handlerTargets
  /-- The vertices of instructions in the order of the code. -/
  order : g.order = code.instrs.filterMap fun e => g.graph.nodes.findIdx? (· == .instr e.1)

variable {g : FlowGraph}

lemma build_eq_ok (h : build code = .ok g) :
    code.instrs ≠ [] ∧ ∃ handlers b₀ b₁ b₂ ns,
      code.resolvedHandlers = .ok handlers ∧
      (∀ h ∈ handlers, h.target < code.size) ∧
      Builder.follow code handlers {} entry 0 .fallthrough = .ok b₀ ∧
      Builder.targets code handlers handlers b₀ = .ok (b₁, ns) ∧
      Builder.run code handlers code.size b₁ = .ok b₂ ∧
      g = { graph := b₂.graph
            order := code.instrs.filterMap fun e => b₂.graph.nodes.findIdx? (· == .instr e.1)
            covering := b₂.covering
            handlerTargets := ns } := by
  rw [build] at h
  split at h
  · cases h
  · rename_i nonempty
    refine ⟨fun empty => nonempty (List.isEmpty_iff.2 empty), ?_⟩
    obtain ⟨handlers, resolved, h⟩ := bind_eq_ok.1 h
    split at h
    · cases h
    · rename_i inside
      obtain ⟨b₀, first, h⟩ := bind_eq_ok.1 h
      obtain ⟨⟨b₁, ns⟩, starts, h⟩ := bind_eq_ok.1 h
      obtain ⟨b₂, ran, h⟩ := bind_eq_ok.1 h
      refine ⟨handlers, b₀, b₁, b₂, ns, resolved, ?_, first, starts, ran, (Except.ok.inj h).symm⟩
      intro h mem
      have := List.find?_eq_none.1 inside h mem
      simpa using this

/-- A graph that is built is the one that the code prescribes. -/
theorem build_sound (h : build code = .ok g) : ∃ handlers, Spec code handlers g := by
  obtain ⟨-, handlers, b₀, b₁, b₂, ns, resolved, -, first, starts, ran, rfl⟩ := build_eq_ok h
  obtain ⟨⟨b, n₀⟩, made, connected⟩ := bind_eq_ok.1 first
  obtain ⟨inv, -, stands⟩ := Builder.vertex_inv Builder.inv_empty .first made
  obtain ⟨inv₀, grows₀, edge⟩ := Builder.connect_inv inv (.entry stands) connected
  obtain ⟨inv₁, grows₁, targets⟩ :=
    Builder.targets_inv resolved (List.Subset.refl _) inv₀ starts
  obtain ⟨seen, inv₂, empty, grows₂, settled⟩ := Builder.run_inv resolved inv₁
    (fun p mem => absurd mem List.not_mem_nil) (Nat.le_refl _) ran
  have grows := grows₁.trans grows₂
  have stands₂ : Stands code b₂.graph n₀ (some 0) := (stands.grows grows₀).grows grows
  have starts₂ : List.Forall₂ (fun h n => Stands code b₂.graph n (some h.target)) handlers ns :=
    targets.imp fun _ _ start => start.grows grows₂
  -- Nothing waits any more, so whatever has a vertex has all its edges.
  have done {n p} (there : Stands code b₂.graph n (some p)) :
      Builder.Settled code handlers b₂.graph p := by
    have mem := (inv₂.tracked p).2 ⟨n, there⟩
    rw [empty, List.append_nil] at mem
    exact settled p mem
  have vertex : ∀ p, code.Reachable p → ∃ n, Stands code b₂.graph n (some p) := by
    intro p reach
    induction reach with
    | first => exact ⟨n₀, stands₂⟩
    | handler resolved' mem =>
      obtain rfl := Except.ok.inj (resolved.symm.trans resolved')
      obtain ⟨n, -, there⟩ := exists_mem_of_mem_left starts₂ mem
      exact ⟨n, there⟩
    | @next p q id i kind _ here way ih =>
      obtain ⟨n, there⟩ := ih
      obtain ⟨m, target, -⟩ := (done there).edges n id i kind (some q) there here (.way way)
      exact ⟨m, target⟩
  refine ⟨handlers, ?_⟩
  constructor
  case resolved => exact resolved
  case outside => exact inv₂.outside
  case nodup => exact inv₂.nodup
  case reached => exact inv₂.reached
  case vertex => exact vertex
  case defined =>
    intro p id i reach here
    obtain ⟨n, there⟩ := vertex p reach
    exact (done there).defined id i here
  case edges =>
    intro e
    refine ⟨inv₂.edges e, ?_⟩
    intro just
    cases just with
    | entry there =>
      obtain rfl := there.vertex_inj inv₂.nodup stands₂
      exact grows.edges edge
    | @prescribed n m p id i kind place there here way target =>
      obtain ⟨m', target', mem⟩ := (done there).edges n id i kind place there here way
      cases place with
      | none =>
        obtain rfl : m = exit := target
        obtain rfl : m' = exit := target'
        exact mem
      | some q =>
        obtain rfl := target.vertex_inj inv₂.nodup target'
        exact mem
  case edges_nodup => exact inv₂.edges_nodup
  case covering => exact fun n p there => inv₂.lookup there
  case targets => exact starts₂
  case order => rfl

end FlowGraph

end Avm
