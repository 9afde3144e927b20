import Avm.Proofs.Flow.Building
import Mathlib.Data.Set.Card

/-!
# Control flow graphs are the static successor relation

Code has a control flow graph exactly if it has an instruction, its handlers start inside of it, and
nothing that control can come to goes wrong.  One direction is part of `build_sound`.  For the other
one, `Builder.Goes` says of a step that it succeeds and keeps the vertices; a step needs nothing but
that its source is a vertex and that there are instructions where it leads to.

A graph that is built has one vertex for each instruction that can be come to, and no other; edges as
the code prescribes them, none of them twice; one edge that leaves the entry, and as many edges to the
exit as there are ways out of the method (`FlowGraph.Exact`).
-/

namespace Avm

lemma ncard_eq_of_forall_exists {α β : Type} {s : Set α} {t : Set β} (R : α → β → Prop)
    (right : ∀ a b b', R a b → R a b' → b = b') (left : ∀ a a' b, R a b → R a' b → a = a')
    (forth : ∀ a ∈ s, ∃ b ∈ t, R a b) (back : ∀ b ∈ t, ∃ a ∈ s, R a b) : s.ncard = t.ncard := by
  choose f mem rel using forth
  apply Set.ncard_congr f mem
  · intro a a' ha ha' same
    exact left a a' (f a ha) (rel a ha) (same ▸ rel a' ha')
  · intro b hb
    obtain ⟨a, ha, related⟩ := back b hb
    exact ⟨a, ha, right a _ _ (rel a ha) related⟩

namespace Digraph

variable {ν ε : Type} {g : Digraph ν ε}

lemma nodup_outgoing (h : g.edges.Nodup) (n : NodeId) : (g.outgoing n).Nodup := by
  refine h.filterMap ?_
  rintro ⟨s, t, l⟩ ⟨s', t', l'⟩ b hb hb'
  simp only [Option.mem_def, Option.ite_none_right_eq_some, Option.some.injEq] at hb hb'
  obtain ⟨rfl, rfl⟩ := hb
  obtain ⟨rfl, eq⟩ := hb'
  obtain ⟨rfl, rfl⟩ := Prod.mk.inj eq
  rfl

lemma nodup_incoming (h : g.edges.Nodup) (n : NodeId) : (g.incoming n).Nodup := by
  refine h.filterMap ?_
  rintro ⟨s, t, l⟩ ⟨s', t', l'⟩ b hb hb'
  simp only [Option.mem_def, Option.ite_none_right_eq_some, Option.some.injEq] at hb hb'
  obtain ⟨rfl, rfl⟩ := hb
  obtain ⟨rfl, eq⟩ := hb'
  obtain ⟨rfl, rfl⟩ := Prod.mk.inj eq
  rfl

end Digraph

namespace FlowGraph

variable {code : Code} {handlers : List (Handler Nat)}

namespace Builder

variable {b : Builder} {source target : NodeId} {p : Nat} {kind : EdgeKind}

/-- A step succeeds, and the vertices stay. -/
def Goes (b : Builder) (x : Except Fault Builder) : Prop :=
  ∃ b', x = .ok b' ∧ b.graph.nodeCount ≤ b'.graph.nodeCount

lemma Goes.bind {x : Except Fault Builder} {f : Builder → Except Fault Builder} (h : Goes b x)
    (next : ∀ b', b.graph.nodeCount ≤ b'.graph.nodeCount → Goes b' (f b')) : Goes b (x >>= f) := by
  obtain ⟨b₁, rfl, le₁⟩ := h
  obtain ⟨b₂, done, le₂⟩ := next b₁ le₁
  exact ⟨b₂, done, le₁.trans le₂⟩

lemma Goes.refl : Goes b (.ok b) := ⟨b, rfl, Nat.le_refl _⟩

lemma goes_connect (kind : EdgeKind) (hs : source < b.graph.nodeCount)
    (ht : target < b.graph.nodeCount) : Goes b (b.connect source target kind) := by
  rw [connect]
  split
  · exact Goes.refl
  · rw [Digraph.addEdge, if_neg (Nat.not_le.2 hs), if_neg (Nat.not_le.2 ht)]
    exact ⟨_, rfl, Nat.le_refl _⟩

lemma exists_vertex (b : Builder) (handlers : List (Handler Nat)) (inside : p < code.size) :
    ∃ b' n, b.vertex code handlers p = .ok (b', n) ∧
      b.graph.nodeCount ≤ b'.graph.nodeCount ∧ n < b'.graph.nodeCount := by
  have here : code.at? p = some (code.instrs.get ⟨p, inside⟩) := List.getElem?_eq_getElem inside
  simp only [vertex, here]
  split
  · rename_i n found
    exact ⟨b, n, rfl, Nat.le_refl _, (List.findIdx?_eq_some_iff_getElem.1 found).1⟩
  · refine ⟨_, _, rfl, ?_, ?_⟩
    · simp [Digraph.addNode, Digraph.nodeCount]
    · simp [Digraph.addNode, Digraph.nodeCount]

lemma goes_follow (hs : source < b.graph.nodeCount) (inside : p < code.size) :
    Goes b (b.follow code handlers source p kind) := by
  obtain ⟨b₁, n, made, le, lt⟩ := exists_vertex b handlers inside
  obtain ⟨b₂, connected, le'⟩ := goes_connect kind (Nat.lt_of_lt_of_le hs le) lt
  exact ⟨b₂, bind_eq_ok.2 ⟨(b₁, n), made, connected⟩, le.trans le'⟩

lemma goes_branch {m : Marker} (hs : source < b.graph.nodeCount) (h : ∃ q, code.BranchesTo m q) :
    Goes b (b.branch code handlers source m kind) := by
  obtain ⟨q, branches⟩ := h
  rw [branch, targetPosition_eq_ok.2 branches, ok_bind]
  exact goes_follow hs branches.2

lemma goes_cases {ms : List Marker} {k : Nat} (hs : source < b.graph.nodeCount)
    (h : ∀ c ∈ ms, ∃ q, code.BranchesTo c q) :
    Goes b (Builder.cases code handlers source k ms b) := by
  induction ms generalizing k b with
  | nil => exact Goes.refl
  | cons c rest ih =>
    obtain ⟨first, others⟩ := List.forall_mem_cons.1 h
    exact (goes_branch hs first).bind fun b' le => ih (Nat.lt_of_lt_of_le hs le) others

lemma goes_raises {ks : List Nat} (hs : source < b.graph.nodeCount)
    (inside : ∀ h ∈ handlers, h.target < code.size) :
    Goes b (raises code handlers source ks b) := by
  induction ks generalizing b with
  | nil => exact Goes.refl
  | cons k rest ih =>
    rw [raises]
    split
    · exact ih hs
    · rename_i h found
      refine (goes_follow hs (inside h (List.mem_of_getElem? found))).bind fun b' le => ?_
      exact ih (Nat.lt_of_lt_of_le hs le)

/-- Where control may only go on to instructions, the flow of an instruction can be followed. -/
lemma goes_flow {i : Instruction Marker} (out : exit < b.graph.nodeCount)
    (hs : source < b.graph.nodeCount) (defined : code.Defined p i) :
    Goes b (b.flow code handlers source p i) := by
  rw [Code.Defined] at defined
  split at defined
  case h_1 flow =>
    simp only [Builder.flow, flow]
    exact goes_follow hs defined
  case h_2 m flow operands =>
    simp only [Builder.flow, flow, operands]
    exact goes_branch hs defined
  case h_3 m flow operands =>
    simp only [Builder.flow, flow, operands]
    exact (goes_branch hs defined.1).bind fun b' le =>
      goes_follow (Nat.lt_of_lt_of_le hs le) defined.2
  case h_4 m ms flow operands =>
    obtain ⟨default, others⟩ := List.forall_mem_cons.1 defined
    simp only [Builder.flow, flow, operands]
    exact (goes_branch hs default).bind fun b' le => goes_cases (Nat.lt_of_lt_of_le hs le) others
  case h_5 flow =>
    simp only [Builder.flow, flow]
    exact goes_connect _ hs out
  case h_6 flow =>
    simp only [Builder.flow, flow]
    split
    · exact goes_connect _ hs out
    · exact Goes.refl
  case h_7 => exact defined.elim

lemma goes_visit (out : exit < b.graph.nodeCount) (inside : ∀ h ∈ handlers, h.target < code.size)
    (defined : ∀ id i, code.at? p = some (id, i) → code.Defined p i) :
    Goes b (b.visit code handlers p) := by
  rw [visit]
  split
  · exact Goes.refl
  · rename_i id i here
    split
    · exact Goes.refl
    · rename_i n found
      have hs : n < b.graph.nodeCount := (List.findIdx?_eq_some_iff_getElem.1 found).1
      refine (goes_flow out hs (defined id i here)).bind fun b' le => ?_
      split
      · exact goes_raises (Nat.lt_of_lt_of_le hs le) inside
      · exact Goes.refl

lemma exists_run (fuel : Nat) {seen : List Nat} (resolved : code.resolvedHandlers = .ok handlers)
    (inside : ∀ h ∈ handlers, h.target < code.size)
    (defined : ∀ p id i, code.Reachable p → code.at? p = some (id, i) → code.Defined p i)
    (inv : Inv code handlers seen b) : ∃ b', run code handlers fuel b = .ok b' := by
  induction fuel generalizing seen b with
  | zero => exact ⟨b, rfl⟩
  | succ fuel ih =>
    rw [run]
    split
    · exact ⟨b, rfl⟩
    · rename_i p rest waiting
      have popped := inv.pop waiting
      obtain ⟨n, stands⟩ := (popped.tracked p).1 (List.mem_append_left _ List.mem_cons_self)
      have reach := stands.reachable popped.reached
      have out : exit < b.graph.nodeCount := inv.outside.length_le
      obtain ⟨b₁, visited, -⟩ := goes_visit (b := { b with worklist := rest }) out inside
        fun id i here => defined p id i reach here
      obtain ⟨⟨id, i⟩, here, -⟩ := id stands
      obtain ⟨inv₁, -, -⟩ := visit_inv resolved reach here popped stands visited
      rw [visited, ok_bind]
      exact ih inv₁

lemma exists_targets (b : Builder) {hs : List (Handler Nat)} (inside : ∀ h ∈ hs, h.target < code.size) :
    ∃ b' ns, targets code handlers hs b = .ok (b', ns) := by
  induction hs generalizing b with
  | nil => exact ⟨b, [], rfl⟩
  | cons h rest ih =>
    obtain ⟨first, others⟩ := List.forall_mem_cons.1 inside
    obtain ⟨b₁, n, made, -⟩ := exists_vertex b handlers first
    obtain ⟨b₂, ns, more⟩ := ih b₁ others
    exact ⟨b₂, n :: ns, bind_eq_ok.2 ⟨(b₁, n), made, bind_eq_ok.2 ⟨(b₂, ns), more, rfl⟩⟩⟩

end Builder

/-- Code whose handlers start inside of it, and where nothing that control can come to goes wrong, has
a graph. -/
lemma exists_build (nonempty : code.instrs ≠ []) (resolved : code.resolvedHandlers = .ok handlers)
    (inside : ∀ h ∈ handlers, h.target < code.size)
    (defined : ∀ p id i, code.Reachable p → code.at? p = some (id, i) → code.Defined p i) :
    ∃ g, build code = .ok g := by
  have first : 0 < code.size := List.length_pos_iff.2 nonempty
  obtain ⟨b, n, made, le, lt⟩ := Builder.exists_vertex {} handlers first
  obtain ⟨b₀, connected, -⟩ :=
    Builder.goes_connect .fallthrough (Nat.lt_of_lt_of_le (by decide) le : entry < _) lt
  obtain ⟨inv, -, stands⟩ := Builder.vertex_inv Builder.inv_empty .first made
  obtain ⟨inv₀, -, -⟩ := Builder.connect_inv inv (.entry stands) connected
  obtain ⟨b₁, ns, starts⟩ := Builder.exists_targets b₀ inside
  obtain ⟨inv₁, -, -⟩ := Builder.targets_inv resolved (List.Subset.refl _) inv₀ starts
  obtain ⟨b₂, ran⟩ := Builder.exists_run code.size resolved inside defined inv₁
  have some_instr : ¬code.instrs.isEmpty = true := fun empty => nonempty (List.isEmpty_iff.1 empty)
  have none_outside : (handlers.find? fun h => code.size ≤ h.target) = none := by
    rw [List.find?_eq_none]
    intro h mem
    simpa using inside h mem
  have follow : Builder.follow code handlers {} entry 0 .fallthrough = .ok b₀ :=
    bind_eq_ok.2 ⟨(b, n), made, connected⟩
  simp only [build, some_instr, resolved, ok_bind, none_outside, follow, starts, ran,
    pure_eq_ok]
  exact ⟨_, rfl⟩

end FlowGraph

/-- The positions that control can come to and return from. -/
def Code.returns (code : Code) : Set Nat :=
  { p | code.Reachable p ∧ ∃ id i, code.at? p = some (id, i) ∧ i.opcode.flow = .leave }

/-- The positions that control can come to and where an exception is thrown that no handler catches. -/
def Code.escapes (code : Code) (handlers : List (Handler Nat)) : Set Nat :=
  { p | code.Reachable p ∧ ∃ id i, code.at? p = some (id, i) ∧ i.opcode.flow = .raise ∧
    ∀ h ∈ handlers, ¬h.Covers p }

namespace FlowGraph

variable {code : Code} {handlers : List (Handler Nat)} {g : FlowGraph}

/-- The graph holds what control can do from one instruction to the next, and nothing else. -/
structure Exact (code : Code) (handlers : List (Handler Nat)) (g : FlowGraph) : Prop where
  /-- An instruction that control can come to has exactly one vertex. -/
  vertex : ∀ p id i, code.at? p = some (id, i) → code.Reachable p →
    ∃! n, g.graph.node? n = some (.instr id)
  /-- No other instruction has a vertex. -/
  reached : ∀ n id, g.graph.node? n = some (.instr id) →
    ∃ p i, code.at? p = some (id, i) ∧ code.Reachable p
  /-- The edges that leave the vertex of an instruction are those that the code prescribes. -/
  edges : ∀ n p id i, g.graph.node? n = some (.instr id) → code.at? p = some (id, i) →
    ∀ m kind, (m, kind) ∈ g.edgesFrom n ↔
      ∃ place, code.Prescribes handlers p i kind place ∧ Stands code g.graph m place
  /-- No edge is there twice. -/
  nodup : ∀ n, (g.edgesFrom n).Nodup
  /-- One edge leaves the entry. -/
  entry : g.graph.outDegree entry = 1
  /-- The edges to the exit are returns and exceptions that are not caught. -/
  exit : g.graph.inDegree exit = code.returns.ncard + (code.escapes handlers).ncard

namespace Spec

lemma not_stands_entry (spec : Spec code handlers g) {p : Nat} :
    ¬Stands code g.graph FlowGraph.entry (some p) := by
  rintro ⟨e, -, node⟩
  have first : g.graph.node? FlowGraph.entry = some .entry :=
    List.prefix_iff_getElem?.1 spec.outside 0 (by decide)
  cases first.symm.trans node

lemma edgesFrom_entry (spec : Spec code handlers g) :
    ∃ n, g.edgesFrom FlowGraph.entry = [(n, .fallthrough)] := by
  obtain ⟨n, stands⟩ := spec.vertex 0 .first
  refine ⟨n, ?_⟩
  have only : ∀ e ∈ g.edgesFrom FlowGraph.entry, e = (n, .fallthrough) := by
    rintro ⟨m, kind⟩ mem
    have just := (spec.edges _).1 (Digraph.mem_outgoing.1 mem)
    cases just with
    | entry first => rw [first.vertex_inj spec.nodup stands]
    | prescribed source => exact absurd source spec.not_stands_entry
  have there : (n, .fallthrough) ∈ g.edgesFrom FlowGraph.entry :=
    Digraph.mem_outgoing.2 ((spec.edges _).2 (.entry stands))
  have once : (g.edgesFrom FlowGraph.entry).Nodup := Digraph.nodup_outgoing spec.edges_nodup _
  exact List.perm_singleton.1 ((List.perm_ext_iff_of_nodup once (List.nodup_singleton _)).2
    fun e => ⟨fun mem => List.mem_singleton.2 (only e mem),
      fun mem => List.mem_singleton.1 mem ▸ there⟩)

/-- An edge leads to the exit exactly from where the code prescribes to leave the method. -/
lemma edge_exit (spec : Spec code handlers g) {n : NodeId} {kind : EdgeKind} :
    ⟨n, FlowGraph.exit, kind⟩ ∈ g.graph.edges ↔ ∃ p id i, Stands code g.graph n (some p) ∧
      code.at? p = some (id, i) ∧ code.Prescribes handlers p i kind none := by
  have last : g.graph.node? FlowGraph.exit = some .exit :=
    List.prefix_iff_getElem?.1 spec.outside 1 (by decide)
  have inside {p} : ¬Stands code g.graph FlowGraph.exit (some p) := by
    rintro ⟨e, -, node⟩
    cases last.symm.trans node
  rw [spec.edges]
  constructor
  · intro just
    cases just with
    | entry first => exact absurd first inside
    | @prescribed _ _ p id i _ place source here way target =>
      cases place with
      | none => exact ⟨p, id, i, source, here, way⟩
      | some q => exact absurd target inside
  · rintro ⟨p, id, i, source, here, way⟩
    exact .prescribed source here way rfl

lemma ncard_exits (spec : Spec code handlers g) (kind : EdgeKind) :
    { n | ⟨n, FlowGraph.exit, kind⟩ ∈ g.graph.edges }.ncard =
      { p | code.Reachable p ∧ ∃ id i, code.at? p = some (id, i) ∧
        code.Prescribes handlers p i kind none }.ncard := by
  apply ncard_eq_of_forall_exists fun n p => Stands code g.graph n (some p)
  · exact fun n p q => Stands.position_inj
  · exact fun n m p => Stands.vertex_inj spec.nodup
  · intro n mem
    obtain ⟨p, id, i, stands, here, way⟩ := spec.edge_exit.1 mem
    exact ⟨p, ⟨stands.reachable spec.reached, id, i, here, way⟩, stands⟩
  · rintro p ⟨reach, id, i, here, way⟩
    obtain ⟨n, stands⟩ := spec.vertex p reach
    exact ⟨n, spec.edge_exit.2 ⟨p, id, i, stands, here, way⟩, stands⟩

lemma inDegree_exit (spec : Spec code handlers g) : g.graph.inDegree FlowGraph.exit =
    { n | ⟨n, FlowGraph.exit, .leave⟩ ∈ g.graph.edges }.ncard +
      { n | ⟨n, FlowGraph.exit, .raise⟩ ∈ g.graph.edges }.ncard := by
  have kinds : ((g.graph.incoming FlowGraph.exit).toFinset : Set (NodeId × EdgeKind)) =
      (·, EdgeKind.leave) '' { n | ⟨n, FlowGraph.exit, .leave⟩ ∈ g.graph.edges } ∪
        (·, EdgeKind.raise) '' { n | ⟨n, FlowGraph.exit, .raise⟩ ∈ g.graph.edges } := by
    ext ⟨n, kind⟩
    simp only [List.coe_toFinset, Set.mem_ofPred_eq, Digraph.mem_incoming, Set.mem_union,
      Set.mem_image, Prod.mk.injEq]
    constructor
    · intro mem
      obtain ⟨p, id, i, -, -, way⟩ := spec.edge_exit.1 mem
      obtain ⟨rfl, -⟩ | ⟨rfl, -⟩ := Code.prescribes_none.1 way
      · exact .inl ⟨n, mem, rfl, rfl⟩
      · exact .inr ⟨n, mem, rfl, rfl⟩
    · rintro (⟨n, mem, rfl, rfl⟩ | ⟨n, mem, rfl, rfl⟩)
      · exact mem
      · exact mem
  have finite : ∀ kind, { n | (⟨n, FlowGraph.exit, kind⟩ : Digraph.Edge EdgeKind) ∈
      g.graph.edges }.Finite := by
    intro kind
    refine (g.graph.edges.map (·.source)).finite_toSet.subset fun n mem => ?_
    exact List.mem_map.2 ⟨_, mem, rfl⟩
  have apart : Disjoint
      ((·, EdgeKind.leave) '' { n | ⟨n, FlowGraph.exit, .leave⟩ ∈ g.graph.edges })
      ((·, EdgeKind.raise) '' { n | ⟨n, FlowGraph.exit, .raise⟩ ∈ g.graph.edges }) := by
    rw [Set.disjoint_left]
    rintro _ ⟨n, -, rfl⟩ ⟨m, -, eq⟩
    cases (Prod.mk.inj eq).2
  have injective (kind : EdgeKind) : Function.Injective fun n : NodeId => (n, kind) :=
    fun _ _ eq => (Prod.mk.inj eq).1
  rw [Digraph.inDegree, ← List.toFinset_card_of_nodup (Digraph.nodup_incoming spec.edges_nodup _),
    ← Set.ncard_coe_finset, kinds, Set.ncard_union_eq apart ((finite _).image _) ((finite _).image _),
    Set.ncard_image_of_injective _ (injective _), Set.ncard_image_of_injective _ (injective _)]

lemma exact (spec : Spec code handlers g) : Exact code handlers g := by
  constructor
  case vertex =>
    intro p id i here reach
    obtain ⟨n, e, there, node⟩ := spec.vertex p reach
    obtain rfl := Option.some.inj (here.symm.trans there)
    refine ⟨n, node, fun m node' => ?_⟩
    exact (List.getElem?_inj (List.getElem?_eq_some_iff.1 node').1 spec.nodup).1
      (node'.trans node.symm)
  case reached => exact spec.reached
  case edges =>
    intro n p id i node here m kind
    have stands : Stands code g.graph n (some p) := ⟨(id, i), here, node⟩
    rw [edgesFrom, Digraph.mem_outgoing, spec.edges]
    constructor
    · intro just
      cases just with
      | entry => exact absurd stands spec.not_stands_entry
      | @prescribed _ _ q id' j _ place source there way target =>
        obtain rfl := stands.position_inj source
        obtain ⟨-, rfl⟩ := Prod.mk.inj (Option.some.inj (here.symm.trans there))
        exact ⟨place, way, target⟩
    · rintro ⟨place, way, target⟩
      exact .prescribed stands here way target
  case nodup => exact fun n => Digraph.nodup_outgoing spec.edges_nodup n
  case entry =>
    obtain ⟨n, only⟩ := spec.edgesFrom_entry
    rw [Digraph.outDegree, ← edgesFrom, only, List.length_singleton]
  case exit =>
    rw [spec.inDegree_exit, spec.ncard_exits, spec.ncard_exits]
    simp [Code.prescribes_none, Code.returns, Code.escapes]

end Spec

/-- Code has a control flow graph exactly if there is an instruction, every handler has its places with
its start inside the code, and wherever control can come to, the operands suit the flow and control
goes on to instructions only.  The graph is then the static successor relation. -/
theorem build_exact (code : Code) :
    ((∃ g, build code = .ok g) ↔
      code.instrs ≠ [] ∧
      (∃ handlers, code.resolvedHandlers = .ok handlers ∧ ∀ h ∈ handlers, h.target < code.size) ∧
      ∀ p id i, code.Reachable p → code.at? p = some (id, i) → code.Defined p i) ∧
    ∀ g, build code = .ok g →
      ∃ handlers, code.resolvedHandlers = .ok handlers ∧ Exact code handlers g := by
  refine ⟨⟨?_, ?_⟩, ?_⟩
  · rintro ⟨g, built⟩
    obtain ⟨nonempty, handlers, -, -, -, -, resolved, inside, -⟩ := build_eq_ok built
    obtain ⟨_, spec⟩ := build_sound built
    exact ⟨nonempty, ⟨handlers, resolved, inside⟩, spec.defined⟩
  · rintro ⟨nonempty, ⟨handlers, resolved, inside⟩, defined⟩
    exact exists_build nonempty resolved inside defined
  · intro g built
    obtain ⟨handlers, spec⟩ := build_sound built
    exact ⟨handlers, spec.resolved, spec.exact⟩

end FlowGraph

/-- Code with a loop, a switch that names a place twice, a handler, a throw outside of its range and an
instruction that control cannot come to. -/
def Code.switching : Code where
  instrs := [(0, ⟨.label, .none⟩), (1, ⟨.getLocal1, .none⟩), (2, ⟨.convertS, .none⟩),
    (3, .switch 0 [0, 1, 0]), (4, ⟨.returnVoid, .none⟩), (5, ⟨.pop, .none⟩),
    (6, ⟨.returnVoid, .none⟩), (7, ⟨.getLocal1, .none⟩), (8, ⟨.throw, .none⟩)]
  markers := { bindings := [.bound (.instr 7), .bound (.instr 0), .bound (.instr 4),
    .bound (.instr 5)] }
  handlers := [⟨1, 2, 3, 0, 0⟩]
  nextId := 9

/-- The switching code has a graph, in which two edges lead to the exit: the return of the handler and
the throw. -/
theorem FlowGraph.build_exact_switching :
    ∃ g, build Code.switching = .ok g ∧ g.graph.outDegree entry = 1 ∧
      Code.switching.returns.ncard + (Code.switching.escapes [⟨0, 4, 5, 0, 0⟩]).ncard = 2 := by
  have run : (build Code.switching >>= fun g => .ok (g.graph.inDegree exit)) = .ok 2 := by
    decide +kernel
  obtain ⟨g, built, degree⟩ := bind_eq_ok.1 run
  obtain ⟨handlers, resolved, exact⟩ := (build_exact Code.switching).2 g built
  obtain rfl : [⟨0, 4, 5, 0, 0⟩] = handlers := Except.ok.inj resolved
  exact ⟨g, built, exact.entry, exact.exit.symm.trans (Except.ok.inj degree)⟩

end Avm
