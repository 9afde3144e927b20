import Avm.Proofs.Lift.Blaming
import Avm.Proofs.Lift.Logging

/-!
# How a block is left

A block is filled without any other faults than those of the code.  Its instructions stand where the
control flow graph says, wherever they lead there is a vertex, and what is not fallen through to starts
a block.  When the block is ended, each of its ways is to be entered once.

The main statement is `departs_interpret`.
-/

namespace Avm.Ir.Lift

open Edit BlockGraph

variable {s : Source} {code : Code} {handlers : List (Handler Nat)} {n n' m : NodeId} {kind : EdgeKind}
  {i : Instruction Marker} {p : Partition} {b c : BlockId} {f f' f₀ : Func} {frame : Frame}
  {ns : List NodeId} {es : List Pending} {count fuel : Nat} {x : Pending}

lemma exists_edges (paired : s.Paired code handlers) (here : s.instr? n = some i) :
    match i.opcode.flow with
    | .next => ∃ m, (m, .fallthrough) ∈ normalFrom s.graph n
    | .jump => ∃ m, (m, .jump) ∈ normalFrom s.graph n
    | .conditional => (∃ m, (m, .whenFalse) ∈ normalFrom s.graph n) ∧
        ∃ m, (m, .whenTrue) ∈ normalFrom s.graph n
    | .switch => ∃ default cases, i.operands = .switch default cases ∧
        (∃ m, (m, .switchDefault) ∈ normalFrom s.graph n) ∧
        ∀ k < cases.length, ∃ m, (m, .switchCase k) ∈ normalFrom s.graph n
    | .leave | .raise => True := by
  obtain ⟨q, id, stands, there⟩ := paired.stands here
  have reach : code.Reachable q := stands.reachable paired.spec.reached
  have defined := paired.spec.defined q id i reach there
  have edge {kind : EdgeKind} {q' : Nat} (way : code.Way q i kind q') :
      ∃ m, (m, kind) ∈ normalFrom s.graph n := by
    obtain ⟨m, -, mem⟩ := exists_normal_edge paired.spec reach stands there way
    exact ⟨m, mem⟩
  rw [Code.Defined] at defined
  split at defined
  · rename_i flow
    rw [flow]
    exact edge (.next flow)
  · rename_i flow ops
    rw [flow]
    obtain ⟨q', goes⟩ := defined
    exact edge (.jump flow ops goes)
  · rename_i flow ops
    rw [flow]
    obtain ⟨⟨q', goes⟩, -⟩ := defined
    exact ⟨edge (.whenFalse flow ops), edge (.whenTrue flow ops goes)⟩
  · rename_i default cases flow ops
    rw [flow]
    refine ⟨default, cases, ops, ?_, fun k below => ?_⟩
    · obtain ⟨q', goes⟩ := defined default List.mem_cons_self
      exact edge (.switchDefault flow ops goes)
    · obtain ⟨q', goes⟩ := defined cases[k] (List.mem_cons_of_mem _ (List.getElem_mem below))
      exact edge (.switchCase flow ops (List.getElem?_eq_getElem below) goes)
  · rename_i flow
    rw [flow]
    trivial
  · rename_i flow
    rw [flow]
    trivial
  · exact defined.elim

/-- A vertex of the block; the entry has a vertex of its own. -/
def Within (s : Source) (p : Partition) (b : BlockId) (n : NodeId) : Prop :=
  b = Func.entry ∧ n = FlowGraph.entry ∨
    (s.instr? n).isSome ∧ ∃ m ns, p.blocks.lookup m = some b ∧ Stretch s m ns ∧ n ∈ ns

lemma instr?_entry (paired : s.Paired code handlers) : s.instr? FlowGraph.entry = none := by
  obtain ⟨rest, nodes⟩ := paired.spec.outside
  rw [Source.instr?, FlowGraph.instr?, Digraph.node?, ← nodes]
  rfl

lemma Within.unique (paired : s.Paired code handlers) (exact : p.Exact s.graph) (h : Within s p b n)
    (h' : Within s p c n) : b = c := by
  obtain ⟨rfl, rfl⟩ | ⟨there, m, ns, found, stretch, mem⟩ := h
  · obtain ⟨rfl, -⟩ | ⟨there, -⟩ := h'
    · rfl
    · rw [instr?_entry paired] at there
      cases there
  · obtain ⟨-, rfl⟩ | ⟨-, m', ns', found', stretch', mem'⟩ := h'
    · rw [instr?_entry paired] at there
      cases there
    · obtain ⟨j, here⟩ := List.getElem?_of_mem mem
      obtain ⟨k, here'⟩ := List.getElem?_of_mem mem'
      obtain ⟨rfl, -⟩ := stretch.place_unique (leader_of_lookup exact found) stretch'
        (leader_of_lookup exact found') here here'
      exact Option.some.inj (found.symm.trans found')

/-- The edge by which something is to be entered: its target, its source and its kind. -/
def Pending.arrival? (p : Partition) (x : Pending) : Option (BlockId × BlockId × EdgeKind) :=
  match x.entry, p.blocks.lookup x.leader with
  | some (_, source, kind), some target => some (target, source, kind)
  | _, _ => none

/-- Something is to be entered by an edge from a vertex of a block. -/
structure Pending.From (s : Source) (p : Partition) (b : BlockId) (n : NodeId) (count : Nat) (x : Pending) :
    Prop where
  entry : ∃ frame kind, x.entry = some (frame, b, kind) ∧ frame.locals.length = count ∧
    (x.leader, kind) ∈ normalFrom s.graph n
  known : (p.blocks.lookup x.leader).isSome

/-- A block has its end, and each way from there is to be entered once. -/
def Departs (s : Source) (p : Partition) (b : BlockId) (n : NodeId) (count : Nat) (f : Func)
    (es : List Pending) (f' : Func) : Prop :=
  ∃ t depth, Closes b t depth f f' ∧ (∀ x ∈ es, x.From s p b n count) ∧
    (es.filterMap (·.arrival? p)).Perm (t.targets.map fun e => (e.1, b, e.2))

section Rules

variable {α : Type} {Q : α → Func → Prop} {bad : Fault → Prop}

lemma arrival?_enterBy {e : NodeId × EdgeKind} (found : p.blocks.lookup e.1 = some c) :
    (enterBy frame b e).arrival? p = some (c, b, e.2) := by
  rw [Pending.arrival?, enterBy, found]

lemma blames_successor {g : NodeId → Edit α} (edge : (m, kind) ∈ normalFrom s.graph n)
    (next : ∀ m, (m, kind) ∈ normalFrom s.graph n → (g m).Meets f Q bad) :
    (successor s.graph n kind >>= g).Meets f Q bad := by
  obtain ⟨mem, normal⟩ := mem_normalFrom.1 edge
  rw [successor]
  split
  · rename_i e found
    have same : e.2 = kind := by simpa using List.find?_some found
    refine next e.1 (List.mem_filter.2 ⟨?_, normal⟩)
    rw [← same]
    exact List.mem_of_find?_eq_some found
  · rename_i none
    have missing := List.find?_eq_none.1 none (m, kind) (Digraph.mem_outgoing.2 mem)
    simp at missing

lemma blames_blockOf {g : BlockId → Edit α} (found : p.blocks.lookup n = some b) (next : (g b).Meets f Q bad) :
    (blockOf p n >>= g).Meets f Q bad := by
  rw [blockOf, found]
  exact next

lemma blames_close {t : Terminator} (live : (f.block? b).isSome)
    (targets : ∀ e ∈ t.targets, (f.block? e.1).isSome) :
    (close b t frame).Meets f (fun _ f' => Closes b t frame.scope.length f f') bad := by
  have same : (f.modifyBlock b fun x => { x with scopeDepth := frame.scope.length }).handlersOf b =
      f.handlersOf b := Func.handlersOf_modifyBlock fun _ => rfl
  rw [close]
  refine meets_run_bind (a := ()) (modifyBlock_eq_ok.2 ⟨live, rfl⟩) ?_
  refine meets_of_run (a := ()) (setTerminator_eq_ok.2 ⟨fun e mem => ?_, ?_, rfl⟩) ⟨live, targets, by rw [same]⟩
  · rw [Func.isSome_block?_modifyBlock]
    exact targets e mem
  · rw [Func.isSome_block?_modifyBlock]
    exact live

end Rules

section Terminating

variable (paired : s.Paired code handlers) (exact : p.Exact s.graph)

include paired exact

lemma exists_lookup (here : s.instr? n = some i) (edge : (m, kind) ∈ normalFrom s.graph n)
    (jumps : kind ≠ .fallthrough) : ∃ c, p.blocks.lookup m = some c := by
  cases found : p.blocks.lookup m with
  | some c => exact ⟨c, rfl⟩
  | none =>
    obtain ⟨y, only, -⟩ := single_of_inner (inner_of_edge paired exact here edge found)
    have into := mem_normalEdges edge
    rw [only, List.mem_singleton] at into
    exact absurd (Prod.mk.inj into).2 jumps

variable (here : s.instr? n = some i)

include here

lemma blames_follow {α : Type} {g : BlockId × Pending → Edit α} {Q : α → Func → Prop} {bad : Fault → Prop}
    (edge : ∃ m, (m, kind) ∈ normalFrom s.graph n) (jumps : kind ≠ .fallthrough)
    (next : ∀ c x, x.arrival? p = some (c, b, kind) → p.blocks.lookup x.leader = some c →
      x.From s p b n frame.locals.length → (g (c, x)).Meets f Q bad) :
    (follow s p b n kind frame >>= g).Meets f Q bad := by
  obtain ⟨m, edge⟩ := edge
  rw [follow, bind_assoc]
  refine blames_successor edge fun m edge => ?_
  obtain ⟨c, found⟩ := exists_lookup paired exact here edge jumps
  rw [bind_assoc]
  refine blames_blockOf found ?_
  rw [pure_bind]
  refine next c (enterBy frame b (m, kind)) (arrival?_enterBy found) found ⟨⟨frame, kind, rfl, rfl, edge⟩, ?_⟩
  rw [enterBy, found]
  rfl

lemma blames_followCases {k : Nat} {cases : List Marker} {bad : Fault → Prop}
    (edges : ∀ j < cases.length, ∃ m, (m, .switchCase (k + j)) ∈ normalFrom s.graph n) :
    (followCases s p b n frame k cases).Meets f (fun rs f' => f' = f ∧
      (∀ r ∈ rs, p.blocks.lookup r.2.leader = some r.1 ∧ r.2.From s p b n frame.locals.length) ∧
      (rs.map (·.2)).filterMap (·.arrival? p) = (rs.map (·.1)).mapIdx fun j c => (c, b, .switchCase (k + j)))
      bad := by
  induction cases generalizing k with
  | nil => exact meets_pure ⟨rfl, by simp, rfl⟩
  | cons marker cases ih =>
    rw [followCases]
    refine blames_follow paired exact here (edges 0 (by simp)) (by rintro ⟨⟩) fun c x arrives found comes => ?_
    have rest : ∀ j < cases.length, ∃ m, (m, .switchCase (k + 1 + j)) ∈ normalFrom s.graph n := by
      intro j below
      have := edges (j + 1) (by simpa using below)
      rwa [Nat.add_assoc, Nat.add_comm 1]
    refine (ih rest).bind ?_
    rintro rs f₁ ⟨rfl, known, arrive⟩
    refine meets_pure ⟨rfl, List.forall_mem_cons.2 ⟨⟨found, comes⟩, known⟩, ?_⟩
    rw [List.map_cons, List.map_cons, List.filterMap_cons_some arrives, arrive, List.mapIdx_cons]
    refine congrArg₂ List.cons rfl (congrFun (congrArg _ (funext fun j => funext fun c => ?_)) _)
    rw [Nat.add_assoc, Nat.add_comm 1]

variable (live : (f.block? b).isSome) (blocks : ∀ e ∈ p.blocks, (f.block? e.2).isSome)

include live blocks

lemma departs_terminate (ends : i.opcode.flow ≠ .next) :
    (terminate s p b n i frame).Meets f (Departs s p b n frame.locals.length f) (·.isInCode) := by
  have edges := exists_edges paired here
  have there {c : BlockId} {x : Pending} (found : p.blocks.lookup x.leader = some c) : (f.block? c).isSome :=
    blocks _ (mem_of_lookup found)
  rw [terminate]
  split
  · rename_i flow
    rw [flow] at edges
    refine blames_follow paired exact here edges (by rintro ⟨⟩) fun c x arrives found comes => ?_
    refine (blames_close live ?_).bind fun _ f₁ closes => meets_pure ⟨_, _, closes, by simpa using comes, ?_⟩
    · simpa [Terminator.targets] using there found
    · simp [Terminator.targets, arrives]
  · rename_i flow
    rw [flow] at edges
    split
    · rename_i none
      obtain ⟨kind, branches⟩ := exists_branchKind flow
      rw [none] at branches
      cases branches
    · refine blames_popN (fun _ => rfl) fun operands fr same => ?_
      rw [← same]
      refine blames_follow paired exact here edges.1 (by rintro ⟨⟩) fun c x arrives found comes => ?_
      refine blames_follow paired exact here edges.2 (by rintro ⟨⟩) fun c' x' arrives' found' comes' => ?_
      refine (blames_close live ?_).bind fun _ f₁ closes =>
        meets_pure ⟨_, _, closes, by simpa using ⟨comes, comes'⟩, ?_⟩
      · simpa [Terminator.targets] using ⟨there found', there found⟩
      · simp only [Terminator.targets, List.filterMap_cons, arrives, arrives', List.filterMap_nil, List.map_cons,
          List.map_nil]
        exact .swap _ _ _
  · rename_i flow
    rw [flow] at edges
    obtain ⟨default, cases, ops, first, rest⟩ := edges
    rw [ops]
    refine blames_pop rfl fun v fr same => ?_
    rw [← same]
    refine blames_follow paired exact here first (by rintro ⟨⟩) fun c x arrives found comes => ?_
    refine (blames_followCases paired exact here (by simpa using rest)).bind ?_
    rintro rs f₁ ⟨rfl, known, arrive⟩
    refine (blames_close live ?_).bind fun _ f₂ closes => meets_pure ⟨_, _, closes, ?_, ?_⟩
    · refine List.forall_mem_cons.2 ⟨there found, fun e mem => ?_⟩
      obtain ⟨k, below, rfl⟩ := List.mem_mapIdx.1 mem
      obtain ⟨r, listed, block⟩ := List.mem_map.1 (List.getElem_mem below)
      rw [← block]
      exact there (known r listed).1
    · refine List.forall_mem_cons.2 ⟨comes, fun y mem => ?_⟩
      obtain ⟨r, listed, rfl⟩ := List.mem_map.1 mem
      exact (known r listed).2
    · rw [List.filterMap_cons_some arrives, arrive]
      simp [Terminator.targets, List.mapIdx_eq_zipIdx_map, Function.comp_def]
  · split
    · refine blames_pop rfl fun v fr same => ?_
      exact (blames_close live (by simp [Terminator.targets])).bind fun _ f₁ closes =>
        meets_pure ⟨_, _, closes, by simp, by simp [Terminator.targets]⟩
    · exact (blames_close live (by simp [Terminator.targets])).bind fun _ f₁ closes =>
        meets_pure ⟨_, _, closes, by simp, by simp [Terminator.targets]⟩
  · refine blames_pop rfl fun v fr same => ?_
    exact (blames_close live (by simp [Terminator.targets])).bind fun _ f₁ closes =>
      meets_pure ⟨_, _, closes, by simp, by simp [Terminator.targets]⟩
  · rename_i flow
    exact absurd flow ends

end Terminating

section Filling

lemma Stretch.snoc (h : Stretch s m (ns ++ [n])) (edge : (n', .fallthrough) ∈ normalFrom s.graph n)
    (inner : isLeader s.graph n' = false) : Stretch s m (ns ++ [n] ++ [n']) := by
  have nonempty : ns ++ [n] ≠ [] := by simp
  refine ⟨?_, ?_, ?_⟩
  · rw [List.head?_append_of_ne_nil _ nonempty]
    exact h.head
  · refine List.isChain_append.2 ⟨h.chained, .singleton n', fun x last y mem => ?_⟩
    obtain rfl : n = x := by simpa using last
    obtain rfl : n' = y := by simpa using mem
    exact edge
  · rw [List.tail_append_of_ne_nil nonempty]
    intro y mem
    obtain mem | mem := List.mem_append.1 mem
    · exact h.inner y mem
    · rw [List.mem_singleton.1 mem]
      exact inner

lemma lt_nodeCount (there : (s.instr? n).isSome) : n < s.graph.graph.nodeCount := by
  obtain ⟨i, here⟩ := Option.isSome_iff_exists.1 there
  obtain ⟨id, vertex, -⟩ := Option.bind_eq_some_iff.1 here
  rw [FlowGraph.instr?] at vertex
  split at vertex
  · rename_i node
    exact (List.getElem?_eq_some_iff.1 node).1
  · cases vertex

lemma length_le_nodeCount (once : ns.Nodup) (there : ∀ n ∈ ns, (s.instr? n).isSome) :
    ns.length ≤ s.graph.graph.nodeCount := by
  have inside : ns ⊆ List.range s.graph.graph.nodeCount :=
    fun n mem => List.mem_range.2 (lt_nodeCount (there n mem))
  simpa using (once.subperm inside).length_le

variable (paired : s.Paired code handlers) (exact : p.Exact s.graph) (formed : s.Formed)
  (named : ∀ n i, s.instr? n = some i → ∀ r ∈ i.registers, r < count)
  (inner : b ≠ Func.entry ∧ b ≠ Func.exit) (blocks : ∀ e ∈ p.blocks, (f₀.block? e.2).isSome)

include paired exact formed named inner blocks

/-- The instructions of a block are followed up to its end, or the fault lies in the code. -/
lemma departs_interpret (found : p.blocks.lookup m = some b) (stretch : Stretch s m (ns ++ [n]))
    (there : ∀ x ∈ ns ++ [n], (s.instr? x).isSome) (enough : s.graph.graph.nodeCount ≤ fuel + ns.length)
    (before : Furnishes f₀ f) (locals : frame.locals.length = count) :
    (interpret s p b fuel n frame).Meets f (fun es f' => ∃ g l, Furnishes f₀ g ∧ Within s p b l ∧
      Departs s p b l count g es f') (·.isInCode) := by
  have live : (f₀.block? b).isSome := blocks _ (mem_of_lookup found)
  induction fuel generalizing ns n f frame with
  | zero =>
    have few := length_le_nodeCount (stretch.nodup (leader_of_lookup exact found)) there
    rw [List.length_append, List.length_singleton] at few
    omega
  | succ fuel ih =>
    obtain ⟨i, here⟩ := Option.isSome_iff_exists.1 (there n (by simp))
    have instr : (s.graph.instr? n).bind s.code.get? = some i := here
    rw [interpret, instr]
    dsimp only
    have within : Within s p b n := .inr ⟨there n (by simp), m, _, found, stretch, by simp⟩
    have still {g : Func} (after : Furnishes f₀ g) : ∀ e ∈ p.blocks, (g.block? e.2).isSome := by
      intro e mem
      rw [after.flow.isSome]
      exact blocks e mem
    split
    · rename_i flow
      refine (departs_terminate paired exact here (by rwa [before.flow.isSome]) (still before) flow).imp ?_
        fun _ same => same
      intro es f' departs
      rw [locals] at departs
      exact ⟨f, n, before, within, departs⟩
    · rename_i flow
      rw [not_not] at flow
      have follows : (step s.pool b i frame).Meets f (fun fr f' => fr.locals.length = frame.locals.length ∧
          Furnishes f₀ f') (·.isInCode) :=
        blames_step inner live (formed n i here) (by rw [locals]; exact named n i here) flow f before
      refine follows.bind ?_
      rintro frame₁ f₁ ⟨same, after⟩
      rw [locals] at same
      have edges := exists_edges paired here
      rw [flow] at edges
      obtain ⟨n', edge⟩ := edges
      refine blames_successor edge fun n' edge => ?_
      cases leads : p.blocks.lookup n' with
      | some target =>
        refine (blames_close (by rwa [after.flow.isSome]) ?_).bind fun _ f₂ closes =>
          meets_pure ⟨f₁, n, after, within, _, _, closes, ?_, ?_⟩
        · simpa [Terminator.targets] using still after _ (mem_of_lookup leads)
        · intro x mem
          rw [List.mem_singleton.1 mem]
          exact ⟨⟨frame₁, .fallthrough, rfl, same, edge⟩, by rw [leads]; rfl⟩
        · simp [Pending.arrival?, leads, Terminator.targets]
      | none =>
        have inner' := inner_of_edge paired exact here edge leads
        obtain ⟨q, q', way, -, stands⟩ := paired.exists_way here edge
        obtain ⟨_, _, -, here'⟩ := instr?_of_stands paired stands
        refine ih (stretch.snoc edge inner') (fun x mem => ?_) (by simp; omega) after same
        obtain mem | mem := List.mem_append.1 mem
        · exact there x mem
        · rw [List.mem_singleton.1 mem, here']
          rfl

end Filling

end Avm.Ir.Lift
