import Avm.Proofs.Lift.Levels

/-!
# The track of lifting

If lifting succeeds, it has come by every vertex that control can come to, by each of them once, and the
frames that it had there have depths that agree with each other.  The track is the list of the vertices
that were come by, with the frames before their instructions, the last one first; it is not part of
the program but is followed along with it.

A leader is come by when its block is entered, which happens once.  Any other vertex is come by from the
one vertex before it, so if it was come by twice so was that one.  What leaves the vertices of the track
pays for what waits to be entered, which is why the fuel suffices.

The main statement is `exists_track_of_build`, and `Complete.levels` reads the depths off the track.
-/

namespace Avm.Ir.Lift

open Edit BlockGraph

variable {s : Source} {code : Code} {handlers : List (Handler Nat)} {n m : NodeId} {kind : EdgeKind}
  {i : Instruction Marker} {p : Partition} {b c : BlockId} {f f' : Func} {frame : Frame} {l : Level}
  {S T : List (NodeId × Frame)} {es : List Pending} {w w' : Progress} {x : Pending}

/-- The vertices of a track. -/
def visited (S : List (NodeId × Frame)) : List NodeId := S.map (·.1)

lemma mem_visited : n ∈ visited S ↔ ∃ frame, (n, frame) ∈ S := by
  rw [visited, List.mem_map]
  constructor
  · rintro ⟨⟨_, frame⟩, mem, rfl⟩
    exact ⟨frame, mem⟩
  · rintro ⟨frame, mem⟩
    exact ⟨_, mem, rfl⟩

/-- The vertex was come by with the given depths. -/
def Passed (S : List (NodeId × Frame)) (n : NodeId) (l : Level) : Prop :=
  ∃ frame, (n, frame) ∈ S ∧ frame.level = l

/-- No vertex is come by twice, and a vertex inside of a block only behind those before it. -/
structure Track (g : FlowGraph) (S : List (NodeId × Frame)) : Prop where
  once : (visited S).Nodup
  back : ∀ n ∈ visited S, isLeader g n = false → ∀ e ∈ normalEdges g n, e.1 ∈ visited S

/-- How many normal edges leave the vertices of a track. -/
def load (g : FlowGraph) (S : List (NodeId × Frame)) : Nat :=
  ((visited S).map fun n => (normalFrom g n).length).sum

/-- An instruction was followed with a frame that is deep enough for it.  Whatever comes next was come by
or waits, with the depths behind the instruction; inside of a block, with the very frame behind it. -/
structure Settled (s : Source) (S : List (NodeId × Frame)) (es : List Pending) (n : NodeId)
    (frame : Frame) (i : Instruction Marker) : Prop where
  here : s.instr? n = some i
  effect : ∃ e, i.effect s.pool = .ok e ∧ frame.level.Affords e ∧
    ∀ m kind, (m, kind) ∈ normalFrom s.graph n → Passed S m (frame.level.after e) ∨
      ∃ x ∈ es, x.leader = m ∧ x.level = frame.level.after e
  stepped : i.opcode.flow = .next → ∃ b f frame' f', (step s.pool b i frame).run f = .ok frame' f' ∧
    ∀ m, (m, .fallthrough) ∈ s.graph.edgesFrom n → isLeader s.graph m = false → (m, frame') ∈ S

/-- What filling a block does to the track. -/
structure Extends (s : Source) (S : List (NodeId × Frame)) (n : NodeId) (frame : Frame)
    (T : List (NodeId × Frame)) (es : List Pending) : Prop where
  track : Track s.graph (T ++ S)
  start : (n, frame) ∈ T
  inner : ∀ e ∈ T, e.1 = n ∨ isLeader s.graph e.1 = false
  settled : ∀ e ∈ T, ∃ i, Settled s (T ++ S) es e.1 e.2 i
  entered : ∀ x ∈ es, x.entry.isSome ∧ normalEdges s.graph x.leader ≠ []
  load : es.length ≤ load s.graph T

lemma mem_normalEdges (edge : (m, kind) ∈ normalFrom s.graph n) : (n, kind) ∈ normalEdges s.graph m := by
  obtain ⟨mem, normal⟩ := mem_normalFrom.1 edge
  refine List.mem_filter.2 ⟨Digraph.mem_incoming.2 mem, ?_⟩
  cases kind with
  | raise => cases normal
  | _ => rfl

lemma load_cons : load s.graph ((n, frame) :: S) = (normalFrom s.graph n).length + load s.graph S := rfl

lemma load_append : load s.graph (T ++ S) = load s.graph T + load s.graph S := by
  simp [load, visited]

lemma sum_countP_le {α β : Type} [DecidableEq β] (key : α → β) {ks : List β} (once : ks.Nodup)
    (l : List α) : (ks.map fun k => l.countP (key · = k)).sum ≤ l.length := by
  induction l with
  | nil => simp
  | cons a l ih =>
    have one : (ks.map fun k => if key a = k then 1 else 0).sum = ks.count (key a) := by
      clear ih once
      induction ks with
      | nil => rfl
      | cons k ks ih =>
        rw [List.map_cons, List.sum_cons, List.count_cons, ih, Nat.add_comm]
        by_cases same : key a = k
        · simp [same]
        · simp [same, Ne.symm same]
    have := List.nodup_iff_count_le_one.1 once (key a)
    simp only [List.countP_cons, decide_eq_true_eq, List.sum_map_add, one, List.length_cons]
    omega

lemma Track.load_le (track : Track s.graph S) : load s.graph S ≤ s.graph.graph.edgeCount := by
  have few (n : NodeId) : (normalFrom s.graph n).length ≤
      s.graph.graph.edges.countP fun e => e.source = n := by
    refine (List.length_filter_le _ _).trans ?_
    rw [FlowGraph.edgesFrom, Digraph.outgoing, List.length_filterMap_eq_countP]
    refine Nat.le_of_eq (List.countP_congr fun e _ => ?_)
    split <;> simp_all
  exact (List.sum_le_sum fun n _ => few n).trans (sum_countP_le Digraph.Edge.source track.once _)

lemma Track.cons (track : Track s.graph S) (new : n ∉ visited S)
    (behind : isLeader s.graph n = false → ∀ e ∈ normalEdges s.graph n, e.1 ∈ visited S) :
    Track s.graph ((n, frame) :: S) := by
  refine ⟨List.nodup_cons.2 ⟨new, track.once⟩, fun m mem inner e edge => ?_⟩
  obtain rfl | mem := List.mem_cons.1 mem
  · exact List.mem_cons_of_mem _ (behind inner e edge)
  · exact List.mem_cons_of_mem _ (track.back m mem inner e edge)

lemma Track.next_new (track : Track s.graph S) (new : n ∉ visited S)
    (behind : isLeader s.graph n = false → ∀ e ∈ normalEdges s.graph n, e.1 ∈ visited S)
    (edge : (m, kind) ∈ normalFrom s.graph n) (inner : isLeader s.graph m = false) :
    m ∉ visited ((n, frame) :: S) := by
  intro mem
  have into := mem_normalEdges edge
  obtain rfl | mem := List.mem_cons.1 mem
  · exact new (behind inner _ into)
  · exact new (track.back m mem inner _ into)

lemma forall_normalFrom (paired : s.Paired code handlers) (here : s.instr? n = some i)
    (flow : i.opcode.flow = .next) (edge : (m, .fallthrough) ∈ normalFrom s.graph n)
    {P : NodeId → Prop} (holds : P m) : ∀ m' kind, (m', kind) ∈ normalFrom s.graph n → P m' := by
  intro m' kind edge'
  have only := kind_of_normal paired here edge'
  simp only [flow] at only
  obtain rfl := only
  rwa [paired.normal_unique here edge' edge]

lemma inner_of_edge (paired : s.Paired code handlers) (exact : p.Exact s.graph)
    (here : s.instr? n = some i) (edge : (m, kind) ∈ normalFrom s.graph n)
    (none : p.blocks.lookup m = none) : isLeader s.graph m = false := by
  obtain ⟨-, q, -, -, stands⟩ := paired.exists_way here edge
  by_contra leader
  have listed := (exact.leaders m).2
    ⟨(mem_order paired.spec).2 ⟨q, stands⟩, Bool.eq_true_of_not_eq_false leader⟩
  obtain ⟨e, mem, rfl⟩ := List.mem_map.1 listed
  have := List.lookup_eq_none_iff.1 none e mem
  simp at this

lemma leader_of_lookup (exact : p.Exact s.graph) (found : p.blocks.lookup n = some b) :
    isLeader s.graph n = true :=
  ((exact.leaders n).1 (List.mem_map_of_mem (mem_of_lookup found))).2

lemma source_of_inner (edge : (m, kind) ∈ normalFrom s.graph n) (inner : isLeader s.graph m = false) :
    ∀ e ∈ normalEdges s.graph m, e.1 = n := by
  intro e into
  rw [isLeader, Bool.or_eq_false_iff] at inner
  obtain ⟨-, shape⟩ := inner
  split at shape
  · rename_i source only
    have first := mem_normalEdges edge
    rw [only, List.mem_singleton] at first into
    rw [into, ← first]
  · cases shape

section Extending

variable {frame₁ : Frame} (track : Track s.graph S) (new : n ∉ visited S)
  (behind : isLeader s.graph n = false → ∀ e ∈ normalEdges s.graph n, e.1 ∈ visited S)
  (here : s.instr? n = some i)

include here

include track new behind in
/-- An instruction that ends a block is the last on the track of the block. -/
lemma extends_of_leaves (flow : i.opcode.flow ≠ .next) (leaves : Leaves s p b n i frame f es f') :
    Extends s S n frame [(n, frame)] es := by
  obtain ⟨⟨e, effect, affords, sends, -⟩, -⟩ := leaves
  refine ⟨track.cons new behind, by simp, by simp, fun e' mem => ?_, fun x mem => ?_, ?_⟩
  · rw [List.mem_singleton.1 mem]
    refine ⟨i, here, ⟨e, effect, affords, fun m kind edge => .inr ?_⟩, fun next => absurd next flow⟩
    obtain ⟨x, mem, leader, fr, entry, level⟩ := sends.all m kind edge
    refine ⟨x, mem, leader, ?_⟩
    rw [Pending.level, entry]
    exact level
  · obtain ⟨fr, kind, entry, -, edge⟩ := sends.frames x mem
    rw [entry]
    exact ⟨rfl, List.ne_nil_of_mem (mem_normalEdges edge)⟩
  · rw [load_cons]
    exact Nat.le_add_right_of_le sends.length

variable (paired : s.Paired code handlers) (flow : i.opcode.flow = .next)
  (follows : Follows s.pool b i frame f frame₁ f') (run : (step s.pool b i frame).run f = .ok frame₁ f')
  (edge : (m, .fallthrough) ∈ normalFrom s.graph n)

include paired flow follows run edge

/-- An instruction that was followed is settled if what it leads to was come by, or waits as a leader. -/
lemma settled_of_follows (next : Passed (T ++ S) m frame₁.level ∨
      ∃ x ∈ es, x.leader = m ∧ x.level = frame₁.level)
    (inner : isLeader s.graph m = false → (m, frame₁) ∈ T ++ S) : Settled s (T ++ S) es n frame i := by
  obtain ⟨e, effect, affords, level⟩ := follows.effect
  rw [level] at next
  refine ⟨here, ⟨e, effect, affords, ?_⟩, fun _ => ⟨b, f, frame₁, f', run, fun m' edge' inner' => ?_⟩⟩
  · exact forall_normalFrom paired here flow edge next
  · obtain rfl := paired.normal_unique here (List.mem_filter.2 ⟨edge', rfl⟩) edge
    exact inner inner'

include track new behind in
/-- An instruction before a leader is the last on the track of its block. -/
lemma extends_before_leader (leader : isLeader s.graph m = true) :
    Extends s S n frame [(n, frame)] [{ leader := m, entry := some (frame₁, b, .fallthrough) }] := by
  refine ⟨track.cons new behind, by simp, by simp, fun e mem => ?_, fun x mem => ?_, ?_⟩
  · rw [List.mem_singleton.1 mem]
    refine ⟨i, settled_of_follows here paired flow follows run edge
      (.inr ⟨_, List.mem_singleton_self _, rfl, rfl⟩) fun inner => ?_⟩
    rw [leader] at inner
    cases inner
  · rw [List.mem_singleton.1 mem]
    exact ⟨rfl, List.ne_nil_of_mem (mem_normalEdges edge)⟩
  · rw [load_cons]
    exact Nat.le_add_right_of_le (List.length_pos_of_mem edge)

lemma Extends.snoc (inner : isLeader s.graph m = false) (more : Extends s ((n, frame) :: S) m frame₁ T es) :
    Extends s S n frame (T ++ [(n, frame)]) es := by
  obtain ⟨track', start, inner', settled, entered, length⟩ := more
  have assoc : T ++ (n, frame) :: S = (T ++ [(n, frame)]) ++ S := by simp
  rw [assoc] at track' settled
  have passed : (m, frame₁) ∈ (T ++ [(n, frame)]) ++ S := by simp [start]
  refine ⟨track', by simp, fun e mem => ?_, fun e mem => ?_, entered, ?_⟩
  · obtain mem | mem := List.mem_append.1 mem
    · obtain same | inside := inner' e mem
      · exact .inr (by rw [same]; exact inner)
      · exact .inr inside
    · rw [List.mem_singleton.1 mem]
      exact .inl rfl
  · obtain mem | mem := List.mem_append.1 mem
    · exact settled e mem
    · rw [List.mem_singleton.1 mem]
      exact ⟨i, settled_of_follows here paired flow follows run edge (.inl ⟨frame₁, passed, rfl⟩)
        fun _ => passed⟩
  · rw [load_append]
    exact Nat.le_add_right_of_le length

end Extending

/-- Following the instructions of a block from a vertex on that was not come by before. -/
lemma meets_interpret_track (paired : s.Paired code handlers) (exact : p.Exact s.graph) {fuel : Nat}
    (track : Track s.graph S) (new : n ∉ visited S)
    (behind : isLeader s.graph n = false → ∀ e ∈ normalEdges s.graph n, e.1 ∈ visited S) :
    (interpret s p b fuel n frame).Meets f (fun es _ => ∃ T, Extends s S n frame T es)
      (fun _ => True) := by
  induction fuel generalizing n frame f S with
  | zero => exact meets_throw trivial
  | succ fuel ih =>
    cases found : (s.graph.instr? n).bind s.code.get? with
    | none =>
      rw [interpret, found]
      exact meets_throw trivial
    | some i =>
    have here : s.instr? n = some i := found
    rw [interpret, found]
    dsimp only
    split
    · rename_i flow
      refine (meets_terminate paired here).imp (fun es f' leaves => ?_) fun _ _ => trivial
      exact ⟨_, extends_of_leaves track new behind here flow leaves⟩
    · rename_i flow
      rw [not_not] at flow
      refine Meets.bind (P := fun frame₁ f₁ => Follows s.pool b i frame f frame₁ f₁ ∧
        (step s.pool b i frame).run f = .ok frame₁ f₁)
        (meets_of_forall (fun _ _ run => ⟨meets_step.of_ok run, run⟩) fun _ _ _ => trivial) ?_
      rintro frame₁ f₁ ⟨follows, run⟩
      refine meets_successor (fun _ => trivial) fun m edge => ?_
      have normal : (m, .fallthrough) ∈ normalFrom s.graph n := List.mem_filter.2 ⟨edge, rfl⟩
      split
      · rename_i target block
        refine (meets_close fun _ _ => trivial).bind fun _ f₂ _ => meets_pure ?_
        exact ⟨_, extends_before_leader track new behind here paired flow follows run normal
          (leader_of_lookup exact block)⟩
      · rename_i none
        have inner := inner_of_edge paired exact here normal none
        have behind' : isLeader s.graph m = false →
            ∀ e ∈ normalEdges s.graph m, e.1 ∈ visited ((n, frame) :: S) := by
          intro _ e into
          rw [source_of_inner normal inner e into]
          exact List.mem_cons_self
        refine (ih (track.cons new behind) (track.next_new new behind normal inner) behind').imp ?_
          fun _ _ => trivial
        rintro es f₂ ⟨T, more⟩
        exact ⟨_, more.snoc here paired flow follows run normal inner⟩

/-- What holds of the track between two entries of blocks. -/
structure Keeps (s : Source) (p : Partition) (seeds : List Pending) (S : List (NodeId × Frame))
    (w : Progress) : Prop where
  track : Track s.graph S
  started : ∀ n b, p.blocks.lookup n = some b → (b ∈ w.started ↔ n ∈ visited S)
  settled : ∀ e ∈ S, ∃ i, Settled s S w.worklist e.1 e.2 i
  joins : ∀ b j, w.phis.lookup b = some j → ∃ n, p.blocks.lookup n = some b ∧
    Passed S n ⟨j.stack, j.scope⟩
  caught : ∀ n frame, (n, frame) ∈ S → s.graph.isHandlerTarget n = true → frame.level = ⟨1, 0⟩
  entered : ∀ x ∈ w.worklist, x.entry = none ∧ s.graph.isHandlerTarget x.leader = true ∨
    x.entry.isSome ∧ normalEdges s.graph x.leader ≠ []
  seeds : ∀ x ∈ seeds, Passed S x.leader x.level ∨ x ∈ w.worklist

lemma Track.passed_unique (track : Track s.graph S) {frame' : Frame} (mem : (n, frame) ∈ S)
    (mem' : (n, frame') ∈ S) : frame = frame' :=
  congrArg Prod.snd (List.inj_on_of_nodup_map track.once mem mem' rfl)

lemma Settled.mono {rest : List Pending} (h : Settled s S es n frame i) (more : ∀ e ∈ S, e ∈ T)
    (waits : ∀ x ∈ es, Passed T x.leader x.level ∨ x ∈ rest) : Settled s T rest n frame i := by
  obtain ⟨here, ⟨e, effect, affords, next⟩, stepped⟩ := h
  refine ⟨here, ⟨e, effect, affords, fun m kind edge => ?_⟩, fun flow => ?_⟩
  · obtain ⟨fr, mem, level⟩ | ⟨x, mem, leader, level⟩ := next m kind edge
    · exact .inl ⟨fr, more _ mem, level⟩
    · obtain passed | mem := waits x mem
      · rw [leader, level] at passed
        exact .inl passed
      · exact .inr ⟨x, mem, leader, level⟩
  · obtain ⟨b, f, frame', f', run, next⟩ := stepped flow
    exact ⟨b, f, frame', f', run, fun m edge inner => more _ (next m edge inner)⟩

lemma Passed.mono (h : Passed S n l) (more : ∀ e ∈ S, e ∈ T) : Passed T n l := by
  obtain ⟨frame, mem, level⟩ := h
  exact ⟨frame, more _ mem, level⟩

section Entering

variable {seeds rest : List Pending} {phis : List (BlockId × JoinPhis)}

lemma Keeps.enter (exact : p.Exact s.graph) (keeps : Keeps s p seeds S w)
    (waiting : w.worklist = x :: rest) (found : p.blocks.lookup x.leader = some b)
    (extended : Extends s S x.leader frame T es) (level : frame.level = x.level)
    (joins : ∀ c j, phis.lookup c = some j → w.phis.lookup c = some j ∨
      c = b ∧ (⟨j.stack, j.scope⟩ : Level) = frame.level) :
    Keeps s p seeds (T ++ S)
      { started := b :: w.started, phis := phis, worklist := es.reverse ++ rest } := by
  have more : ∀ e ∈ S, e ∈ T ++ S := fun e mem => List.mem_append_right _ mem
  have here : (x.leader, frame) ∈ T ++ S := List.mem_append_left _ extended.start
  have waits : ∀ y ∈ w.worklist, Passed (T ++ S) y.leader y.level ∨ y ∈ es.reverse ++ rest := by
    intro y mem
    rw [waiting] at mem
    obtain rfl | mem := List.mem_cons.1 mem
    · exact .inl ⟨frame, here, level⟩
    · exact .inr (List.mem_append_right _ mem)
  refine ⟨extended.track, fun n c block => ?_, fun e mem => ?_, fun c j there => ?_,
    fun n fr mem target => ?_, fun y mem => ?_, fun y mem => ?_⟩
  · rw [List.mem_cons, visited, List.map_append, List.mem_append, keeps.started n c block]
    refine or_congr_left ⟨?_, fun mem => ?_⟩
    · rintro rfl
      obtain rfl := exact.inj block found
      exact List.mem_map_of_mem extended.start
    · obtain ⟨e, listed, rfl⟩ := List.mem_map.1 mem
      obtain same | inner := extended.inner e listed
      · rw [same, found] at block
        exact (Option.some.inj block).symm
      · rw [leader_of_lookup exact block] at inner
        cases inner
  · obtain mem | mem := List.mem_append.1 mem
    · obtain ⟨i, settled⟩ := extended.settled e mem
      refine ⟨i, settled.mono (fun _ mem => mem) fun y mem => .inr ?_⟩
      exact List.mem_append_left _ (List.mem_reverse.2 mem)
    · obtain ⟨i, settled⟩ := keeps.settled e mem
      exact ⟨i, settled.mono more waits⟩
  · obtain old | ⟨rfl, depth⟩ := joins c j there
    · obtain ⟨n, block, passed⟩ := keeps.joins c j old
      exact ⟨n, block, passed.mono more⟩
    · exact ⟨x.leader, found, frame, here, depth.symm⟩
  · obtain mem | mem := List.mem_append.1 mem
    · obtain same | inner := extended.inner _ mem
      · -- A handler has no normal edges, so it was entered as one.
        obtain rfl : n = x.leader := same
        obtain rfl := extended.track.passed_unique (List.mem_append_left _ mem) here
        obtain ⟨none, -⟩ | ⟨-, some⟩ := keeps.entered x (by rw [waiting]; exact List.mem_cons_self)
        · rw [level, Pending.level, none]
          rfl
        · have listed : x.leader ∈ p.blocks.map (·.1) := List.mem_map_of_mem (mem_of_lookup found)
          exact absurd (exact.refused _ ((exact.leaders _).1 listed).1 target) some
      · rw [isLeader, target] at inner
        cases inner
    · exact keeps.caught n fr mem target
  · obtain mem | mem := List.mem_append.1 mem
    · exact .inr (extended.entered y (List.mem_reverse.1 mem))
    · exact keeps.entered y (by rw [waiting]; exact List.mem_cons_of_mem _ mem)
  · obtain passed | mem := keeps.seeds y mem
    · exact .inl (passed.mono more)
    · exact waits y mem

lemma meets_enter_track (paired : s.Paired code handlers) (exact : p.Exact s.graph)
    (keeps : Keeps s p seeds S w) (waiting : w.worklist = x :: rest)
    (found : p.blocks.lookup x.leader = some b) (new : b ∉ w.started) :
    (enter s p b x { w with worklist := rest }).Meets f (fun w' _ => ∃ T,
      Keeps s p seeds (T ++ S) w' ∧ w'.worklist.length ≤ rest.length + load s.graph T)
      (fun _ => True) := by
  have fresh : x.leader ∉ visited S := fun mem => new ((keeps.started _ b found).2 mem)
  have behind : isLeader s.graph x.leader = false →
      ∀ e ∈ normalEdges s.graph x.leader, e.1 ∈ visited S := by
    intro inner
    rw [leader_of_lookup exact found] at inner
    cases inner
  have follow (frame : Frame) (f : Func) :
      (interpret s p b s.graph.graph.nodeCount x.leader frame).Meets f
        (fun es _ => ∃ T, Extends s S x.leader frame T es) fun _ => True :=
    meets_interpret_track paired exact keeps.track fresh behind
  have length {es : List Pending} {T : List (NodeId × Frame)} {frame : Frame}
      (extended : Extends s S x.leader frame T es) :
      (es.reverse ++ rest).length ≤ rest.length + load s.graph T := by
    have := extended.load
    simp only [List.length_append, List.length_reverse]
    omega
  rw [Lift.enter]
  split
  · rename_i entry
    have handled : (handlerFrame b).Meets f (fun frame _ => frame.level = ⟨1, 0⟩) fun _ => True :=
      meets_handlerFrame.imp (fun _ _ h => h.1) fun _ _ => trivial
    refine handled.bind fun frame f₁ depth => (follow frame f₁).bind ?_
    rintro es f₂ ⟨T, extended⟩
    refine meets_pure ⟨T, keeps.enter (w := w) exact waiting found extended ?_ fun c j => .inl, length extended⟩
    rw [depth, Pending.level, entry]
    rfl
  · rename_i frame source kind entry
    have level : frame.level = x.level := by
      rw [Pending.level, entry]
      rfl
    split
    · have joined : (openJoin b source kind frame).Meets f
          (fun r _ => r.1.level = frame.level ∧ (⟨r.2.stack, r.2.scope⟩ : Level) = frame.level)
          fun _ => True := by
        refine meets_openJoin.imp (fun r _ h => ⟨h.1, ?_⟩) fun _ _ => trivial
        rw [h.2.1, h.2.2.1]
        rfl
      refine joined.bind fun r f₁ depth => (follow r.1 f₁).bind ?_
      rintro es f₂ ⟨T, extended⟩
      refine meets_pure ⟨T, ?_, length extended⟩
      refine keeps.enter (w := w) exact waiting found extended (depth.1.trans level) fun c j there => ?_
      rw [List.lookup_cons] at there
      split at there
      · rename_i same
        obtain rfl := Option.some.inj there
        exact .inr ⟨beq_iff_eq.1 same, depth.2.trans depth.1.symm⟩
      · exact .inl there
    · refine (follow frame f).bind ?_
      rintro es f₁ ⟨T, extended⟩
      exact meets_pure ⟨T, keeps.enter (w := w) exact waiting found extended level fun c j => .inl,
        length extended⟩

lemma Keeps.skip (keeps : Keeps s p seeds S w) (waiting : w.worklist = x :: rest)
    (passed : Passed S x.leader x.level) : Keeps s p seeds S { w with worklist := rest } := by
  have waits : ∀ y ∈ w.worklist, Passed S y.leader y.level ∨ y ∈ rest := by
    intro y mem
    rw [waiting] at mem
    obtain rfl | mem := List.mem_cons.1 mem
    · exact .inl passed
    · exact .inr mem
  refine ⟨keeps.track, keeps.started, fun e mem => ?_, keeps.joins, keeps.caught, fun y mem => ?_,
    fun y mem => ?_⟩
  · obtain ⟨i, settled⟩ := keeps.settled e mem
    exact ⟨i, settled.mono (fun _ mem => mem) waits⟩
  · exact keeps.entered y (by rw [waiting]; exact List.mem_cons_of_mem _ mem)
  · obtain passed | mem := keeps.seeds y mem
    · exact .inl passed
    · exact waits y mem

lemma Keeps.passed_of_started (exact : p.Exact s.graph) (keeps : Keeps s p seeds S w)
    (waiting : w.worklist = x :: rest) (found : p.blocks.lookup x.leader = some b)
    (started : b ∈ w.started) (merged : ∀ frame source kind, x.entry = some (frame, source, kind) →
      ∃ j, w.phis.lookup b = some j ∧ frame.level = ⟨j.stack, j.scope⟩) :
    Passed S x.leader x.level := by
  obtain ⟨none, target⟩ | ⟨some, -⟩ := keeps.entered x (by rw [waiting]; exact List.mem_cons_self)
  · obtain ⟨fr, mem⟩ := mem_visited.1 ((keeps.started _ b found).1 started)
    refine ⟨fr, mem, ?_⟩
    rw [keeps.caught _ fr mem target, Pending.level, none]
    rfl
  · obtain ⟨⟨frame, source, kind⟩, entry⟩ := Option.isSome_iff_exists.1 some
    obtain ⟨j, joined, level⟩ := merged frame source kind entry
    obtain ⟨n, block, passed⟩ := keeps.joins b j joined
    obtain rfl := exact.inj block found
    rw [Pending.level, entry]
    rw [← level] at passed
    exact passed

lemma level_of_merge {source : BlockId} {join : Option JoinPhis}
    (run : (merge b source kind frame join).run f = .ok () f') :
    ∃ j, join = some j ∧ frame.level = ⟨j.stack, j.scope⟩ := by
  cases join with
  | none => exact absurd run Edit.throw_ne_ok
  | some j =>
    refine ⟨j, rfl, ?_⟩
    rw [merge] at run
    split at run
    · obtain ⟨_, _, none, -⟩ := Edit.bind_eq_ok.1 run
      exact absurd none Edit.throw_ne_ok
    · rename_i same
      rw [not_or, not_not, not_not] at same
      rw [Frame.level, same.1, same.2]

lemma keeps_run (paired : s.Paired code handlers) (exact : p.Exact s.graph) {fuel : Nat}
    (keeps : Keeps s p seeds S w)
    (enough : w.worklist.length + s.graph.graph.edgeCount ≤ fuel + load s.graph S) :
    (run s p fuel w).Meets f (fun w' _ => ∃ S', Keeps s p seeds S' w' ∧ w'.worklist = [])
      (fun _ => True) := by
  induction fuel generalizing w f S with
  | zero =>
    refine meets_pure ⟨S, keeps, List.eq_nil_of_length_eq_zero ?_⟩
    have := keeps.track.load_le
    omega
  | succ fuel ih =>
    rw [Lift.run]
    split
    · rename_i empty
      exact meets_pure ⟨S, keeps, empty⟩
    · rename_i x rest waiting
      rw [waiting, List.length_cons] at enough
      refine meets_blockOf trivial fun b found => ?_
      split
      · rename_i started
        have go (passed : Passed S x.leader x.level) (f : Func) :=
          ih (f := f) (keeps.skip waiting passed) (by dsimp only; omega)
        split
        · rename_i frame source kind entry
          refine Meets.bind (P := fun _ _ => ∃ j, w.phis.lookup b = some j ∧
            frame.level = ⟨j.stack, j.scope⟩)
            (meets_of_forall (fun _ _ run => level_of_merge run) fun _ _ _ => trivial)
            fun _ f₁ merged => go ?_ f₁
          refine keeps.passed_of_started exact waiting found started fun fr so ki same => ?_
          obtain ⟨rfl, -⟩ := Prod.mk.inj (Option.some.inj (entry.symm.trans same))
          exact merged
        · rename_i entry
          refine go (keeps.passed_of_started exact waiting found started fun fr so ki same => ?_) f
          rw [entry] at same
          cases same
      · rename_i new
        refine (meets_enter_track paired exact keeps waiting found new).bind ?_
        rintro w' f₁ ⟨T, keeps', length⟩
        refine ih keeps' ?_
        rw [load_append]
        omega

end Entering

/-- A track with everything that control can come to on it. -/
structure Complete (s : Source) (S : List (NodeId × Frame)) : Prop where
  track : Track s.graph S
  first : ∀ m kind, (m, kind) ∈ s.graph.edgesFrom FlowGraph.entry → Passed S m ⟨0, 0⟩
  handler : ∀ k < s.code.handlers.length, ∀ n, s.graph.handlerTarget? k = some n → Passed S n ⟨1, 0⟩
  settled : ∀ e ∈ S, ∃ i, Settled s S [] e.1 e.2 i

lemma Source.Paired.stands_first (paired : s.Paired code handlers)
    (edge : (m, kind) ∈ s.graph.edgesFrom FlowGraph.entry) :
    FlowGraph.Stands code s.graph.graph m (some 0) ∧ kind = .fallthrough := by
  have mem := Digraph.mem_outgoing.1 edge
  generalize eq : (⟨FlowGraph.entry, m, kind⟩ : Digraph.Edge EdgeKind) = e at mem
  cases (paired.spec.edges e).1 mem with
  | entry first =>
    cases eq
    exact ⟨first, rfl⟩
  | prescribed there here way target =>
    cases eq
    exact absurd there (not_stands_entry paired.spec)

lemma keeps_seeds (paired : s.Paired code handlers) (seeds : Seeds s es) :
    Keeps s p es [] { worklist := es } := by
  refine ⟨⟨List.nodup_nil, fun n mem => absurd mem List.not_mem_nil⟩, fun n b _ => ?_,
    fun e mem => absurd mem List.not_mem_nil, fun b j none => ?_,
    fun n frame mem => absurd mem List.not_mem_nil, fun x mem => ?_, fun x mem => .inr mem⟩
  · simp [visited]
  · cases none
  · obtain ⟨none, k, -, target⟩ | ⟨kind, edge, frame, entry, -⟩ := seeds.only x mem
    · exact .inl ⟨none, List.contains_iff_mem.2 (List.mem_of_getElem? target)⟩
    · obtain ⟨-, rfl⟩ := paired.stands_first edge
      refine .inr ⟨by rw [entry]; rfl, List.ne_nil_of_mem (a := (FlowGraph.entry, .fallthrough)) ?_⟩
      exact List.mem_filter.2 ⟨Digraph.mem_incoming.2 (Digraph.mem_outgoing.1 edge), rfl⟩

/-- When nothing waits any more, everything that control can come to was come by, and the blocks that were
entered are those whose leaders were. -/
lemma exists_track_of_run (paired : s.Paired code handlers) {body : MethodBody} {f₁ f₂ f₃ : Func}
    (parted : (partitionFrom s.graph s.graph.order {}).run f = .ok p f₁)
    (seeded : (seed s p body).run f₁ = .ok es f₂)
    (ran : (run s p (s.code.handlers.length + s.graph.graph.edgeCount + 2)
      { worklist := es }).run f₂ = .ok w f₃) :
    ∃ S, Complete s S ∧ ∀ n b, p.blocks.lookup n = some b → (b ∈ w.started ↔ n ∈ visited S) := by
  have exact := exact_of_partitionFrom parted
  have seeds := meets_seed.of_ok seeded
  have enough := seeds.length
  obtain ⟨S, keeps, empty⟩ := (keeps_run paired exact (keeps_seeds paired seeds)
    (by dsimp only; omega)).of_ok ran
  have passed {x : Pending} (mem : x ∈ es) : Passed S x.leader x.level := by
    obtain passed | waits := keeps.seeds x mem
    · exact passed
    · rw [empty] at waits
      exact absurd waits List.not_mem_nil
  refine ⟨S, ⟨keeps.track, fun m kind edge => ?_, fun k lt n target => ?_, fun e mem => ?_⟩,
    keeps.started⟩
  · obtain ⟨m', kind', frame, head, mem, level⟩ := seeds.first
    obtain ⟨first, -⟩ := paired.stands_first edge
    obtain ⟨first', -⟩ := paired.stands_first (List.mem_of_head? head)
    obtain rfl := first.vertex_inj paired.spec.nodup first'
    rw [← level]
    exact passed mem
  · exact passed (seeds.handler k lt n target)
  · rw [← empty]
    exact keeps.settled e mem

lemma exists_track_of_build (paired : s.Paired code handlers) {body : MethodBody}
    (run : (build s body).run f = .ok () f') : ∃ S, Complete s S := by
  obtain ⟨p, f₁, parted, run⟩ := Edit.bind_eq_ok.1 run
  obtain ⟨es, f₂, seeded, run⟩ := Edit.bind_eq_ok.1 run
  obtain ⟨w, f₃, ran, -⟩ := Edit.bind_eq_ok.1 run
  obtain ⟨S, complete, -⟩ := exists_track_of_run paired parted seeded ran
  exact ⟨S, complete⟩

/-- The depths with which a vertex was come by. -/
def levelOf (S : List (NodeId × Frame)) (n : NodeId) : Option Level := (S.lookup n).map Frame.level

lemma Track.levelOf_eq (track : Track s.graph S) (passed : Passed S n l) : levelOf S n = some l := by
  obtain ⟨frame, mem, rfl⟩ := passed
  rw [levelOf, lookup_of_mem track.once mem]
  rfl

lemma Complete.levels (complete : Complete s S) : Levels s (levelOf S) := by
  have track := complete.track
  refine ⟨fun m kind edge => track.levelOf_eq (complete.first m kind edge),
    fun k lt n target => track.levelOf_eq (complete.handler k lt n target), fun n l there => ?_⟩
  obtain ⟨frame, found, rfl⟩ := Option.map_eq_some_iff.1 there
  obtain ⟨S₁, S₂, rfl, -⟩ := List.lookup_eq_some_iff.1 found
  obtain ⟨i, here, ⟨e, effect, affords, next⟩, -⟩ := complete.settled (n, frame) (by simp)
  refine ⟨i, e, here, effect, affords, fun m kind edge => ?_⟩
  obtain passed | ⟨x, none, -⟩ := next m kind edge
  · exact track.levelOf_eq passed
  · exact absurd none List.not_mem_nil

end Avm.Ir.Lift
