import Avm.Proofs.Lift.Acceptance

/-!
# The log of lifting

Lifting that also lists the blocks that it enters, each with the vertices that it comes by in it.  The
list is called a log; without it, the functions here do what those of the program do.

The log tells of each block a strand: a leader and the vertices behind it, each of which is entered by
falling through from the one before and in no other way.  So a vertex has one place in one strand, and
every vertex has a place if every leader has a strand.

The main statements are `Logs.nodup` and `Logs.mem_of_reachable`.
-/

namespace Avm.Ir.Lift

open Edit BlockGraph

/-- Follows the instructions of a block, and lists the vertices that it comes by. -/
def interpretLogged (s : Source) (p : Partition) (b : BlockId) :
    Nat → NodeId → Frame → Edit (List Pending × List NodeId)
  | 0, n, _ => throw (.lift (.noInstruction n))
  | fuel + 1, n, frame => do
    match (s.graph.instr? n).bind s.code.get? with
    | none => throw (.lift (.noInstruction n))
    | some i =>
      if i.opcode.flow ≠ .next then
        return (← terminate s p b n i frame, [n])
      else
        let frame ← step s.pool b i frame
        let next ← successor s.graph n .fallthrough
        match p.blocks.lookup next with
        | some target =>
          close b (.goto target) frame
          return ([{ leader := next, entry := some (frame, b, .fallthrough) }], [n])
        | none =>
          let (es, ns) ← interpretLogged s p b fuel next frame
          return (es, n :: ns)

/-- Enters a block for the first time, and lists the vertices that it comes by. -/
def enterLogged (s : Source) (p : Partition) (b : BlockId) (e : Pending) (w : Progress) :
    Edit (Progress × List NodeId) := do
  let w := { w with started := b :: w.started }
  let fuel := s.graph.graph.nodeCount
  match e.entry with
  | none =>
    let (es, ns) ← interpretLogged s p b fuel e.leader (← handlerFrame b)
    return ({ w with worklist := es.reverse ++ w.worklist }, ns)
  | some (frame, source, kind) =>
    if b ∈ p.joins then
      let (frame, phis) ← openJoin b source kind frame
      let (es, ns) ← interpretLogged s p b fuel e.leader frame
      return ({ w with phis := (b, phis) :: w.phis, worklist := es.reverse ++ w.worklist }, ns)
    else
      let (es, ns) ← interpretLogged s p b fuel e.leader frame
      return ({ w with worklist := es.reverse ++ w.worklist }, ns)

/-- Enters what is to be entered, and lists the blocks with the vertices that it comes by. -/
def runLogged (s : Source) (p : Partition) :
    Nat → Progress → Edit (Progress × List (BlockId × List NodeId))
  | 0, w => pure (w, [])
  | fuel + 1, w =>
    match w.worklist with
    | [] => pure (w, [])
    | e :: rest => do
      let w := { w with worklist := rest }
      let b ← blockOf p e.leader
      if b ∈ w.started then
        match e.entry with
        | some (frame, source, kind) => merge b source kind frame (w.phis.lookup b)
        | none => pure ()
        runLogged s p fuel w
      else
        let (w, ns) ← enterLogged s p b e w
        let (w, log) ← runLogged s p fuel w
        return (w, (b, ns) :: log)

/-- Fills an empty function graph without tidying it up, and lists the blocks with the vertices that it
comes by. -/
def fillLogged (s : Source) (body : MethodBody) : Edit (List (BlockId × List NodeId)) := do
  let p ← partitionFrom s.graph s.graph.order {}
  let worklist ← seed s p body
  let fuel := s.code.handlers.length + s.graph.graph.edgeCount + 2
  let (w, log) ← runLogged s p fuel { worklist := worklist }
  removeBlocks ((p.blocks.map (·.2)).filter (· ∉ w.started))
  return log

/-- Tidies up a function graph that was filled. -/
def tidy : Edit Unit := do
  modify fun f => f.removeTrivialPhis.1.removeRedundantCopies.1.removeDeadNodes.1
  Edit.ofExcept (← get).verify

variable {s : Source} {p : Partition} {b : BlockId} {n : NodeId} {frame : Frame} {fuel : Nat} {w : Progress}
  {x : Pending}

lemma interpret_eq : interpret s p b fuel n frame = Prod.fst <$> interpretLogged s p b fuel n frame := by
  induction fuel generalizing n frame with
  | zero => rfl
  | succ fuel ih =>
    rw [interpret, interpretLogged]
    cases (s.graph.instr? n).bind s.code.get? with
    | none => rfl
    | some i =>
      dsimp only
      split
      · simp
      · simp only [map_bind]
        refine bind_congr fun frame => bind_congr fun next => ?_
        cases p.blocks.lookup next with
        | some target => simp
        | none => simp [ih]

lemma enter_eq : enter s p b x w = Prod.fst <$> enterLogged s p b x w := by
  rw [enter, enterLogged]
  cases x.entry with
  | none => simp [interpret_eq]
  | some e =>
    dsimp only
    split
    · simp [interpret_eq]
    · simp [interpret_eq]

lemma run_eq : run s p fuel w = Prod.fst <$> runLogged s p fuel w := by
  induction fuel generalizing w with
  | zero => rfl
  | succ fuel ih =>
    rw [run, runLogged]
    cases w.worklist with
    | nil => rfl
    | cons e rest =>
      simp only [map_bind]
      refine bind_congr fun b => ?_
      split
      · cases e.entry with
        | none => simp [ih]
        | some entry => simp [ih]
      · simp [ih, enter_eq]

lemma build_eq {body : MethodBody} : build s body = fillLogged s body >>= fun _ => tidy := by
  simp only [build, fillLogged, run_eq, bind_assoc, pure_bind, bind_map_left]
  rfl


variable {code : Code} {handlers : List (Handler Nat)} {m n' : NodeId} {kind : EdgeKind} {c t : BlockId}
  {f f' f'' : Func} {i : Instruction Marker} {ns ns' : List NodeId} {log : List (BlockId × List NodeId)}

/-- Graphs with the same blocks and handlers, in which the same handlers cover each block. -/
structure SameCover (f f' : Func) : Prop where
  isSome : ∀ b, (f'.block? b).isSome = (f.block? b).isSome
  catches : f'.handlers = f.handlers
  handlersOf : ∀ b, f'.handlersOf b = f.handlersOf b

lemma SameCover.refl (f : Func) : SameCover f f := ⟨fun _ => rfl, rfl, fun _ => rfl⟩

lemma SameCover.trans (h : SameCover f f') (h' : SameCover f' f'') : SameCover f f'' :=
  ⟨fun b => (h'.isSome b).trans (h.isSome b), h'.catches.trans h.catches,
    fun b => (h'.handlersOf b).trans (h.handlersOf b)⟩

lemma sameCover_of_sameFlow (same : f.SameFlow f') : SameCover f f' :=
  ⟨same.isSome, same.catches, same.handlersOf⟩

lemma Appends.sameCover {ks : List NodeKind} (h : Appends b ks f f') : SameCover f f' := by
  obtain ⟨vs, here, -⟩ := h.here
  refine ⟨fun t => ?_, h.catches, fun t => ?_⟩
  · by_cases same : t = b
    · rw [same, here, Option.isSome_map]
    · rw [h.other t same]
  · by_cases same : t = b
    · rw [same, Func.handlersOf, here, Option.map_map]
      rfl
    · rw [Func.handlersOf, h.other t same]
      rfl

lemma sameCover_reend {term : Terminator} (live : (f.block? b).isSome) :
    SameCover f (f.reend b term (f.handlersOf b)) := by
  refine ⟨Func.sameNodes_reend.isSome, Func.sameNodes_reend.catches, fun t => ?_⟩
  rw [Func.handlersOf_reend live]
  split
  · rename_i same
    rw [same]
  · rfl

lemma sameCover_scopeDepth {depth : Nat} :
    SameCover f (f.modifyBlock b fun x => { x with scopeDepth := depth }) :=
  ⟨fun _ => Func.isSome_block?_modifyBlock, rfl, fun _ => Func.handlersOf_modifyBlock fun _ => rfl⟩

lemma Closes.sameCover {term : Terminator} {depth : Nat} (h : Closes b term depth f f') :
    SameCover f f' := by
  obtain ⟨live, -, rfl⟩ := h
  have first : SameCover f (f.modifyBlock b fun x => { x with scopeDepth := depth }) :=
    sameCover_scopeDepth
  rw [← first.handlersOf]
  exact first.trans (sameCover_reend (by rwa [first.isSome]))

section Strands

/-- Vertices of a block: its leader, and some that are fallen through to behind it. -/
structure Stretch (s : Source) (n : NodeId) (ns : List NodeId) : Prop where
  head : ns.head? = some n
  chained : ns.IsChain fun x y => (y, .fallthrough) ∈ normalFrom s.graph x
  inner : ∀ m ∈ ns.tail, isLeader s.graph m = false

/-- The vertices of a block, up to the next leader. -/
structure Strand (s : Source) (n : NodeId) (ns : List NodeId) : Prop extends Stretch s n ns where
  there : ∀ m ∈ ns, (s.instr? m).isSome
  last : ∀ l ∈ ns.getLast?, ∀ m, (m, .fallthrough) ∈ normalFrom s.graph l →
    isLeader s.graph m = true

lemma stretch_singleton : Stretch s n [n] := ⟨rfl, .singleton n, by simp⟩

lemma strand_singleton (here : s.instr? n = some i)
    (last : ∀ m, (m, .fallthrough) ∈ normalFrom s.graph n → isLeader s.graph m = true) :
    Strand s n [n] := by
  refine ⟨stretch_singleton, ?_, ?_⟩
  · intro m mem
    rw [List.mem_singleton.1 mem, here]
    rfl
  · rintro l mem
    obtain rfl : n = l := by simpa using mem
    exact last

lemma Strand.cons (h : Strand s m ns) (here : s.instr? n = some i)
    (edge : (m, .fallthrough) ∈ normalFrom s.graph n) (inner : isLeader s.graph m = false) :
    Strand s n (n :: ns) := by
  obtain ⟨rest, rfl⟩ : ∃ rest, ns = m :: rest := by
    cases ns with
    | nil => cases h.head
    | cons x rest =>
      obtain rfl := Option.some.inj h.head
      exact ⟨rest, rfl⟩
  refine ⟨⟨rfl, .cons_cons edge h.chained, ?_⟩, ?_, ?_⟩
  · rintro x (_ | ⟨_, mem⟩)
    · exact inner
    · exact h.inner x mem
  · refine List.forall_mem_cons.2 ⟨by rw [here]; rfl, h.there⟩
  · rw [List.getLast?_cons_cons]
    exact h.last

lemma single_of_inner (inner : isLeader s.graph m = false) :
    ∃ x, normalEdges s.graph m = [(x, .fallthrough)] ∧ x ≠ FlowGraph.entry ∧
      s.graph.coveringHandlers x = s.graph.coveringHandlers m := by
  rw [isLeader, Bool.or_eq_false_iff] at inner
  obtain ⟨-, shape⟩ := inner
  split at shape
  · rename_i x only
    simp only [Bool.or_eq_false_iff, beq_eq_false_iff_ne, bne_eq_false_iff_eq] at shape
    exact ⟨x, only, shape⟩
  · cases shape

lemma eq_of_inner {x y : NodeId} {kind' : EdgeKind} (inner : isLeader s.graph m = false)
    (edge : (m, kind) ∈ normalFrom s.graph x) (edge' : (m, kind') ∈ normalFrom s.graph y) : x = y := by
  obtain ⟨z, only, -⟩ := single_of_inner inner
  have first := mem_normalEdges edge
  have second := mem_normalEdges edge'
  rw [only, List.mem_singleton] at first second
  exact (congrArg Prod.fst first).trans (congrArg Prod.fst second).symm

lemma Stretch.edge (h : Stretch s n ns) {k : Nat} {x y : NodeId} (first : ns[k]? = some x)
    (second : ns[k + 1]? = some y) :
    (y, .fallthrough) ∈ normalFrom s.graph x ∧ isLeader s.graph y = false := by
  obtain ⟨lt, rfl⟩ := List.getElem?_eq_some_iff.1 second
  obtain ⟨lt', rfl⟩ := List.getElem?_eq_some_iff.1 first
  refine ⟨List.isChain_iff_getElem.1 h.chained k lt, h.inner _ ?_⟩
  rw [List.mem_iff_getElem]
  refine ⟨k, by rw [List.length_tail]; omega, ?_⟩
  rw [List.getElem_tail]

lemma Stretch.getElem?_zero (h : Stretch s n ns) : ns[0]? = some n := by
  rw [← List.head?_eq_getElem?, h.head]

lemma Stretch.place_unique (h : Stretch s n ns) (leader : isLeader s.graph n = true) (h' : Stretch s n' ns')
    (leader' : isLeader s.graph n' = true) {j k : Nat} (here : ns[j]? = some m) (there : ns'[k]? = some m) :
    n = n' ∧ j = k := by
  induction j generalizing k m with
  | zero =>
    rw [h.getElem?_zero] at here
    obtain rfl := Option.some.inj here
    cases k with
    | zero =>
      rw [h'.getElem?_zero] at there
      exact ⟨(Option.some.inj there).symm, rfl⟩
    | succ k =>
      obtain ⟨lt, -⟩ := List.getElem?_eq_some_iff.1 there
      obtain ⟨-, inner⟩ := h'.edge (List.getElem?_eq_getElem (by omega)) there
      rw [leader] at inner
      cases inner
  | succ j ih =>
    obtain ⟨lt, -⟩ := List.getElem?_eq_some_iff.1 here
    obtain ⟨edge, inner⟩ := h.edge (List.getElem?_eq_getElem (by omega)) here
    cases k with
    | zero =>
      rw [h'.getElem?_zero] at there
      obtain rfl := Option.some.inj there
      rw [leader'] at inner
      cases inner
    | succ k =>
      obtain ⟨lt', -⟩ := List.getElem?_eq_some_iff.1 there
      obtain ⟨edge', -⟩ := h'.edge (List.getElem?_eq_getElem (by omega)) there
      obtain ⟨same, rfl⟩ := ih (List.getElem?_eq_getElem (by omega))
        (List.getElem?_eq_some_iff.2 ⟨by omega, (eq_of_inner inner edge edge').symm⟩)
      exact ⟨same, rfl⟩

lemma Stretch.nodup (h : Stretch s n ns) (leader : isLeader s.graph n = true) : ns.Nodup := by
  rw [List.nodup_iff_getElem?_ne_getElem?]
  intro j k less below same
  rw [List.getElem?_eq_getElem (by omega)] at same
  obtain ⟨-, eq⟩ := h.place_unique leader h leader (List.getElem?_eq_getElem (by omega)) same.symm
  omega

/-- The handlers that cover the vertices of a block are those that cover its leader. -/
lemma Stretch.covering (h : Stretch s n ns) (mem : m ∈ ns) :
    s.graph.coveringHandlers m = s.graph.coveringHandlers n := by
  obtain ⟨k, found⟩ := List.getElem?_of_mem mem
  clear mem
  induction k generalizing m with
  | zero =>
    rw [h.getElem?_zero] at found
    rw [Option.some.inj found]
  | succ k ih =>
    obtain ⟨lt, -⟩ := List.getElem?_eq_some_iff.1 found
    have before : ns[k]? = some ns[k] := List.getElem?_eq_getElem (by omega)
    obtain ⟨edge, inner⟩ := h.edge before found
    obtain ⟨x, only, -, same⟩ := single_of_inner inner
    have into := mem_normalEdges edge
    rw [only, List.mem_singleton] at into
    rw [← same, ← ih before, (Prod.mk.inj into).1]

end Strands

section Running

variable (paired : s.Paired code handlers) (exact : p.Exact s.graph)

include paired exact

lemma meets_interpretLogged : (interpretLogged s p b fuel n frame).Meets f
    (fun r f' => Strand s n r.2 ∧ SameCover f f') fun _ => True := by
  induction fuel generalizing n frame f with
  | zero => exact meets_throw trivial
  | succ fuel ih =>
    rw [interpretLogged]
    split
    · exact meets_throw trivial
    · rename_i i found
      have here : s.instr? n = some i := found
      split
      · rename_i flow
        refine Meets.bind (P := fun _ f' => SameCover f f')
          ((meets_terminate paired here).imp (fun es f' leaves => ?_) fun _ _ => trivial)
          fun es f' same => meets_pure ⟨strand_singleton here fun m edge => ?_, same⟩
        · obtain ⟨t, closes, -⟩ := leaves.ends
          exact closes.sameCover
        · obtain ⟨_, _, way, -, -⟩ := paired.exists_way here edge
          cases way with
          | next falls => exact absurd falls flow
      · rename_i flow
        refine Meets.bind (P := fun _ f' => SameCover f f')
          (meets_step.imp (fun fr f' follows => ?_) fun _ _ => trivial) fun fr f₁ same => ?_
        · obtain ⟨ks, appends, -⟩ := follows.nodes
          exact appends.sameCover
        refine meets_successor (fun _ => trivial) fun m edge => ?_
        have normal : (m, .fallthrough) ∈ normalFrom s.graph n := List.mem_filter.2 ⟨edge, rfl⟩
        split
        · rename_i target block
          refine (meets_close fun _ _ => trivial).bind fun _ f₂ closes => ?_
          refine meets_pure ⟨?_, same.trans closes.sameCover⟩
          refine strand_singleton here fun m' edge' => ?_
          rw [paired.normal_unique here edge' normal]
          exact leader_of_lookup exact block
        · rename_i none
          have inner := inner_of_edge paired exact here normal none
          refine ih.bind ?_
          rintro ⟨es, ns⟩ f₂ ⟨strand, same'⟩
          exact meets_pure ⟨strand.cons here normal inner, same.trans same'⟩

omit paired exact in
lemma sameCover_openJoin {source : BlockId} {r : Frame × JoinPhis}
    (run : (openJoin b source kind frame).run f = .ok r f') : SameCover f f' := by
  obtain ⟨-, -, -, inputs, rfl⟩ := meets_openJoin.of_ok run
  exact sameCover_of_sameFlow Func.sameFlow_putPhis

omit paired exact in
lemma sameCover_merge {source : BlockId} {join : Option JoinPhis}
    (run : (merge b source kind frame join).run f = .ok () f') : SameCover f f' := by
  cases join with
  | none => exact absurd run throw_ne_ok
  | some join =>
    rw [merge] at run
    split at run
    · obtain ⟨_, _, none, -⟩ := Edit.bind_eq_ok.1 run
      exact absurd none throw_ne_ok
    · rw [modify_eq_ok.1 run]
      generalize join.slots.zip frame.slots = l
      clear run
      induction l generalizing f with
      | nil => exact .refl f
      | cons e l ih =>
        have first : SameCover f (f.modifyPhis [e.1] fun is => is ++ [⟨e.2, source, kind⟩]) :=
          sameCover_of_sameFlow Func.sameFlow_modifyPhis
        exact first.trans ih

lemma meets_enterLogged : (enterLogged s p b x w).Meets f (fun r f' => Strand s x.leader r.2 ∧
    r.1.started = b :: w.started ∧ SameCover f f') fun _ => True := by
  have fill (frame : Frame) (f : Func) :
      (interpretLogged s p b s.graph.graph.nodeCount x.leader frame).Meets f
        (fun r f' => Strand s x.leader r.2 ∧ SameCover f f') fun _ => True :=
    meets_interpretLogged paired exact
  rw [enterLogged]
  dsimp only
  split
  · have handled : (handlerFrame b).Meets f (fun _ f' => SameCover f f') fun _ => True :=
      meets_handlerFrame.imp (fun _ _ h => h.2.2.sameCover) fun _ _ => trivial
    refine handled.bind fun frame f₁ same => (fill frame f₁).bind ?_
    rintro ⟨es, ns⟩ f₂ ⟨strand, same'⟩
    exact meets_pure ⟨strand, rfl, same.trans same'⟩
  · rename_i frame source kind entry
    split
    · have joined : (openJoin b source kind frame).Meets f (fun _ f' => SameCover f f') fun _ => True :=
        meets_of_forall (fun _ _ run => sameCover_openJoin run) fun _ _ _ => trivial
      refine joined.bind fun r f₁ same => (fill r.1 f₁).bind ?_
      rintro ⟨es, ns⟩ f₂ ⟨strand, same'⟩
      exact meets_pure ⟨strand, rfl, same.trans same'⟩
    · refine (fill frame f).bind ?_
      rintro ⟨es, ns⟩ f₁ ⟨strand, same⟩
      exact meets_pure ⟨strand, rfl, same⟩

/-- Each entry of a log is a block with the vertices from its leader on. -/
def Logs (s : Source) (p : Partition) (log : List (BlockId × List NodeId)) : Prop :=
  ∀ e ∈ log, ∃ n, p.blocks.lookup n = some e.1 ∧ Strand s n e.2

lemma meets_runLogged : (runLogged s p fuel w).Meets f (fun r f' => Logs s p r.2 ∧
    r.1.started = (r.2.map (·.1)).reverse ++ w.started ∧
    (w.started.Nodup → r.1.started.Nodup) ∧ SameCover f f') fun _ => True := by
  induction fuel generalizing w f with
  | zero => exact meets_pure ⟨fun e mem => absurd mem List.not_mem_nil, rfl, id, .refl f⟩
  | succ fuel ih =>
    rw [runLogged]
    split
    · exact meets_pure ⟨fun e mem => absurd mem List.not_mem_nil, rfl, id, .refl f⟩
    · rename_i x rest waiting
      dsimp only
      refine meets_blockOf trivial fun b found => ?_
      split
      · split
        · rename_i frame source kind entry
          refine Meets.bind (P := fun _ f' => SameCover f f')
            (meets_of_forall (fun _ _ run => sameCover_merge run) fun _ _ _ => trivial) fun _ f₁ same => ?_
          refine ih.imp ?_ fun _ _ => trivial
          rintro r f₂ ⟨logs, started, nodup, same'⟩
          exact ⟨logs, started, nodup, same.trans same'⟩
        · exact ih
      · rename_i new
        refine (meets_enterLogged paired exact).bind ?_
        rintro ⟨w', ns⟩ f₁ ⟨strand, started, same⟩
        refine ih.bind ?_
        rintro ⟨w'', log⟩ f₂ ⟨logs, started', nodup, same'⟩
        refine meets_pure ⟨List.forall_mem_cons.2 ⟨⟨_, found, strand⟩, logs⟩, ?_, fun once => ?_,
          same.trans same'⟩
        · dsimp only at started started' ⊢
          rw [started', started]
          simp
        · refine nodup ?_
          rw [started]
          exact List.nodup_cons.2 ⟨new, once⟩

end Running

section Covering

lemma Logs.nodup (logs : Logs s p log) (exact : p.Exact s.graph) (own : (log.map (·.1)).Nodup) :
    (log.flatMap (·.2)).Nodup := by
  have strand {e} (mem : e ∈ log) : ∃ n, p.blocks.lookup n = some e.1 ∧ Strand s n e.2 ∧
      isLeader s.graph n = true := by
    obtain ⟨n, found, strand⟩ := logs e mem
    exact ⟨n, found, strand, leader_of_lookup exact found⟩
  refine List.nodup_flatMap.2 ⟨fun e mem => ?_, ?_⟩
  · obtain ⟨n, -, strand, leader⟩ := strand mem
    exact strand.nodup leader
  · rw [List.Nodup, List.pairwise_map] at own
    refine own.imp_of_mem fun {e e'} mem mem' ne m here there => ?_
    obtain ⟨n, found, strand₁, leader⟩ := strand mem
    obtain ⟨n', found', strand₂, leader'⟩ := strand mem'
    obtain ⟨j, at_⟩ := List.getElem?_of_mem here
    obtain ⟨k, at'⟩ := List.getElem?_of_mem there
    obtain ⟨rfl, -⟩ := strand₁.place_unique leader strand₂.toStretch leader' at_ at'
    rw [found] at found'
    exact ne (Option.some.inj found')

lemma isLeader_of_edge_entry (edge : (n, kind) ∈ normalFrom s.graph FlowGraph.entry) :
    isLeader s.graph n = true := by
  by_contra inner
  obtain ⟨x, only, other, -⟩ := single_of_inner (Bool.eq_false_of_not_eq_true inner)
  have into := mem_normalEdges edge
  rw [only, List.mem_singleton] at into
  exact other (Prod.mk.inj into).1.symm

section Reaching

variable (logs : Logs s p log) (paired : s.Paired code handlers)
  (exact : p.Exact s.graph) (all : ∀ n b, p.blocks.lookup n = some b → ∃ ns, (b, ns) ∈ log)
include logs

include exact all in
lemma Logs.mem_of_leader (ordered : n ∈ s.graph.order) (leader : isLeader s.graph n = true) :
    n ∈ log.flatMap (·.2) := by
  have listed := (exact.leaders n).2 ⟨ordered, leader⟩
  obtain ⟨e, mem, rfl⟩ := List.mem_map.1 listed
  cases found : p.blocks.lookup e.1 with
  | none =>
    have := List.lookup_eq_none_iff.1 found e mem
    simp at this
  | some b =>
    obtain ⟨ns, mem⟩ := all _ _ found
    obtain ⟨n', found', strand⟩ := logs _ mem
    obtain rfl := exact.inj found found'
    exact List.mem_flatMap.2 ⟨_, mem, List.mem_of_mem_head? strand.head⟩

include paired in
lemma Logs.mem_of_edge {m : NodeId} (edge : (n, kind) ∈ normalFrom s.graph m)
    (inner : isLeader s.graph n = false) (before : m ∈ log.flatMap (·.2)) : n ∈ log.flatMap (·.2) := by
  obtain ⟨e, mem, listed⟩ := List.mem_flatMap.1 before
  obtain ⟨_, -, strand⟩ := logs e mem
  obtain ⟨i, instr⟩ := Option.isSome_iff_exists.1 (strand.there m listed)
  have falls : (n, .fallthrough) ∈ normalFrom s.graph m := by
    obtain ⟨x, only, -⟩ := single_of_inner inner
    have into := mem_normalEdges edge
    rw [only, List.mem_singleton] at into
    rwa [(Prod.mk.inj into).2] at edge
  obtain ⟨k, at_⟩ := List.getElem?_of_mem listed
  cases after : e.2[k + 1]? with
  | some y =>
    obtain rfl := paired.normal_unique instr (strand.edge at_ after).1 falls
    exact List.mem_flatMap.2 ⟨e, mem, List.mem_of_getElem? after⟩
  | none =>
    have last : m ∈ e.2.getLast? := by
      obtain ⟨lt, rfl⟩ := List.getElem?_eq_some_iff.1 at_
      rw [List.getElem?_eq_none_iff] at after
      rw [List.getLast?_eq_getElem?, List.getElem?_eq_some_iff.2 ⟨by omega, ?_⟩]
      · rfl
      · congr 1
        omega
    rw [strand.last m last n falls] at inner
    cases inner

include paired exact all

lemma Logs.mem_of_reachable {q : Nat} (reach : code.Reachable q) :
    ∀ n, FlowGraph.Stands code s.graph.graph n (some q) → n ∈ log.flatMap (·.2) := by
  have spec := paired.spec
  induction reach with
  | first =>
    intro n stands
    have edge : (n, .fallthrough) ∈ normalFrom s.graph FlowGraph.entry :=
      List.mem_filter.2 ⟨Digraph.mem_outgoing.2 ((spec.edges _).2 (.entry stands)), rfl⟩
    exact logs.mem_of_leader exact all ((mem_order spec).2 ⟨_, stands⟩) (isLeader_of_edge_entry edge)
  | handler resolved mem =>
    intro n stands
    refine logs.mem_of_leader exact all ((mem_order spec).2 ⟨_, stands⟩) ?_
    obtain rfl := Except.ok.inj (spec.resolved.symm.trans resolved)
    obtain ⟨m, listed, there⟩ := exists_mem_of_mem_left spec.targets mem
    obtain rfl := stands.vertex_inj spec.nodup there
    rw [isLeader, FlowGraph.isHandlerTarget, List.contains_iff_mem.2 listed, Bool.true_or]
  | next reach here way ih =>
    intro n stands
    obtain ⟨m, source⟩ := spec.vertex _ reach
    obtain ⟨n', target, edge⟩ := exists_normal_edge spec reach source here way
    obtain rfl := stands.vertex_inj spec.nodup target
    cases leader : isLeader s.graph n with
    | true => exact logs.mem_of_leader exact all ((mem_order spec).2 ⟨_, stands⟩) leader
    | false => exact logs.mem_of_edge paired edge leader (ih m source)

end Reaching

end Covering

end Avm.Ir.Lift
