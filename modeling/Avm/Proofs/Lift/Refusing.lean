import Avm.Proofs.Flow.Exactness
import Avm.Proofs.Lift.Covering
import Avm.Proofs.Lift.Weaving

/-!
# Why code is refused

Code that was decoded is lifted with the control flow graph that was built from it, or it is refused for a
fault that lies in the code or in the pool.  Blocks are made for the leaders, and their edges and phis are
in order once every way was taken.  Tidying up keeps them in order, so the check at the end never fails.

The main statement is `Func.ofCode_error`.
-/

namespace Avm

open Ir

section Registers

variable {code : Code} {params : Nat} {flags : MethodFlags} {r : Register}

lemma start_le_foldl_max {rs : List Nat} {n m : Nat} : n ≤ rs.foldl (fun n r => max n (min (r + 1) m)) n := by
  induction rs generalizing n with
  | nil => exact Nat.le_refl n
  | cons r rs ih => exact Nat.le_trans (Nat.le_max_left _ _) ih

lemma lt_foldl_max {rs : List Nat} {n m r : Nat} (mem : r ∈ rs) (below : r < m) :
    r < rs.foldl (fun n r => max n (min (r + 1) m)) n := by
  induction rs generalizing n with
  | nil => cases mem
  | cons r' rs ih =>
    obtain rfl | mem := List.mem_cons.1 mem
    · have counted : r < max n (min (r + 1) m) := by omega
      exact Nat.lt_of_lt_of_le counted start_le_foldl_max
    · exact ih mem

lemma Instruction.lt_of_mem_registers {i : Instruction Marker} {m : Nat} (mem : r ∈ i.registers) (large : 256 ≤ m)
    (index : ∀ v, i.operands = .index v → v < m) (pair : ∀ v w, i.operands = .pair v w → v < m ∧ w < m) :
    r < m := by
  have first (found : i.index? = some r) : r < m := by
    rw [Instruction.index?] at found
    split at found
    · rename_i v ops
      obtain rfl := Option.some.inj found
      exact index v ops
    · rename_i v w ops
      obtain rfl := Option.some.inj found
      exact (pair v w ops).1
    · cases found
  have few {k : Nat} (found : some k = some r) (small : k < 256) : r < m := by
    obtain rfl := Option.some.inj found
    exact Nat.lt_of_lt_of_le small large
  rw [Instruction.registers] at mem
  split at mem
  · rename_i v w _ ops
    obtain rfl | mem := List.mem_cons.1 mem
    · exact (pair _ _ ops).1
    · obtain rfl := List.mem_singleton.1 mem
      exact (pair _ _ ops).2
  iterate 5
    rename_i ops
    obtain rfl := List.mem_singleton.1 mem
    exact index _ ops
  · obtain rfl := List.mem_singleton.1 mem
    exact Nat.lt_of_lt_of_le (UInt8.toNat_lt _) large
  · rw [Option.mem_toList, Option.or_eq_some_iff] at mem
    obtain found | ⟨-, found⟩ := mem
    · rw [Instruction.localRead?] at found
      split at found
      iterate 4 exact few found (by decide)
      · exact first found
      · cases found
    · rw [Instruction.localWrite?] at found
      split at found
      iterate 4 exact few found (by decide)
      · exact first found
      · cases found

lemma Code.lt_localCount_of_decode {bytes : List UInt8} {exceptions : List (Handler Nat)}
    (decoded : Code.decode bytes exceptions = .ok code) {id : InstrId} {i : Instruction Marker}
    (found : code.get? id = some i) (mem : r ∈ i.registers) : r < code.localCount params flags := by
  obtain ⟨is, known⟩ := Code.decode_eq_ok decoded
  have listed : (id, i) ∈ code.instrs := mem_of_lookup found
  obtain ⟨x, there, -, rel⟩ := exists_mem_of_mem_left known.instrs listed
  obtain ⟨-, fits⟩ := known.cut.fits x there
  refine lt_foldl_max (List.mem_flatMap.2 ⟨_, listed, mem⟩) ?_
  refine Instruction.lt_of_mem_registers mem (by decide) (fun v ops => ?_) fun v w ops => ?_
  · dsimp only at rel
    rw [ops] at rel
    generalize x.2.operands = other at rel fits
    cases rel
    exact Nat.lt_trans fits (by decide)
  · dsimp only at rel
    rw [ops] at rel
    generalize x.2.operands = other at rel fits
    cases rel
    exact ⟨Nat.lt_trans fits.1 (by decide), Nat.lt_trans fits.2 (by decide)⟩

end Registers

namespace Ir.Lift

open Edit BlockGraph

variable {s : Source} {code : Code} {handlers : List (Handler Nat)} {g : FlowGraph} {ns : List NodeId}
  {n : NodeId} {p q : Partition} {b : BlockId} {f f' : Func} {es : List Pending} {count : Nat} {w : Progress}

section Partitioning

lemma blames_partitionFrom :
    (partitionFrom g ns p).Meets f (fun _ _ => True) (·.isInCode) := by
  induction ns generalizing p f with
  | nil => exact meets_pure trivial
  | cons n ns ih =>
    rw [partitionFrom]
    dsimp only
    split
    · exact meets_throw_bind rfl
    · split
      · exact meets_run_bind (addBlock_eq_ok.2 ⟨rfl, rfl⟩) ih
      · exact ih

lemma partitionFrom_induction {P : Func → Prop} (run : (partitionFrom g ns p).run f = .ok q f') (start : P f)
    (push : ∀ f, P f → P (f.pushBlock {})) : P f' := by
  induction ns generalizing p f with
  | nil =>
    obtain ⟨rfl, rfl⟩ := Edit.pure_eq_ok.1 run
    exact start
  | cons n ns ih =>
    obtain ⟨-, ⟨-, run⟩ | ⟨-, run⟩⟩ := partitionFrom_cons_eq_ok run
    · exact ih run (push f start)
    · exact ih run start

lemma joins_of_partitionFrom (run : (partitionFrom g ns p).run f = .ok q f')
    (old : ∀ e ∈ p.blocks, 1 < (normalEdges g e.1).length → e.2 ∈ p.joins) :
    ∀ e ∈ q.blocks, 1 < (normalEdges g e.1).length → e.2 ∈ q.joins := by
  induction ns generalizing p f with
  | nil =>
    obtain ⟨rfl, rfl⟩ := Edit.pure_eq_ok.1 run
    exact old
  | cons n ns ih =>
    obtain ⟨-, ⟨-, run⟩ | ⟨-, run⟩⟩ := partitionFrom_cons_eq_ok run
    · refine ih run fun e mem several => ?_
      rw [Partition.add]
      obtain mem | mem := List.mem_append.1 mem
      · have there := old e mem several
        split
        · exact List.mem_cons_of_mem _ there
        · exact there
      · obtain rfl := List.mem_singleton.1 mem
        rw [if_pos several]
        exact List.mem_cons_self
    · exact ih run old

end Partitioning

section Seeding

/-- A graph of empty blocks that lead nowhere yet, with handlers that start at blocks. -/
structure Vacant (s : Source) (p : Partition) (count : Nat) (f : Func) : Prop where
  linked : f.Linked fun _ => False
  shaped : f.Shaped
  phis : ∀ t, f.phis t = []
  idle : ∀ t, (f.terminator t).targets = []
  locals : f.locals = count
  blocks : ∀ e ∈ p.blocks, (f.block? e.2).isSome
  caught : ∀ c ∈ f.handlers, ∃ n, s.graph.isHandlerTarget n = true ∧ p.blocks.lookup n = some c.target

lemma vacant_of_partitionFrom {method : MethodId} {params : Nat} {flags : MethodFlags}
    (run : (partitionFrom s.graph ns {}).run (.new method params flags count) = .ok p f) :
    p.Valid s.graph ∧ Vacant s p count f ∧ f.handlers = [] := by
  obtain ⟨valid, bare⟩ := valid_partitionFrom run ⟨⟨by simp, by simp⟩, by simp, by simp⟩ bare_empty
  obtain ⟨linked, locals⟩ := partitionFrom_induction (P := fun f => f.Linked (fun _ => False) ∧ f.locals = count)
    run ⟨Func.linked_new, rfl⟩ fun f ⟨linked, locals⟩ => ⟨linked.pushBlock, locals⟩
  refine ⟨valid, ⟨linked, bare.shaped, bare.phis, fun t => ?_, locals, live_of_partitionFrom run (by simp), ?_⟩,
    bare.catches⟩
  · -- The edges of a terminator are edges of its block.
    rw [List.eq_nil_iff_forall_not_mem]
    intro e mem
    have edge : e ∈ f.succs t := by
      rw [linked.wired t id, Func.edgesOf_eq]
      exact Func.mem_edgesFrom.2 (.inl mem)
    rw [bare.succs] at edge
    cases edge
  · rw [bare.catches]
    simp

namespace Vacant

lemma addHandler (h : Vacant s p count f) (target : s.graph.isHandlerTarget n = true) {c : Catch}
    (found : p.blocks.lookup n = some c.target) : Vacant s p count (f.withCatches [c]) := by
  refine ⟨h.linked.withCatches (h.blocks _ (mem_of_lookup found)), h.shaped.withCatches, h.phis, h.idle,
    h.locals, h.blocks, fun d mem => ?_⟩
  obtain old | new := List.mem_append.1 mem
  · exact h.caught d old
  · rw [List.mem_singleton.1 new]
    exact ⟨n, target, found⟩

lemma covered (h : Vacant s p count f) (valid : p.Valid s.graph) {k : Nat} (inside : k < f.handlers.length) :
    ∃ c, f.handlers[k]? = some c ∧ c.target ≠ Func.entry ∧ f.phis c.target = [] := by
  obtain ⟨n, -, found⟩ := h.caught _ (List.getElem_mem inside)
  exact ⟨_, List.getElem?_eq_getElem inside, (valid.inner _ (mem_of_lookup found)).1, h.phis _⟩

lemma setHandlers (h : Vacant s p count f) (valid : p.Valid s.graph) (found : p.blocks.lookup n = some b)
    {hs : List Nat} (below : ∀ k ∈ hs, k < f.handlers.length) :
    Vacant s p count (f.reend b (f.terminator b) hs) := by
  have live := h.blocks _ (mem_of_lookup found)
  have inner := valid.inner _ (mem_of_lookup found)
  have same : f.SameNodes (f.reend b (f.terminator b) hs) := Func.sameNodes_reend
  refine ⟨(h.linked.reend live (h.linked.ends b) below).mono fun _ both => both.1, ?_, fun t => ?_, fun t => ?_,
    Func.locals_reend.trans h.locals, fun e mem => ?_, ?_⟩
  · exact h.shaped.reend live inner.2 (fun here => absurd here inner.1)
      (fun k mem => h.covered valid (below k mem)) (h.shaped.enters b)
  · rw [same.phis, h.phis]
  · rw [Func.terminator_reend live]
    split
    · exact h.idle b
    · exact h.idle t
  · rw [same.isSome]
    exact h.blocks e mem
  · rw [same.catches]
    exact h.caught

end Vacant

lemma blames_addHandlers {bad : Fault → Prop} {k : Nat} {hs : List (Handler Marker)}
    (targets : ∀ j < k + hs.length, ∃ n b, s.graph.handlerTarget? j = some n ∧ p.blocks.lookup n = some b)
    (vacant : Vacant s p count f) : (addHandlers s p k hs).Meets f (fun es f' => Vacant s p count f' ∧
      f'.handlers.length = f.handlers.length + hs.length ∧ ∀ x ∈ es, x.entry = none ∧ x.Waits s p count)
      bad := by
  induction hs generalizing k f with
  | nil => exact meets_pure ⟨vacant, rfl, by simp⟩
  | cons h hs ih =>
    obtain ⟨n, b, target, found⟩ := targets k (by simp)
    have handled : s.graph.isHandlerTarget n = true := List.contains_iff_mem.2 (List.mem_of_getElem? target)
    rw [addHandlers, target]
    dsimp only
    refine blames_blockOf found ?_
    refine meets_run_bind (addHandler_eq_ok.2 ⟨rfl, rfl⟩) ?_
    have more := ih (k := k + 1) (fun j lt => targets j (by simp only [List.length_cons]; omega))
      (vacant.addHandler (c := ⟨b, h.excType, h.varName⟩) handled found)
    refine more.bind ?_
    rintro es f₁ ⟨vacant, length, waits⟩
    refine meets_pure ⟨vacant, ?_, ?_⟩
    · rw [length, Func.withCatches, List.length_append, List.length_cons, List.length_cons, List.length_nil]
      omega
    · refine List.forall_mem_cons.2 ⟨⟨rfl, ?_, fun _ => handled, by simp⟩, waits⟩
      rw [found]
      rfl

lemma blames_coverBlocks {bad : Fault → Prop} (valid : p.Valid s.graph) (vacant : Vacant s p count f)
    (length : f.handlers.length = s.code.handlers.length) :
    (coverBlocks s p ns).Meets f (fun _ f' => Vacant s p count f') bad := by
  induction ns generalizing f with
  | nil => exact meets_pure vacant
  | cons n ns ih =>
    rw [coverBlocks]
    split
    · exact ih vacant length
    · rename_i b found
      dsimp only
      split
      · have below : ∀ k ∈ (s.graph.coveringHandlers n).filter (· < s.code.handlers.length),
            k < f.handlers.length := by
          intro k mem
          rw [length]
          exact of_decide_eq_true (List.mem_filter.1 mem).2
        refine meets_run_bind (a := ()) (setHandlers_eq_ok.2 ⟨below, vacant.blocks _ (mem_of_lookup found), rfl⟩) ?_
        refine ih (vacant.setHandlers valid found below) ?_
        rw [Func.sameNodes_reend.catches, length]
      · exact ih vacant length

/-- What is entered first: the way from the entry is the only one that waits. -/
lemma arrivals_start {frame : Frame} (found : p.blocks.lookup n = some b) (waits : ∀ x ∈ es, x.entry = none) :
    arrivals p ({ leader := n, entry := some (frame, Func.entry, .fallthrough) } :: es) =
      [(b, Func.entry, .fallthrough)] := by
  have none : es.filterMap (·.arrival? p) = [] := by
    rw [List.filterMap_eq_nil_iff]
    intro x mem
    rw [Pending.arrival?, waits x mem]
  rw [arrivals, List.filterMap_cons_some, none]
  rw [Pending.arrival?, found]

namespace Vacant

lemma targets_start (h : Vacant s p count f) (c : BlockId) :
    ((f.reend Func.entry (.goto b) (f.handlersOf Func.entry)).terminator c).targets =
      if c = Func.entry then [(b, .fallthrough)] else [] := by
  rw [Func.terminator_reend h.shaped.entry.1]
  split
  · rfl
  · exact h.idle c

lemma not_mem_taken_start (h : Vacant s p count f) {c : BlockId} {e : BlockId × EdgeKind} :
    e ∉ taken (f.reend Func.entry (.goto b) (f.handlersOf Func.entry)) [(b, Func.entry, .fallthrough)] c := by
  rw [mem_taken, h.targets_start]
  split
  · rename_i here
    rw [here]
    rintro ⟨mem, other⟩
    obtain rfl := List.mem_singleton.1 mem
    exact other List.mem_cons_self
  · rintro ⟨none, -⟩
    cases none

lemma sound_start (h : Vacant s p count f) (valid : p.Valid s.graph) (found : p.blocks.lookup n = some b)
    {W : List (BlockId × BlockId × EdgeKind)} :
    (f.reend Func.entry (.goto b) (f.handlersOf Func.entry)).Sound (fun _ => False)
      (taken (f.reend Func.entry (.goto b) (f.handlersOf Func.entry)) W) := by
  have live : (f.block? Func.entry).isSome := h.shaped.entry.1
  have same : f.SameNodes (f.reend Func.entry (.goto b) (f.handlersOf Func.entry)) := Func.sameNodes_reend
  have linked : (f.reend Func.entry (.goto b) (f.handlersOf Func.entry)).Linked fun _ => False := by
    refine (h.linked.reend live (fun e mem => ?_) (h.linked.covered _)).mono fun _ both => both.1
    rw [List.mem_singleton.1 mem]
    exact h.blocks _ (mem_of_lookup found)
  have shaped : (f.reend Func.entry (.goto b) (f.handlersOf Func.entry)).Shaped := by
    refine h.shaped.reend live (by decide) (fun _ => h.shaped.entry.2.2.2)
      (fun k mem => h.covered valid (h.linked.covered _ k mem)) fun e mem => ?_
    rw [List.mem_singleton.1 mem]
    exact (valid.inner _ (mem_of_lookup found)).1
  have start : (f.reend Func.entry (.goto b) (f.handlersOf Func.entry)).terminator Func.entry = .goto b := by
    rw [Func.terminator_reend live, if_pos rfl]
  refine { shaped with wired := linked.wired, live := fun c e mem => ?_, synced := fun t v mem => ?_,
                       start := ⟨b, start⟩ }
  · obtain there | ⟨-, k, -, d, handler, target⟩ := linked.target_of_mem id mem
    · exact there
    · rw [same.catches] at handler
      obtain ⟨m, -, known⟩ := h.caught d (List.mem_of_getElem? handler)
      rw [← target, same.isSome]
      exact h.blocks _ (mem_of_lookup known)
  · rw [same.phis, h.phis] at mem
    cases mem

end Vacant

lemma Vacant.weaves (h : Vacant s p count f) (valid : p.Valid s.graph)
    (edge : (n, .fallthrough) ∈ s.graph.edgesFrom FlowGraph.entry) (found : p.blocks.lookup n = some b)
    {frame : Frame} (locals : frame.locals.length = count) (waits : ∀ x ∈ es, x.entry = none ∧ x.Waits s p count) :
    Weaves s p count { worklist := { leader := n, entry := some (frame, Func.entry, .fallthrough) } :: es }
      (f.reend Func.entry (.goto b) (f.handlersOf Func.entry)) := by
  have same : f.SameNodes (f.reend Func.entry (.goto b) (f.handlersOf Func.entry)) := Func.sameNodes_reend
  have waiting : arrivals p ({ leader := n, entry := some (frame, Func.entry, .fallthrough) } :: es) =
      [(b, Func.entry, .fallthrough)] := arrivals_start found fun x mem => (waits x mem).1
  constructor
  case sound => exact h.sound_start valid found
  case locals => rw [Func.locals_reend, h.locals]
  case blocks =>
    intro e mem
    rw [same.isSome]
    exact h.blocks e mem
  case apart =>
    rw [same.catches]
    intro c mem
    obtain ⟨m, target, known⟩ := h.caught c mem
    exact valid.apart _ (mem_of_lookup known) target
  case once =>
    rw [waiting]
    exact List.nodup_singleton _
  case sent =>
    rw [waiting]
    intro c d kind mem
    obtain ⟨rfl, eq⟩ := Prod.mk.inj (List.mem_singleton.1 mem)
    obtain ⟨rfl, rfl⟩ := Prod.mk.inj eq
    rw [h.targets_start, if_pos rfl]
    exact List.mem_cons_self
  case edges =>
    intro c d kind mem
    rw [h.targets_start] at mem
    split at mem
    · rename_i here
      obtain ⟨rfl, rfl⟩ := Prod.mk.inj (List.mem_singleton.1 mem)
      exact ⟨FlowGraph.entry, n, .inl ⟨here, rfl⟩, found, List.mem_filter.2 ⟨edge, rfl⟩⟩
    · cases mem
  case idle =>
    intro e mem _
    rw [h.targets_start, if_neg (valid.inner e mem).1]
  case fresh =>
    rw [waiting]
    exact fun _ _ _ _ => h.not_mem_taken_start
  case entered =>
    intro m c _ there
    cases there
  case opened =>
    intro c
    constructor
    · intro some
      cases some
    · rintro ⟨there, -⟩
      cases there
  case phis =>
    intro t
    rw [same.phis, h.phis]
    rfl
  case slots =>
    intro c j there
    cases there
  case waits =>
    refine List.forall_mem_cons.2 ⟨⟨?_, by rintro ⟨⟩, ?_⟩, fun x mem => (waits x mem).2⟩
    · rw [found]
      rfl
    · rintro e ⟨⟩
      exact locals

lemma weaves_seed (paired : s.Paired code handlers) (exact : p.Exact s.graph) (valid : p.Valid s.graph)
    (vacant : Vacant s p count f) (bare : f.handlers = [])
    (targets : ∀ j < s.code.handlers.length, (s.graph.handlerTarget? j).isSome) {body : MethodBody} :
    (seed s p body).Meets f (fun es f' => Weaves s p count { worklist := es } f') (·.isInCode) := by
  have known (m) (ordered : m ∈ s.graph.order) (leader : isLeader s.graph m = true) :
      ∃ b, p.blocks.lookup m = some b := by
    obtain ⟨e, mem, rfl⟩ := List.mem_map.1 ((exact.leaders m).2 ⟨ordered, leader⟩)
    cases found : p.blocks.lookup e.1 with
    | some b => exact ⟨b, rfl⟩
    | none => simpa using List.lookup_eq_none_iff.1 found e mem
  have started : ∀ j < 0 + s.code.handlers.length, ∃ n b, s.graph.handlerTarget? j = some n ∧
      p.blocks.lookup n = some b := by
    intro j lt
    obtain ⟨m, target⟩ := Option.isSome_iff_exists.1 (targets j (by omega))
    obtain ⟨x, -, stands⟩ := stands_handler paired target
    have handled : s.graph.isHandlerTarget m = true := List.contains_iff_mem.2 (List.mem_of_getElem? target)
    obtain ⟨b, found⟩ := known m ((mem_order paired.spec).2 ⟨_, stands⟩) (by rw [isLeader, handled, Bool.true_or])
    exact ⟨m, b, target, found⟩
  rw [seed]
  refine (blames_addHandlers started vacant).bind ?_
  rintro hs f₁ ⟨vacant, length, waits⟩
  rw [bare, List.length_nil, Nat.zero_add] at length
  refine (blames_coverBlocks valid vacant length).bind fun _ f₂ vacant => ?_
  obtain ⟨n, edges⟩ := paired.spec.edgesFrom_entry
  have edge : (n, .fallthrough) ∈ s.graph.edgesFrom FlowGraph.entry := by
    rw [edges]
    exact List.mem_cons_self
  obtain ⟨first, -⟩ := paired.stands_first edge
  obtain ⟨b, found⟩ := known n ((mem_order paired.spec).2 ⟨_, first⟩) 
    (isLeader_of_edge_entry (List.mem_filter.2 ⟨edge, rfl⟩))
  rw [edges]
  dsimp only [List.head?_cons]
  refine blames_blockOf found ?_
  refine meets_run_bind (a := ()) (setTerminator_eq_ok.2 ⟨fun e mem => ?_, vacant.shaped.entry.1, rfl⟩) ?_
  · rw [List.mem_singleton.1 mem]
    exact vacant.blocks _ (mem_of_lookup found)
  · refine meets_get (meets_pure (vacant.weaves valid edge found ?_ fun x mem => waits x (List.mem_reverse.1 mem)))
    rw [initialLocals, List.length_map, List.length_range, Func.locals_reend, vacant.locals]

end Seeding

lemma Weaves.intact (h : Weaves s p count w f) (empty : w.worklist = []) : f.Intact := by
  refine h.sound.mono (fun _ none => none) fun t phis c kind => ?_
  have all : taken f (arrivals p w.worklist) c = (f.terminator c).targets := by
    rw [empty, taken, List.filter_eq_self]
    exact fun e _ => decide_eq_true List.not_mem_nil
  -- Where phis are, only terminators lead.
  have goes : (t, kind) ∈ f.succs c ↔ (t, kind) ∈ (f.terminator c).targets := by
    rw [h.sound.wired c id, Func.edgesOf_eq, Func.mem_edgesFrom]
    refine ⟨fun edge => ?_, .inl⟩
    obtain goes | leaves | ⟨k, covers, d, found, eq⟩ := edge
    · exact goes
    · have here : t = Func.exit := Terminator.eq_exit_of_mem_leaving leaves
      rw [here] at phis
      exact absurd h.sound.exit.2.1 phis
    · have here : d.target = t := (Prod.mk.inj eq).1.symm
      exact absurd (h.sound.phis_of_caught ⟨c, k, covers, d, found, here⟩) phis
  have once : (f.succs c).Nodup := by
    rw [h.sound.wired c id, Func.edgesOf_eq]
    exact Func.nodup_edgesFrom
  rw [all, (Terminator.nodup_targets _).count, once.count, if_congr goes rfl rfl]

/-- Lifting with the graph of the code has no faults but those that lie in the code or in the pool. -/
lemma blames_build {pool : Pool} {body : MethodBody} (spec : FlowGraph.Spec code handlers g)
    (formed : Source.Formed ⟨code, g, pool⟩)
    (named : ∀ n i, Source.instr? ⟨code, g, pool⟩ n = some i → ∀ r ∈ i.registers, r < count)
    {method : MethodId} {params : Nat} {flags : MethodFlags} :
    (build ⟨code, g, pool⟩ body).Meets (.new method params flags count) (fun _ _ => True) (·.isInCode) := by
  have paired := paired_of_build pool spec
  rw [build]
  refine blames_partitionFrom.of_run.bind ?_
  rintro p f₁ ⟨_, parted⟩
  have exact := exact_of_partitionFrom parted
  obtain ⟨valid, vacant, bare⟩ := vacant_of_partitionFrom (s := ⟨code, g, pool⟩) parted
  have joins : ∀ n b, p.blocks.lookup n = some b → 1 < (normalEdges g n).length → b ∈ p.joins :=
    fun n b found => joins_of_partitionFrom parted (by simp) _ (mem_of_lookup found)
  refine (weaves_seed paired exact valid vacant bare (isSome_handlerTarget? spec)).of_run.bind ?_
  rintro es f₂ ⟨woven, seeded⟩
  refine (weaves_run paired exact valid formed named joins woven).of_run.bind ?_
  rintro w f₃ ⟨woven, ran⟩
  have seeds := meets_seed.of_ok seeded
  have enough : es.length ≤ code.handlers.length + 1 := seeds.length
  obtain ⟨-, -, empty⟩ := (keeps_run paired exact (keeps_seeds paired seeds) (by dsimp only; omega)).of_ok ran
  have intact := woven.intact empty
  rw [unentered_eq_nil spec parted (started_of_lookup spec parted seeded ran), removeBlocks, pure_bind]
  refine meets_modify (meets_get (meets_ofExcept (fun _ _ => trivial) fun fault wrong => ?_))
  have tidied := ((Func.trims_removeTrivialPhis f₃).trans (Func.trims_removeRedundantCopies _)).trans
    (Func.trims_removeDeadNodes _)
  rw [Func.verify_of_intact (tidied.intact intact)] at wrong
  cases wrong

end Ir.Lift

namespace Ir.Func

open Lift

variable {bytes : List UInt8} {exceptions : List (Handler Nat)} {code : Code} {g : FlowGraph}

/-- Decoded code with the control flow graph that was built from it is lifted, whatever body it is the code
of, unless the fault lies in the code or in the pool. -/
theorem ofCode_error (decoded : Code.decode bytes exceptions = .ok code) (built : FlowGraph.build code = .ok g)
    {body : MethodBody} {pool : Pool} {fault : Fault} (failed : ofCode body code g pool = .error fault) :
    fault.isInCode = true := by
  obtain ⟨handlers, spec⟩ := FlowGraph.build_sound built
  have found {n i} (here : Source.instr? ⟨code, g, pool⟩ n = some i) : ∃ id, code.get? id = some i := by
    obtain ⟨id, -, found⟩ := Option.bind_eq_some_iff.1 here
    exact ⟨id, found⟩
  have formed : Source.Formed ⟨code, g, pool⟩ := by
    intro n i here
    obtain ⟨id, there⟩ := found here
    exact Code.formed_of_decode decoded _ (mem_of_lookup there)
  rw [ofCode] at failed
  split at failed
  · cases failed
  · rename_i e f run
    obtain rfl := Except.error.inj failed
    refine (blames_build spec formed fun n i here r mem => ?_).of_error run
    obtain ⟨id, there⟩ := found here
    exact Nat.lt_of_lt_of_le (Code.lt_localCount_of_decode decoded there mem) (Nat.le_max_right _ _)

/-- Code that takes something off an empty stack is refused. -/
theorem ofCode_error_underflow : ∃ code g fault, Code.decode [0x29, 0x47] [] = .ok code ∧
    FlowGraph.build code = .ok g ∧ ofCode {} code g {} = .error fault ∧ fault.isInCode = true := by
  have run : (do
      let code ← Code.decode [0x29, 0x47] []
      let g ← FlowGraph.build code
      return (code, g) : Except Fault (Code × FlowGraph)).toOption.any
        (fun x => (ofCode {} x.1 x.2 {}).isOk = false) = true := by
    decide +kernel
  obtain ⟨⟨code, g⟩, made, refused⟩ := exists_of_toOption run
  obtain ⟨code', decoded, made⟩ := bind_eq_ok.1 made
  obtain ⟨g', built, made⟩ := bind_eq_ok.1 made
  obtain ⟨rfl, rfl⟩ := Prod.mk.inj (Except.ok.inj made)
  cases failed : ofCode {} code' g' {} with
  | ok f =>
    rw [failed] at refused
    cases refused
  | error fault => exact ⟨code', g', fault, decoded, built, failed, ofCode_error decoded built failed⟩

end Ir.Func

end Avm
