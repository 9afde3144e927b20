import Avm.Proofs.Lift.Ending

/-!
# Levels that agree

Depths of the stacks for the vertices of a control flow graph agree if they start as the method and its
handlers do, are deep enough for every instruction, and change along normal edges as the instructions
say.  If there are such depths, lifting never complains about a depth: the frames that it follows the
instructions with always have them.

The main statement is `meets_build`.
-/

namespace Avm.Ir.Lift

open Edit BlockGraph

variable {s : Source} {code : Code} {handlers : List (Handler Nat)} {n n' m : NodeId}
  {kind : EdgeKind} {i : Instruction Marker} {p q : Partition} {b c : BlockId} {f f' : Func}
  {frame : Frame} {l : Level} {level : NodeId → Option Level}

/-- The depths of some vertices agree with each other. -/
structure Levels (s : Source) (level : NodeId → Option Level) : Prop where
  first : ∀ m kind, (m, kind) ∈ s.graph.edgesFrom FlowGraph.entry → level m = some ⟨0, 0⟩
  handler : ∀ k < s.code.handlers.length, ∀ n, s.graph.handlerTarget? k = some n →
    level n = some ⟨1, 0⟩
  next : ∀ n l, level n = some l → ∃ i e, s.instr? n = some i ∧ i.effect s.pool = .ok e ∧
    l.Affords e ∧ ∀ m kind, (m, kind) ∈ normalFrom s.graph n → level m = some (l.after e)

/-- The operands of every instruction have the shape that its opcode asks for. -/
def Source.Formed (s : Source) : Prop :=
  ∀ n i, s.instr? n = some i → i.operands.layout = i.opcode.layout

/-- What filling a block from a vertex on comes to: nodes are added that follow the depth of the scope
stack, the block is ended, and whatever is entered then has the depth that it should have. -/
structure Completes (s : Source) (level : NodeId → Option Level) (p : Partition) (b : BlockId)
    (frame : Frame) (f : Func) (es : List Pending) (f' : Func) : Prop where
  entries : ∀ x ∈ es, ∃ fr kind, x.entry = some (fr, b, kind) ∧ level x.leader = some fr.level
  block : ∃ ks d t f₁, Appends b ks f f₁ ∧ Closes b t d f₁ f' ∧
    NodeKind.scopeWalk frame.scope.length ks = some d ∧ t.Writable ∧
    (∀ e ∈ t.targets, ∃ x ∈ es, p.blocks.lookup x.leader = some e.1 ∧
      ∃ l, level x.leader = some l ∧ l.scope = d) ∧
    ∀ k ∈ ks, k.isPhi = false ∧ k ≠ .caught ∧ (s.Formed → k.Writable s.pool)

lemma isDepth_of_excused {e : StackEffect} {pool : Pool} {fault : Fault}
    (excused : Excused pool i frame fault) (effect : i.effect pool = .ok e)
    (affords : frame.level.Affords e) : fault.isDepth = false := by
  rw [Bool.eq_false_iff]
  intro depth
  exact excused depth e effect affords

/-- Following the instructions of a block from a vertex on, with a frame of the right depths. -/
lemma meets_interpret (paired : s.Paired code handlers) (levels : Levels s level) {fuel : Nat}
    (arrived : level n = some frame.level) :
    (interpret s p b fuel n frame).Meets f (Completes s level p b frame f)
      (fun fault => fault.isDepth = false) := by
  induction fuel generalizing n frame f with
  | zero => exact meets_throw rfl
  | succ fuel ih =>
    obtain ⟨i, e, here, effect, affords, next⟩ := levels.next n _ arrived
    have found : (s.graph.instr? n).bind s.code.get? = some i := here
    rw [interpret, found]
    dsimp only
    split
    · refine (meets_terminate paired here).imp ?_ fun fault ex => isDepth_of_excused ex effect affords
      rintro es f' ⟨⟨e', effect', -, sends, depth⟩, t, closes, writable, targets⟩
      obtain rfl := Except.ok.inj (effect.symm.trans effect')
      have entered : ∀ x ∈ es, ∃ fr kind, x.entry = some (fr, b, kind) ∧
          fr.level = frame.level.after e ∧ level x.leader = some (frame.level.after e) := by
        intro x mem
        obtain ⟨fr, kind, entry, same, edge⟩ := sends.frames x mem
        exact ⟨fr, kind, entry, same, next _ _ edge⟩
      refine ⟨fun x mem => ?_, [], _, t, f, .refl f, closes, rfl, writable, fun e mem => ?_, by simp⟩
      · obtain ⟨fr, kind, entry, same, there⟩ := entered x mem
        exact ⟨fr, kind, entry, by rw [there, same]⟩
      · obtain ⟨x, listed, block⟩ := targets e mem
        obtain ⟨fr, kind, -, -, there⟩ := entered x listed
        exact ⟨x, listed, block, _, there, depth⟩
    · have stepped : (step s.pool b i frame).Meets f (Follows s.pool b i frame f)
          fun fault => fault.isDepth = false :=
        meets_step.imp (fun _ _ same => same) fun fault ex => isDepth_of_excused ex effect affords
      refine stepped.bind ?_
      rintro frame₁ f₁ ⟨⟨e', effect', -, level₁⟩, ks, appends, walk, kinds⟩
      obtain rfl := Except.ok.inj (effect.symm.trans effect')
      have formed : ∀ k ∈ ks, k.isPhi = false ∧ k ≠ .caught ∧ (s.Formed → k.Writable s.pool) :=
        fun k mem => ⟨(kinds k mem).1, (kinds k mem).2.1, fun formed =>
          (kinds k mem).2.2 (formed n i here)⟩
      refine meets_successor (fun _ => rfl) fun m edge => ?_
      have there : level m = some frame₁.level := by
        rw [level₁]
        exact next m .fallthrough (List.mem_filter.2 ⟨edge, rfl⟩)
      split
      · rename_i target block
        refine (meets_close fun _ same => same).bind fun _ f₂ closes => meets_pure ?_
        refine ⟨fun x mem => ?_, ks, _, _, f₁, appends, closes, walk, trivial, fun e mem => ?_, formed⟩
        · rw [List.mem_singleton.1 mem]
          exact ⟨frame₁, .fallthrough, rfl, there⟩
        · rw [List.mem_singleton.1 mem]
          exact ⟨_, List.mem_singleton_self _, block, _, there, rfl⟩
      · refine (ih there).imp ?_ fun _ same => same
        rintro es f₃ ⟨entries, ls, d, t, f₂, more, closes, rest, writable, targets, formed'⟩
        refine ⟨entries, ks ++ ls, d, t, f₂, appends.trans more, closes, ?_, writable, targets,
          fun k mem => ?_⟩
        · rw [NodeKind.scopeWalk_append, walk]
          exact rest
        · obtain mem | mem := List.mem_append.1 mem
          · exact formed k mem
          · exact formed' k mem

section Partitioning

/-- The leaders have blocks, each one of its own, and handlers are entered by exceptions only. -/
structure Partition.Exact (g : FlowGraph) (p : Partition) : Prop where
  leaders : ∀ n, n ∈ p.blocks.map (·.1) ↔ n ∈ g.order ∧ isLeader g n = true
  own : (p.blocks.map (·.2)).Nodup
  refused : ∀ n ∈ g.order, g.isHandlerTarget n = true → normalEdges g n = []

lemma partitionFrom_eq_ok {g : FlowGraph} {ns : List NodeId}
    (run : (partitionFrom g ns p).run f = .ok q f') (old : ∀ e ∈ p.blocks, e.2 < f.blocks.size)
    (own : (p.blocks.map (·.2)).Nodup) :
    (∀ n, n ∈ q.blocks.map (·.1) ↔ n ∈ p.blocks.map (·.1) ∨ n ∈ ns ∧ isLeader g n = true) ∧
      (q.blocks.map (·.2)).Nodup ∧
      ∀ n ∈ ns, g.isHandlerTarget n = true → normalEdges g n = [] := by
  induction ns generalizing p f with
  | nil =>
    obtain ⟨rfl, rfl⟩ := Edit.pure_eq_ok.1 run
    exact ⟨fun n => by simp, own, fun n mem => absurd mem List.not_mem_nil⟩
  | cons n ns ih =>
    obtain ⟨here, ⟨leader, run⟩ | ⟨leader, run⟩⟩ := partitionFrom_cons_eq_ok run
    · have below : ∀ e ∈ p.blocks ++ [(n, f.blocks.size)], e.2 < (f.pushBlock {}).blocks.size := by
        intro e mem
        rw [Func.size_pushBlock]
        obtain mem | mem := List.mem_append.1 mem
        · exact Nat.lt_succ_of_lt (old e mem)
        · rw [List.mem_singleton.1 mem]
          exact Nat.lt_succ_self _
      have apart : ((p.blocks ++ [(n, f.blocks.size)]).map (·.2)).Nodup := by
        rw [List.map_append, List.nodup_append]
        refine ⟨own, by simp, fun c mem d mem' same => ?_⟩
        obtain ⟨e, listed, rfl⟩ := List.mem_map.1 mem
        obtain rfl : d = f.blocks.size := by simpa using mem'
        exact absurd same (Nat.ne_of_lt (old e listed))
      obtain ⟨leaders, own', allowed⟩ := ih run below apart
      refine ⟨fun m => ?_, own', List.forall_mem_cons.2 ⟨here, allowed⟩⟩
      rw [leaders]
      simp only [Partition.add, List.map_append, List.map_cons, List.map_nil, List.mem_append, List.mem_cons,
        List.not_mem_nil, or_false]
      constructor
      · rintro ((old | rfl) | ⟨mem, other⟩)
        · exact .inl old
        · exact .inr ⟨.inl rfl, leader⟩
        · exact .inr ⟨.inr mem, other⟩
      · rintro (old | ⟨rfl | mem, other⟩)
        · exact .inl (.inl old)
        · exact .inl (.inr rfl)
        · exact .inr ⟨mem, other⟩
    · obtain ⟨leaders, own', allowed⟩ := ih run old own
      refine ⟨fun m => ?_, own', List.forall_mem_cons.2 ⟨here, allowed⟩⟩
      rw [leaders, List.mem_cons]
      constructor
      · rintro (old | ⟨mem, other⟩)
        · exact .inl old
        · exact .inr ⟨.inr mem, other⟩
      · rintro (old | ⟨rfl | mem, other⟩)
        · exact .inl old
        · exact absurd other leader
        · exact .inr ⟨mem, other⟩

lemma exact_of_partitionFrom {g : FlowGraph} (run : (partitionFrom g g.order {}).run f = .ok p f') :
    p.Exact g := by
  obtain ⟨leaders, own, refused⟩ := partitionFrom_eq_ok run (by simp) (by simp)
  exact ⟨fun n => by simpa using leaders n, own, refused⟩

lemma Partition.Exact.inj {g : FlowGraph} (exact : p.Exact g) (found : p.blocks.lookup n = some b)
    (found' : p.blocks.lookup n' = some b) : n = n' :=
  congrArg Prod.fst (List.inj_on_of_nodup_map exact.own (mem_of_lookup found) (mem_of_lookup found') rfl)

end Partitioning

section Running

/-- Whatever is to be entered, and the joins that were entered, have the depths that they should have. -/
structure Progress.Meets (level : NodeId → Option Level) (p : Partition) (w : Progress) : Prop where
  entries : ∀ x ∈ w.worklist, level x.leader = some x.level
  joins : ∀ b j, w.phis.lookup b = some j → ∃ n, p.blocks.lookup n = some b ∧
    level n = some ⟨j.stack, j.scope⟩

/-- An edit that never complains about a depth. -/
def Tolerant {α : Type} (x : Edit α) : Prop :=
  ∀ f, x.Meets f (fun _ _ => True) fun fault => fault.isDepth = false

lemma meets_handlerFrame : (handlerFrame b).Meets f (fun frame f' => frame.level = ⟨1, 0⟩ ∧
    frame.scope = [] ∧ Appends b [.caught] f f') fun fault => fault.isDepth = false := by
  rw [handlerFrame]
  refine meets_freshVersion (b := b) fun version f₁ first => ?_
  refine meets_appendNode rfl rfl fun v f₂ second => meets_get (meets_pure ?_)
  exact ⟨rfl, rfl, first.trans second⟩

lemma meets_openJoin {source : BlockId} : (openJoin b source kind frame).Meets f
    (fun r f' => r.1.level = frame.level ∧ r.2.stack = frame.stack.length ∧
      r.2.scope = frame.scope.length ∧ ∃ inputs, f' = f.putPhis b inputs)
    fun fault => fault.isDepth = false := by
  rw [openJoin]
  refine Meets.bind (P := fun vs f' => vs.length = frame.slots.length ∧
    f' = f.putPhis b (frame.slots.map fun v => [⟨v, source, kind⟩])) ?_ ?_
  · refine meets_of_forall (fun vs f' run => ?_) fun e f' run => ?_
    · obtain ⟨-, rfl, rfl⟩ := appendPhis_eq_ok.1 run
      simp
    · have faults : (appendPhis b (frame.slots.map fun v => [⟨v, source, kind⟩])).Meets f
          (fun _ _ => True) (fun fault => fault.isDepth = false) :=
        meets_block rfl fun x _ => meets_get (meets_modify (meets_pure trivial))
      exact faults.of_error run
  · rintro vs f₁ ⟨length, rfl⟩
    refine meets_pure ⟨?_, rfl, rfl, _, rfl⟩
    simp only [Frame.slots, List.length_append] at length
    simp only [Frame.level, Frame.withSlots, List.length_take, List.length_drop, List.length_map,
      Level.mk.injEq]
    omega

variable {w : Progress} {x : Pending}

lemma meets_enter (paired : s.Paired code handlers) (levels : Levels s level)
    (meets : w.Meets level p) (found : p.blocks.lookup x.leader = some b)
    (arrived : level x.leader = some x.level) :
    (enter s p b x w).Meets f (fun w' _ => w'.Meets level p) fun fault => fault.isDepth = false := by
  have more {es : List Pending} (entries : ∀ y ∈ es, ∃ fr kind, y.entry = some (fr, b, kind) ∧
      level y.leader = some fr.level) : ∀ y ∈ es.reverse ++ w.worklist,
        level y.leader = some y.level := by
    intro y mem
    obtain mem | mem := List.mem_append.1 mem
    · obtain ⟨fr, kind, entry, there⟩ := entries y (List.mem_reverse.1 mem)
      rw [there, Pending.level, entry]
      rfl
    · exact meets.entries y mem
  rw [enter]
  split
  · rename_i entry
    rw [Pending.level, entry] at arrived
    refine meets_handlerFrame.bind ?_
    rintro frame f₁ ⟨depth, _, _⟩
    refine (meets_interpret paired levels (by rw [arrived, depth]; rfl)).bind fun es f₂ filled => ?_
    exact meets_pure ⟨more filled.entries, meets.joins⟩
  · rename_i frame source kind entry
    rw [Pending.level, entry] at arrived
    split
    · refine meets_openJoin.bind ?_
      rintro ⟨frame₁, phis⟩ f₁ ⟨depth, stack, scope, -⟩
      refine (meets_interpret paired levels (by rw [arrived, depth]; rfl)).bind fun es f₂ filled => ?_
      refine meets_pure ⟨more filled.entries, fun c j here => ?_⟩
      rw [List.lookup_cons] at here
      split at here
      · rename_i same
        obtain rfl := Option.some.inj here
        rw [beq_iff_eq.1 same]
        refine ⟨x.leader, found, ?_⟩
        rw [arrived, stack, scope]
        rfl
      · exact meets.joins c j here
    · refine (meets_interpret paired levels arrived).bind fun es f₂ filled => ?_
      exact meets_pure ⟨more filled.entries, meets.joins⟩

lemma tolerant_merge (exact : p.Exact s.graph) (meets : w.Meets level p)
    (found : p.blocks.lookup n = some b) (arrived : level n = some frame.level) {source : BlockId} :
    Tolerant (merge b source kind frame (w.phis.lookup b)) := by
  intro f
  cases joined : w.phis.lookup b with
  | none => exact meets_throw rfl
  | some j =>
    obtain ⟨m, block, depth⟩ := meets.joins b j joined
    obtain rfl := exact.inj found block
    obtain ⟨stack, scope⟩ := Level.mk.inj (Option.some.inj (arrived.symm.trans depth))
    rw [merge, if_neg (by simp [stack, scope])]
    exact meets_last trivial

lemma meets_run (paired : s.Paired code handlers) (levels : Levels s level)
    (exact : p.Exact s.graph) {fuel : Nat} (meets : w.Meets level p) :
    (run s p fuel w).Meets f (fun _ _ => True) fun fault => fault.isDepth = false := by
  induction fuel generalizing w f with
  | zero => exact meets_pure trivial
  | succ fuel ih =>
    rw [run]
    split
    · exact meets_pure trivial
    · rename_i x rest waiting
      have arrived : level x.leader = some x.level :=
        meets.entries x (by rw [waiting]; exact List.mem_cons_self)
      have left : Progress.Meets level p { w with worklist := rest } :=
        ⟨fun y mem => meets.entries y (by rw [waiting]; exact List.mem_cons_of_mem _ mem), meets.joins⟩
      refine meets_blockOf rfl fun b found => ?_
      split
      · split
        · rename_i frame source kind entry
          rw [Pending.level, entry] at arrived
          exact (tolerant_merge exact left found arrived f).bind fun _ f₁ _ => ih left
        · exact ih left
      · exact (meets_enter paired levels left found arrived).bind fun w' f₁ more => ih more

end Running

section Building

/-- What is to be entered at first: the first instruction with empty stacks, and the handlers. -/
structure Seeds (s : Source) (es : List Pending) : Prop where
  first : ∃ m kind frame, (s.graph.edgesFrom FlowGraph.entry).head? = some (m, kind) ∧
    { leader := m, entry := some (frame, Func.entry, .fallthrough) } ∈ es ∧ frame.level = ⟨0, 0⟩
  handler : ∀ k < s.code.handlers.length, ∀ n, s.graph.handlerTarget? k = some n →
    { leader := n } ∈ es
  only : ∀ x ∈ es,
    (x.entry = none ∧ ∃ k < s.code.handlers.length, s.graph.handlerTarget? k = some x.leader) ∨
    ∃ kind, (x.leader, kind) ∈ s.graph.edgesFrom FlowGraph.entry ∧
      ∃ frame, x.entry = some (frame, Func.entry, .fallthrough) ∧ frame.level = ⟨0, 0⟩
  length : es.length ≤ s.code.handlers.length + 1

lemma meets_addHandlers {k : Nat} {hs : List (Handler Marker)} : (addHandlers s p k hs).Meets f
    (fun es _ => (∀ j n, k ≤ j → j < k + hs.length → s.graph.handlerTarget? j = some n →
        { leader := n } ∈ es) ∧
      (∀ x ∈ es, x.entry = none ∧ ∃ j < k + hs.length, s.graph.handlerTarget? j = some x.leader) ∧
      es.length ≤ hs.length) fun fault => fault.isDepth = false := by
  induction hs generalizing k f with
  | nil =>
    refine meets_pure ⟨fun j n le lt => ?_, by simp, Nat.le_refl _⟩
    simp only [List.length_nil, Nat.add_zero] at lt
    exact absurd lt (Nat.not_lt.2 le)
  | cons h hs ih =>
    rw [addHandlers]
    split
    · rename_i missing
      refine ih.imp ?_ fun _ same => same
      rintro es f₁ ⟨all, only, length⟩
      refine ⟨fun j n le lt target => ?_, fun x mem => ?_, Nat.le_succ_of_le length⟩
      · obtain rfl | less := Nat.eq_or_lt_of_le le
        · rw [missing] at target
          cases target
        · exact all j n less (by rw [List.length_cons] at lt; omega) target
      · obtain ⟨entry, j, lt, target⟩ := only x mem
        exact ⟨entry, j, by rw [List.length_cons]; omega, target⟩
    · rename_i n found
      refine meets_blockOf rfl fun b block => ?_
      refine Meets.bind (P := fun _ _ => True) (meets_of_forall (fun _ _ _ => trivial) fun e f₁ run => ?_)
        fun _ f₁ _ => ?_
      · cases run
      · refine ih.bind ?_
        rintro es f₂ ⟨all, only, length⟩
        refine meets_pure ⟨fun j m le lt target => ?_, List.forall_mem_cons.2 ⟨⟨rfl, k, ?_, found⟩,
          fun x mem => ?_⟩, Nat.succ_le_succ length⟩
        · obtain rfl | less := Nat.eq_or_lt_of_le le
          · obtain rfl := Option.some.inj (found.symm.trans target)
            exact List.mem_cons_self
          · exact List.mem_cons_of_mem _
              (all j m less (by rw [List.length_cons] at lt; omega) target)
        · rw [List.length_cons]
          omega
        · obtain ⟨entry, j, lt, target⟩ := only x mem
          exact ⟨entry, j, by rw [List.length_cons]; omega, target⟩

lemma isDepth_of_modifyBlock {g : Block → Block} : Tolerant (modifyBlock b g) :=
  fun _ => meets_block rfl fun _ _ => meets_last trivial

lemma tolerant_setHandlers {hs : List Nat} : Tolerant (setHandlers b hs) := by
  intro f
  refine meets_get ?_
  split
  · exact meets_throw rfl
  · exact (isDepth_of_modifyBlock f).bind fun _ f₁ _ => meets_last trivial

lemma tolerant_setTerminator {t : Terminator} : Tolerant (setTerminator b t) := by
  intro f
  refine meets_get ?_
  split
  · exact meets_throw rfl
  · exact (isDepth_of_modifyBlock f).bind fun _ f₁ _ => meets_last trivial

lemma tolerant_coverBlocks {ns : List NodeId} : Tolerant (coverBlocks s p ns) := by
  induction ns with
  | nil => exact fun _ => meets_pure trivial
  | cons n ns ih =>
    intro f
    rw [coverBlocks]
    split
    · exact ih f
    · dsimp only
      split
      · exact (tolerant_setHandlers f).bind fun _ f₁ _ => ih f₁
      · exact ih f

lemma meets_seed {body : MethodBody} : (seed s p body).Meets f (fun es _ => Seeds s es)
    fun fault => fault.isDepth = false := by
  rw [seed]
  refine meets_addHandlers.bind ?_
  rintro hs f₁ ⟨all, only, length⟩
  refine (tolerant_coverBlocks f₁).bind fun _ f₂ _ => ?_
  split
  · exact meets_throw rfl
  · rename_i m kind head
    refine meets_blockOf rfl fun b found => ?_
    refine (tolerant_setTerminator f₂).bind fun _ f₃ _ => meets_get (meets_pure ?_)
    refine ⟨⟨m, kind, _, head, List.mem_cons_self, rfl⟩, fun k lt n target => ?_, ?_, ?_⟩
    · exact List.mem_cons_of_mem _ (List.mem_reverse.2 (all k n (Nat.zero_le k) (by omega) target))
    · refine List.forall_mem_cons.2 ⟨.inr ⟨kind, List.mem_of_head? head, _, rfl, rfl⟩, fun x mem => ?_⟩
      obtain ⟨entry, j, lt, target⟩ := only x (List.mem_reverse.1 mem)
      exact .inl ⟨entry, j, by omega, target⟩
    · rw [List.length_cons, List.length_reverse]
      exact Nat.succ_le_succ length

lemma tolerant_removeBlocks {bs : List BlockId} : Tolerant (removeBlocks bs) := by
  induction bs with
  | nil => exact fun _ => meets_pure trivial
  | cons b bs ih =>
    intro f
    rw [removeBlocks, removeBlock]
    split
    · exact meets_throw rfl
    · rw [bind_assoc]
      exact meets_block rfl fun x _ => meets_modify (ih _)

lemma tolerant_partitionFrom {ns : List NodeId} : Tolerant (partitionFrom s.graph ns p) := by
  induction ns generalizing p with
  | nil => exact fun _ => meets_pure trivial
  | cons n ns ih =>
    intro f
    rw [partitionFrom]
    dsimp only
    split
    · exact meets_throw_bind rfl
    · split
      · exact Meets.bind (P := fun _ _ => True) (meets_get (meets_set (meets_pure trivial)))
          fun _ f₁ _ => ih f₁
      · exact ih f

lemma isDepth_of_verify {fault : Fault} (wrong : f.verify = .error fault) : fault.isDepth = false := by
  obtain ⟨id, -, wrong⟩ := exists_of_forM_eq_error wrong
  split at wrong
  · rw [Func.verifyBlock] at wrong
    split at wrong
    · cases wrong
      rfl
    · split at wrong
      · cases wrong
        rfl
      · split at wrong
        · cases wrong
          rfl
        · obtain ⟨v, -, wrong⟩ := exists_of_forM_eq_error wrong
          rw [Func.verifyPhi] at wrong
          split at wrong
          · cases wrong
            rfl
          · dsimp only at wrong
            split at wrong
            · cases wrong
            · cases wrong
              rfl
  · cases wrong

lemma meets_build (paired : s.Paired code handlers) (levels : Levels s level) {body : MethodBody} :
    (build s body).Meets f (fun _ _ => True) fun fault => fault.isDepth = false := by
  rw [build]
  refine Meets.bind (P := fun p _ => p.Exact s.graph) ?_ fun p f₁ exact => ?_
  · exact meets_of_forall (fun p f' run => exact_of_partitionFrom run)
      fun fault f' run => (tolerant_partitionFrom f).of_error run
  refine meets_seed.bind fun es f₂ seeds => ?_
  refine (meets_run paired levels exact ⟨fun x mem => ?_, fun b j none => ?_⟩).bind fun w f₃ _ => ?_
  · rw [Pending.level]
    obtain ⟨entry, k, lt, target⟩ | ⟨kind, edge, frame, entry, depth⟩ := seeds.only x mem
    · rw [entry, levels.handler k lt _ target]
      rfl
    · rw [entry, levels.first _ _ edge]
      exact congrArg some depth.symm
  · cases none
  refine (tolerant_removeBlocks f₃).bind fun _ f₄ _ => ?_
  generalize (fun g : Func => g.removeTrivialPhis.1.removeRedundantCopies.1.removeDeadNodes.1) = tidy
  exact meets_modify (meets_get (meets_ofExcept (fun _ _ => trivial) fun _ => isDepth_of_verify))

end Building

end Avm.Ir.Lift
