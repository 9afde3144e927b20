import Avm.Proofs.Emit.Closing
import Avm.Proofs.Opt.Confining

/-!
# Results spare the registers of a method

The registers in which results of nodes are saved lie above those of the method, and no two nodes share one.  Each
instruction that is written sets registers of the method because a node does, or it saves the result of a node.  So what
saves a result leaves the registers of the method and the results of other nodes as they are.

The main statements are `spares_of_emit`, and `spares_of_reaches` for whatever a lifted graph becomes.
-/

namespace Avm.Emit

open Avm.Ir Avm.Ir.Func

variable {f g : Func} {p : Plan} {d d' : Draft} {v : ValueId} {b target : BlockId} {kind : EdgeKind} {pool : Pool}
  {i : Instruction Marker} {temps : List (ValueId × Nat)}

section Setting

lemma sets_getLocal (r : Register) : (.getLocal r : Instruction Marker).sets = [] := by
  match r with
  | 0 | 1 | 2 | 3 | _ + 4 => rfl

/-- An instruction sets registers because a node does, or it saves the result of a node. -/
lemma Purpose.sets (h : Purpose p temps i) (own : ∀ v k, p.func.kind? v = some k → k.SetsOwn) :
    (∀ r ∈ i.sets, ∃ v k, p.func.kind? v = some k ∧ r ∈ k.written) ∨
      ∃ v r, temps.lookup v = some r ∧ i = .setLocal r ∧ i.sets = [r] := by
  cases h with
  | pushes made =>
    have none : ∀ o ∈ constantOpcodes, o.isSetter = false := by decide
    rw [Instruction.sets_of_isSetter (none _ (constant_eq_ok made).1)]
    exact .inl nofun
  | fetches r =>
    rw [sets_getLocal]
    exact .inl nofun
  | saves known => exact .inr ⟨_, _, known, rfl, Instruction.sets_setLocal _⟩
  | does does same => exact .inl fun r mem => ⟨_, _, does, own _ _ does _ same r mem⟩
  | empties does => exact .inl fun r mem => ⟨_, _, does, mem⟩
  | drops | marks => exact .inl nofun

lemma Closes.sets {t : Terminator} {ks : List (Instruction Marker)} (h : Closes p b t ks) : ∀ i ∈ ks, i.sets = [] := by
  have branches (kind : BranchKind) (m : Marker) : (.branch kind.opcode m : Instruction Marker).sets = [] :=
    Instruction.sets_of_isSetter (by cases kind <;> rfl)
  cases h with
  | falls => exact List.forall_mem_nil _
  | jumps | switches | leaves | returns | raises => exact List.forall_mem_singleton.2 rfl
  | @inverts kind _ _ _ _ _ inverse =>
    refine List.forall_mem_singleton.2 (Instruction.sets_of_isSetter ?_)
    cases kind <;> cases inverse <;> rfl
  | branches => exact List.forall_mem_singleton.2 (branches _ _)
  | parts => exact List.forall_mem_cons.2 ⟨branches _ _, List.forall_mem_singleton.2 rfl⟩

end Setting

/-- The result of a node is saved in the register of the node. -/
def Draft.Saves (d : Draft) (v : ValueId) : Prop := ∃ r, d.temps.lookup v = some r ∧ .setLocal r ∈ d.written

lemma Draft.Saves.mono (h : d.Saves v) (grows : Draft.Grows p d d') : d'.Saves v := by
  obtain ⟨r, known, mem⟩ := h
  exact ⟨r, grows.temps v r known, grows.written.subset mem⟩

namespace Write

lemma exists_node_of_front {u : Unit} (run : (front (Plan.ofFunc f) b).run d = .ok u d') (mem : v ∈ f.body b) :
    ∃ d₁ d₂, (node (Plan.ofFunc f) v).run d₁ = .ok () d₂ ∧ Draft.Grows (Plan.ofFunc f) d₂ d' := by
  obtain ⟨d₁, -, run⟩ := puts_behind run
  obtain ⟨d₂, -, nodes⟩ := puts_behind run
  obtain ⟨d₃, d₄, -, here, grows⟩ := exists_node_of_nodes nodes mem
  exact ⟨d₃, d₄, here, grows⟩

/-- A result that is used is saved, unless it stays on the operand stack. -/
lemma saves_of_front {u : Unit} (run : (front (Plan.ofFunc f) b).run d = .ok u d') (mem : v ∈ f.body b)
    (result : (f.kind? v).any NodeKind.producesValue = true) (used : (Plan.ofFunc f).isUsed v = true)
    (off : v ∉ (Plan.ofFunc f).onStack) : d'.Saves v := by
  obtain ⟨d₁, d₂, run, grows⟩ := exists_node_of_front run mem
  refine Draft.Saves.mono ?_ grows
  obtain ⟨k, d₃, js, does, -, -, written, settles⟩ := node_eq_ok run
  rw [does] at result
  cases settles with
  | stays on => exact absurd (on.2 result) off
  | moves _ _ known =>
    refine ⟨_, known, ?_⟩
    rw [written]
    exact List.mem_append_right _ List.mem_cons_self
  | drops _ _ unused =>
    rw [unused] at used
    cases used

lemma saves_of_popInto {u : Unit} {vs : List ValueId}
    (results : ∀ v ∈ vs, (p.func.kind? v).any NodeKind.producesValue = true) (run : (popInto vs).run d = .ok u d') :
    ∀ v ∈ vs, d'.Saves v := by
  induction vs generalizing d with
  | nil => exact List.forall_mem_nil _
  | cons v vs ih =>
    obtain ⟨r, d₁, asked, rest⟩ := bind_eq_ok.1 run
    obtain ⟨_, d₂, pushed, rest⟩ := bind_eq_ok.1 rest
    obtain ⟨-, results⟩ := List.forall_mem_cons.1 results
    have put := puts_push pushed
    refine List.forall_mem_cons.2 ⟨Draft.Saves.mono ?_ ((isMade_popInto results).isGrowth _ _ _ rest), ih results rest⟩
    refine ⟨r, by rw [put.temps, lookup_of_temp asked], ?_⟩
    rw [put.written]
    exact List.mem_append_right _ List.mem_cons_self

/-- At the end of a block that goes on to one other block, what the phis there take is saved. -/
lemma saves_of_terminator {u : Unit} {t : Terminator} (only : Plan.onlyEdge? t = some (kind, target))
    (run : (terminator p b t).run d = .ok u d') (mem : v ∈ p.func.phis target) (phi : (p.func.inputs? v).isSome)
    (used : p.isUsed v = true) : d'.Saves v := by
  have moves (run : (do moves p b kind target; jumpTo p b target).run d = .ok u d') : d'.Saves v := by
    obtain ⟨_, d₁, moved, last⟩ := bind_eq_ok.1 run
    refine Draft.Saves.mono ?_ ((isMade_jumpTo b target).isGrowth _ _ _ last)
    obtain ⟨ms, d₂, asked, rest⟩ := bind_eq_ok.1 moved
    obtain ⟨listed, rfl⟩ := ofExcept_eq_ok.1 asked
    obtain ⟨_, d₃, -, pops⟩ := bind_eq_ok.1 rest
    have listed := (Plan.phiMoves_eq_ok listed).1
    have results : ∀ w ∈ (ms.map (·.1)).reverse, (p.func.kind? w).any NodeKind.producesValue = true := by
      intro w mem
      rw [List.mem_reverse, listed, List.mem_filter] at mem
      exact producesValue_of_inputs? mem.2
    refine saves_of_popInto results pops v ?_
    rw [List.mem_reverse, listed]
    exact List.mem_filter.2 ⟨List.mem_filter.2 ⟨mem, used⟩, phi⟩
  cases t with
  | goto => cases only; exact moves run
  | jump => cases only; exact moves run
  | _ => cases only

end Write

/-- What the instructions of a graph do to registers, where results of nodes have registers as given. -/
structure Spares (g : Func) (temps : List (ValueId × Nat)) (is : List (Instruction Marker)) : Prop where
  /-- Results are saved above the registers of the method. -/
  above : ∀ v r, temps.lookup v = some r → g.locals ≤ r
  /-- No two nodes share a register. -/
  distinct : ∀ v w r, temps.lookup v = some r → temps.lookup w = some r → v = w
  /-- An instruction sets registers of the method because a node does, or it saves the result of a node, and sets the
  register of that node only. -/
  sets : ∀ i ∈ is, (∀ r ∈ i.sets, r < g.locals ∧ ∃ v k, g.kind? v = some k ∧ r ∈ k.written) ∨
    ∃ v r, temps.lookup v = some r ∧ i = .setLocal r ∧ i.sets = [r]
  /-- Results that are used are saved, unless they stay on the operand stack. -/
  results : ∀ b ∈ order g, ∀ v ∈ g.body b, (g.kind? v).any NodeKind.producesValue = true →
    (Plan.ofFunc g).isUsed v = true → v ∉ (Plan.ofFunc g).onStack → ∃ r, temps.lookup v = some r ∧ .setLocal r ∈ is
  /-- What phis take that are used is saved at the ends of the blocks before. -/
  phis : ∀ b ∈ order g, ∀ kind target, Plan.onlyEdge? (g.terminator b) = some (kind, target) → ∀ v ∈ g.phis target,
    (g.inputs? v).isSome → (Plan.ofFunc g).isUsed v = true → ∃ r, temps.lookup v = some r ∧ .setLocal r ∈ is

lemma speaks_splitEdges {V : Vocabulary} (stable : V.Stable) (loose : V.Loose)
    (es : List (BlockId × BlockId × EdgeKind)) :
    (splitEdges es).Retains (Speaks V) := by
  induction es with
  | nil => exact Edit.retains_pure
  | cons e es ih => exact (Edit.speaks_splitEdge stable loose).bind fun _ => ih

/-- When a graph is written that names only its registers, the registers of results are spared, as
long as all of them are numbered by words. -/
theorem spares_of_emit {code : Code} (confined : f.Confined) (emitted : (emit f pool).1 = .ok code) :
    ∃ g d, splitCriticalEdges.run f = .ok () g ∧ g.locals = f.locals ∧
      (Write.blocks (Plan.ofFunc g) (order g)).run (.start (Plan.ofFunc g) pool) = .ok () d ∧
        d.written = code.instrs.map (·.2) ∧ (d.Room (Plan.ofFunc g) → Spares g d.temps d.written) := by
  obtain ⟨g, d, split, run, rfl⟩ := exists_all_of_emit emitted
  have speaks : g.Speaks (.below f.params f.locals) := by
    have retains : splitCriticalEdges.Retains (Speaks (.below f.params f.locals)) :=
      Edit.retains_get fun _ h => Edit.meets_of_retains
        (speaks_splitEdges Vocabulary.stable_among Vocabulary.loose_among _) h
    exact retains.of_ok confined.speaks split
  have locals : g.locals = f.locals := speaks.locals
  have once : (Plan.ofFunc g).order.Nodup := nodup_order g
  obtain ⟨e, hs, written, ⟨instrs, -⟩, -⟩ := entries_of_all once run
  have apart : e.Apart (Plan.ofFunc g) := Write.apart_of_blocks written
  refine ⟨g, e, split, locals, written, congrArg (List.map Prod.snd) instrs.symm, fun room => ?_⟩
  have owned := apart.owned room
  refine ⟨owned.above, owned.inj, fun i mem => ?_, fun b placed v mem result used off => ?_,
    fun b placed kind target only v mem phi used => ?_⟩
  · obtain ⟨q, there⟩ := List.mem_iff_getElem?.1 mem
    have inside : q < e.code.size := by
      rw [← e.length_written]
      exact (List.getElem?_eq_some_iff.1 there).1
    obtain ⟨j, b, js, ks, s, t, holds, above, below⟩ := exists_holds_of_lt once written inside
    obtain ⟨before, after, parts, rfl, stop⟩ := holds.within
    rw [parts, List.append_assoc, List.getElem?_append_right above, List.getElem?_append_left (by omega)] at there
    rcases List.mem_append.1 (List.mem_of_getElem? there) with front | last
    · refine ((holds.meant i front).sets fun v k here => (speaks.kinds v k here).1).imp_left fun sets r mem => ?_
      obtain ⟨v, k, here, writes⟩ := sets r mem
      refine ⟨?_, v, k, here, writes⟩
      rw [locals]
      exact (speaks.kinds v k here).2 r (NodeKind.mem_registers.2 (.inl writes))
    · rw [holds.closes.sets i last]
      exact .inl nofun
  · obtain ⟨j, placed⟩ := List.mem_iff_getElem?.1 placed
    obtain ⟨before, after, m, d₁, d₂, -, -, -, here, grows, -⟩ := exists_block once written placed
    obtain ⟨-, d₃, front, last⟩ := Write.block_eq_ok.1 here
    have saves := Write.saves_of_front front mem result used off
    exact (saves.mono ((Write.isMade_terminator b _).isGrowth _ _ _ last)).mono grows
  · obtain ⟨j, placed⟩ := List.mem_iff_getElem?.1 placed
    obtain ⟨before, after, m, d₁, d₂, -, -, -, here, grows, -⟩ := exists_block once written placed
    obtain ⟨-, d₃, front, last⟩ := Write.block_eq_ok.1 here
    have saves : d₂.Saves v := Write.saves_of_terminator only last mem phi used
    exact saves.mono grows

/-- The registers of a method, of the callees that are expanded in it, and of results are kept apart.  Whatever a lifted
graph becomes by optimizations names only registers that it has.  Inlining expands one call after
another, and each callee gets registers of its own above those that there are.  And when the graph
is written, each result that is saved has a register of its own above those, as long as there are
words for all of them. -/
theorem spares_of_reaches {body : MethodBody} {lifting : Pool} {config : Config} {ctx : Opt.Context}
    (lifted : body.lift lifting config = .ok f) (reached : Opt.Reaches ctx f g) :
    (∀ r, g.Names r → r < g.locals) ∧
      ((∀ report g', (Opt.Inlining.pass.run ctx).run g = .ok report g' → Opt.Inlining.Chain ctx g g') ∧
        ∀ h v call callee tail h', Opt.Inlining.Chain ctx g h → Opt.ReceiverCall.ofNode? h ctx.pool v = some call →
          (Opt.Inlining.candidate ctx h call).1 = some callee → (Opt.Inlining.expand call callee).run h = .ok tail h' →
            Opt.Inlining.Expands h callee h' ∧ ∀ r, h'.Names r → r < h'.locals) ∧
      ∀ pool code, (emit g pool).1 = .ok code → ∃ g' d, splitCriticalEdges.run g = .ok () g' ∧ g'.locals = g.locals ∧
        (Write.blocks (Plan.ofFunc g') (order g')).run (.start (Plan.ofFunc g') pool) = .ok () d ∧
          d.written = code.instrs.map (·.2) ∧ (d.Room (Plan.ofFunc g') → Spares g' d.temps d.written) := by
  have confined : g.Confined := Opt.confined_of_reaches lifted reached
  refine ⟨fun _ => confined.speaks.names, ⟨fun _ _ run => Opt.Inlining.pass_chain.of_ok run, ?_⟩,
    fun _ _ emitted => spares_of_emit confined emitted⟩
  intro h v call callee tail h' chain calls chosen run
  obtain ⟨expands, confined'⟩ := Opt.Inlining.expands_of_expand (chain.confined confined) calls chosen run
  exact ⟨expands, fun _ => confined'.speaks.names⟩

open Opt Opt.Inlining in
/-- The callee gets two registers above the two of its caller, and the phi of what it returns gets the next one. -/
theorem spares_of_reaches_caller : ∃ f g call callee tail code g', ∃ d : Draft, caller.lift {} {} = .ok f ∧
    Opt.Reaches ⟨caller.method, {}, choosing, {}⟩ f g ∧ f.locals = 2 ∧ g.locals = 4 ∧ (∀ r, g.Names r → r < g.locals) ∧
      ReceiverCall.ofNode? f {} 0 = some call ∧ (candidate ⟨caller.method, {}, choosing, {}⟩ f call).1 = some callee ∧
        (∃ h, (expand call callee).run f = .ok tail h ∧ Expands f callee h) ∧ (emit g {}).1 = .ok code ∧
          splitCriticalEdges.run g = .ok () g' ∧ .setLocal 4 ∈ code.instrs.map (·.2) ∧ d.Room (Plan.ofFunc g') ∧
            Spares g' d.temps (code.instrs.map (·.2)) := by
  have facts : (caller.lift {} {}).toOption.any (fun f => decide (f.locals = 2) &&
      (ReceiverCall.ofNode? f {} 0).any fun call =>
        (candidate ⟨caller.method, {}, choosing, {}⟩ f call).1.any fun callee =>
          ((expand call callee).succeedsWith f fun _ _ => true) &&
            (Inlining.pass.run ⟨caller.method, {}, choosing, {}⟩).succeedsWith f fun _ g =>
              decide (g.locals = 4) && ((emit g {}).1.toOption.any fun code =>
                (code.instrs.map (·.2)).contains (.setLocal 4)) && splitCriticalEdges.succeedsWith g fun _ g' =>
                  (Draft.behind? (Write.blocks (Plan.ofFunc g') (order g')) (.start (Plan.ofFunc g') {})).any fun d =>
                    decide (d.Room (Plan.ofFunc g'))) = true := by decide +kernel
  obtain ⟨f, lifted, ok⟩ := exists_of_toOption facts
  obtain ⟨few, ok⟩ := Bool.and_eq_true_iff.1 ok
  obtain ⟨call, calls, ok⟩ := (Option.any_eq_true _ _).1 ok
  obtain ⟨callee, chosen, ok⟩ := (Option.any_eq_true _ _).1 ok
  obtain ⟨once, ok⟩ := Bool.and_eq_true_iff.1 ok
  obtain ⟨tail, h, run, -⟩ := Edit.exists_of_succeedsWith once
  obtain ⟨report, g, inlined, ok⟩ := Edit.exists_of_succeedsWith ok
  obtain ⟨ok, fits⟩ := Bool.and_eq_true_iff.1 ok
  obtain ⟨more, ok⟩ := Bool.and_eq_true_iff.1 ok
  obtain ⟨code, emitted, saved⟩ := exists_of_toOption ok
  obtain ⟨_, g₁, split₁, fits⟩ := Edit.exists_of_succeedsWith fits
  obtain ⟨d₁, written₁, room⟩ := (Option.any_eq_true _ _).1 fits
  have reached : Opt.Reaches ⟨caller.method, {}, choosing, {}⟩ f g := .step .refl (by simp [Pass.all]) inlined
  obtain ⟨-, ⟨-, expands⟩, -⟩ := spares_of_reaches lifted (.refl : Opt.Reaches ⟨caller.method, {}, choosing, {}⟩ f f)
  obtain ⟨names, -, written⟩ := spares_of_reaches lifted reached
  obtain ⟨g', d, split, -, blocks, same, spares⟩ := written {} code emitted
  obtain rfl : g₁ = g' := (EStateM.Result.ok.inj (split₁.symm.trans split)).2
  obtain rfl : d₁ = d := (EStateM.Result.ok.inj ((Draft.behind?_eq_some.1 written₁).symm.trans blocks)).2
  have room : d₁.Room (Plan.ofFunc g₁) := of_decide_eq_true room
  exact ⟨f, g, call, callee, tail, code, g₁, d₁, lifted, reached, of_decide_eq_true few, of_decide_eq_true more, names,
    calls, chosen, ⟨h, run, (expands f 0 call callee tail h .refl calls chosen run).1⟩, emitted, split,
    List.contains_iff_mem.1 saved, room, same ▸ spares room⟩

end Avm.Emit
