import Avm.Proofs.Lift.Forming
import Avm.Proofs.Opt.Upkeep

/-!
# Optimized graphs can be written

An optimization leaves a graph that can be written if it could be written before.  Normalizing adds no
node.  The others add copies, stores, phis and scopes that are left, all of which can be written
anywhere, and the nodes of callees, which are lifted with the same pool.

The main statement is `writable_of_optimize`.
-/

namespace Avm.Opt

open Avm.Ir Avm.Ir.Func Avm.Ir.Edit

variable {f f' callee : Func} {pool : Pool} {ctx : Context} {b target : BlockId}

/-- The optimization keeps the graph in order and does not add what cannot be written. -/
def Pass.Writes (p : Pass) : Prop :=
  ∀ ctx, (p.run ctx).Retains fun f => f.Intact ∧ f.Writable ctx.pool

lemma Pass.writes_of_retains {p : Pass} (keeps : p.Keeps)
    (retains : ∀ ctx, (p.run ctx).Retains (Writable ctx.pool)) : p.Writes := by
  refine fun ctx => retains_of_run fun f report f' start run => ⟨?_, (retains ctx).of_ok start.2 run⟩
  obtain ⟨_, g, run', intact⟩ := keeps ctx f start.1
  obtain ⟨rfl, rfl⟩ := EStateM.Result.ok.inj (run.symm.trans run')
  exact intact

lemma Pass.writes_of_lessens {p : Pass} (keeps : p.Keeps) (lessens : p.Lessens) : p.Writes := by
  refine fun ctx => retains_of_run fun f report f' start run => ?_
  obtain ⟨_, g, run', intact⟩ := keeps ctx f start.1
  obtain ⟨rfl, rfl⟩ := EStateM.Result.ok.inj (run.symm.trans run')
  have less := (lessens ctx f).of_ok ⟨.refl f, start.1.toListed⟩ run
  exact ⟨intact, less.writable _ start.2⟩

namespace Hoisting

lemma pass_writes : pass.Writes :=
  Pass.writes_of_retains pass_keeps fun _ => retains_get fun _ start =>
    meets_hoistAll (retains_hoist (fun _ _ _ => retains_moveNode) fun _ _ _ => retains_splitEdge) start

end Hoisting

namespace TailCall

lemma eliminate_writable {call : ReceiverCall} : (eliminate call).Retains (Writable pool) := by
  have storeAll {l} : (storeAll call.block l).Retains (Writable pool) :=
    retains_storeAll fun e _ => retains_appendNode (NodeKind.writable_store e.1 e.2)
  refine retains_get fun f start => meets_of_retains (Retains.bind ?_ fun args => retains_removeNode.bind fun _ =>
    ?_) start
  · exact retains_saveArgs fun _ x => retains_insertNode (NodeKind.writable_copy x)
  refine storeAll.bind fun _ => storeAll.bind fun _ => retains_get fun f start => ?_
  refine meets_of_retains ((retains_popScopes (retains_appendNode NodeKind.writable_pop) _).bind fun _ => ?_) start
  refine Retains.bind (retains_modifyBlock fun _ same => same) fun _ => ?_
  refine (retains_start fun _ _ _ => retains_splitEdge).bind fun _ => ?_
  exact Retains.bind (retains_setTerminator trivial) fun _ => retains_pure

lemma pass_writes : pass.Writes :=
  Pass.writes_of_retains pass_keeps fun _ => retains_get fun _ start =>
    meets_eliminateAll (fun f _ _ start _ => eliminate_writable f start) start

end TailCall

namespace Inlining

variable {p : Placement} {k : NodeKind}

lemma effect_remapDebug (pool : Pool) (g : Nat → Nat) (i : Instruction Marker) :
    (NodeKind.remapDebug g i).opcode = i.opcode ∧
      (NodeKind.remapDebug g i).effect pool = i.effect pool := by
  rw [NodeKind.remapDebug]
  split
  · rename_i kind name register extra ops
    refine ⟨rfl, ?_⟩
    have argCount {o : Opcode} {r : UInt8} :
        (⟨o, .debug kind name r extra⟩ : Instruction Marker).argCount? = none := by
      cases o <;> rfl
    obtain ⟨o, ops'⟩ := i
    dsimp only at ops
    subst ops
    simp only [Instruction.effect, Instruction.argumentSlots, Instruction.nameSlots, argCount]
    rfl
  · exact ⟨rfl, rfl⟩

lemma writable_remapRegisters {g : Nat → Nat} (h : k.Writable pool) :
    (k.remapRegisters g).Writable pool := by
  cases k with
  | store register value => exact NodeKind.writable_store _ _
  | hasNext2 object index => exact NodeKind.writable_hasNext2 _ _
  | debug i =>
    intro j here
    obtain rfl := Option.some.inj here
    obtain ⟨opcode, effect⟩ := effect_remapDebug pool g i
    rw [opcode, effect]
    exact h i rfl
  | _ => exact h.mapOperands (g := Value.mapRegister g)

lemma Placement.writable_kind (h : k.Writable pool) : (p.kind k).Writable pool := by
  have renamed := (writable_remapRegisters (g := (· + p.base)) h).mapOperands
    (g := Value.mapNode fun id => (p.values.lookup id).getD id)
  rw [Placement.kind]
  generalize (k.remapRegisters (· + p.base)).mapOperands _ = k' at renamed
  cases k' with
  | phi inputs => exact NodeKind.writable_phi _
  | _ => exact renamed

lemma Placement.writable_terminator {t : Terminator} (h : t.Writable) : (p.terminator t).Writable :=
  Terminator.Writable.mapTargets (Terminator.writable_mapOperands.2 h) _

lemma writable_rename {v : ValueId} (h : f.Writable pool) : (f.modifyKind v p.kind).Writable pool := by
  refine h.of_ends (fun t => ?_) fun w k here => .inr ?_
  · exact h.ends t
  · obtain ⟨n, found, rfl⟩ := Option.map_eq_some_iff.1 here
    rw [NodeKind.writable_shape]
    simp only [modifyKind, node?_modifyNode] at found
    split at found
    · obtain ⟨n', found', rfl⟩ := Option.map_eq_some_iff.1 found
      refine Placement.writable_kind (h.kind (v := w) ?_)
      rw [kind?, found']
      rfl
    · refine h.kind (v := w) ?_
      rw [kind?, found]
      rfl

lemma endures_writable (h : callee.Writable pool) : Endures callee (Writable pool) where
  addBlock := retains_addBlock
  addHandler _ := retains_addHandler
  reserve _ := retains_reserveRegisters
  store _ r x := retains_appendNode (NodeKind.writable_store r x)
  pop _ := retains_appendNode NodeKind.writable_pop
  copy _ _ _ found := retains_appendNode (h.kind found)
  merge _ is := retains_appendNode (NodeKind.writable_phi is)
  depth _ _ := retains_modifyBlock fun _ same => same
  cover _ _ := retains_setHandlers
  finish _ _ _ _ here := retains_setTerminator (Placement.writable_terminator (h.block here))
  jump _ _ := retains_setTerminator trivial
  rename _ _ _ := writable_rename
  replace f _ _ start := (Steady.replaceUses f _ _).writable _ start
  remove _ := retains_removeNode
  trim f start := (steady_removeTrivialPhis f).writable _ start

lemma pass_writes : pass.Writes := by
  refine Pass.writes_of_retains pass_keeps fun ctx => retains_get fun f start => ?_
  refine Meets.bind (P := fun _ g => g.Writable ctx.pool) ?_ fun _ _ h => meets_pure h
  refine meets_expandAll (fun f v call callee h _ chosen => ?_) start
  obtain ⟨⟨body, lifted⟩, -⟩ := lift_of_candidate chosen
  exact (endures_writable (body.writable_of_lift lifted)).expand (retains_splitBlock f h)

end Inlining

lemma Pass.writes_of_mem {p : Pass} (mem : p ∈ Pass.all) : p.Writes :=
  of_mem_all mem (writes_of_lessens Folding.pass_keeps Folding.pass_lessens)
    (writes_of_lessens Copying.pass_keeps Copying.pass_lessens)
    (writes_of_lessens DeadCode.pass_keeps DeadCode.pass_lessens)
    Hoisting.pass_writes TailCall.pass_writes Inlining.pass_writes

lemma writable_of_optimize {body : MethodBody} {env : Environment} {config : Config} {o : Optimized}
    (optimized : body.optimize pool env config = .ok o) : o.func.Writable pool := by
  obtain ⟨f, lifted, reached⟩ := reaches_of_optimize optimized
  suffices h : o.func.Intact ∧ o.func.Writable pool from h.2
  generalize o.func = g at reached
  induction reached with
  | refl => exact ⟨intact_of_lift lifted, body.writable_of_lift lifted⟩
  | step _ mem run ih => exact (Pass.writes_of_mem mem _).of_ok ih run

end Avm.Opt
