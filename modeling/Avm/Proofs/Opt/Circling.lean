import Avm.Proofs.Opt.Ranking

/-!
# Methods that call each other

Two methods that call each other are expanded without end: each is expanded in place of the call that the
other one brings along.  Neither calls itself, and none of them calls the method in which they are expanded,
so both are taken for methods that are not recursive.

The main statement is `not_settles`.
-/

namespace Avm.Opt.Inlining

open Avm.Ir Avm.Ir.Func Avm.Ir.Edit

variable {f : Func} {v : ValueId}

section Files

variable {b : BlockId}

lemma filed_appendNode {k : NodeKind} : (appendNode b k).Retains Filed := retains_of_run fun f a f' filed run => by
  obtain ⟨live, -, rfl⟩ := appendNode_eq_ok.1 run
  exact filed.putNode live fits_place

lemma filed_setTerminator {t : Terminator} : (setTerminator b t).Retains Filed :=
  retains_of_run fun f a f' filed run => by
    obtain ⟨-, -, rfl⟩ := setTerminator_eq_ok.1 run
    exact filed.sameNodes sameNodes_reend

lemma filed_setDepth {g : Block → Nat} : (modifyBlock b fun t => { t with scopeDepth := g t }).Retains Filed :=
  retains_of_run fun f a f' filed run => by
    obtain ⟨-, rfl⟩ := modifyBlock_eq_ok.1 run
    exact filed.sameNodes (sameNodes_modifyBlock (fun _ => rfl) fun _ => rfl)

lemma filed_rename (p : Placement) (f : Func) (v : ValueId) (filed : f.Filed) : (f.modifyKind v p.kind).Filed := by
  have node (w) : (f.modifyKind v p.kind).node? w =
      if v = w then (f.node? w).map fun n => { n with kind := p.kind n.kind } else f.node? w := node?_modifyNode
  refine filed.sameNodes ⟨rfl, fun _ => rfl, fun _ => rfl, fun _ => rfl, rfl, fun w => ?_, fun w => ?_⟩
  · rw [node]
    split
    · rw [Option.map_map]
      rfl
    · rfl
  · rw [inputs?_eq, inputs?_eq, node]
    split
    · cases f.node? w with
      | none => rfl
      | some n =>
        rw [Option.map_some, Option.bind_some, Option.bind_some]
        cases n.kind <;> rfl
    · rfl

lemma filed_removeTrivialPhis (f : Func) (filed : f.Filed) : f.removeTrivialPhis.1.Filed :=
  removeTrivialPhis_keeps (fun _ p x filed _ => (filed.sameNodes (alike_replaceUses p x).toSameNodes).dropNode p) filed

lemma endures_filed {callee : Func} : Endures callee Filed where
  addBlock := retains_of_run fun f a f' filed run => by
    obtain ⟨-, rfl⟩ := addBlock_eq_ok.1 run
    exact filed.pushBlock
  addHandler _ := retains_of_run fun f a f' filed run => by
    obtain ⟨-, rfl⟩ := addHandler_eq_ok.1 run
    exact { filed with }
  reserve _ := retains_of_run fun f a f' filed run => by
    obtain ⟨-, rfl⟩ := reserveRegisters_eq_ok.1 run
    exact { filed with }
  store _ _ _ := filed_appendNode
  pop _ := filed_appendNode
  copy _ _ _ _ := filed_appendNode
  merge _ _ := filed_appendNode
  depth _ _ := filed_setDepth
  cover _ _ := retains_of_run fun f a f' filed run => by
    obtain ⟨-, -, rfl⟩ := setHandlers_eq_ok.1 run
    exact filed.sameNodes sameNodes_reend
  finish _ _ _ _ _ := filed_setTerminator
  jump _ _ := filed_setTerminator
  rename := filed_rename
  replace _ v x filed := filed.sameNodes (alike_replaceUses v x).toSameNodes
  remove v := retains_of_run fun f a f' filed run => by
    obtain ⟨-, rfl⟩ := removeNode_eq_ok.1 run
    exact filed.dropNode v
  trim := filed_removeTrivialPhis

lemma expand_filed {call : ReceiverCall} {callee : Func} (intact : f.Intact) (filed : f.Filed)
    (live : (f.block? call.block).isSome) (place : call.position ≤ (f.body call.block).length) :
    (expand call callee).Meets f (fun _ g => g.Filed) fun _ => True := by
  refine endures_filed.expand (meets_of_forall (fun tail f' run => ?_) fun _ _ _ => trivial)
  rw [splitBlock_eq_ok intact live place] at run
  obtain ⟨-, rfl⟩ := EStateM.Result.ok.inj run
  exact filed.cut live

end Files

section Circles

/-- Two methods that call each other, as a third one sees them. -/
def circling : Context := ⟨0, {}, ((MethodTable.addBody {} (forwards 1 2)).addBody (forwards 2 1)).environment, {}⟩

/-- Calls of one of the two weigh something. -/
def circle : Weights := fun opcode index argCount n =>
  if opcode = .callStatic ∧ (index = 1 ∨ index = 2) ∧ argCount = 0 ∧ n = 1 then 1 else 0

/-- A callee that may be expanded anywhere but in method 2, and brings one call of one of the two along. -/
def turns (callee : Func) : Bool :=
  decide (callee.nodeCount ≤ circling.config.inlineThreshold) && !needsCall callee.flags && callee.params == 0 &&
    returns callee && callee.handlers.isEmpty && !isRecursive circling 0 callee &&
    burden circle callee (Func.entry :: callee.blockIds.filter fun b => b != Func.entry && b != Func.exit) == 1

lemma callee?_circling (t : MethodId) : (circling.callee? t).all turns = true ∧
    ((circling.callee? t).isSome = true ↔ t = 1 ∨ t = 2) := by
  match t with
  | 1 => exact ⟨by decide +kernel, iff_of_true (by decide +kernel) (.inl rfl)⟩
  | 2 => exact ⟨by decide +kernel, iff_of_true (by decide +kernel) (.inr rfl)⟩
  | 0 => exact ⟨rfl, iff_of_false nofun nofun⟩
  | t + 3 => exact ⟨rfl, iff_of_false nofun nofun⟩

/-- A graph of method 0 with one call of one of the two. -/
structure Turning (f : Func) : Prop where
  intact : f.Intact
  filed : f.Filed
  own : f.method = 0
  load : f.weighs circle = 1

variable {call : ReceiverCall}

lemma candidate_of_circle (own : f.method = 0) (found : ReceiverCall.ofNode? f circling.pool v = some call)
    (heavy : 0 < f.weight circle v) : ∃ callee, (candidate circling f call).1 = some callee := by
  obtain ⟨-, opcode, index, here, named⟩ := ofNode?_eq_some found
  rw [weight_of_kind? here, NodeKind.weight, circle] at heavy
  split at heavy
  · rename_i static
    obtain ⟨rfl, member, bare, -⟩ := static
    rw [List.length_eq_zero_iff] at bare
    have target : call.target? circling.env f.method = some index := by
      have dispatch : call.dispatch = .static index := (Option.some.inj named).symm
      rw [ReceiverCall.target?, dispatch]
      rfl
    obtain ⟨fine, known⟩ := callee?_circling index
    obtain ⟨callee, known⟩ := Option.isSome_iff_exists.1 (known.2 member)
    rw [known, Option.all_some, turns] at fine
    simp only [Bool.and_eq_true, Bool.not_eq_true'] at fine
    obtain ⟨⟨⟨⟨⟨⟨small, plain⟩, params⟩, leaves⟩, bald⟩, straight⟩, -⟩ := fine
    have other : index ≠ 0 := by omega
    have fits : fits circling f call callee = true := by
      rw [Inlining.fits, small, plain, leaves, bald, bare, beq_iff_eq.1 params]
      rfl
    refine ⟨callee, ?_⟩
    rw [candidate, target]
    dsimp only
    rw [own, if_neg other, known]
    dsimp only
    rw [fits, straight]
    rfl
  · exact absurd heavy (Nat.lt_irrefl 0)

lemma turns_of_candidate (found : ReceiverCall.ofNode? f circling.pool v = some call) {callee : Func}
    (chosen : (candidate circling f call).1 = some callee) :
    f.weight circle v = 1 ∧
      burden circle callee (Func.entry :: callee.blockIds.filter fun b => b != Func.entry && b != Func.exit) = 1 := by
  obtain ⟨t, target, known⟩ := known_of_candidate chosen
  obtain ⟨fine, iff⟩ := callee?_circling t
  have member := iff.1 (by rw [known]; rfl)
  rw [known, Option.all_some, turns] at fine
  simp only [Bool.and_eq_true, Bool.not_eq_true', beq_iff_eq] at fine
  have bare : call.args.length = 0 := by
    have fit := (lift_of_candidate chosen).2
    simp only [Inlining.fits, Bool.and_eq_true, beq_iff_eq] at fit
    exact fit.1.1.2.trans fine.1.1.1.1.2
  refine ⟨?_, fine.2⟩
  obtain ⟨-, opcode, index, here, named⟩ := ofNode?_eq_some found
  -- The tables know no properties and no slots.
  have static : call.dispatch = .static t := by
    rw [ReceiverCall.target?, Environment.resolveCall] at target
    cases dispatch : call.dispatch with
    | static n =>
      simp only [dispatch] at target
      exact congrArg Dispatch.static (Option.some.inj target)
    | _ => cases own : call.onReceiver <;> simp [dispatch, own, circling, MethodTable.environment, MethodTable.resolve,
        MethodTable.addBody] at target
  have spelled : opcode = .callStatic ∧ index = t := by
    rw [static] at named
    cases opcode with
    | callStatic =>
      cases named
      exact ⟨rfl, rfl⟩
    | callProperty | callPropLex | callPropVoid => simp [ReceiverCall.dispatch?] at named
    | _ => cases named
  rw [weight_of_kind? here, NodeKind.weight, circle, bare, List.length_cons, bare, spelled.1, spelled.2]
  exact if_pos ⟨rfl, member, rfl, rfl⟩

lemma expandAll_turning (vs : List ValueId) (f : Func) (report : Report) (turning : Turning f) :
    (expandAll circling vs report).Meets f (fun r g => Turning g ∧ report.changes ≤ r.changes ∧
      ((∃ v ∈ vs, 0 < f.weight circle v ∧ ∃ call, ReceiverCall.ofNode? f circling.pool v = some call) →
        report.changes < r.changes)) fun _ => True := by
  induction vs generalizing f report with
  | nil => exact meets_pure ⟨turning, Nat.le_refl _, fun ⟨v, mem, _⟩ => absurd mem List.not_mem_nil⟩
  | cons v vs ih =>
    refine meets_get ?_
    split
    · rename_i missing
      refine (ih f report turning).imp (fun r g rest => ⟨rest.1, rest.2.1, fun some => rest.2.2 ?_⟩) fun _ _ => trivial
      obtain ⟨w, mem, heavy, call, found⟩ := some
      cases List.mem_cons.1 mem with
      | inl here =>
        rw [here, missing] at found
        cases found
      | inr later => exact ⟨w, later, heavy, call, found⟩
    · rename_i call found
      refine meets_get ?_
      have quiet := changes_candidate circling f call
      have chooses := candidate_of_circle turning.own found
      have swaps (callee) (chosen : (candidate circling f call).1 = some callee) := turns_of_candidate found chosen
      have fine (callee) (chosen : (candidate circling f call).1 = some callee) := intact_of_candidate chosen
      generalize candidate circling f call = c at quiet chooses swaps fine ⊢
      obtain ⟨chosen, noticed⟩ := c
      dsimp only at quiet chooses swaps fine ⊢
      cases chosen with
      | none =>
        have rest := ih f (report.andThen noticed) turning
        rw [Report.changes_andThen, quiet, Nat.add_zero] at rest
        refine rest.imp (fun r g rest => ⟨rest.1, rest.2.1, fun some => rest.2.2 ?_⟩) fun _ _ => trivial
        obtain ⟨w, mem, heavy, call', found'⟩ := some
        cases List.mem_cons.1 mem with
        | inl here =>
          obtain ⟨callee, chosen⟩ := chooses (here ▸ heavy)
          cases chosen
        | inr later => exact ⟨w, later, heavy, call', found'⟩
      | some callee =>
        obtain ⟨one, brought⟩ := swaps callee rfl
        obtain ⟨live, place⟩ := TailCall.call_block found
        obtain ⟨rfl, opcode, index, here, -⟩ := ofNode?_eq_some found
        have inside : call.id < f.nodes.size := lt_size_of_node? (isSome_node?_of_kind? here)
        have step : (expand call callee).Meets f (fun _ f₁ => Turning f₁) fun _ => True := by
          refine meets_of_forall (fun tail f₁ run => ?_) fun _ _ _ => trivial
          obtain ⟨load, title⟩ := (expand_weighs (m := circle) call f inside).of_ok run
          rw [one, brought, turning.load] at load
          obtain ⟨tail', f', run', intact⟩ := expand_yields turning.intact (fine callee rfl) live place
          rw [run] at run'
          obtain ⟨rfl, rfl⟩ := EStateM.Result.ok.inj run'
          exact ⟨intact, (expand_filed turning.intact turning.filed live place.le).of_ok run,
            (Prod.mk.inj title).1.trans turning.own, Nat.add_right_cancel load⟩
        refine step.bind fun tail f₁ turning₁ => ?_
        refine (ih f₁ _ turning₁).imp (fun r g rest => ?_) fun _ _ => trivial
        have more := rest.2.1
        rw [Report.changes_andThen, Report.changes_andThen, Report.changes_event rfl] at more
        exact ⟨rest.1, by omega, fun _ => by omega⟩

lemma run_turning (turning : Turning f) {r : Report} {g : Func} (run : (pass.run circling).run f = .ok r g) :
    Turning g ∧ r.changed = true := by
  have meets : (pass.run circling).Meets f (fun r g => Turning g ∧ r.changed = true) fun _ => True := by
    refine meets_get ((expandAll_turning f.nodeIds f {} turning).bind fun r g turned => meets_pure ?_)
    obtain ⟨turning', -, more⟩ := turned
    refine ⟨turning', ?_⟩
    rw [Report.changed_eq, Report.changes_noticedFirst, decide_eq_true_eq]
    refine more ?_
    -- The call that weighs something is in a block, and is a call with all its arguments.
    obtain ⟨v, heavy⟩ := exists_of_weighs_pos (m := circle) (f := f) (by rw [turning.load]; exact Nat.one_pos)
    cases here : f.node? v with
    | none =>
      rw [Func.weight, Func.shape?, here] at heavy
      exact absurd heavy (Nat.lt_irrefl 0)
    | some n =>
      have kind : f.kind? v = some n.kind := by rw [kind?, here, Option.map_some]
      have listed := turning.filed.filed v n here
      refine ⟨v, mem_nodeIds.2 ⟨n.block, listed⟩, heavy, ?_⟩
      cases List.mem_append.1 listed with
      | inl phi =>
        exact absurd heavy
          (by rw [weight_of_inputs? (turning.filed.phi n.block v phi)]; exact Nat.lt_irrefl 0)
      | inr plain =>
        rw [weight_of_kind? kind] at heavy
        generalize n.kind = k at kind heavy
        cases k with
        | call opcode index argCount operands =>
          rw [NodeKind.weight, circle] at heavy
          split at heavy
          · rename_i static
            obtain ⟨rfl, -, rfl, one⟩ := static
            obtain ⟨receiver, rfl⟩ := List.length_eq_one_iff.1 one
            have bare : f.kind? v = some (.call .callStatic index ([] : List Value).length [receiver]) := kind
            have named : ReceiverCall.dispatch? circling.pool .callStatic index = some (.static index) := rfl
            obtain ⟨call, found, -⟩ := exists_ofNode? turning.filed.toListed plain bare named
            exact ⟨call, found⟩
          · exact absurd heavy (Nat.lt_irrefl 0)
        | _ => exact absurd heavy (Nat.lt_irrefl 0)
  exact meets.of_ok run

end Circles

/-- Inlining need not come to an end. -/
theorem not_settles : ¬∀ (t : MethodTable) (pool : Pool) (config : Config) (body : MethodBody) (f : Func),
    body.lift pool config = .ok f → Settles ⟨body.method, pool, t.environment, config⟩ f := by
  intro all
  have facts : ((forwards 0 1).lift {} {}).toOption.any (fun f => f.method == 0 && f.weighs circle == 1 &&
      (List.range f.nodes.size).all fun v => (f.node? v).all fun n => (f.nodesOf n.block).contains v) = true := by
    decide +kernel
  obtain ⟨f, lifted, holds⟩ := exists_of_toOption facts
  simp only [Bool.and_eq_true, beq_iff_eq, List.all_eq_true, List.mem_range] at holds
  obtain ⟨⟨own, load⟩, listed⟩ := holds
  have intact := intact_of_lift lifted
  have turning : Turning f := by
    refine ⟨intact, ⟨intact.toListed, fun v n here => ?_⟩, own, load⟩
    have inside : v < f.nodes.size := lt_size_of_node? (by rw [here]; rfl)
    have found := listed v inside
    rw [here, Option.all_some] at found
    exact List.contains_iff_mem.1 found
  obtain ⟨g, r, steps, rests, unchanged⟩ := all ((MethodTable.addBody {} (forwards 1 2)).addBody (forwards 2 1)) {} {}
    (forwards 0 1) f lifted
  have turned : Turning g := by
    clear rests unchanged
    induction steps with
    | refl => exact turning
    | tail _ step ih =>
      obtain ⟨r', run⟩ := step
      exact (run_turning ih run).1
  rw [(run_turning turned rests).2] at unchanged
  cases unchanged

end Avm.Opt.Inlining
