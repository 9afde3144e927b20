import Avm.Proofs.Lift.Denoting

/-!
# One instruction beside the machine

Following an instruction that hands control to the next one does what the machine does there.  The nodes that are added
have the same events, with the same operands, and set the same registers, and the new frame says what the machine holds
behind the instruction.  Where the surroundings raise an exception, the nodes end with it as the machine does.

The main statement is `simulates_of_step`.
-/

namespace Avm

open Ir

namespace Machine

variable {V : Type} {I : Interp V} {pool : Pool} {i : Instruction Nat} {m : Machine V}

/-- The instruction only looks at the scope stack. -/
def IsSilent (i : Instruction Nat) : Prop := i.opcode = .getGlobalScope ∨ i.opcode = .newFunction

instance : Decidable (IsSilent i) := inferInstanceAs (Decidable (_ ∨ _))

section Events

variable {e : Event V} {andThen : (Nat → V) → Machine V → Machine V}

lemma emit_of_ok {results : Nat → V} (answer : I.answer (m.trace ++ [e]) = .ok results) :
    m.emit I e andThen = .goes (andThen results { m with trace := m.trace ++ [e] }) := by
  rw [emit, answer]

lemma emit_of_error {x : V} (answer : I.answer (m.trace ++ [e]) = .error x) :
    m.emit I e andThen = .ends (m.trace ++ [e]) (.thrown x) := by
  rw [emit, answer]

end Events

lemma execute_of_not_isSpecial (special : Lift.isSpecial i.opcode = false) : execute pool I i m =
    if IsSilent i then some (.goes (m.push (I.silent i m.scope))) else operate pool I i m := by
  by_cases silent : IsSilent i
  · rw [if_pos silent]
    rcases silent with here | here
    all_goals rw [execute.eq_def, here]
  · rw [if_neg silent, execute.eq_def]
    split
    all_goals
      rename_i here
      first
        | exact absurd special (by rw [here]; decide)
        | exact absurd (Or.inl here) silent
        | exact absurd (Or.inr here) silent
        | rfl

end Machine

namespace Ir.Lift

open Edit Machine

variable {V : Type} {I : Interp V} {pool : Pool} {i : Instruction Nat} {f f' f'' : Func} {b : BlockId} {k : NodeKind}
  {ks : List NodeKind} {frame frame' : Frame} {m m' m₁ m₂ : Machine V} {env env' env₁ : ValueId → Option V}
  {x y : Value} {a c : V} {r : Nat}

/-- Following an instruction does what the machine does: nodes are added to the block that have the same events and set
the same registers, and the new frame denotes the machine behind the instruction, or else both end with the same
exception. -/
def Simulates (I : Interp V) (pool : Pool) (i : Instruction Nat) (b : BlockId) (m : Machine V)
    (env : ValueId → Option V)
    (f : Func) (frame' : Frame) (f' : Func) : Prop :=
  ∃ ks, Adds b ks f f' ∧
    ((∃ m' env', execute pool I i m = some (.goes m') ∧
        Scene.evaluate I i.operands f.nodes.size ks (m.scene env) = some (.goes (m'.scene env')) ∧
        Denotes I frame' f' m' env') ∨
      ∃ trace exception, execute pool I i m = some (.ends trace (.thrown exception)) ∧
        Scene.evaluate I i.operands f.nodes.size ks (m.scene env) = some (.raises trace exception))

lemma simulates_of_mirrors (executed : execute pool I i m = some (.goes m'))
    (mirrors : Mirrors I i.operands b f m env f' m₁ env') (denotes : Denotes I frame' f' m' env')
    (same : m₁.scene env' = m'.scene env') : Simulates I pool i b m env f frame' f' := by
  obtain ⟨ks, adds, done⟩ := mirrors
  exact ⟨ks, adds, .inl ⟨m', env', executed, same ▸ done, denotes⟩⟩

/-- An instruction that leaves the frame and the nodes as they are, apart from the stacks. -/
lemma simulates_of_denotes (executed : execute pool I i m = some (.goes m')) (denotes : Denotes I frame' f m' env)
    (same : m'.scene env = m.scene env) : Simulates I pool i b m env f frame' f :=
  ⟨[], .refl f, .inl ⟨m', env, executed, by rw [same]; rfl, denotes⟩⟩

lemma simulates_emit (ks : List NodeKind) {e : Event V} {andScene : (Nat → V) → Scene V → Scene V}
    {andMachine : (Nat → V) → Machine V → Machine V} (adds : Adds b (ks ++ [k]) f f')
    (before : Scene.evaluate I i.operands f.nodes.size ks (m.scene env) = some (.goes (m₁.scene env₁)))
    (does : (m₁.scene env₁).does I i.operands (f.nodes.size + ks.length) k = some ((m₁.scene env₁).emit I e andScene))
    (executed : execute pool I i m = some (m₂.emit I e andMachine)) (trace : m₂.trace = m₁.trace)
    (next : ∀ results, ∃ env', andScene results { m₁.scene env₁ with trace := m₁.trace ++ [e] } =
        (andMachine results { m₂ with trace := m₁.trace ++ [e] }).scene env' ∧
      Denotes I frame' f' (andMachine results { m₂ with trace := m₁.trace ++ [e] }) env') :
    Simulates I pool i b m env f frame' f' := by
  refine ⟨_, adds, ?_⟩
  rw [Scene.evaluate_append before, Scene.evaluate, does, executed]
  cases answer : I.answer (m₁.trace ++ [e]) with
  | ok results =>
    obtain ⟨env', same, denotes⟩ := next results
    refine .inl ⟨_, env', congrArg some (emit_of_ok (trace ▸ answer)), ?_, trace ▸ denotes⟩
    rw [Scene.emit_of_ok answer, trace, ← same]
    rfl
  | error v =>
    refine .inr ⟨_, v, congrArg some (emit_of_error (trace ▸ answer)), ?_⟩
    rw [Scene.emit_of_error answer, trace]
    rfl

section Generic

lemma operators_of_isSilent (silent : IsSilent i) : TypeOp.ofOpcode? i.opcode = none ∧
    UnaryOp.ofOpcode? i.opcode = none ∧ BinaryOp.ofOpcode? i.opcode = none := by
  rcases silent with here | here <;> (rw [here]; decide)

lemma effect_of_isSilent (silent : IsSilent i) : i.effect pool = .ok ⟨0, 1, 0⟩ := by
  rcases silent with here | here <;> exact Instruction.effect_of_isFixed here rfl

/-- The node of an instruction without rules of its own has the event of the instruction, or looks at the scope stack
as it does. -/
lemma meets_node {operands : List Value} : (genericKind i operands).Meets f (fun kind f' => f' = f ∧
    kind.isPhi = false ∧ kind.producesValue = decide (0 < i.opcode.info.pushes) ∧
    ∀ (s : Scene V) v args, operands.map (s.value? I) = args.map some → s.does I i.operands v kind = some
      (if IsSilent i then .goes (s.define v (I.silent i s.scope))
      else s.emit I ⟨i.opcode, i.operands, args⟩ fun results s =>
        if 0 < i.opcode.info.pushes then s.define v (results 0) else s)) fun _ => True := by
  have node {kind : NodeKind} (requests : ∀ (s : Scene V) v, s.does I i.operands v kind = s.request I i.operands v kind)
      (same : kind.instructionAs i.operands = some i) (ops : kind.operands = operands)
      (effect : kind.hasSideEffects = !decide (IsSilent i))
      (result : kind.producesValue = decide (0 < i.opcode.info.pushes)) (s : Scene V) (v : ValueId) (args : List V)
      (worth : operands.map (s.value? I) = args.map some) : s.does I i.operands v kind = some
        (if IsSilent i then .goes (s.define v (I.silent i s.scope))
        else s.emit I ⟨i.opcode, i.operands, args⟩ fun results s =>
          if 0 < i.opcode.info.pushes then s.define v (results 0) else s) := by
    rw [requests, Scene.request, same, ops, Scene.mapM_value? worth, effect, result]
    by_cases silent : IsSilent i <;> simp [silent]
  rw [genericKind]
  split
  · rename_i call
    have loud : IsSilent i = False := by
      refine eq_false ?_
      rintro (here | here) <;> (rw [here] at call; cases call)
    split
    · rename_i index count ops
      refine meets_pure ⟨rfl, rfl, rfl, node (fun _ _ => rfl) ?_ rfl (by simp [NodeKind.hasSideEffects, loud]) rfl⟩
      rw [NodeKind.instructionAs, ops]
      exact (if_pos rfl).trans (by rw [← ops])
    · rename_i count ops
      refine meets_pure ⟨rfl, rfl, rfl, node (fun _ _ => rfl) ?_ rfl (by simp [NodeKind.hasSideEffects, loud]) rfl⟩
      rw [NodeKind.instructionAs, ops]
      exact (if_pos rfl).trans (by rw [← ops])
    · exact meets_throw trivial
  · split
    · rename_i named
      have loud : IsSilent i = False := by
        refine eq_false ?_
        rintro (here | here) <;> (rw [here] at named; cases named)
      refine meets_indexOf trivial fun n found => ?_
      refine meets_pure ⟨rfl, rfl, rfl, node (fun _ _ => rfl) ?_ rfl (by simp [NodeKind.hasSideEffects, loud]) rfl⟩
      rw [NodeKind.instructionAs, if_pos found]
    · refine meets_pure ⟨rfl, rfl, rfl, node (fun _ _ => rfl) rfl rfl ?_ rfl⟩
      rw [NodeKind.hasSideEffects]
      by_cases silent : IsSilent i
      · rcases id silent with here | here <;> simp [silent, here]
      · obtain ⟨global, function⟩ := not_or.1 silent
        simp [silent, global, function]

lemma simulates_generic (h : Denotes I frame f m env) (special : isSpecial i.opcode = false)
    (typed : TypeOp.ofOpcode? i.opcode = none) (unary : UnaryOp.ofOpcode? i.opcode = none)
    (binary : BinaryOp.ofOpcode? i.opcode = none) :
    (generic pool b i frame).Meets f (Simulates I pool i b m env f) fun _ => True := by
  rw [generic]
  split
  · exact meets_throw_bind trivial
  · refine (meets_ofExcept (P := fun e f' => i.effect pool = .ok e ∧ f' = f) (fun e effect => ⟨effect, rfl⟩)
      fun _ _ => trivial).bind ?_
    rintro e f ⟨effect, rfl⟩
    refine (meets_ofExcept (P := fun r f' => frame.popN e.pops = .ok r ∧ f' = f) (fun r popped => ⟨popped, rfl⟩)
      fun _ _ => trivial).bind ?_
    rintro ⟨operands, rest⟩ f ⟨popped, rfl⟩
    obtain ⟨args, left, taken, worth, denotes⟩ := h.exists_popN popped
    refine meets_node (I := I).bind ?_
    rintro kind f ⟨rfl, plain, result, does⟩
    refine adds_appendNode plain fun f₁ adds => meets_pure ?_
    have done := does (m.scene env) f.nodes.size args worth
    rw [result]
    by_cases silent : IsSilent i
    · obtain rfl := Except.ok.inj (effect.symm.trans (effect_of_isSilent silent))
      obtain rfl : m.stack = left := congrArg (fun r => r.2.stack) (Option.some.inj taken)
      have one : i.opcode.info.pushes = 1 := (Instruction.pushes_of_effect effect).1.symm
      rw [if_pos silent] at done
      have moved : Mirrors I i.operands b f m env f₁ m (Function.update env f.nodes.size (some (I.silent i m.scope))) :=
        .single adds done
      simp only [one, Nat.one_pos, decide_true, if_true]
      have executed : execute pool I i m = some (.goes (m.push (I.silent i m.scope))) := by
        rw [execute_of_not_isSpecial special, if_pos silent]
      exact simulates_of_mirrors executed moved (denotes.define adds) rfl
    · have executed : execute pool I i m = some ({ m with stack := left }.emit I ⟨i.opcode, i.operands, args⟩
          fun results m => (List.range i.opcode.info.pushes).foldl (fun m k => m.push (results k)) m) := by
        rw [execute_of_not_isSpecial special, if_neg silent, operate, typed, unary, binary, perform, effect,
          ← (Instruction.pushes_of_effect effect).1]
        simp only [Except.toOption, Option.bind_eq_bind, Option.bind_some, taken, Option.pure_def]
      refine simulates_emit [] adds rfl (done.trans (by rw [if_neg silent])) executed rfl fun results => ?_
      have few := (plain_of_not_isSpecial special).1
      interval_cases i.opcode.info.pushes
      · exact ⟨env, rfl, denotes.mono (fun _ _ => rfl) (fun v has => adds.size ▸ Nat.lt_succ_of_lt (h.known v has))
          rfl rfl rfl⟩
      · refine ⟨Function.update env f.nodes.size (some (results 0)), rfl, ?_⟩
        exact (denotes.define adds).mono (fun _ _ => rfl) (denotes.define (a := results 0) adds).known rfl rfl rfl

end Generic

section Cases

lemma simulates_operator {left : List V} (plain : k.isPhi = false)
    (done : (m.scene env).does I i.operands f.nodes.size k =
      some (.goes (m.scene (Function.update env f.nodes.size (some a)))))
    (executed : execute pool I i m = some (.goes ({ m with stack := left }.push a)))
    (below : Denotes I frame f { m with stack := left } env) :
    (do return frame.push (.node (← appendNode b k)) : Edit Frame).Meets f (Simulates I pool i b m env f) fun _ =>
      True :=
  adds_appendNode plain fun _ adds =>
    meets_pure (simulates_of_mirrors executed (.single adds done) (below.define adds) rfl)

lemma simulates_stepOperator (h : Denotes I frame f m env) (special : isSpecial i.opcode = false) :
    (stepOperator pool b i frame).Meets f (Simulates I pool i b m env f) fun _ => True := by
  rw [stepOperator]
  cases typed : TypeOp.ofOpcode? i.opcode with
  | some op =>
    have loud : ¬IsSilent i := fun silent => by simp [(operators_of_isSilent silent).1] at typed
    refine meets_indexOf trivial fun name found => denotes_pop h fun x fr a left stack worth below => ?_
    refine simulates_operator (a := I.type op name a) rfl ?_ ?_ below
    · rw [Scene.does, worth]
      rfl
    · rw [execute_of_not_isSpecial special, if_neg loud, operate, typed]
      simp [found, pop?, stack, push]
  | none =>
    cases unary : UnaryOp.ofOpcode? i.opcode with
    | some op =>
      have loud : ¬IsSilent i := fun silent => by simp [(operators_of_isSilent silent).2.1] at unary
      refine denotes_pop h fun x fr a left stack worth below => ?_
      refine simulates_operator (a := I.unary op a) rfl ?_ ?_ below
      · rw [Scene.does, worth]
        rfl
      · rw [execute_of_not_isSpecial special, if_neg loud, operate, typed, unary]
        simp [pop?, stack, push]
    | none =>
      cases binary : BinaryOp.ofOpcode? i.opcode with
      | some op =>
        have loud : ¬IsSilent i := fun silent => by simp [(operators_of_isSilent silent).2.2] at binary
        refine denotes_pop h fun y fr c left stack worth below => ?_
        refine denotes_pop below fun x fr' a left' stack' worth' below' => ?_
        have stack' : left = a :: left' := stack'
        have worth' : (m.scene env).value? I x = some a := worth'
        refine simulates_operator (a := I.binary op a c) rfl ?_ ?_ below'
        · rw [Scene.does, worth, worth']
          rfl
        · rw [execute_of_not_isSpecial special, if_neg loud, operate, typed, unary, binary]
          simp [pop?, stack, stack', push]
      | none => exact simulates_generic h special typed unary binary

lemma simulates_stepRegister {op : UnaryOp} (h : Denotes I frame f m env)
    (here : execute pool I i m = Machine.update I op i m) :
    (stepRegister b op i frame).Meets f (Simulates I pool i b m env f) fun _ => True := by
  rw [stepRegister]
  refine meets_indexOf trivial fun r found => denotes_getLocal h fun x worth => ?_
  have done : (m.scene env).does I i.operands f.nodes.size (.unary op x) =
      some (.goes (m.scene (Function.update env f.nodes.size (some (I.unary op (m.registers r)))))) := by
    rw [Scene.does, worth]
    rfl
  refine mirrors_appendNode rfl done fun f₁ first => ?_
  refine (mirrors_store (o := i.operands) (x := .node f.nodes.size) (a := I.unary op (m.registers r))
    (h.of_mirrors first rfl rfl rfl) (Function.update_self ..)).imp ?_ fun _ same => same
  rintro frame' f' ⟨env', second, denotes⟩
  refine simulates_of_mirrors ?_ (first.trans second) denotes rfl
  rw [here, Machine.update, found]
  rfl

lemma simulates_stepHasNext2 (h : Denotes I frame f m env) (here : i.opcode = .hasNext2) :
    (stepHasNext2 b i frame).Meets f (Simulates I pool i b m env f) fun _ => True := by
  rw [stepHasNext2]
  split
  · rename_i object index operands
    refine denotes_getLocal h fun _ _ => denotes_getLocal h fun _ _ => ?_
    refine (mirrors_spill (o := i.operands) h).bind ?_
    rintro fr₁ f₁ ⟨env₁, first, denotes₁, pinned₁, _⟩
    refine (mirrors_spill (o := i.operands) denotes₁).bind ?_
    rintro fr₂ f₂ ⟨env₂, second, denotes₂, pinned₂, keeps⟩
    obtain ⟨ks, spills, before⟩ := first.trans second
    refine adds_appendNode rfl fun f₃ third => adds_freshVersion (b := b) fun version f₄ fourth => ?_
    refine (denotes_setLocal
      (P := fun fr f' => fr = { fr₂ with locals := fr₂.locals.set object (.reg object version) } ∧
      f' = f₄) ⟨rfl, rfl⟩).bind ?_
    rintro _ f₄ ⟨rfl, rfl⟩
    refine (denotes_setLocal (P := fun fr f' => fr = { fr₂ with
      locals := (fr₂.locals.set object (.reg object version)).set index (.reg index version) } ∧ f' = f₄)
      ⟨rfl, rfl⟩).bind ?_
    rintro _ f₄ ⟨rfl, rfl⟩
    refine meets_pure ?_
    have adds : Adds b (ks ++ [.hasNext2 object index]) f f₄ := by simpa using spills.trans (third.trans fourth)
    have executed : execute pool I i m = some (m.emit I ⟨.hasNext2, .none, [m.registers object, m.registers index]⟩
        fun results m => ((m.set object (results 1)).set index (results 2)).push (results 0)) := by
      rw [execute.eq_def, here]
      dsimp only
      rw [operands]
    refine simulates_emit ks adds before rfl executed rfl fun results => ?_
    refine ⟨Function.update env₂ f₂.nodes.size (some (results 0)), by rw [spills.size]; rfl, ?_⟩
    -- The register of the index is set last, so it wins where both are the same.
    have set := (denotes₂.assign (y := .reg object version) (a := results 1) (keeps object pinned₁)
      (congrArg some (Function.update_self ..))).assign (y := .reg index version) (a := results 2) pinned₂.set
      (congrArg some (Function.update_self ..))
    have pushed := set.define (a := results 0) third
    exact pushed.mono (fun _ _ => rfl) (fun v has => fourth.size ▸ pushed.known v has) rfl rfl rfl
  · exact meets_throw trivial

lemma simulates_stepPushScope {op : ScopeOp} (h : Denotes I frame f m env) (enters : op ≠ .pop)
    (executed : execute pool I i m = (do
      let (v, m) ← m.pop?
      return m.emit I ⟨op.opcode, .none, [v]⟩ fun _ m => { m with scope := m.scope ++ [v] })) :
    (stepPushScope b op i frame).Meets f (Simulates I pool i b m env f) fun _ => True := by
  rw [stepPushScope]
  refine denotes_pop h fun x fr a left stack worth below => ?_
  dsimp only
  split
  · exact meets_throw_bind trivial
  · refine adds_appendNode rfl fun f₁ adds => meets_pure ?_
    have done : (m.scene env).does I i.operands f.nodes.size (.scope op (some x)) =
        some ((m.scene env).emit I ⟨op.opcode, .none, [a]⟩ fun _ s => { s with scope := s.scope ++ [a] }) := by
      rw [Scene.does, Scene.change, worth]
      · rfl
      · exact enters
    rw [pop?, stack] at executed
    refine simulates_emit [] adds rfl done executed rfl fun _ => ⟨env, rfl, ?_⟩
    have grown : ∀ v, (env v).isSome → v < f₁.nodes.size := fun v has => adds.size ▸ Nat.lt_succ_of_lt (h.known v has)
    refine ⟨below.stack, ?_, below.locals, grown⟩
    simp only [List.map_append, List.map_cons, List.map_nil]
    exact congrArg₂ (· ++ ·) below.scope (congrArg (fun a => [a]) worth)

lemma simulates_stepPopScope (h : Denotes I frame f m env) (here : i.opcode = .popScope) :
    (stepPopScope b frame).Meets f (Simulates I pool i b m env f) fun _ => True := by
  rw [stepPopScope]
  split
  · exact meets_throw_bind trivial
  · rename_i inside
    refine adds_appendNode rfl fun f₁ adds => meets_pure ?_
    have scopes : ¬m.scope.isEmpty = true := by
      have length : frame.scope.length = m.scope.length := by simpa using congrArg List.length h.scope
      rwa [List.isEmpty_iff_length_eq_zero, ← length, ← List.isEmpty_iff_length_eq_zero]
    have done : (m.scene env).does I i.operands f.nodes.size (.scope .pop none) =
        some ((m.scene env).emit I ⟨.popScope, .none, []⟩ fun _ s => { s with scope := s.scope.dropLast }) := by
      rw [Scene.does, Scene.change]
      exact if_neg scopes
    have executed : execute pool I i m =
        some (m.emit I ⟨.popScope, .none, []⟩ fun _ m => { m with scope := m.scope.dropLast }) := by
      rw [execute.eq_def, here]
      exact if_neg scopes
    refine simulates_emit [] adds rfl done executed rfl fun _ => ⟨env, rfl, ?_⟩
    have grown : ∀ v, (env v).isSome → v < f₁.nodes.size := fun v has => adds.size ▸ Nat.lt_succ_of_lt (h.known v has)
    refine ⟨h.stack, ?_, h.locals, grown⟩
    simp only [List.map_dropLast]
    exact congrArg List.dropLast h.scope

lemma simulates_constant (h : Denotes I frame f m env) (here : execute pool I i m = (do
      let c ← (constant pool i).toOption
      return .goes (m.push (I.const c)))) :
    (do return frame.push (.const (← Edit.ofExcept (constant pool i))) : Edit Frame).Meets f
      (Simulates I pool i b m env f)
      fun _ => True := by
  refine (meets_ofExcept (P := fun c f' => constant pool i = .ok c ∧ f' = f) (fun c known => ⟨known, rfl⟩)
    fun _ _ => trivial).bind ?_
  rintro c f ⟨known, rfl⟩
  refine meets_pure (simulates_of_denotes ?_ (h.push rfl) rfl)
  rw [here, known]
  rfl

lemma simulates_getLocal (h : Denotes I frame f m env) (here : execute pool I i m = (do
      let register ← i.localRead?
      return .goes (m.push (m.registers register)))) (found : i.localRead? = some r) :
    (do return frame.push (← Edit.ofExcept (frame.getLocal r)) : Edit Frame).Meets f (Simulates I pool i b m env f)
      fun _ => True := by
  refine denotes_getLocal h fun x worth => meets_pure (simulates_of_denotes ?_ (h.push worth) rfl)
  rw [here, found]
  rfl

lemma simulates_setLocal (h : Denotes I frame f m env) (here : execute pool I i m = (do
      let register ← i.localWrite?
      let (v, m) ← m.pop?
      return .goes (m.set register v))) (found : i.localWrite? = some r) :
    (do
      let (value, frame) ← Edit.ofExcept frame.pop
      store b r value frame : Edit Frame).Meets f (Simulates I pool i b m env f) fun _ => True := by
  refine denotes_pop h fun x fr a left stack worth below => ?_
  refine (mirrors_store (o := i.operands) (x := x) below worth).imp ?_ fun _ same => same
  rintro frame' f' ⟨env', mirrors, denotes⟩
  refine simulates_of_mirrors ?_ mirrors denotes rfl
  rw [here, found, pop?, stack]
  rfl

lemma simulates_stepScopeObject (h : Denotes I frame f m env) (here : i.opcode = .getScopeObject) :
    (stepScopeObject i frame).Meets f (Simulates I pool i b m env f) fun _ => True := by
  rw [stepScopeObject]
  split
  · rename_i index operands
    split
    · rename_i x found
      have listed : (m.scope.map some)[index.toNat]? = some ((m.scene env).value? I x) := by
        rw [← h.scope, List.getElem?_map, found]
        rfl
      rw [List.getElem?_map] at listed
      obtain ⟨a, held, worth⟩ := Option.map_eq_some_iff.1 listed
      refine meets_pure (simulates_of_denotes ?_ (h.push worth.symm) rfl)
      rw [execute.eq_def, here]
      simp [operands, held]
    · exact meets_throw trivial
  · exact meets_throw trivial

end Cases

lemma meets_simulates (h : Denotes I frame f m env) :
    (step pool b i frame).Meets f (Simulates I pool i b m env f) fun _ => True := by
  rw [step]
  split <;> rename_i here
  -- Instructions without effect, those for debuggers, and constants.
  iterate 2 exact meets_pure (simulates_of_denotes (by rw [execute.eq_def, here]) h rfl)
  iterate 6
    refine adds_appendNode rfl fun f₁ adds => meets_pure ?_
    have done : Mirrors I i.operands b f m env f₁ m env := .single adds rfl
    exact simulates_of_mirrors (by rw [execute.eq_def, here]) done (h.of_mirrors done rfl rfl rfl) rfl
  iterate 12 exact simulates_constant h (by rw [execute.eq_def, here])
  -- The operand stack.
  · refine denotes_pop h fun x fr a left stack worth below => meets_pure (simulates_of_denotes ?_ below rfl)
    rw [execute.eq_def, here]
    simp [pop?, stack]
  · refine (meets_ofExcept (P := fun x f' => frame.peek = .ok x ∧ f' = f) (fun x top => ⟨top, rfl⟩)
      fun _ _ => trivial).bind ?_
    rintro x f ⟨top, rfl⟩
    rw [Frame.peek] at top
    split at top
    · rename_i x' last
      obtain rfl := Except.ok.inj top
      obtain ⟨a, left, stack, worth, -⟩ := h.exists_top last
      refine meets_pure (simulates_of_denotes ?_ (h.push worth) rfl)
      rw [execute.eq_def, here]
      simp [pop?, stack]
    · cases top
  · refine denotes_pop h fun x fr a left stack worth below => ?_
    refine denotes_pop below fun y fr' c left' stack' worth' below' => ?_
    have stack' : left = c :: left' := stack'
    refine meets_pure (simulates_of_denotes ?_ ((below'.push worth).push worth') rfl)
    rw [execute.eq_def, here]
    simp [pop?, stack, stack', push]
  -- Registers.
  iterate 5
    split
    · rename_i found
      exact simulates_getLocal h (by rw [execute.eq_def, here]) found
    · exact meets_throw trivial
  iterate 5
    split
    · rename_i found
      exact simulates_setLocal h (by rw [execute.eq_def, here]) found
    · exact meets_throw trivial
  · refine meets_indexOf trivial fun r found => ?_
    refine (mirrors_store (o := i.operands) (a := I.const .undefined) h rfl).imp ?_ fun _ same => same
    rintro frame' f' ⟨env', mirrors, denotes⟩
    refine simulates_of_mirrors ?_ mirrors denotes rfl
    rw [execute.eq_def, here]
    simp [found]
  iterate 4 exact simulates_stepRegister h (by rw [execute.eq_def, here])
  · exact simulates_stepHasNext2 h here
  -- The scope stack.
  · exact simulates_stepScopeObject h here
  iterate 2 exact simulates_stepPushScope h (by rintro ⟨⟩) (by rw [execute.eq_def, here]; rfl)
  · exact simulates_stepPopScope h here
  · refine simulates_stepOperator h ?_
    rw [isSpecial] <;> assumption

/-- Following an instruction that hands control to the next one simulates the machine: whatever the
frame denotes, if the instruction can be followed, then the nodes that are added to the block do
what the instruction does, and the frame denotes the machine behind it. -/
theorem simulates_of_step (denotes : Denotes I frame f m env) (run : (step pool b i frame).run f = .ok frame' f') :
    Simulates I pool i b m env f frame' f' :=
  (meets_simulates denotes).of_ok run

/-- An iteration is advanced whose object and index are in one register, which is still to be read on the stack and as
a scope. -/
theorem simulates_of_step_advancing : ∃ (f f' : Func) (frame frame' : Frame) (m : Machine Constant),
    frame.stack = [.reg 1 0] ∧ frame.scope = [.reg 1 0] ∧ Denotes .ofConstants frame f m (fun _ => none) ∧
      (step {} 2 ⟨.hasNext2, .pair 1 1⟩ frame).run f = .ok frame' f' ∧
      Simulates .ofConstants {} ⟨.hasNext2, .pair 1 1⟩ 2 m (fun _ => none) f frame' f' := by
  let f : Func := (Func.new 0 1 {} 2).pushBlock {}
  let frame : Frame := { stack := [.reg 1 0], scope := [.reg 1 0], locals := [.reg 0 0, .reg 1 0] }
  let m : Machine Constant := { stack := [.int 7], scope := [.int 7], registers := fun _ => .int 7 }
  have denotes : Denotes .ofConstants frame f m (fun _ => none) := by
    refine ⟨rfl, rfl, fun r x found => ?_, by rintro _ ⟨⟩⟩
    obtain _ | _ | r := r
    · obtain rfl := Option.some.inj found
      rfl
    · obtain rfl := Option.some.inj found
      rfl
    · cases found
  have facts : (step {} 2 ⟨.hasNext2, .pair 1 1⟩ frame).succeedsWith f (fun _ _ => true) = true := by decide +kernel
  obtain ⟨frame', f', run, -⟩ := Edit.exists_of_succeedsWith facts
  exact ⟨f, f', frame, frame', m, rfl, rfl, denotes, run, simulates_of_step denotes run⟩

end Ir.Lift

end Avm
