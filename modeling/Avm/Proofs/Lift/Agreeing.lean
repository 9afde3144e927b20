import Avm.Proofs.Lift.Blaming

/-!
# Instructions and their effects

What an instruction takes from the operand stack and puts onto it is written down twice: in the table of effects, and in
the rules by which lifting follows instructions.  Both say the same of every instruction of decoded code.  The stack
counts as too short in lifting just if it has fewer values than the effect takes, as values are taken before anything
else can go wrong, and otherwise both stacks change by what the effect says.

The main statement is `agrees_of_decode`.
-/

namespace Avm

/-- The fault is that the operand stack has too few values. -/
def Fault.isUnderflow : Fault → Bool
  | .malformed (.frame .underflow) | .malformed (.frame (.tooShort ..)) => true
  | _ => false

lemma Fault.isDepth_of_isUnderflow {fault : Fault} (h : fault.isUnderflow = true) : fault.isDepth = true := by
  unfold isUnderflow at h
  split at h
  · rfl
  · rfl
  · cases h

namespace Ir.Lift

open Edit

variable {α : Type} {f : Func} {b : BlockId} {i : Instruction Marker} {pool : Pool} {e : StackEffect} {frame : Frame}

/-- The lengths of both stacks change by an effect. -/
def Changes (e : StackEffect) (frame frame' : Frame) : Prop :=
  (frame'.stack.length : Int) = frame.stack.length + e.net ∧ (frame'.scope.length : Int) = frame.scope.length + e.scope

/-- An edit fails for want of values on the operand stack just if there are fewer than an effect takes, and does what it
should if it succeeds. -/
structure Agrees (e : StackEffect) (frame : Frame) (f : Func) (x : Edit α) (done : α → Func → Prop) : Prop where
  underflows : (∃ fault f', x.run f = .error fault f' ∧ fault.isUnderflow = true) ↔ frame.stack.length < e.pops
  changes : ∀ a f', x.run f = .ok a f' → done a f'

/-- A block ends with what takes the operands off the stack, and all ways from there begin with what is left. -/
def Parts (e : StackEffect) (frame : Frame) (b : BlockId) (f : Func) (es : List Pending) (f' : Func) : Prop :=
  ∃ rest t, Closes b t rest.scope.length f f' ∧ t.operands.length = e.pops ∧ Changes e frame rest ∧
    ∀ x ∈ es, ∃ kind, x.entry = some (rest, b, kind)

lemma Agrees.of_meets {x : Edit α} {done : α → Func → Prop}
    (h : x.Meets f (fun a f' => e.pops ≤ frame.stack.length ∧ done a f')
      fun fault => fault.isUnderflow = true ↔ frame.stack.length < e.pops) : Agrees e frame f x done := by
  refine ⟨⟨?_, fun short => ?_⟩, fun a f' run => (h.of_ok run).2⟩
  · rintro ⟨fault, f', run, under⟩
    exact (h.of_error run).1 under
  · cases run : x.run f with
    | ok a f' => exact absurd (h.of_ok run).1 (Nat.not_le.2 short)
    | error fault f' => exact ⟨fault, f', rfl, (h.of_error run).2 short⟩

section Next

lemma underflows_pop {g : Value × Frame → Edit α} {Q : α → Func → Prop} (short : frame.stack.length < 1) :
    (ofExcept frame.pop >>= g).Meets f Q (·.isUnderflow = true) :=
  meets_pop (fun _ => rfl) fun v fr stack _ => by omega

lemma underflows_step (shape : i.operands.layout = i.opcode.layout)
    (covers : ∀ r ∈ i.registers, r < frame.locals.length)
    (next : i.opcode.flow = .next) (effect : i.effect pool = .ok e) (short : frame.stack.length < e.pops) :
    (step pool b i frame).Meets f (fun _ _ => True) (·.isUnderflow = true) := by
  have taken {pops pushes : Nat} {scope : Int} (effect' : i.effect pool = .ok ⟨pops, pushes, scope⟩) :
      frame.stack.length < pops := by
    obtain rfl := Except.ok.inj (effect.symm.trans effect')
    exact short
  have fixed {o : Opcode} (here : i.opcode = o) (fixed : o.isFixed = true) : frame.stack.length < o.info.pops :=
    taken (Instruction.effect_of_isFixed here fixed)
  have some {o : Opcode} (here : i.opcode = o) (fixed' : o.isFixed = true) (nothing : o.info.pops = 0) : False := by
    have less := fixed here fixed'
    omega
  rw [step]
  split
  iterate 20
    rename_i here
    exact (some here rfl rfl).elim
  · rename_i here
    exact underflows_pop (fixed here rfl)
  · rename_i here
    exact meets_peek (fun _ => rfl) fun v more => absurd (fixed here rfl) (Nat.not_lt.2 more)
  · rename_i here
    have less : frame.stack.length < 2 := fixed here rfl
    exact meets_pop (fun _ => rfl) fun v fr stack _ => underflows_pop (by omega)
  iterate 5
    rename_i here
    exact (some here rfl rfl).elim
  iterate 5
    rename_i here
    obtain ⟨r, found, -⟩ := exists_localWrite shape covers (by rw [here]; rfl)
    rw [found]
    exact underflows_pop (fixed here rfl)
  iterate 7
    rename_i here
    exact (some here rfl rfl).elim
  iterate 2
    rename_i here
    exact underflows_pop (fixed here rfl)
  · rename_i here
    exact (some here rfl rfl).elim
  · rw [stepOperator]
    split
    · rename_i op found
      obtain ⟨n, -, there⟩ := exists_index (shape.trans (layout_of_typeOp found))
      exact blames_indexOf there (underflows_pop (taken (effect_of_typeOp found)))
    · rename_i found
      exact underflows_pop (taken (effect_of_unaryOp found))
    · rename_i found
      have less : frame.stack.length < 2 := taken (effect_of_binaryOp found)
      exact meets_pop (fun _ => rfl) fun v fr stack _ => underflows_pop (by omega)
    · rw [generic, if_neg (not_not_intro next), effect]
      refine meets_ok_bind rfl (meets_popN (fun _ => rfl) fun _ _ _ _ _ enough => ?_)
      exact absurd short (Nat.not_lt.2 enough)

lemma agrees_step (shape : i.operands.layout = i.opcode.layout) (covers : ∀ r ∈ i.registers, r < frame.locals.length)
    (next : i.opcode.flow = .next) (effect : i.effect pool = .ok e) :
    Agrees e frame f (step pool b i frame) fun frame' _ => Changes e frame frame' := by
  have scopes : i.opcode = .popScope ∨ 0 ≤ i.opcode.info.scope := by
    generalize i.opcode = o
    cases o <;> decide
  refine .of_meets (meets_of_forall (fun frame' f' run => ?_) fun fault f' run => ⟨fun under => ?_, fun short => ?_⟩)
  · obtain ⟨e', effect', affords, level⟩ := (meets_step.of_ok run).effect
    obtain rfl := Except.ok.inj (effect.symm.trans effect')
    have enough : e.pops ≤ frame.stack.length := affords.1
    have deep : 0 ≤ (frame.scope.length : Int) + e.scope := affords.2
    have stack : frame'.stack.length = frame.stack.length - e.pops + e.pushes := congrArg Level.operand level
    have scope : frame'.scope.length = ((frame.scope.length : Int) + e.scope).toNat := congrArg Level.scope level
    rw [Changes, StackEffect.net]
    omega
  · obtain here | ascends := scopes
    · -- A scope that is missing is not a value that is missing.
      have fault' : (step pool b i frame).Meets f (fun _ _ => True) (·.isUnderflow = false) := by
        rw [step]
        simp only [here, stepPopScope]
        split
        · exact meets_throw_bind rfl
        · exact meets_appendNode rfl rfl fun _ _ _ => meets_pure trivial
      have under' : fault.isUnderflow = false := fault'.of_error run
      rw [under] at under'
      cases under'
    · by_contra enough
      refine meets_step.of_error run (Fault.isDepth_of_isUnderflow under) e effect ⟨Nat.not_lt.1 enough, ?_⟩
      rw [(Instruction.pushes_of_effect effect).2]
      omega
  · exact (underflows_step shape covers next effect short).of_error run

end Next

section Ending

variable {s : Source} {p : Partition} {n : NodeId}

lemma exists_switch (switches : i.operands.layout = .switch) : ∃ default cases, i.operands = .switch default cases := by
  cases ops : i.operands with
  | switch default cases => exact ⟨default, cases, rfl⟩
  | _ =>
    rw [ops] at switches
    cases switches

lemma isUnderflow_iff {needed there : Nat} (enough : needed ≤ there) (fault : Fault) (other : fault.isDepth = false) :
    fault.isUnderflow = true ↔ there < needed := by
  refine ⟨fun under => ?_, fun short => absurd enough (Nat.not_le.2 short)⟩
  rw [Fault.isDepth_of_isUnderflow under] at other
  cases other

lemma meets_popped {g : Value × Frame → Edit α} {Q : α → Func → Prop} (one : e.pops = 1)
    (next : ∀ v fr, fr.stack.length + e.pops = frame.stack.length → fr.scope = frame.scope →
      (g (v, fr)).Meets f Q fun fault => fault.isUnderflow = true ↔ frame.stack.length < e.pops) :
    (ofExcept frame.pop >>= g).Meets f Q fun fault => fault.isUnderflow = true ↔ frame.stack.length < e.pops := by
  refine meets_pop (fun empty => ⟨fun _ => ?_, fun _ => rfl⟩) fun v fr stack scope =>
    next v fr (by rw [one, ← stack]) scope
  rw [one, empty]
  exact Nat.one_pos

lemma meets_parts {rest : Frame} {t : Terminator} {es : List Pending} {bad : Fault → Prop}
    (fine : ∀ fault : Fault, fault.isDepth = false → bad fault) (operands : t.operands.length = e.pops)
    (none : e.pushes = 0 ∧ e.scope = 0) (stack : rest.stack.length + e.pops = frame.stack.length)
    (scope : rest.scope = frame.scope) (entries : ∀ x ∈ es, ∃ kind, x.entry = some (rest, b, kind)) :
    (do close b t rest
        return es).Meets f (fun es f' => e.pops ≤ frame.stack.length ∧ Parts e frame b f es f') bad := by
  refine (meets_close fine).bind fun _ f₁ closes => meets_pure ⟨by omega, rest, t, closes, operands, ?_, entries⟩
  rw [Changes, StackEffect.net, none.1, none.2, scope]
  omega

lemma agrees_terminate (shape : i.operands.layout = i.opcode.layout) (ends : i.opcode.flow ≠ .next)
    (effect : i.effect pool = .ok e) : Agrees e frame f (terminate s p b n i frame) (Parts e frame b f) := by
  have known {pops : Nat} (effect' : i.effect pool = .ok ⟨pops, 0, 0⟩) : e = ⟨pops, 0, 0⟩ :=
    Except.ok.inj (effect.symm.trans effect')
  apply Agrees.of_meets
  rw [terminate]
  split
  · rename_i flow
    obtain rfl := known (Instruction.effect_of_isFixed (opcode_of_flow.1 flow) rfl)
    have fine := isUnderflow_iff (Nat.zero_le frame.stack.length)
    refine meets_follow fine fun m c edge found => meets_parts fine rfl ⟨rfl, rfl⟩ rfl rfl fun x mem => ?_
    rw [List.mem_singleton.1 mem]
    exact ⟨_, rfl⟩
  · rename_i flow
    split
    · rename_i none
      obtain ⟨kind, branches⟩ := exists_branchKind flow
      rw [none] at branches
      cases branches
    · rename_i kind branches
      obtain rfl := known (effect_of_branchKind pool branches)
      refine meets_popN (fun less => ⟨fun _ => less, fun _ => rfl⟩) fun operands fr taken stack scope enough => ?_
      have fine := isUnderflow_iff enough
      refine meets_follow fine fun m c edge found => meets_follow fine fun m' c' edge' found' => ?_
      refine meets_parts fine taken ⟨rfl, rfl⟩ (by dsimp only; omega) scope fun x mem => ?_
      obtain rfl | mem := List.mem_cons.1 mem
      · exact ⟨_, rfl⟩
      · rw [List.mem_singleton.1 mem]
        exact ⟨_, rfl⟩
  · rename_i flow
    obtain rfl := known (Instruction.effect_of_isFixed (opcode_of_flow.2.1 flow) rfl)
    obtain ⟨default, cases, ops⟩ := exists_switch (shape.trans (by rw [opcode_of_flow.2.1 flow]; rfl))
    rw [ops]
    refine meets_popped rfl fun v fr stack scope => ?_
    have fine := isUnderflow_iff (Nat.le.intro ((Nat.add_comm _ _).trans stack))
    refine meets_follow fine fun m c edge found => ?_
    refine (meets_followCases fine).bind ?_
    rintro rs f₁ ⟨rfl, edges, same, -⟩
    refine meets_parts fine rfl ⟨rfl, rfl⟩ stack scope (List.forall_mem_cons.2 ⟨⟨_, rfl⟩, fun x mem => ?_⟩)
    rw [same] at mem
    obtain ⟨d, -, rfl⟩ := List.mem_map.1 mem
    exact ⟨_, rfl⟩
  · rename_i flow
    split
    · rename_i value
      obtain rfl := known (Instruction.effect_of_isFixed value rfl)
      refine meets_popped rfl fun v fr stack scope => ?_
      exact meets_parts (isUnderflow_iff (by omega)) rfl ⟨rfl, rfl⟩ stack scope (List.forall_mem_nil _)
    · rename_i value
      obtain rfl := known (Instruction.effect_of_isFixed ((opcode_of_flow.2.2.1 flow).resolve_left value) rfl)
      exact meets_parts (isUnderflow_iff (Nat.zero_le _)) rfl ⟨rfl, rfl⟩ rfl rfl (List.forall_mem_nil _)
  · rename_i flow
    obtain rfl := known (Instruction.effect_of_isFixed (opcode_of_flow.2.2.2 flow) rfl)
    refine meets_popped rfl fun v fr stack scope => ?_
    exact meets_parts (isUnderflow_iff (by omega)) rfl ⟨rfl, rfl⟩ stack scope (List.forall_mem_nil _)
  · rename_i flow
    exact absurd flow ends

end Ending

/-- Whatever instruction was decoded, following it agrees with its effect: a fault says that the
operand stack has too few values just if there are fewer than the effect takes; otherwise both
stacks change by the effect, or something else is wrong.  What ends a block takes its operands from
the stack, and hands on what is left. -/
theorem agrees_of_decode {bytes : List UInt8} {exceptions : List (Handler Nat)} {code : Code} {id : InstrId}
    (decoded : Code.decode bytes exceptions = .ok code) (mem : (id, i) ∈ code.instrs) (effect : i.effect pool = .ok e)
    (covers : ∀ r ∈ i.registers, r < frame.locals.length) (b : BlockId) (f : Func) :
    (i.opcode.flow = .next → Agrees e frame f (step pool b i frame) fun frame' _ => Changes e frame frame') ∧
    (i.opcode.flow ≠ .next → ∀ s p n, Agrees e frame f (terminate s p b n i frame) (Parts e frame b f)) := by
  have shape : i.operands.layout = i.opcode.layout := Code.formed_of_decode decoded _ mem
  exact ⟨fun next => agrees_step shape covers next effect, fun ends s p n => agrees_terminate shape ends effect⟩

/-- A sum takes two values and a return takes one, of which there is one. -/
theorem agrees_of_decode_returning : ∃ code, Code.decode [0xa0, 0x48] [] = .ok code ∧
    (0, ⟨.add, .none⟩) ∈ code.instrs ∧ (1, ⟨.returnValue, .none⟩) ∈ code.instrs ∧ ∀ f,
    Agrees ⟨2, 1, 0⟩ { stack := [.const .null] } f (step {} 2 ⟨.add, .none⟩ { stack := [.const .null] })
      (fun frame' _ => Changes ⟨2, 1, 0⟩ { stack := [.const .null] } frame') ∧
    ∀ s p n, Agrees ⟨1, 0, 0⟩ { stack := [.const .null] } f
      (terminate s p 2 n ⟨.returnValue, .none⟩ { stack := [.const .null] })
      (Parts ⟨1, 0, 0⟩ { stack := [.const .null] } 2 f) := by
  have made : (Code.decode [0xa0, 0x48] []).toOption.any (fun c =>
      c.instrs = [(0, ⟨.add, .none⟩), (1, ⟨.returnValue, .none⟩)]) = true := by decide +kernel
  obtain ⟨code, decoded, listed⟩ := exists_of_toOption made
  have listed := of_decide_eq_true listed
  have first : (0, ⟨.add, .none⟩) ∈ code.instrs := by
    rw [listed]
    exact List.mem_cons_self
  have second : (1, ⟨.returnValue, .none⟩) ∈ code.instrs := by
    rw [listed]
    exact List.mem_cons_of_mem _ List.mem_cons_self
  have adds : Instruction.effect (⟨.add, .none⟩ : Instruction Marker) {} = .ok ⟨2, 1, 0⟩ := rfl
  have returns : Instruction.effect (⟨.returnValue, .none⟩ : Instruction Marker) {} = .ok ⟨1, 0, 0⟩ := rfl
  refine ⟨code, decoded, first, second, fun f => ⟨?_, ?_⟩⟩
  · exact (agrees_of_decode decoded first adds (by decide) 2 f).1 rfl
  · exact (agrees_of_decode decoded second returns (by decide) 2 f).2 (by decide)

end Ir.Lift

end Avm
