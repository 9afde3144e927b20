import Avm.Proofs.Lift.Forming

/-!
# Where the faults of one instruction lie

Lifting may refuse code, but only for what is wrong with the code or with the pool.  An instruction that
hands control to the next one is followed without any other fault, if its operands have the shape that its
opcode asks for, the registers that it names are there, and the block is.

The main statement is `blames_step`.
-/

namespace Avm

/-- The fault lies in the code or in the pool: a stack is not deep enough, or not equally deep on two ways; a
scope is null or undefined, or not there; the pool lacks an entry; or a handler is entered otherwise than by
an exception. -/
def Fault.isInCode : Fault → Bool
  | .malformed (.frame .underflow) | .malformed (.frame (.tooShort ..))
  | .malformed (.lift .emptyScope) | .malformed (.lift (.depthMismatch ..))
  | .malformed (.lift (.nullishScope ..)) | .malformed (.lift (.scopeIndex ..))
  | .malformed (.lift (.missingConstant ..)) | .malformed (.flow (.unknownName ..))
  | .unsupported (.handlerEntered ..) => true
  | _ => false

namespace Ir.Edit

variable {α β : Type} {f f' : Func} {x : Edit α} {a : α} {bad : Fault → Prop}

lemma meets_of_run {P : α → Func → Prop} (run : x.run f = .ok a f') (h : P a f') : x.Meets f P bad := by
  refine meets_of_forall (fun a' f₁ run' => ?_) fun e f₁ run' => ?_
  · rw [run] at run'
    cases run'
    exact h
  · rw [run] at run'
    cases run'

lemma meets_run_bind {g : α → Edit β} {Q : β → Func → Prop} (run : x.run f = .ok a f')
    (next : (g a).Meets f' Q bad) : (x >>= g).Meets f Q bad := by
  have first : x.Meets f (fun a' f₁ => a' = a ∧ f₁ = f') bad := meets_of_run run ⟨rfl, rfl⟩
  refine first.bind ?_
  rintro _ _ ⟨rfl, rfl⟩
  exact next

lemma Meets.of_run {P : α → Func → Prop} (h : x.Meets f P bad) :
    x.Meets f (fun a f' => P a f' ∧ x.run f = .ok a f') bad :=
  meets_of_forall (fun _ _ run => ⟨h.of_ok run, run⟩) fun _ _ run => h.of_error run

end Ir.Edit

namespace Ir.Lift

open Edit

variable {α β : Type} {f f' f'' f₀ : Func} {b : BlockId} {k : NodeKind} {pool : Pool} {i : Instruction Marker}
  {frame : Frame} {count : Nat}

/-- Nodes are added to a block, and whatever holds of the edges and the phis goes on to hold. -/
structure Furnishes (f f' : Func) : Prop where
  flow : f.SameFlow f'
  phis : ∀ t, f'.phis t = f.phis t
  locals : f'.locals = f.locals
  sound : ∀ due, f.Sound (fun _ => False) due → f'.Sound (fun _ => False) due

lemma Furnishes.refl (f : Func) : Furnishes f f := ⟨.refl f, fun _ => rfl, rfl, fun _ h => h⟩

lemma Furnishes.trans (h : Furnishes f f') (h' : Furnishes f' f'') : Furnishes f f'' :=
  ⟨h.flow.trans h'.flow, fun t => (h'.phis t).trans (h.phis t), h'.locals.trans h.locals,
    fun due sound => h'.sound due (h.sound due sound)⟩

lemma furnishes_putNode (inner : b ≠ Func.entry ∧ b ≠ Func.exit) (plain : k.isPhi = false)
    (live : (f.block? b).isSome) : Furnishes f (f.putNode b (f.place b k) k) :=
  ⟨Func.sameFlow_putNode, fun _ => Func.phis_putNode_of_plain plain, rfl,
    fun _ sound => sound.putNode live Func.fits_place inner plain⟩

lemma furnishes_freshVersion : Furnishes f { f with nextVersion := f.nextVersion + 1 } := by
  have alike : f.Alike { f with nextVersion := f.nextVersion + 1 } := Func.alike_of_blocks rfl rfl rfl
  exact ⟨alike.toSameFlow, alike.phis, rfl, fun _ sound => sound.alike alike⟩

section Rules

variable {Q : β → Func → Prop} {bad : Fault → Prop}

lemma blames_pop {g : Value × Frame → Edit β} (empty : bad (.frame .underflow))
    (next : ∀ v fr, fr.locals = frame.locals → (g (v, fr)).Meets f Q bad) :
    (ofExcept frame.pop >>= g).Meets f Q bad := by
  rw [Frame.pop]
  split
  · exact next _ _ rfl
  · exact meets_throw_bind empty

lemma blames_popN {n : Nat} {g : List Value × Frame → Edit β}
    (short : ∀ m, bad (.frame (.tooShort n m)))
    (next : ∀ vs fr, fr.locals = frame.locals → (g (vs, fr)).Meets f Q bad) :
    (ofExcept (frame.popN n) >>= g).Meets f Q bad := by
  rw [Frame.popN]
  split
  · exact meets_throw_bind (short _)
  · exact next _ _ rfl

lemma blames_getLocal {r : Nat} {g : Value → Edit β} (inside : r < frame.locals.length)
    (next : ∀ v, (g v).Meets f Q bad) : (ofExcept (frame.getLocal r) >>= g).Meets f Q bad := by
  rw [Frame.getLocal, List.getElem?_eq_getElem inside]
  exact next _

lemma blames_setLocal {r : Nat} {v : Value} {g : Frame → Edit β} (inside : r < frame.locals.length)
    (next : ∀ fr, fr.locals.length = frame.locals.length → (g fr).Meets f Q bad) :
    (ofExcept (frame.setLocal r v) >>= g).Meets f Q bad := by
  rw [Frame.setLocal, if_pos inside]
  exact next _ (List.length_set ..)

lemma blames_indexOf {n : Nat} {g : Nat → Edit β} (found : i.index? = some n) (next : (g n).Meets f Q bad) :
    (indexOf i >>= g).Meets f Q bad := by
  rw [indexOf, found]
  exact next

lemma blames_appendNode {g : ValueId → Edit β} (inner : b ≠ Func.entry ∧ b ≠ Func.exit)
    (plain : k.isPhi = false) (live : (f₀.block? b).isSome) (before : Furnishes f₀ f)
    (next : ∀ v f', Furnishes f₀ f' → (g v).Meets f' Q bad) : (appendNode b k >>= g).Meets f Q bad := by
  have there : (f.block? b).isSome := by rwa [before.flow.isSome]
  refine meets_run_bind (appendNode_eq_ok.2 ⟨there, rfl, rfl⟩) (next _ _ ?_)
  exact before.trans (furnishes_putNode inner plain there)

lemma blames_freshVersion {g : Nat → Edit β} (before : Furnishes f₀ f)
    (next : ∀ v f', Furnishes f₀ f' → (g v).Meets f' Q bad) : (freshVersion >>= g).Meets f Q bad :=
  meets_run_bind (freshVersion_eq_ok.2 ⟨rfl, rfl⟩) (next _ _ (before.trans furnishes_freshVersion))

end Rules

/-- An edit that furnishes a graph, keeps the number of registers of a frame, and has no faults but
those of the code. -/
def Blames (f₀ : Func) (count : Nat) (x : Edit Frame) : Prop :=
  ∀ f, Furnishes f₀ f → x.Meets f (fun fr f' => fr.locals.length = count ∧ Furnishes f₀ f') (·.isInCode)

lemma blames_pure (same : frame.locals.length = count) : Blames f₀ count (pure frame) :=
  fun _ before => meets_pure ⟨same, before⟩

section Steps

variable (inner : b ≠ Func.entry ∧ b ≠ Func.exit) (live : (f₀.block? b).isSome)

section Registers

variable {register : Nat}

include inner live

lemma blames_spillSlots {own k : Nat} {pinned : List (Value × ValueId)} {vs : List Value}
    (before : Furnishes f₀ f) {bad : Fault → Prop} :
    (spillSlots b register own k pinned vs).Meets f
      (fun ws f' => ws.length = vs.length ∧ Furnishes f₀ f') bad := by
  induction vs generalizing f k pinned with
  | nil => exact meets_pure ⟨rfl, before⟩
  | cons v rest ih =>
    rw [spillSlots]
    refine meets_get ?_
    split
    · refine (ih before).bind ?_
      rintro ws f' ⟨length, after⟩
      exact meets_pure ⟨by simp [length], after⟩
    · split
      · refine (ih before).bind ?_
        rintro ws f' ⟨length, after⟩
        exact meets_pure ⟨by simp [length], after⟩
      · refine blames_appendNode inner rfl live before fun copy f₁ more => ?_
        refine (ih more).bind ?_
        rintro ws f' ⟨length, after⟩
        exact meets_pure ⟨by simp [length], after⟩

lemma blames_spill (before : Furnishes f₀ f) {g : Frame → Edit β} {Q : β → Func → Prop} {bad : Fault → Prop}
    (next : ∀ fr f', fr.locals.length = frame.locals.length → Furnishes f₀ f' → (g fr).Meets f' Q bad) :
    (spill b register frame >>= g).Meets f Q bad := by
  rw [spill, bind_assoc]
  refine (blames_spillSlots inner live before).bind ?_
  rintro ws f' ⟨length, after⟩
  rw [pure_bind]
  refine next _ f' ?_ after
  simp only [Frame.slots, List.length_append] at length
  simp only [Frame.withSlots, List.length_drop]
  omega

lemma blames_store {value : Value} (inside : register < frame.locals.length) :
    Blames f₀ frame.locals.length (store b register value frame) := by
  intro f before
  rw [store]
  refine blames_getLocal inside fun _ => ?_
  refine blames_spill inner live before fun fr f₁ same first => ?_
  refine blames_appendNode inner rfl live first fun _ f₂ second => ?_
  rw [← same] at inside
  rw [Frame.setLocal, if_pos inside]
  exact meets_pure ⟨(List.length_set ..).trans same, second⟩

end Registers

variable (shape : i.operands.layout = i.opcode.layout) (named : ∀ r ∈ i.registers, r < frame.locals.length)

lemma layout_of_typeOp {op : TypeOp} (found : TypeOp.ofOpcode? i.opcode = some op) : i.opcode.layout = .index := by
  have here : op.opcode = i.opcode := by simpa using List.find?_some found
  rw [← here]
  cases op <;> rfl

lemma exists_pair (pair : i.operands.layout = .pair) : ∃ m n, i.operands = .pair m n := by
  cases ops : i.operands with
  | pair m n => exact ⟨m, n, rfl⟩
  | _ =>
    rw [ops] at pair
    cases pair

lemma isInCode_of_constant (pushes : pushesConstant i.opcode = true)
    (shape : i.operands.layout = i.opcode.layout) {fault : Fault} (failed : constant pool i = .error fault) :
    fault.isInCode = true := by
  obtain ⟨n, rfl⟩ | ⟨rfl, not⟩ := constant_eq_error failed
  · rfl
  · exact absurd ⟨pushes, shape⟩ not

/-- The opcodes that change a register in place. -/
def changesRegister : Opcode → Bool
  | .kill | .incLocal | .decLocal | .incLocalI | .decLocalI => true
  | _ => false

include shape named

lemma exists_register (changes : changesRegister i.opcode = true) :
    ∃ r, i.index? = some r ∧ r < frame.locals.length := by
  have layout : i.opcode.layout = .index := by
    generalize i.opcode = o at *
    cases o <;> first | rfl | cases changes
  obtain ⟨r, ops, index⟩ := exists_index (shape.trans layout)
  refine ⟨r, index, named r ?_⟩
  rw [Instruction.registers, ops]
  generalize i.opcode = o at *
  cases o <;> first | exact List.mem_singleton_self r | cases changes

/-- The opcodes that push a register. -/
def readsRegister : Opcode → Bool
  | .getLocal | .getLocal0 | .getLocal1 | .getLocal2 | .getLocal3 => true
  | _ => false

/-- The opcodes that pop into a register. -/
def writesRegister : Opcode → Bool
  | .setLocal | .setLocal0 | .setLocal1 | .setLocal2 | .setLocal3 => true
  | _ => false

lemma exists_local (uses : (readsRegister i.opcode || writesRegister i.opcode) = true) :
    ∃ r, i.localRead?.or i.localWrite? = some r ∧ r < frame.locals.length := by
  have found : ∃ r, i.localRead?.or i.localWrite? = some r := by
    have index := exists_index (i := i)
    rw [shape] at index
    rw [Instruction.localRead?, Instruction.localWrite?]
    generalize i.opcode = o at *
    cases o <;> first | exact ⟨_, rfl⟩ | cases uses
    all_goals
      obtain ⟨r, -, there⟩ := index rfl
      exact ⟨r, by simpa using there⟩
  obtain ⟨r, there⟩ := found
  refine ⟨r, there, named r ?_⟩
  have same : i.registers = (i.localRead?.or i.localWrite?).toList := by
    rw [Instruction.registers]
    generalize i.opcode = o at *
    cases o <;> first | rfl | cases uses
  rw [same, there]
  exact List.mem_singleton_self r

lemma exists_localRead (reads : readsRegister i.opcode = true) :
    ∃ r, i.localRead? = some r ∧ r < frame.locals.length := by
  have unwritten : i.localWrite? = none := by
    rw [Instruction.localWrite?]
    generalize i.opcode = o at *
    cases o <;> first | rfl | cases reads
  simpa [unwritten] using exists_local shape named (by rw [reads]; rfl)

lemma exists_localWrite (writes : writesRegister i.opcode = true) :
    ∃ r, i.localWrite? = some r ∧ r < frame.locals.length := by
  have unread : i.localRead? = none := by
    rw [Instruction.localRead?]
    generalize i.opcode = o at *
    cases o <;> first | rfl | cases writes
  simpa [unread] using exists_local shape named (by rw [writes, Bool.or_true])

omit named

include inner live

omit shape in
lemma blames_debug (plain : k.isPhi = false) :
    Blames f₀ frame.locals.length (do let _ ← appendNode b k
                                      return frame) :=
  fun _ before => blames_appendNode inner plain live before fun _ _ after => meets_pure ⟨rfl, after⟩

omit inner live in
lemma blames_constant (pushes : pushesConstant i.opcode = true) :
    Blames f₀ frame.locals.length (do return frame.push (.const (← Edit.ofExcept (constant pool i)))) := by
  intro f before
  refine (meets_ofExcept (P := fun _ f' => f' = f) (fun _ _ => rfl) fun _ failed => ?_).bind ?_
  · exact isInCode_of_constant pushes shape failed
  · rintro c f' rfl
    exact meets_pure ⟨rfl, before⟩

omit inner live in
lemma blames_stepScopeObject (here : i.opcode = .getScopeObject) :
    Blames f₀ frame.locals.length (stepScopeObject i frame) := by
  intro f before
  rw [here] at shape
  obtain ⟨n, ops⟩ := exists_byte shape
  rw [stepScopeObject, ops]
  dsimp only
  split
  · exact meets_pure ⟨rfl, before⟩
  · exact meets_throw rfl

omit shape in
lemma blames_stepPushScope {op : ScopeOp} : Blames f₀ frame.locals.length (stepPushScope b op i frame) := by
  intro f before
  rw [stepPushScope]
  refine blames_pop rfl fun v fr same => ?_
  dsimp only
  split
  · exact meets_throw_bind rfl
  · exact blames_appendNode inner rfl live before fun _ _ after => meets_pure ⟨by simp [same], after⟩

omit shape in
lemma blames_stepPopScope : Blames f₀ frame.locals.length (stepPopScope b frame) := by
  intro f before
  rw [stepPopScope]
  split
  · exact meets_throw_bind rfl
  · exact blames_appendNode inner rfl live before fun _ _ after => meets_pure ⟨rfl, after⟩

omit inner live shape in
lemma isInCode_of_effect {fault : Fault} (failed : i.effect pool = .error fault) : fault.isInCode = true := by
  rw [Instruction.effect, Instruction.nameSlots] at failed
  split at failed
  · dsimp only at failed
    split at failed
    · cases failed
    · cases failed
      rfl
  · cases failed

omit inner live in
lemma meets_genericKind_plain {operands : List Value} {bad : Fault → Prop} :
    (genericKind i operands).Meets f (fun kind f' => f' = f ∧ kind.isPhi = false) bad := by
  rw [genericKind]
  split
  · rename_i call
    split
    · exact meets_pure ⟨rfl, rfl⟩
    · exact meets_pure ⟨rfl, rfl⟩
    · rename_i pair index
      exfalso
      obtain layout | layout := layout_of_isCall call
      · obtain ⟨m, n, ops⟩ := exists_pair (shape.trans layout)
        exact pair m n ops
      · obtain ⟨n, ops, -⟩ := exists_index (shape.trans layout)
        exact index n ops
  · rename_i call
    split
    · rename_i names
      obtain ⟨n, -, found⟩ := exists_index (shape.trans (layout_of_property (Bool.eq_false_iff.2 call) names))
      exact blames_indexOf found (meets_pure ⟨rfl, rfl⟩)
    · exact meets_pure ⟨rfl, rfl⟩

/-- What takes its operands from the stack fails only if the operands are missing, or a name. -/
lemma blames_generic (next : i.opcode.flow = .next) : Blames f₀ frame.locals.length (generic pool b i frame) := by
  intro f before
  rw [generic, if_neg (not_not_intro next)]
  refine (meets_ofExcept (P := fun _ f' => f' = f) (fun _ _ => rfl) fun _ failed => ?_).bind ?_
  · exact isInCode_of_effect failed
  · rintro e f' rfl
    refine blames_popN (fun _ => rfl) fun operands fr same => ?_
    refine (meets_genericKind_plain shape).bind ?_
    rintro kind f₁ ⟨rfl, plain⟩
    refine blames_appendNode inner plain live before fun _ _ after => meets_pure ⟨?_, after⟩
    split <;> exact congrArg List.length same

lemma blames_stepOperator (next : i.opcode.flow = .next) :
    Blames f₀ frame.locals.length (stepOperator pool b i frame) := by
  intro f before
  rw [stepOperator]
  split
  · rename_i op found
    obtain ⟨n, -, there⟩ := exists_index (shape.trans (layout_of_typeOp found))
    refine blames_indexOf there (blames_pop rfl fun v fr same => ?_)
    exact blames_appendNode inner rfl live before fun _ _ after => meets_pure ⟨by simp [same, Frame.push], after⟩
  · refine blames_pop rfl fun v fr same => ?_
    exact blames_appendNode inner rfl live before fun _ _ after => meets_pure ⟨by simp [same, Frame.push], after⟩
  · refine blames_pop rfl fun v fr same => blames_pop rfl fun w fr' same' => ?_
    refine blames_appendNode inner rfl live before fun _ _ after => meets_pure ⟨?_, after⟩
    simp [same, same', Frame.push]
  · exact blames_generic inner live shape next f before

include named

lemma blames_stepRegister {op : UnaryOp} (changes : changesRegister i.opcode = true) :
    Blames f₀ frame.locals.length (stepRegister b op i frame) := by
  intro f before
  obtain ⟨r, found, inside⟩ := exists_register shape named changes
  rw [stepRegister]
  refine blames_indexOf found (blames_getLocal inside fun v => ?_)
  exact blames_appendNode inner rfl live before fun _ _ after => blames_store inner live inside _ after

lemma blames_stepHasNext2 (here : i.opcode = .hasNext2) :
    Blames f₀ frame.locals.length (stepHasNext2 b i frame) := by
  intro f before
  have layout : i.operands.layout = .pair := by rw [shape, here]; rfl
  obtain ⟨object, index, ops⟩ := exists_pair layout
  have listed : i.registers = [object, index] := by rw [Instruction.registers, here, ops]
  rw [listed] at named
  have first : object < frame.locals.length := named object (by simp)
  have second : index < frame.locals.length := named index (by simp)
  rw [stepHasNext2, ops]
  dsimp only
  refine blames_getLocal first fun _ => blames_getLocal second fun _ => ?_
  refine blames_spill inner live before fun fr₁ f₁ same₁ after₁ => ?_
  refine blames_spill inner live after₁ fun fr₂ f₂ same₂ after₂ => ?_
  refine blames_appendNode inner rfl live after₂ fun _ f₃ after₃ => ?_
  refine blames_freshVersion after₃ fun version f₄ after₄ => ?_
  refine blames_setLocal (by omega) fun fr₃ same₃ => ?_
  refine blames_setLocal (by omega) fun fr₄ same₄ => meets_pure ⟨?_, after₄⟩
  simp only [Frame.push]
  omega

/-- An instruction that hands control to the next one is followed, or the fault lies in the code. -/
lemma blames_step (next : i.opcode.flow = .next) : Blames f₀ frame.locals.length (step pool b i frame) := by
  rw [step]
  split
  -- Instructions without effect, those for debuggers, and constants.
  iterate 2 exact blames_pure rfl
  iterate 6 exact blames_debug inner live rfl
  iterate 12
    rename_i here
    exact blames_constant shape (by rw [here]; rfl)
  -- The operand stack.
  · exact fun f before => blames_pop rfl fun v fr same => meets_pure ⟨by rw [same], before⟩
  · intro f before
    rw [Frame.peek]
    split
    · exact meets_pure ⟨rfl, before⟩
    · exact meets_throw_bind rfl
  · intro f before
    refine blames_pop rfl fun v fr same => blames_pop rfl fun w fr' same' => meets_pure ⟨?_, before⟩
    simp [Frame.push, same, same']
  -- Registers.
  iterate 5
    rename_i here
    obtain ⟨r, found, inside⟩ := exists_localRead shape named (by rw [here]; rfl)
    rw [found]
    exact fun f before => blames_getLocal inside fun v => meets_pure ⟨rfl, before⟩
  iterate 5
    rename_i here
    obtain ⟨r, found, inside⟩ := exists_localWrite shape named (by rw [here]; rfl)
    rw [found]
    refine fun f before => blames_pop rfl fun v fr same => ?_
    rw [← same]
    rw [← same] at inside
    exact blames_store inner live inside f before
  · rename_i here
    obtain ⟨r, found, inside⟩ := exists_register shape named (by rw [here]; rfl)
    exact fun f before => blames_indexOf found (blames_store inner live inside f before)
  iterate 4
    rename_i here
    exact blames_stepRegister inner live shape named (by rw [here]; rfl)
  · rename_i here
    exact blames_stepHasNext2 inner live shape named here
  -- The scope stack.
  · rename_i here
    exact blames_stepScopeObject shape here
  iterate 2 exact blames_stepPushScope inner live
  · exact blames_stepPopScope inner live
  · exact blames_stepOperator inner live shape next

end Steps

end Ir.Lift

end Avm
