import Avm.Proofs.Emit.Placing
import Avm.Proofs.Flow.Blanks
import Avm.Proofs.Ir.Writable

/-!
# Writing in lockstep

A function graph is written twice, into pools that differ.  A step of writing is `InStep` if from drafts
that differ only in the numbers of constants it gives the same result or the same fault, and such drafts
again; the pools grow on the way.  What is written does not look at the pool, so every step is: a constant
gets whatever number its pool has for it, and all other instructions are the same.

The main statement is `emit_lockstep`: into whatever two pools a function graph is written, both attempts
fail with the same fault, or both give code that differs only in the numbers of constants.
-/

namespace Avm.Emit

open Avm.Ir

variable {α β : Type} {P Q : Pool} {p : Plan} {d d' : Draft}

/-- Drafts that differ only in the numbers of constants, with pools that have grown from given ones. -/
structure Draft.Twin (P Q : Pool) (d d' : Draft) : Prop where
  left : P.Extends d.pool
  right : Q.Extends d'.pool
  code : Code.Twin d.pool d'.pool d.code d'.code
  pending : d.pending = d'.pending
  temps : d.temps = d'.temps
  nextTemp : d.nextTemp = d'.nextTemp
  starts : d.starts = d'.starts

namespace Write

/-- What comes of a step in two drafts: the same result and twins again, or the same fault. -/
def SameResult (P Q : Pool) : EStateM.Result Fault Draft α → EStateM.Result Fault Draft α → Prop
  | .ok a d, .ok a' d' => a = a' ∧ Draft.Twin P Q d d'
  | .error e d, .error e' d' => e = e' ∧ P.Extends d.pool ∧ Q.Extends d'.pool
  | _, _ => False

/-- The step does the same in drafts that differ only in the numbers of constants. -/
def InStep (P Q : Pool) (x : Write α) : Prop :=
  ∀ d d', Draft.Twin P Q d d' → SameResult P Q (x.run d) (x.run d')

lemma inStep_pure (a : α) : InStep P Q (pure a : Write α) := fun _ _ twin => ⟨rfl, twin⟩

lemma inStep_throw (e : Fault) : InStep P Q (throw e : Write α) :=
  fun _ _ twin => ⟨rfl, twin.left, twin.right⟩

lemma inStep_ofExcept (x : Except Fault α) : InStep P Q (ofExcept x) := by
  cases x with
  | ok a => exact inStep_pure a
  | error e => exact inStep_throw e

lemma InStep.bind {x : Write α} {g : α → Write β} (first : InStep P Q x)
    (rest : ∀ a, InStep P Q (g a)) : InStep P Q (x >>= g) := by
  intro d d' twin
  have here := first d d' twin
  change SameResult P Q (EStateM.bind x g d) (EStateM.bind x g d')
  rw [EStateM.bind, EStateM.bind]
  change SameResult P Q (x d) (x d') at here
  generalize x d = r at here
  generalize x d' = r' at here
  cases r with
  | ok a e =>
    cases r' with
    | ok a' e' =>
      obtain ⟨rfl, twin⟩ := here
      exact rest a e e' twin
    | error f e' => exact here.elim
  | error f e =>
    cases r' with
    | ok a' e' => exact here.elim
    | error f' e' => exact here

lemma inStep_ite {c : Prop} [Decidable c] {x y : Write α} (left : InStep P Q x) (right : InStep P Q y) :
    InStep P Q (if c then x else y) := by
  split
  · exact left
  · exact right

lemma inStep_get {g : Draft → Write β} (rest : ∀ d d', Draft.Twin P Q d d' →
    SameResult P Q ((g d).run d) ((g d').run d')) : InStep P Q (get >>= g) :=
  fun d d' twin => rest d d' twin

lemma sameResult_push {i j : Instruction Marker} (twin : Draft.Twin P Q d d')
    (alike : Instruction.Alike d.pool d'.pool i j) :
    SameResult P Q ((push i).run d) ((push j).run d') := by
  refine ⟨rfl, twin.left, twin.right, ⟨?_, ?_, twin.code.handlers, ?_⟩, rfl, twin.temps, twin.nextTemp,
    twin.starts⟩
  · exact List.rel_append twin.code.instrs (.cons ⟨twin.code.next, alike⟩ .nil)
  · change List.foldl _ d.code.markers _ = List.foldl _ d'.code.markers _
    rw [twin.pending, twin.code.markers]
    simp only [Code.push, twin.code.next]
  · exact congrArg (· + 1) twin.code.next

lemma inStep_push {i : Instruction Marker} (plain : i.opcode.isLiteral = false) :
    InStep P Q (push i) :=
  fun _ _ twin => sameResult_push twin (Instruction.alike_of_isLiteral plain)

/-- A constant is pushed by an instruction of its own, or by the number that it has in the pool. -/
lemma constant_cases (c : Constant) :
    (∃ i : Instruction Marker, i.opcode.isLiteral = false ∧ constant c = pure i) ∨
      ∃ (k : PoolKind) (v : k.Entry) (o : Opcode), k ≠ .multiname ∧
        constant c = (do return .withIndex o (← intern k v)) ∧
        ∀ (pool : Pool) (n : Nat), pool.get? k n = some v →
          (Instruction.withIndex o n : Instruction Marker).spell? pool = some (.push c) := by
  cases c with
  | undefined => exact .inl ⟨_, rfl, rfl⟩
  | null => exact .inl ⟨_, rfl, rfl⟩
  | bool b => cases b <;> exact .inl ⟨_, rfl, rfl⟩
  | int n =>
    rw [constant]
    split
    · exact .inl ⟨_, rfl, rfl⟩
    · split
      · exact .inl ⟨_, rfl, rfl⟩
      · refine .inr ⟨.int, n, .pushInt, by decide, rfl, fun pool k known => ?_⟩
        simp [Instruction.spell?, Instruction.withIndex, known]
  | uint n =>
    refine .inr ⟨.uint, n, .pushUInt, by decide, rfl, fun pool k known => ?_⟩
    simp [Instruction.spell?, Instruction.withIndex, known]
  | double x =>
    rw [constant]
    split
    · exact .inl ⟨_, rfl, rfl⟩
    · refine .inr ⟨.double, x, .pushDouble, by decide, rfl, fun pool k known => ?_⟩
      simp [Instruction.spell?, Instruction.withIndex, known]
  | string s =>
    refine .inr ⟨.string, s, .pushString, by decide, rfl, fun pool k known => ?_⟩
    simp [Instruction.spell?, Instruction.withIndex, known]
  | ns n => exact .inl ⟨_, rfl, rfl⟩

lemma inStep_constant (c : Constant) : InStep P Q (do push (← constant c)) := by
  intro d d' twin
  obtain ⟨i, plain, eq⟩ | ⟨k, v, o, ordinary, eq, spelt⟩ := constant_cases c
  · rw [eq]
    exact inStep_push plain d d' twin
  · have longer := Pool.extends_intern (P := d.pool) ordinary v
    have longer' := Pool.extends_intern (P := d'.pool) ordinary v
    -- The constant is entered into both pools, and spelt the same by the numbers that it has there.
    have grown : Draft.Twin P Q { d with pool := (d.pool.intern k v).1 }
        { d' with pool := (d'.pool.intern k v).1 } :=
      { twin with
        left := twin.left.trans longer
        right := twin.right.trans longer'
        code := twin.code.mono longer longer' }
    rw [eq]
    exact sameResult_push grown
      ⟨.push c, spelt _ _ (Pool.get?_intern v), spelt _ _ (Pool.get?_intern v)⟩

lemma isLiteral_getLocal (r : Register) : (.getLocal r : Instruction Marker).opcode.isLiteral = false := by
  match r with
  | 0 | 1 | 2 | 3 => rfl
  | r + 4 => rfl

lemma isLiteral_setLocal (r : Register) : (.setLocal r : Instruction Marker).opcode.isLiteral = false := by
  match r with
  | 0 | 1 | 2 | 3 => rfl
  | r + 4 => rfl

lemma inStep_temp (v : ValueId) : InStep P Q (temp v) := by
  refine inStep_get fun d d' twin => ?_
  rw [← twin.temps]
  cases d.temps.lookup v with
  | some r => exact ⟨rfl, twin⟩
  | none =>
    refine ⟨twin.nextTemp, { twin with temps := ?_, nextTemp := ?_ }⟩
    · simp only [twin.temps, twin.nextTemp]
    · exact congrArg (addWords · 1) twin.nextTemp

lemma inStep_value (v : Value) : InStep P Q (value p v) := by
  cases v with
  | const c => exact inStep_constant c
  | reg r version => exact inStep_push (isLiteral_getLocal r)
  | node v =>
    rw [value]
    split
    · exact inStep_pure ()
    · refine inStep_get fun d d' twin => ?_
      rw [← twin.temps]
      cases d.temps.lookup v with
      | some r => exact inStep_push (isLiteral_getLocal r) d d' twin
      | none => exact inStep_throw _ d d' twin

lemma inStep_values (vs : List Value) : InStep P Q (values p vs) := by
  induction vs with
  | nil => exact inStep_pure ()
  | cons v vs ih => exact (inStep_value v).bind fun _ => ih

lemma inStep_pushChecked {i : Instruction Marker} (plain : i.opcode.isLiteral = false) :
    InStep P Q (pushChecked i) :=
  (inStep_ofExcept _).bind fun _ => inStep_push plain

/-- What is written for a node is the same in every pool, since its instruction names no constant. -/
lemma inStep_effect {v : ValueId} {kind : NodeKind} {pool : Pool} (writable : kind.Writable pool) :
    InStep P Q (effect p v kind) := by
  have plain : ∀ i, kind.instruction? = some i → i.opcode.isLiteral = false :=
    fun i here => (writable i here).2.1
  cases kind with
  | phi inputs => exact inStep_throw _
  | caught => exact inStep_pure ()
  | store register operand =>
    rw [effect.eq_def]
    split
    all_goals cases ‹NodeKind.store _ _ = _›
    · exact inStep_push rfl
    · exact (inStep_value _).bind fun _ => inStep_push (plain _ rfl)
  | hasNext2 object index => exact inStep_push rfl
  | unary op operand => exact (inStep_value _).bind fun _ => inStep_push (plain _ rfl)
  | type op name operand => exact (inStep_value _).bind fun _ => inStep_push (plain _ rfl)
  | binary op lhs rhs => exact (inStep_values _).bind fun _ => inStep_push (plain _ rfl)
  | copy operand => exact inStep_value _
  | property opcode name operands =>
    exact (inStep_values _).bind fun _ => inStep_pushChecked (plain _ rfl)
  | call opcode index argCount operands =>
    exact (inStep_values _).bind fun _ => inStep_pushChecked (plain _ rfl)
  | operation instruction operands =>
    exact (inStep_values _).bind fun _ => inStep_push (plain _ rfl)
  | scope op operand => exact (inStep_values _).bind fun _ => inStep_push (plain _ rfl)
  | debug instruction => exact inStep_push (plain _ rfl)

lemma inStep_node {pool : Pool} (writable : p.func.Writable pool) (v : ValueId) :
    InStep P Q (node p v) := by
  rw [node]
  split
  · exact inStep_throw _
  · rename_i kind here
    refine (inStep_effect (writable.kind here)).bind fun _ => ?_
    split
    · split
      · exact (inStep_temp v).bind fun r => inStep_push (isLiteral_setLocal r)
      · exact inStep_push rfl
    · exact inStep_pure ()

lemma inStep_popInto (vs : List ValueId) : InStep P Q (popInto vs) := by
  induction vs with
  | nil => exact inStep_pure ()
  | cons v vs ih =>
    exact (inStep_temp v).bind fun r => (inStep_push (isLiteral_setLocal r)).bind fun _ => ih

lemma inStep_moves (source : BlockId) (kind : EdgeKind) (target : BlockId) :
    InStep P Q (moves p source kind target) :=
  (inStep_ofExcept _).bind fun _ => (inStep_values _).bind fun _ => inStep_popInto _

lemma inStep_label (b : BlockId) : InStep P Q (label p b) := by
  rw [label]
  split
  · exact inStep_pure _
  · exact inStep_throw _

lemma inStep_labels (bs : List BlockId) : InStep P Q (labels p bs) := by
  induction bs with
  | nil => exact inStep_pure _
  | cons b bs ih => exact (inStep_label b).bind fun _ => ih.bind fun _ => inStep_pure _

lemma inStep_jumpTo (source target : BlockId) : InStep P Q (jumpTo p source target) := by
  rw [jumpTo]
  split
  · exact (inStep_label target).bind fun _ => inStep_push rfl
  · exact inStep_pure ()

lemma inStep_terminator (b : BlockId) (t : Terminator) : InStep P Q (terminator p b t) := by
  cases t with
  | goto target => exact (inStep_moves _ _ _).bind fun _ => inStep_jumpTo _ _
  | jump target => exact (inStep_moves _ _ _).bind fun _ => inStep_jumpTo _ _
  | branch kind operands onTrue onFalse =>
    refine (inStep_values _).bind fun _ => ?_
    split
    · rename_i inverse here _
      refine (inStep_label _).bind fun _ => inStep_push ?_
      cases kind <;> cases here <;> rfl
    · refine (inStep_label _).bind fun _ => (inStep_push ?_).bind fun _ => inStep_jumpTo _ _
      cases kind <;> rfl
  | switch index default cases =>
    exact (inStep_value _).bind fun _ => (inStep_label _).bind fun _ =>
      (inStep_labels _).bind fun _ => inStep_pushChecked rfl
  | leave v =>
    cases v with
    | none => exact inStep_push rfl
    | some v => exact (inStep_value v).bind fun _ => inStep_push rfl
  | raise v => exact (inStep_value v).bind fun _ => inStep_push rfl
  | none => exact inStep_throw _

lemma inStep_laterNodes {pool : Pool} (writable : p.func.Writable pool) (b : BlockId)
    (vs : List ValueId) : InStep P Q (laterNodes p b vs) := by
  induction vs with
  | nil => exact inStep_pure ()
  | cons v vs ih =>
    rw [laterNodes]
    split
    · exact (inStep_throw _).bind fun _ => (inStep_node writable v).bind fun _ => ih
    · exact (inStep_node writable v).bind fun _ => ih

lemma inStep_nodes {pool : Pool} (writable : p.func.Writable pool) (b : BlockId)
    (vs : List ValueId) : InStep P Q (nodes p b vs) := by
  cases vs with
  | nil => exact inStep_pure ()
  | cons v vs => exact (inStep_node writable v).bind fun _ => inStep_laterNodes writable b vs

lemma inStep_block {pool : Pool} (writable : p.func.Writable pool) (b : BlockId) :
    InStep P Q (block p b) := by
  rw [block]
  split
  · exact inStep_throw _
  · rename_i x here
    have rest : InStep P Q (do nodes p b x.body; terminator p b x.terminator) :=
      (inStep_nodes writable b _).bind fun _ => inStep_terminator b _
    have caught := (inStep_push (i := ⟨.pop, .none⟩) rfl).bind fun _ => rest
    dsimp only
    apply inStep_ite
    · refine (inStep_push rfl).bind fun _ => ?_
      exact inStep_ite caught rest
    · exact inStep_ite caught rest

lemma inStep_modify {u : Draft → Draft} (same : ∀ d d', Draft.Twin P Q d d' → Draft.Twin P Q (u d) (u d')) :
    InStep P Q (modify u : Write PUnit) :=
  fun d d' twin => ⟨rfl, same d d' twin⟩

lemma inStep_blocks {pool : Pool} (writable : p.func.Writable pool) (bs : List BlockId) :
    InStep P Q (blocks p bs) := by
  induction bs with
  | nil => exact inStep_pure ()
  | cons b bs ih =>
    refine (inStep_label b).bind fun m => (inStep_modify fun d d' twin => ?_).bind fun _ =>
      (inStep_block writable b).bind fun _ => ih
    refine { twin with pending := ?_, starts := ?_ }
    · simp only [twin.pending]
    · simp only [twin.starts, twin.code.size]

lemma inStep_finish : InStep P Q finish := by
  refine inStep_modify fun d d' twin => ?_
  refine { twin with pending := rfl, code := { twin.code with markers := ?_ } }
  simp only [twin.pending, twin.code.markers]

lemma inStep_stopLabel (i : Nat) : InStep P Q (stopLabel p i) := by
  rw [stopLabel]
  split
  · exact inStep_label _
  · refine inStep_get fun d d' twin => ?_
    refine ⟨?_, { twin with code := { twin.code with markers := ?_ } }⟩
    · simp only [twin.code.markers]
    · simp only [twin.code.markers]

lemma inStep_handlerRuns (c : Catch) (target : Marker) (runs : List (Nat × Nat)) :
    InStep P Q (handlerRuns p c target runs) := by
  induction runs with
  | nil => exact inStep_pure ()
  | cons run runs ih =>
    obtain ⟨first, stop⟩ := run
    refine inStep_get fun d d' twin => ?_
    rw [← twin.starts, ← twin.code.size]
    dsimp only
    split
    · refine ((inStep_stopLabel stop).bind fun m => (inStep_modify fun d d' twin => ?_).bind fun _ => ih)
        d d' twin
      refine { twin with code := { twin.code with handlers := ?_ } }
      simp only [twin.code.handlers]
    · exact ih d d' twin

lemma inStep_handlers (hs : List Nat) : InStep P Q (handlers p hs) := by
  induction hs with
  | nil => exact inStep_pure ()
  | cons h hs ih =>
    rw [handlers]
    split
    · exact ih
    · exact (inStep_label _).bind fun _ => (inStep_handlerRuns _ _ _).bind fun _ => ih

lemma inStep_all {pool : Pool} (writable : p.func.Writable pool) : InStep P Q (all p) :=
  (inStep_blocks writable _).bind fun _ => inStep_finish.bind fun _ =>
    (inStep_ofExcept _).bind fun hs => inStep_handlers hs

end Write

lemma retains_splitEdges {pool : Pool} (es : List (BlockId × BlockId × EdgeKind)) :
    (splitEdges es).Retains (Func.Writable pool) := by
  induction es with
  | nil => exact Edit.retains_pure
  | cons e es ih => exact Edit.retains_splitEdge.bind fun _ => ih

lemma retains_splitCriticalEdges {pool : Pool} : splitCriticalEdges.Retains (Func.Writable pool) :=
  Edit.retains_get fun f start => retains_splitEdges (criticalEdges f) f start

lemma twin_start (p : Plan) (P Q : Pool) : Draft.Twin P Q (Draft.start p P) (Draft.start p Q) where
  left := .refl P
  right := .refl Q
  code := ⟨.nil, rfl, rfl, rfl⟩
  pending := rfl
  temps := rfl
  nextTemp := rfl
  starts := rfl

/-- What comes of writing a function graph into two pools: code that differs only in the numbers of
constants, or the same fault. -/
def SameCode (P Q : Pool) : Except Fault Code → Except Fault Code → Prop
  | .ok c, .ok c' => Code.Twin P Q c c'
  | .error e, .error e' => e = e'
  | _, _ => False

lemma emit_lockstep {f : Func} {pool : Pool} (writable : f.Writable pool) (P Q : Pool) :
    P.Extends (emit f P).2 ∧ Q.Extends (emit f Q).2 ∧
      SameCode (emit f P).2 (emit f Q).2 (emit f P).1 (emit f Q).1 := by
  rw [emit, emit]
  split
  · exact ⟨.refl P, .refl Q, rfl⟩
  · rename_i u f' split
    have writable' : f'.Writable pool := retains_splitCriticalEdges.of_ok writable split
    have same := Write.inStep_all (p := Plan.ofFunc f') writable' _ _ (twin_start (Plan.ofFunc f') P Q)
    dsimp only
    generalize EStateM.run _ (Draft.start _ P) = r at same
    generalize EStateM.run _ (Draft.start _ Q) = r' at same
    cases r with
    | ok a d =>
      cases r' with
      | ok a' d' => exact ⟨same.2.left, same.2.right, same.2.code⟩
      | error e d' => exact same.elim
    | error e d =>
      cases r' with
      | ok a' d' => exact same.elim
      | error e' d' => exact ⟨same.2.1, same.2.2, same.1⟩

end Avm.Emit
