import Avm.Proofs.Lift.Simulating

/-!
# Nodes with their instructions

A node that stands for an instruction without rules of its own does what the instruction does, where just the values of
the operands are on the operand stack.  The other nodes have rules of their own, which their
instructions follow.  So behind its operands, the instruction of a node goes on beside the node,
with the result of the node on the operand stack.

The main statements are `Scene.attains_of_acts`, `Scene.advances_of_acts` and `Scene.exists_acts`.
-/

namespace Avm

open Ir

namespace Machine

variable {V : Type} {pool : Pool} {I : Interp V} {i : Instruction Nat} {m m' : Machine V} {l : List Nat}
  {results : Nat → V}

lemma foldl_push : l.foldl (fun m k => m.push (results k)) m =
    { m with stack := (l.map results).reverse ++ m.stack } := by
  induction l generalizing m with
  | nil => rfl
  | cons k l ih =>
    rw [List.foldl_cons, ih]
    simp [push]

/-- The operand stack and the trace behind an instruction, with all else as another machine has it. -/
def Next.on (m : Machine V) : Next V → Next V
  | .goes a => .goes { m with stack := a.stack, trace := a.trace }
  | .ends trace ending => .ends trace ending

/-- An instruction without rules of its own works on the operand stack and the trace.  It looks at the scope stack, and
at nothing else. -/
lemma execute_on (special : Lift.isSpecial i.opcode = false) (stack : m'.stack = m.stack) (scope : m'.scope = m.scope)
    (trace : m'.trace = m.trace) : execute pool I i m' = (execute pool I i m).map (Next.on m') := by
  rw [execute_of_not_isSpecial special, execute_of_not_isSpecial special]
  obtain ⟨q, st, sc, reg, tr⟩ := m
  obtain ⟨q', st', sc', reg', tr'⟩ := m'
  obtain rfl : st' = st := stack
  obtain rfl : sc' = sc := scope
  obtain rfl : tr' = tr := trace
  split
  · rfl
  · rw [operate, operate]
    split
    · cases i.index? with
      | none => rfl
      | some n => cases st' <;> rfl
    · cases st' <;> rfl
    · cases st' with
      | nil => rfl
      | cons y ys => cases ys <;> rfl
    · rw [perform, perform]
      cases i.effect pool with
      | error e => rfl
      | ok e =>
        simp only [Except.toOption, Option.bind_eq_bind, Option.bind_some, popN?, foldl_push]
        split
        · rfl
        · simp only [Option.bind_some, emit, Option.pure_def, Option.map_some]
          split <;> rfl

/-- An instruction without rules of its own that finds just what it pops leaves what it pushes, or
raises an exception. -/
lemma execute_settles {effect : StackEffect} (special : Lift.isSpecial i.opcode = false)
    (typed : TypeOp.ofOpcode? i.opcode = none) (known : i.effect pool = .ok effect)
    (taken : m.stack.length = effect.pops) :
    (∃ m', execute pool I i m = some (.goes m') ∧ m'.stack.length = effect.pushes) ∨
      ∃ trace x, execute pool I i m = some (.ends trace (.thrown x)) := by
  rw [execute_of_not_isSpecial special]
  split
  · rename_i silent
    obtain rfl := Except.ok.inj (known.symm.trans (Lift.effect_of_isSilent silent))
    exact .inl ⟨_, rfl, congrArg (· + 1) taken⟩
  · rw [operate, typed]
    cases unary : UnaryOp.ofOpcode? i.opcode with
    | some op =>
      obtain rfl := Except.ok.inj (known.symm.trans (Lift.effect_of_unaryOp unary))
      obtain ⟨x, stack⟩ := List.length_eq_one_iff.1 taken
      exact .inl ⟨_, by simp only [pop?, stack]; rfl, rfl⟩
    | none =>
      cases binary : BinaryOp.ofOpcode? i.opcode with
      | some op =>
        obtain rfl := Except.ok.inj (known.symm.trans (Lift.effect_of_binaryOp binary))
        obtain ⟨x, y, stack⟩ := List.length_eq_two.1 taken
        exact .inl ⟨_, by simp only [pop?, stack]; rfl, rfl⟩
      | none =>
        simp only [perform, known, popN?, taken, Nat.lt_irrefl, if_false, Except.toOption, Option.bind_eq_bind,
          Option.bind_some, Option.pure_def, foldl_push]
        cases answer : I.answer (m.trace ++ [⟨i.opcode, i.operands, (m.stack.take effect.pops).reverse⟩]) with
        | ok results => exact .inl ⟨_, congrArg some (emit_of_ok answer), by simp [taken]⟩
        | error x => exact .inr ⟨_, x, congrArg some (emit_of_error answer)⟩

section Operators

variable {x y : V} {rest : List V}

lemma execute_unary (op : UnaryOp) (top : m.stack = x :: rest) :
    execute pool I ⟨op.opcode, .none⟩ m = some (.goes { m with stack := I.unary op x :: rest }) := by
  obtain ⟨q, st, sc, reg, tr⟩ := m
  obtain rfl : st = x :: rest := top
  cases op <;> rfl

lemma execute_type (op : TypeOp) (name : Nat) (top : m.stack = x :: rest) :
    execute pool I (.withIndex op.opcode name) m = some (.goes { m with stack := I.type op name x :: rest }) := by
  obtain ⟨q, st, sc, reg, tr⟩ := m
  obtain rfl : st = x :: rest := top
  cases op <;> rfl

lemma execute_binary (op : BinaryOp) (top : m.stack = y :: x :: rest) :
    execute pool I ⟨op.opcode, .none⟩ m = some (.goes { m with stack := I.binary op x y :: rest }) := by
  obtain ⟨q, st, sc, reg, tr⟩ := m
  obtain rfl : st = y :: x :: rest := top
  cases op <;> rfl

lemma execute_scope {op : ScopeOp} (enters : op ≠ .pop) (top : m.stack = x :: rest) :
    execute pool I ⟨op.opcode, .none⟩ m = some (emit I { m with stack := rest } ⟨op.opcode, .none, [x]⟩
      fun _ m => { m with scope := m.scope ++ [x] }) := by
  obtain ⟨q, st, sc, reg, tr⟩ := m
  obtain rfl : st = x :: rest := top
  cases op with
  | push | pushWith => rfl
  | pop => exact absurd rfl enters

end Operators

end Machine

namespace Scene

variable {V : Type}

/-- A machine beside nodes has the same scope stack and trace, and the same registers up to a bound. -/
structure Beside (n : Nat) (s : Scene V) (m : Machine V) : Prop where
  scope : m.scope = s.scope
  trace : m.trace = s.trace
  registers : ∀ r < n, m.registers r = s.registers r

/-- Does what the instruction of a node does, where just the values of the operands are on the operand stack.  It has to
take all of them, and to leave the result of the node there if the node has one. -/
def obey (pool : Pool) (I : Interp V) (s : Scene V) (v : ValueId) (k : NodeKind) : Option (Outcome V) := do
  let i ← k.instruction?
  let args ← k.operands.mapM (s.value? I)
  if Lift.isSpecial i.opcode ∨ i.opcode.flow ≠ .next then none
  else match Machine.execute pool I i ⟨0, args.reverse, s.scope, s.registers, s.trace⟩ with
    | some (.goes m) =>
      match k.producesValue, m.stack with
      | true, [x] => some (.goes ({ s with trace := m.trace }.define v x))
      | false, [] => some (.goes { s with trace := m.trace })
      | _, _ => none
    | some (.ends trace (.thrown x)) => some (.raises trace x)
    | _ => none

/-- A record for a debugger. -/
def IsRecord (i : Instruction Nat) : Prop :=
  i.opcode ∈ [.nop, .label, .bkpt, .bkptLine, .debug, .debugLine, .debugFile, .timestamp]

instance (i : Instruction Nat) : Decidable (IsRecord i) := inferInstanceAs (Decidable (_ ∈ _))

/-- A node can be done wherever its operands have values: its instruction takes all of them, has
the result of the node, and is none that stands for other nodes. -/
def Suits (pool : Pool) (k : NodeKind) : Prop :=
  k.Writable pool ∧
    match k with
    | .debug i => IsRecord i
    | .property .. | .call .. | .operation .. =>
      ∀ i, k.instruction? = some i → Lift.isSpecial i.opcode = false ∧ TypeOp.ofOpcode? i.opcode = none
    | _ => True

/-- Does what a node does, where an exception may have been caught.  A node that stands for an instruction without rules
of its own does what the instruction does. -/
def acts (pool : Pool) (I : Interp V) (exception : Option V) (s : Scene V) (v : ValueId) (k : NodeKind) :
    Option (Outcome V) :=
  match k with
  | .caught => exception.map fun x => .goes (s.define v x)
  | .debug i => if IsRecord i then some (.goes s) else none
  | .property .. | .call .. | .operation .. => s.obey pool I v k
  | .scope .pop (some _) => none
  | k => s.does I .none v k

/-- How far nodes get, one after another. -/
inductive Course (V : Type) where
  /-- All of them are behind. -/
  | passes (s : Scene V)
  /-- One of them raises an exception, and found everything as given. -/
  | stops (s : Scene V) (trace : List (Event V)) (exception : V)

/-- How far nodes are once one of them was done. -/
def Outcome.course (s : Scene V) : Outcome V → Course V
  | .goes s' => .passes s'
  | .raises trace x => .stops s trace x

/-- Does what nodes of a graph do, one after another. -/
def follow (f : Func) (pool : Pool) (I : Interp V) (exception : Option V) : List ValueId → Scene V → Option (Course V)
  | [], s => some (.passes s)
  | v :: vs, s =>
    match (f.kind? v).bind (s.acts pool I exception v) with
    | some (.goes s') => follow f pool I exception vs s'
    | some (.raises trace x) => some (.stops s trace x)
    | none => none

lemma follow_isRecord {pool : Pool} {I : Interp V} {i : Instruction Nat} {m : Machine V} (record : IsRecord i) :
    Machine.follow pool I [i] m = some (.passes m) := by
  obtain ⟨o, operands⟩ := i
  have listed : o ∈ [.nop, .label, .bkpt, .bkptLine, .debug, .debugLine, .debugFile, .timestamp] := record
  simp only [List.mem_cons, List.not_mem_nil, or_false] at listed
  rcases listed with rfl | rfl | rfl | rfl | rfl | rfl | rfl | rfl <;> rfl

variable {pool : Pool} {I : Interp V} {exception : Option V} {s s' : Scene V} {m : Machine V} {v w : ValueId}
  {k : NodeKind} {n : Nat} {args : List V} {trace : List (Event V)} {x : V}

/-- Instructions do what comes of a node.  They go on beside it, with just the result of the node
on the operand stack, and leave the registers from a bound on alone.  Or they end with the same exception. -/
def Attains (n : Nat) (pool : Pool) (I : Interp V) (v : ValueId) (k : NodeKind) (is : List (Instruction Nat))
    (m : Machine V) : Outcome V → Prop
  | .goes s' => ∃ m', Machine.follow pool I is m = some (.passes m') ∧ s'.Beside n m' ∧
      m'.stack.map some = (if k.producesValue then [s'.values v] else []) ∧
        ∀ r, n ≤ r → m'.registers r = m.registers r
  | .raises trace x => Machine.follow pool I is m = some (.stops m trace x)

lemma values_define : (s.define v x).values v = some x := Function.update_self ..

lemma Beside.set (beside : s.Beside n m) (r : Nat) (x : V) : (s.assign r x).Beside n (m.set r x) := by
  refine ⟨beside.scope, beside.trace, fun r' below => ?_⟩
  by_cases same : r' = r
  · rw [same]
    exact (Function.update_self r x m.registers).trans (Function.update_self r x s.registers).symm
  · refine (Function.update_of_ne same _ _).trans ((beside.registers r' below).trans ?_)
    exact (Function.update_of_ne same _ _).symm

lemma Beside.log (beside : s.Beside n m) (t : List (Event V)) : Beside n { s with trace := t } { m with trace := t } :=
  ⟨beside.scope, rfl, beside.registers⟩

lemma Beside.stacked (beside : s.Beside n m) (st : List V) : s.Beside n { m with stack := st } :=
  ⟨beside.scope, beside.trace, beside.registers⟩

lemma Beside.define (beside : s.Beside n m) (v : ValueId) (x : V) : (s.define v x).Beside n m :=
  ⟨beside.scope, beside.trace, beside.registers⟩

lemma attains_define {is : List (Instruction Nat)} (beside : s.Beside n m) (result : k.producesValue = true)
    (passes : Machine.follow pool I is m = some (.passes { m with stack := [x] })) :
    Attains n pool I v k is m (.goes (s.define v x)) := by
  refine ⟨_, passes, (beside.define v x).stacked [x], ?_, fun _ _ => rfl⟩
  rw [result, if_pos rfl, values_define]
  rfl

lemma attains_emit {i : Instruction Nat} {e : Event V} {andScene : (Nat → V) → Scene V → Scene V}
    {andMachine : (Nat → V) → Machine V → Machine V} (next : i.opcode.flow = .next) {m₁ : Machine V}
    (executed : Machine.execute pool I i m = some (m₁.emit I e andMachine)) (same : m₁.trace = s.trace)
    (goes : ∀ results, Attains n pool I v k [] (andMachine results { m₁ with trace := s.trace ++ [e] })
      (.goes (andScene results { s with trace := s.trace ++ [e] })))
    (above : ∀ results r, n ≤ r → (andMachine results { m₁ with trace := s.trace ++ [e] }).registers r =
      m.registers r) :
    Attains n pool I v k [i] m (s.emit I e andScene) := by
  cases answer : I.answer (s.trace ++ [e]) with
  | ok results =>
    rw [emit_of_ok answer]
    rw [Machine.emit_of_ok (same ▸ answer), same] at executed
    obtain ⟨m', passes, beside, stack, kept⟩ := goes results
    refine ⟨m', (Machine.follow_cons next executed).trans passes, beside, stack, fun r high => ?_⟩
    rw [kept r high, above results r high]
  | error x =>
    rw [emit_of_error answer]
    rw [Machine.emit_of_error (same ▸ answer), same] at executed
    exact Machine.follow_cons_stops next executed

lemma attains_obey {o : Outcome V} (beside : s.Beside n m) (worth : k.operands.map (s.value? I) = args.map some)
    (stack : m.stack = args.reverse) (done : s.obey pool I v k = some o) :
    Attains n pool I v k k.instruction?.toList m o := by
  rw [obey] at done
  obtain ⟨i, here, done⟩ := Option.bind_eq_some_iff.1 done
  obtain ⟨args', worth', done⟩ := Option.bind_eq_some_iff.1 done
  obtain rfl := Option.some.inj (worth'.symm.trans (mapM_value? worth))
  split at done
  · cases done
  · rename_i ordinary
    obtain ⟨special, next⟩ := not_or.1 ordinary
    have special := Bool.eq_false_of_not_eq_true special
    have next := not_not.1 next
    rw [here, Option.toList_some]
    have executed : Machine.execute pool I i m = (Machine.execute pool I i ⟨0, args'.reverse, s.scope, s.registers,
        s.trace⟩).map (Machine.Next.on m) := Machine.execute_on special stack beside.scope beside.trace
    split at done
    · rename_i a went
      rw [went] at executed
      split at done
      · rename_i x result top
        obtain rfl := Option.some.inj done
        refine ⟨_, Machine.follow_singleton next executed, ⟨beside.scope, rfl, beside.registers⟩, ?_, fun _ _ => rfl⟩
        rw [result, if_pos rfl, values_define]
        exact congrArg (List.map some) top
      · rename_i result top
        obtain rfl := Option.some.inj done
        refine ⟨_, Machine.follow_singleton next executed, ⟨beside.scope, rfl, beside.registers⟩, ?_, fun _ _ => rfl⟩
        rw [result]
        exact congrArg (List.map some) top
      · cases done
    · rename_i t x ended
      rw [ended] at executed
      obtain rfl := Option.some.inj done
      exact Machine.follow_cons_stops next executed
    · cases done

lemma eq_singleton {y : Value} (worth : [y].map (s.value? I) = args.map some) :
    ∃ a, s.value? I y = some a ∧ args = [a] := by
  cases args with
  | nil => cases worth
  | cons a args =>
    obtain ⟨here, rest⟩ := List.cons.inj worth
    rw [eq_comm, List.map_nil, List.map_eq_nil_iff] at rest
    exact ⟨a, here, by rw [rest]⟩

lemma eq_pair {y z : Value} (worth : [y, z].map (s.value? I) = args.map some) :
    ∃ a c, s.value? I y = some a ∧ s.value? I z = some c ∧ args = [a, c] := by
  cases args with
  | nil => cases worth
  | cons a args =>
    obtain ⟨here, rest⟩ := List.cons.inj worth
    obtain ⟨c, there, rfl⟩ := eq_singleton rest
    exact ⟨a, c, here, there, rfl⟩

lemma attains_scope {op : ScopeOp} {y : Option Value} {o : Outcome V} (beside : s.Beside n m)
    (worth : y.toList.map (s.value? I) = args.map some) (stack : m.stack = args.reverse)
    (done : s.acts pool I exception v (.scope op y) = some o) :
    Attains n pool I v (.scope op y) [⟨op.opcode, .none⟩] m o := by
  have next : op.opcode.flow = .next := by cases op <;> rfl
  cases y with
  | none =>
    cases op with
    | push | pushWith => cases done
    | pop =>
      change (if s.scope.isEmpty then none else some _) = some o at done
      split at done
      · cases done
      · rename_i inside
        obtain rfl := Option.some.inj done
        rw [← beside.scope] at inside
        have executed : Machine.execute pool I ⟨.popScope, .none⟩ m =
            some (m.emit I ⟨.popScope, .none, []⟩ fun _ m => { m with scope := m.scope.dropLast }) := if_neg inside
        refine attains_emit next executed beside.trace (fun results => ?_) fun _ _ _ => rfl
        refine ⟨_, rfl, ⟨congrArg List.dropLast beside.scope, rfl, beside.registers⟩, ?_, fun _ _ => rfl⟩
        rw [List.eq_nil_of_map_eq_nil worth.symm] at stack
        exact congrArg (List.map some) stack
  | some z =>
    obtain ⟨a, here, rfl⟩ := eq_singleton worth
    have enters : op ≠ .pop := by
      rintro rfl
      cases done
    have done : s.does I .none v (.scope op (some z)) = some o := by
      cases op with
      | push | pushWith => exact done
      | pop => exact absurd rfl enters
    rw [does, change, here] at done
    · obtain rfl := Option.some.inj done
      refine attains_emit next (Machine.execute_scope enters stack) beside.trace (fun results => ?_) fun _ _ _ => rfl
      exact ⟨_, rfl, ⟨congrArg (· ++ [a]) beside.scope, rfl, beside.registers⟩, rfl, fun _ _ => rfl⟩
    · exact enters

lemma attains_store {r : Nat} {y : Value} {o : Outcome V} (beside : s.Beside n m) (below : r < n)
    (worth : [y].map (s.value? I) = args.map some) (stack : m.stack = args.reverse)
    (done : s.acts pool I exception v (.store r y) = some o) :
    Attains n pool I v (.store r y) (NodeKind.store r y).instruction?.toList m o := by
  obtain ⟨a, here, rfl⟩ := eq_singleton worth
  change s.does I .none v (.store r y) = some o at done
  rw [does, here] at done
  obtain rfl := Option.some.inj done
  refine ⟨_, Machine.follow_setLocal stack, (beside.stacked []).set r a, rfl, fun r' high => ?_⟩
  exact Function.update_of_ne (by omega) _ _

lemma attains_hasNext2 {object index : Nat} {o : Outcome V} (beside : s.Beside n m) (below : object < n ∧ index < n)
    (empty : m.stack = []) (done : s.acts pool I exception v (.hasNext2 object index) = some o) :
    Attains n pool I v (.hasNext2 object index) (NodeKind.hasNext2 object index).instruction?.toList m o := by
  obtain rfl := Option.some.inj done
  rw [← beside.registers object below.1, ← beside.registers index below.2]
  refine attains_emit rfl rfl beside.trace (fun results => ?_) fun results r high => ?_
  · have set (t : List (Event V)) := ((beside.log t).set object (results 1)).set index (results 2)
    refine ⟨_, rfl, ((set _).define v (results 0)).stacked (results 0 :: m.stack), ?_, fun _ _ => rfl⟩
    rw [empty, NodeKind.producesValue, if_pos rfl, values_define]
    rfl
  · have ne : r ≠ index ∧ r ≠ object := by omega
    exact (Function.update_of_ne ne.1 _ _).trans (Function.update_of_ne ne.2 _ _)

/-- Behind its operands, the instruction of a node does what the node does. -/
theorem attains_of_acts {o : Outcome V} (beside : s.Beside n m) (plain : k ≠ .caught) (below : ∀ r ∈ k.written, r < n)
    (worth : k.operands.map (s.value? I) = args.map some) (stack : m.stack = args.reverse)
    (done : s.acts pool I exception v k = some o) : Attains n pool I v k k.instruction?.toList m o := by
  cases k with
  | unary op y =>
    obtain ⟨a, here, rfl⟩ := eq_singleton worth
    change s.does I .none v (.unary op y) = some o at done
    rw [does, here] at done
    obtain rfl := Option.some.inj done
    refine attains_define beside rfl (Machine.follow_singleton ?_ (Machine.execute_unary op stack))
    cases op <;> rfl
  | type op name y =>
    obtain ⟨a, here, rfl⟩ := eq_singleton worth
    change s.does I .none v (.type op name y) = some o at done
    rw [does, here] at done
    obtain rfl := Option.some.inj done
    refine attains_define beside rfl (Machine.follow_singleton ?_ (Machine.execute_type op name stack))
    cases op <;> rfl
  | binary op y z =>
    obtain ⟨a, c, here, there, rfl⟩ := eq_pair worth
    change s.does I .none v (.binary op y z) = some o at done
    rw [does, here, there] at done
    obtain rfl := Option.some.inj done
    refine attains_define beside rfl (Machine.follow_singleton ?_ (Machine.execute_binary op stack))
    cases op <;> rfl
  | copy y =>
    obtain ⟨a, here, rfl⟩ := eq_singleton worth
    change s.does I .none v (.copy y) = some o at done
    rw [does, here] at done
    obtain rfl := Option.some.inj done
    refine attains_define beside rfl ?_
    rw [← show m.stack = [a] from stack]
    rfl
  | store r y => exact attains_store beside (below r List.mem_cons_self) worth stack done
  | hasNext2 object index =>
    have inside := below index (List.mem_cons_of_mem _ List.mem_cons_self)
    rw [List.eq_nil_of_map_eq_nil worth.symm] at stack
    exact attains_hasNext2 beside ⟨below object List.mem_cons_self, inside⟩ stack done
  | scope op y => exact attains_scope beside worth stack done
  | debug i =>
    change (if IsRecord i then some _ else none) = some o at done
    split at done
    · rename_i record
      obtain rfl := Option.some.inj done
      rw [List.eq_nil_of_map_eq_nil worth.symm] at stack
      exact ⟨m, follow_isRecord record, beside, congrArg (List.map some) stack, fun _ _ => rfl⟩
    · cases done
  | property | call | operation => exact attains_obey beside worth stack done
  | phi inputs => cases done
  | caught => exact absurd rfl plain

/-- What a node leaves as it was, and what it gives. -/
structure Advances (v : ValueId) (k : NodeKind) (s s' : Scene V) : Prop where
  others : ∀ w, w ≠ v → s'.values w = s.values w
  result : k.producesValue = true → (s'.values v).isSome
  depth : k.depthAfter s.scope.length = some s'.scope.length

lemma advances_define {s₁ : Scene V} (level : k.depthAfter s.scope.length = some s.scope.length)
    (values : s₁.values = s.values) (scope : s₁.scope = s.scope) : Advances v k s (s₁.define v x) where
  others w other := by
    rw [← values]
    exact Function.update_of_ne other _ _
  result _ := by
    rw [values_define]
    rfl
  depth := by
    rw [level, ← scope]
    rfl

lemma advances_of_values (depth : k.depthAfter s.scope.length = some s'.scope.length) (none : k.producesValue = false)
    (values : s'.values = s.values) : Advances v k s s' where
  others w _ := congrFun values w
  result has := absurd (has.symm.trans none) Bool.noConfusion
  depth := depth

lemma advances_obey (level : ∀ d, k.depthAfter d = some d) (done : s.obey pool I v k = some (.goes s')) :
    Advances v k s s' := by
  obtain ⟨i, -, done⟩ := Option.bind_eq_some_iff.1 done
  obtain ⟨args, -, done⟩ := Option.bind_eq_some_iff.1 done
  split at done
  · cases done
  · split at done
    · split at done
      · obtain rfl := Outcome.goes.inj (Option.some.inj done)
        exact advances_define (level _) rfl rfl
      · rename_i none _
        obtain rfl := Outcome.goes.inj (Option.some.inj done)
        exact advances_of_values (level _) none rfl
      · cases done
    · cases done
    · cases done

lemma advances_scope {op : ScopeOp} {y : Option Value}
    (done : s.acts pool I exception v (.scope op y) = some (.goes s')) : Advances v (.scope op y) s s' := by
  cases y with
  | none =>
    cases op with
    | push | pushWith => cases done
    | pop =>
      change (if s.scope.isEmpty then none else some _) = some (Outcome.goes s') at done
      split at done
      · cases done
      · rename_i inside
        refine goes_of_emit (P := Advances v _ s) (fun results => advances_of_values ?_ rfl rfl) (Option.some.inj done)
        rw [List.isEmpty_iff_length_eq_zero] at inside
        rw [NodeKind.depthAfter, if_neg inside, List.length_dropLast]
  | some z =>
    cases op with
    | push | pushWith =>
      obtain ⟨x, -, done⟩ := Option.bind_eq_some_iff.1 done
      refine goes_of_emit (P := Advances v _ s) (fun results => advances_of_values ?_ rfl rfl) (Option.some.inj done)
      rw [List.length_append]
      rfl
    | pop => cases done

/-- A node leaves the values of others alone, has a value if it has a result, and changes the scope stack as it says. -/
theorem advances_of_acts (done : s.acts pool I exception v k = some (.goes s')) : Advances v k s s' := by
  cases k with
  | unary op y | type op name y | copy y =>
    obtain ⟨x, -, done⟩ := Option.bind_eq_some_iff.1 done
    obtain rfl := Outcome.goes.inj (Option.some.inj done)
    exact advances_define rfl rfl rfl
  | binary op y z =>
    obtain ⟨x, -, done⟩ := Option.bind_eq_some_iff.1 done
    obtain ⟨y, -, done⟩ := Option.bind_eq_some_iff.1 done
    obtain rfl := Outcome.goes.inj (Option.some.inj done)
    exact advances_define rfl rfl rfl
  | store r y =>
    obtain ⟨x, -, done⟩ := Option.bind_eq_some_iff.1 done
    obtain rfl := Outcome.goes.inj (Option.some.inj done)
    exact advances_of_values rfl rfl rfl
  | hasNext2 object index =>
    refine goes_of_emit (P := Advances v _ s) (fun results => ?_) (Option.some.inj done)
    apply advances_define <;> rfl
  | scope op y => exact advances_scope done
  | debug i =>
    change (if IsRecord i then some _ else none) = some (Outcome.goes s') at done
    split at done
    · obtain rfl := Outcome.goes.inj (Option.some.inj done)
      exact advances_of_values rfl rfl rfl
    · cases done
  | property | call | operation => exact advances_obey (fun _ => rfl) done
  | phi inputs => cases done
  | caught =>
    obtain ⟨x, -, done⟩ := Option.map_eq_some_iff.1 done
    obtain rfl := Outcome.goes.inj done
    exact advances_define rfl rfl rfl

lemma exists_args {ys : List Value} (known : ∀ y ∈ ys, (s.value? I y).isSome) :
    ∃ args : List V, ys.map (s.value? I) = args.map some := by
  induction ys with
  | nil => exact ⟨[], rfl⟩
  | cons y ys ih =>
    obtain ⟨here, rest⟩ := List.forall_mem_cons.1 known
    obtain ⟨a, worth⟩ := Option.isSome_iff_exists.1 here
    obtain ⟨args, worths⟩ := ih rest
    exact ⟨a :: args, by rw [List.map_cons, List.map_cons, worth, worths]⟩

lemma isSome_value?_of_mapM {ys : List Value} {y : Value} (read : ys.mapM (s.value? I) = some args) (mem : y ∈ ys) :
    (s.value? I y).isSome := by
  induction ys generalizing args with
  | nil => cases mem
  | cons z ys ih =>
    rw [List.mapM_cons] at read
    obtain ⟨a, here, read⟩ := Option.bind_eq_some_iff.1 read
    obtain ⟨args', rest, -⟩ := Option.bind_eq_some_iff.1 read
    rcases List.mem_cons.1 mem with rfl | later
    · rw [here]
      rfl
    · exact ih rest later

lemma isSome_value?_of_acts {o : Outcome V} {y : Value} (done : s.acts pool I exception v k = some o)
    (mem : y ∈ k.operands) : (s.value? I y).isSome := by
  have one {z : Value} {g : V → Option (Outcome V)} (done : (s.value? I z).bind g = some o) :
    (s.value? I z).isSome := by
    obtain ⟨a, here, -⟩ := Option.bind_eq_some_iff.1 done
    rw [here]
    rfl
  have obeyed (done : s.obey pool I v k = some o) : (s.value? I y).isSome := by
    obtain ⟨i, -, done⟩ := Option.bind_eq_some_iff.1 done
    obtain ⟨args, read, -⟩ := Option.bind_eq_some_iff.1 done
    exact isSome_value?_of_mapM read mem
  cases k with
  | unary | type | copy | store =>
    obtain rfl := List.mem_singleton.1 mem
    exact one done
  | binary op z w =>
    obtain ⟨a, here, rest⟩ := Option.bind_eq_some_iff.1 done
    rcases List.mem_cons.1 mem with rfl | second
    · exact one done
    · obtain rfl := List.mem_singleton.1 second
      exact one rest
  | scope op z =>
    obtain rfl := Option.mem_toList.1 mem
    cases op with
    | push | pushWith => exact one done
    | pop => cases done
  | property | call | operation => exact obeyed done
  | phi => cases done
  | caught | hasNext2 | debug => cases mem

lemma exists_obey {i : Instruction Nat} (here : k.instruction? = some i) (writable : k.Writable pool)
    (special : Lift.isSpecial i.opcode = false) (typed : TypeOp.ofOpcode? i.opcode = none)
    (worth : k.operands.map (s.value? I) = args.map some) : ∃ o, s.obey pool I v k = some o := by
  obtain ⟨next, -, effect⟩ := writable i here
  have taken : args.reverse.length = k.operands.length := by simpa using (congrArg List.length worth).symm
  rw [obey, here, Option.bind_eq_bind, Option.bind_some, Option.bind_eq_bind, mapM_value? worth, Option.bind_some,
    if_neg (by simp [special, next])]
  obtain ⟨m, executed, left⟩ | ⟨t, x, executed⟩ := Machine.execute_settles (I := I)
    (m := ⟨0, args.reverse, s.scope, s.registers, s.trace⟩) special typed effect taken
  · rw [executed]
    dsimp only
    cases result : k.producesValue with
    | true =>
      rw [NodeKind.demand, result] at left
      obtain ⟨x, top⟩ := List.length_eq_one_iff.1 left
      rw [top]
      exact ⟨_, rfl⟩
    | false =>
      rw [NodeKind.demand, result] at left
      rw [List.length_eq_zero_iff.1 left]
      exact ⟨_, rfl⟩
  · rw [executed]
    exact ⟨_, rfl⟩

/-- A node can be done where its operands have values, if there is a scope left that it leaves, and an exception that it
takes. -/
theorem exists_acts (suits : Suits pool k) (phi : k.inputs? = none) (caught : k = .caught → exception.isSome)
    (inside : (k.depthAfter s.scope.length).isSome) (known : ∀ y ∈ k.operands, (s.value? I y).isSome) :
    ∃ o, s.acts pool I exception v k = some o := by
  obtain ⟨writable, suits⟩ := suits
  cases k with
  | unary op y | type op name y | copy y | store r y =>
    obtain ⟨a, here⟩ := Option.isSome_iff_exists.1 (known y List.mem_cons_self)
    exact ⟨_, Option.bind_eq_some_iff.2 ⟨a, here, rfl⟩⟩
  | binary op y z =>
    obtain ⟨a, here⟩ := Option.isSome_iff_exists.1 (known y List.mem_cons_self)
    obtain ⟨c, there⟩ := Option.isSome_iff_exists.1 (known z (List.mem_cons_of_mem _ List.mem_cons_self))
    exact ⟨_, Option.bind_eq_some_iff.2 ⟨a, here, Option.bind_eq_some_iff.2 ⟨c, there, rfl⟩⟩⟩
  | hasNext2 object index => exact ⟨_, rfl⟩
  | scope op y =>
    obtain ⟨-, -, effect⟩ := writable _ rfl
    cases op with
    | push | pushWith =>
      rw [Instruction.effect_of_isFixed rfl rfl] at effect
      cases y with
      | none => cases effect
      | some z =>
        obtain ⟨a, here⟩ := Option.isSome_iff_exists.1 (known z List.mem_cons_self)
        exact ⟨_, Option.bind_eq_some_iff.2 ⟨a, here, rfl⟩⟩
    | pop =>
      rw [Instruction.effect_of_isFixed rfl rfl] at effect
      cases y with
      | some z => cases effect
      | none =>
        rw [NodeKind.depthAfter] at inside
        split at inside
        · cases inside
        · rename_i some
          rw [← List.isEmpty_iff_length_eq_zero] at some
          exact ⟨_, if_neg some⟩
  | debug i => exact ⟨_, if_pos suits⟩
  | property | call | operation =>
    obtain ⟨args, worth⟩ := exists_args known
    obtain ⟨special, typed⟩ := suits _ rfl
    exact exists_obey rfl writable special typed worth
  | phi inputs => cases phi
  | caught =>
    obtain ⟨x, here⟩ := Option.isSome_iff_exists.1 (caught rfl)
    exact ⟨_, Option.map_eq_some_iff.2 ⟨x, here, rfl⟩⟩

end Scene

end Avm
