import Avm.Proofs.Ir.Written
import Avm.Proofs.Run.Machine

/-!
# Nodes beside the machine

The nodes that stand for instructions work on what the machine works on apart from its operand stack: the registers,
the scope stack and the trace of events.  In place of the operand stack they have a value for each node.  A register is
read where its content is used, and a node that has not been given a value yet cannot be used.  Nodes that are no
operators are events for the surroundings, the same ones as for the machine.

The main statement is `Scene.values_evaluate`: nodes leave the values of earlier ones alone.
-/

namespace Avm

open Ir

/-- The index and the number of arguments that a call has as its operands. -/
def Operands.call? {α : Type} : Operands α → Option (Nat × Nat)
  | .pair n argCount => some (n, argCount)
  | .index argCount => some (0, argCount)
  | _ => Option.none

/-- The instruction that a node stands for, where the operands of instructions are written as given.  Of the operands
of a call or of a name the node keeps what is read of them, and that has to agree. -/
def Ir.NodeKind.instructionAs (written : Operands Nat) : NodeKind → Option (Instruction Nat)
  | property opcode name _ =>
    if (⟨opcode, written⟩ : Instruction Nat).index? = some name then some ⟨opcode, written⟩ else none
  | call opcode index argCount _ =>
    if written.call? = some (index, argCount) then some ⟨opcode, written⟩ else none
  | operation i _ => some i
  | _ => none

/-- What nodes work on. -/
structure Scene (V : Type) where
  /-- The results of the nodes so far. -/
  values : ValueId → Option V
  registers : Nat → V
  /-- The scope stack, bottom first. -/
  scope : List V
  /-- The events so far, the last one last. -/
  trace : List (Event V)

/-- The machine as nodes see it, which have the values given. -/
def Machine.scene {V : Type} (m : Machine V) (values : ValueId → Option V) : Scene V :=
  ⟨values, m.registers, m.scope, m.trace⟩

namespace Scene

variable {V : Type}

/-- What comes of nodes. -/
inductive Outcome (V : Type) where
  | goes (s : Scene V)
  | raises (trace : List (Event V)) (exception : V)

/-- What an operand is worth here. -/
def value? (I : Interp V) (s : Scene V) : Value → Option V
  | .const c => some (I.const c)
  | .reg register _ => some (s.registers register)
  | .node v => s.values v

/-- Gives a node its value. -/
def define (s : Scene V) (v : ValueId) (x : V) : Scene V :=
  { s with values := Function.update s.values v (some x) }

/-- Sets a register. -/
def assign (s : Scene V) (register : Nat) (x : V) : Scene V :=
  { s with registers := Function.update s.registers register x }

/-- Adds an event to the trace, and goes on with its results unless it raises an exception. -/
def emit (I : Interp V) (s : Scene V) (e : Event V) (andThen : (Nat → V) → Scene V → Scene V) : Outcome V :=
  match I.answer (s.trace ++ [e]) with
  | .ok results => .goes (andThen results { s with trace := s.trace ++ [e] })
  | .error x => .raises (s.trace ++ [e]) x

lemma emit_of_ok {I : Interp V} {s : Scene V} {e : Event V} {andThen : (Nat → V) → Scene V → Scene V}
    {results : Nat → V}
    (answer : I.answer (s.trace ++ [e]) = .ok results) :
    s.emit I e andThen = .goes (andThen results { s with trace := s.trace ++ [e] }) := by
  rw [emit, answer]

lemma emit_of_error {I : Interp V} {s : Scene V} {e : Event V} {andThen : (Nat → V) → Scene V → Scene V} {x : V}
    (answer : I.answer (s.trace ++ [e]) = .error x) : s.emit I e andThen = .raises (s.trace ++ [e]) x := by
  rw [emit, answer]

/-- Does what a node does that stands for an instruction without rules of its own. -/
def request (I : Interp V) (written : Operands Nat) (s : Scene V) (v : ValueId) (k : NodeKind) :
    Option (Outcome V) := do
  let i ← k.instructionAs written
  let args ← k.operands.mapM (s.value? I)
  if k.hasSideEffects then
    return s.emit I ⟨i.opcode, i.operands, args⟩ fun results s =>
      if k.producesValue then s.define v (results 0) else s
  else return .goes (s.define v (I.silent i s.scope))

/-- Changes the scope stack. -/
def change (I : Interp V) (s : Scene V) : ScopeOp → Option Value → Option (Outcome V)
  | .pop, _ =>
    if s.scope.isEmpty then none
    else some (s.emit I ⟨.popScope, .none, []⟩ fun _ s => { s with scope := s.scope.dropLast })
  | op, some x => do
    let x ← s.value? I x
    return s.emit I ⟨op.opcode, .none, [x]⟩ fun _ s => { s with scope := s.scope ++ [x] }
  | _, none => none

/-- Does what a node does, where the operands of instructions are written as given. -/
def does (I : Interp V) (written : Operands Nat) (s : Scene V) (v : ValueId) (k : NodeKind) : Option (Outcome V) :=
  match k with
  | .unary op x => do
    let x ← s.value? I x
    return .goes (s.define v (I.unary op x))
  | .type op name x => do
    let x ← s.value? I x
    return .goes (s.define v (I.type op name x))
  | .binary op x y => do
    let x ← s.value? I x
    let y ← s.value? I y
    return .goes (s.define v (I.binary op x y))
  | .copy x => do
    let x ← s.value? I x
    return .goes (s.define v x)
  | .store register x => do
    let x ← s.value? I x
    return .goes (s.assign register x)
  | .hasNext2 object index =>
    some (s.emit I ⟨.hasNext2, .none, [s.registers object, s.registers index]⟩ fun results s =>
      ((s.assign object (results 1)).assign index (results 2)).define v (results 0))
  | .scope op x => s.change I op x
  | .debug _ => some (.goes s)
  | .property .. | .call .. | .operation .. => s.request I written v k
  | .phi _ | .caught => none

/-- Does what nodes do, one after another, which have the numbers from the given one on. -/
def evaluate (I : Interp V) (written : Operands Nat) : ValueId → List NodeKind → Scene V → Option (Outcome V)
  | _, [], s => some (.goes s)
  | v, k :: ks, s =>
    match s.does I written v k with
    | some (.goes s) => evaluate I written (v + 1) ks s
    | some (.raises trace x) => some (.raises trace x)
    | none => none

variable {I : Interp V} {written : Operands Nat} {s s' : Scene V} {v w : Nat} {k : NodeKind} {ks ls : List NodeKind}
  {x : V} {y : Value} {P : Scene V → Prop}

lemma evaluate_append (first : evaluate I written v ks s = some (.goes s')) :
    evaluate I written v (ks ++ ls) s = evaluate I written (v + ks.length) ls s' := by
  induction ks generalizing v s with
  | nil =>
    obtain rfl := Outcome.goes.inj (Option.some.inj first)
    rfl
  | cons k ks ih =>
    rw [List.cons_append, evaluate]
    rw [evaluate] at first
    split at first
    · rw [ih first, List.length_cons, Nat.add_assoc, Nat.add_comm 1]
    · cases first
    · cases first

lemma mapM_value? {ys : List Value} {args : List V} (worth : ys.map (s.value? I) = args.map some) :
    ys.mapM (s.value? I) = some args := by
  induction ys generalizing args with
  | nil =>
    rw [List.map_nil, eq_comm, List.map_eq_nil_iff] at worth
    rw [worth]
    rfl
  | cons y ys ih =>
    cases args with
    | nil => cases worth
    | cons x args =>
      obtain ⟨here, rest⟩ := List.cons.inj worth
      rw [List.mapM_cons, here, ih rest]
      rfl

lemma goes_of_emit {e : Event V} {andThen : (Nat → V) → Scene V → Scene V}
    (keeps : ∀ results, P (andThen results { s with trace := s.trace ++ [e] }))
    (here : s.emit I e andThen = .goes s') : P s' := by
  rw [emit] at here
  split at here
  · rw [← Outcome.goes.inj here]
    exact keeps _
  · cases here

lemma values_does (other : w ≠ v) (done : s.does I written v k = some (.goes s')) : s'.values w = s.values w := by
  have request (done : s.request I written v k = some (.goes s')) : s'.values w = s.values w := by
    obtain ⟨i, -, done⟩ := Option.bind_eq_some_iff.1 done
    obtain ⟨args, -, done⟩ := Option.bind_eq_some_iff.1 done
    split at done
    · refine goes_of_emit (P := fun s' => s'.values w = s.values w) (fun results => ?_) (Option.some.inj done)
      split
      · exact Function.update_of_ne other _ _
      · rfl
    · rw [← Outcome.goes.inj (Option.some.inj done)]
      exact Function.update_of_ne other _ _
  have change {op : ScopeOp} {x : Option Value} (done : s.change I op x = some (.goes s')) :
      s'.values w = s.values w := by
    rw [Scene.change.eq_def] at done
    split at done
    · split at done
      · cases done
      · exact goes_of_emit (P := fun s' => s'.values w = s.values w) (fun _ => rfl) (Option.some.inj done)
    · obtain ⟨x, -, done⟩ := Option.bind_eq_some_iff.1 done
      exact goes_of_emit (P := fun s' => s'.values w = s.values w) (fun _ => rfl) (Option.some.inj done)
    · cases done
  cases k with
  | unary op x | type op name x | copy x =>
    obtain ⟨x, -, done⟩ := Option.bind_eq_some_iff.1 done
    rw [← Outcome.goes.inj (Option.some.inj done)]
    exact Function.update_of_ne other _ _
  | binary op x y =>
    obtain ⟨x, -, done⟩ := Option.bind_eq_some_iff.1 done
    obtain ⟨y, -, done⟩ := Option.bind_eq_some_iff.1 done
    rw [← Outcome.goes.inj (Option.some.inj done)]
    exact Function.update_of_ne other _ _
  | store register x =>
    obtain ⟨x, -, done⟩ := Option.bind_eq_some_iff.1 done
    rw [← Outcome.goes.inj (Option.some.inj done)]
    rfl
  | hasNext2 object index =>
    exact goes_of_emit (P := fun s' => s'.values w = s.values w) (fun results => Function.update_of_ne other _ _)
      (Option.some.inj done)
  | scope op x => exact change done
  | debug i =>
    rw [← Outcome.goes.inj (Option.some.inj done)]
  | property | call | operation => exact request done
  | phi | caught => cases done

/-- Nodes leave the values of all others alone. -/
theorem values_evaluate (outside : w < v ∨ v + ks.length ≤ w) (done : evaluate I written v ks s = some (.goes s')) :
    s'.values w = s.values w := by
  induction ks generalizing v s with
  | nil => rw [← Outcome.goes.inj (Option.some.inj done)]
  | cons k ks ih =>
    rw [evaluate] at done
    rw [List.length_cons] at outside
    split at done
    · rename_i s₁ first
      have other : w ≠ v := by omega
      rw [ih (by omega) done, values_does other first]
    · cases done
    · cases done

end Scene

end Avm
