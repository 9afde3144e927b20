import Avm.Pipeline
import Avm.Proofs.Lift.Acceptance

/-!
# Bodies that are not lifted again

Lifting refuses to push null or undefined on the scope stack, but it asks while it follows the
instructions.  A scope that is a phi passes, also if all its inputs are null, and the phi is replaced by
null once all its inputs are known.  The method is then written with the constant right before the
instruction that pushes the scope, and code of that form is never lifted.

The main statement is `ofCode_error_of_nullScope`; `not_lifts_again` is a method that is written so.
-/

namespace Avm

/-- The instruction pushes null or undefined. -/
def Instruction.PushesNullish {α : Type} (i : Instruction α) : Prop :=
  i.opcode = .pushNull ∨ i.opcode = .pushUndefined

/-- The instruction pushes a scope. -/
def Instruction.PushesScope {α : Type} (i : Instruction α) : Prop :=
  i.opcode = .pushScope ∨ i.opcode = .pushWith

namespace Ir.Lift

variable {pool : Pool} {b : BlockId} {i : Instruction Marker} {frame frame' : Frame} {f f' : Func}

lemma frame_of_push (nullish : i.PushesNullish)
    (run : (step pool b i frame).run f = .ok frame' f') :
    ∃ c : Constant, c.isNullish = true ∧ frame' = frame.push (.const c) := by
  obtain null | undefined := nullish
  · rw [step, null] at run
    rw [constant, null] at run
    exact ⟨.null, rfl, (Edit.pure_eq_ok.1 run).1⟩
  · rw [step, undefined] at run
    rw [constant, undefined] at run
    exact ⟨.undefined, rfl, (Edit.pure_eq_ok.1 run).1⟩

lemma pop_push (v : Value) : (frame.push v).pop = .ok (v, frame) := by
  simp [Frame.pop, Frame.push]

lemma not_pushes_nullish (scope : i.PushesScope) {c : Constant} (nullish : c.isNullish = true) :
    (step pool b i (frame.push (.const c))).run f ≠ .ok frame' f' := by
  have refuses (op : ScopeOp) :
      (stepPushScope b op i (frame.push (.const c))).run f ≠ .ok frame' f' := by
    intro run
    rw [stepPushScope, pop_push] at run
    obtain ⟨⟨v, rest⟩, f₁, popped, checked⟩ := Edit.bind_eq_ok.1 run
    obtain ⟨same, -⟩ := Edit.pure_eq_ok.1 popped
    obtain ⟨rfl, rfl⟩ := Prod.mk.inj same
    simp only [Value.const?, Option.map_some, nullish, Option.getD_some, if_true] at checked
    obtain ⟨_, _, none, -⟩ := Edit.bind_eq_ok.1 checked
    exact absurd none Edit.throw_ne_ok
  obtain push | pushWith := scope
  · rw [step, push]
    exact refuses .push
  · rw [step, pushWith]
    exact refuses .pushWith

end Ir.Lift

namespace Ir.Func

open Lift BlockGraph

variable {code : Code} {g : FlowGraph} {p : Nat} {id id' : InstrId} {i j : Instruction Marker} {n : NodeId}

/-- Code that control can come to and that pushes null or undefined, and inside of the same block pushes
it as a scope, is not lifted. -/
theorem ofCode_error_of_nullScope (built : FlowGraph.build code = .ok g) (reach : code.Reachable p)
    (here : code.at? p = some (id, i)) (nullish : i.PushesNullish)
    (next : code.at? (p + 1) = some (id', j)) (scope : j.PushesScope)
    (vertex : g.vertex? id' = some n) (inner : Lift.isLeader g n = false) (body : MethodBody)
    (pool : Pool) : ∃ fault, ofCode body code g pool = .error fault := by
  cases lifted : ofCode body code g pool with
  | error fault => exact ⟨fault, rfl⟩
  | ok f =>
    obtain ⟨handlers, spec⟩ := FlowGraph.build_sound built
    have paired := paired_of_build pool spec
    rw [ofCode] at lifted
    split at lifted
    · rename_i run
      obtain ⟨S, complete⟩ := exists_track_of_build paired run
      have flow : i.opcode.flow = .next ∧ j.opcode.flow = .next := by
        constructor
        · obtain same | same := nullish <;> rw [same] <;> rfl
        · obtain same | same := scope <;> rw [same] <;> rfl
      have target : FlowGraph.Stands code g.graph n (some (p + 1)) :=
        ⟨_, next, (findIdx?_beq_eq_some spec.nodup).1 vertex⟩
      obtain ⟨m, stands⟩ := spec.vertex p reach
      obtain ⟨n', target', edge⟩ := exists_normal_edge spec reach stands here (.next flow.1)
      obtain rfl := target.vertex_inj spec.nodup target'
      -- Both instructions were followed, the second with the frame behind the first.
      obtain ⟨frame, passed⟩ := complete.exists_frame spec reach m stands
      obtain ⟨i', first⟩ := complete.settled _ passed
      obtain ⟨id₁, i₁, here₁, found₁⟩ := instr?_of_stands paired stands
      obtain ⟨rfl, rfl⟩ := Prod.mk.inj (Option.some.inj (here.symm.trans here₁))
      obtain rfl := Option.some.inj (first.here.symm.trans found₁)
      obtain ⟨b, f₀, frame', f₁, pushed, follows⟩ := first.stepped flow.1
      obtain ⟨c, isNullish, rfl⟩ := frame_of_push nullish pushed
      obtain ⟨j', second⟩ := complete.settled _ (follows n (List.mem_filter.1 edge).1 inner)
      obtain ⟨id₂, j₂, here₂, found₂⟩ := instr?_of_stands paired target
      obtain ⟨rfl, rfl⟩ := Prod.mk.inj (Option.some.inj (next.symm.trans here₂))
      obtain rfl := Option.some.inj (second.here.symm.trans found₂)
      obtain ⟨b', f₂, frame'', f₃, scoped', -⟩ := second.stepped flow.2
      exact absurd scoped' (not_pushes_nullish scope isNullish)
    · cases lifted

end Ir.Func

namespace MethodBody

/-- A method that comes with null to a place where it is pushed as a scope, on two ways. -/
def joinsNull : MethodBody where
  params := 1
  locals := 2
  code := [0xd1, 0x11, 0x05, 0x00, 0x00, 0x20, 0x10, 0x01, 0x00, 0x00, 0x20, 0x30, 0x47]

/-- The method as it is written. -/
def joinsNullWritten : MethodBody where
  params := 1
  locals := 2
  maxStack := 1
  maxScope := 1
  code := [0xd1, 0x11, 0x04, 0x00, 0x00, 0x09, 0x20, 0x30, 0x47, 0x10, 0xf8, 0xff, 0xff]

lemma process_joinsNull : joinsNull.process {} .unknown {} = (.ok joinsNullWritten, {}) := by
  decide +kernel

/-- The instructions of the method as it is written. -/
def joinsNullCode : Code where
  instrs := [(0, ⟨.getLocal1, .none⟩), (1, .branch .ifTrue 0), (2, ⟨.label, .none⟩),
    (3, ⟨.pushNull, .none⟩), (4, ⟨.pushScope, .none⟩), (5, ⟨.returnVoid, .none⟩), (6, .branch .jump 1)]
  markers := {
    bindings := [.bound (.instr 6), .bound (.instr 2)]
    canonical := [(.instr 2, 1), (.instr 6, 0)] }
  nextId := 7

/-- What was written has null right before it is pushed as a scope. -/
theorem ofCode_error_of_nullScope_joins :
    Code.decode joinsNullWritten.code joinsNullWritten.exceptions = .ok joinsNullCode ∧
      ∃ g fault, FlowGraph.build joinsNullCode = .ok g ∧
        Ir.Func.ofCode joinsNullWritten joinsNullCode g {} = .error fault := by
  refine ⟨by decide +kernel, ?_⟩
  have facts : (FlowGraph.build joinsNullCode).toOption.map
      (fun g => (g.vertex? 4, Ir.Lift.isLeader g 7)) = some (some 7, false) := by
    decide +kernel
  cases built : FlowGraph.build joinsNullCode with
  | error fault =>
    rw [built] at facts
    cases facts
  | ok g =>
    rw [built] at facts
    simp only [Except.toOption, Option.map_some, Option.some.injEq, Prod.mk.injEq] at facts
    have second : joinsNullCode.Reachable 2 := by
      have reach : joinsNullCode.Reachable 1 := .next .first rfl (.next rfl)
      exact .next reach rfl (.whenFalse rfl rfl)
    have third : joinsNullCode.Reachable 3 := .next second rfl (.next rfl)
    obtain ⟨fault, failed⟩ := Ir.Func.ofCode_error_of_nullScope built third rfl (.inl rfl) rfl (.inl rfl)
      facts.1 facts.2 joinsNullWritten {}
    exact ⟨g, fault, rfl, failed⟩

/-- Not every method that was written is lifted again. -/
theorem not_lifts_again : ¬∀ (body : MethodBody) (pool : Pool) (env : Environment) (config : Config)
    (rewritten : MethodBody) (pool' : Pool),
      body.process pool env config = (.ok rewritten, pool') →
        ∃ f, rewritten.lift pool' config = .ok f := by
  intro all
  obtain ⟨f, lifted⟩ := all _ _ _ _ _ _ process_joinsNull
  have refused : (joinsNullWritten.lift {} {}).isOk = false := by decide +kernel
  rw [lifted] at refused
  cases refused

end MethodBody

end Avm
