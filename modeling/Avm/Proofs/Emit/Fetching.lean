import Avm.Proofs.Emit.Growing
import Avm.Proofs.Run.Machine

/-!
# Fetching values

A value is fetched by one instruction, unless it lies on the operand stack already.  That can only be the first of the
values that are taken together, and then nothing else is on the stack: whatever lies there, the values are on it behind
their instructions, the first one lowest.

The main statement is `follow_values`.
-/

namespace Avm

open Ir

/-- All numbers that are none are one value.  They are written without their payload. -/
def Interp.OneNaN {V : Type} (I : Interp V) : Prop :=
  ∀ d : Double, d.isNaN = true → I.const (.double d) = I.const (.double .nan)

/-- A namespace that a value is has its number in the pool. -/
def Pool.Names (P : Pool) (x : Value) : Prop := ∀ n, x = .const (.ns n) → (P.get? .ns n).isSome

lemma Pool.Names.mono {P Q : Pool} {x : Value} (h : P.Names x) (longer : P.Extends Q) : Q.Names x := by
  intro n same
  obtain ⟨e, known⟩ := Option.isSome_iff_exists.1 (h n same)
  rw [longer.get? known]
  rfl

namespace Emit

/-- The value is left on the operand stack by the node that makes it. -/
def Plan.stays (p : Plan) (x : Value) : Bool := x.node?.any p.onStack.contains

/-- The depth of the operand stack where values are about to be fetched. -/
def Plan.ahead (p : Plan) (xs : List Value) : Nat := if xs.head?.any p.stays then 1 else 0

/-- What a machine has for a value, where nodes have registers as given. -/
def reads {V : Type} (I : Interp V) (p : Plan) (temps : List (ValueId × Nat)) (m : Machine V) : Value → Option V
  | .const c => some (I.const c)
  | .reg register _ => some (m.registers register)
  | .node v => if p.onStack.contains v then m.stack.head? else (temps.lookup v).map m.registers

section Numbers

lemma ofInt_toInt8 {n : Int32} (low : -128 ≤ n.toInt) (high : n.toInt < 128) :
    Int32.ofInt n.toUInt32.toUInt8.toInt8.toInt = n := by
  have wrapped : n.toInt = (n.toUInt32.toNat : Int).bmod (2 ^ 32) := BitVec.toInt_eq_toNat_bmod n.toBitVec
  have byte : n.toUInt32.toUInt8.toInt8.toInt = (n.toUInt32.toUInt8.toNat : Int).bmod (2 ^ 8) :=
    BitVec.toInt_eq_toNat_bmod _
  have same : n.toUInt32.toUInt8.toInt8.toInt = n.toInt := by
    rw [byte, UInt32.toNat_toUInt8]
    simp only [Int.bmod] at wrapped ⊢
    omega
  rw [same, Int32.ofInt_toInt]

lemma ofInt_toInt16 {n : Int32} (low : -32768 ≤ n.toInt) (high : n.toInt < 32768) :
    Int32.ofInt (Int16.ofInt ((n.toUInt32.toNat % 65536 : Nat) : Int)).toInt = n := by
  have wrapped : n.toInt = (n.toUInt32.toNat : Int).bmod (2 ^ 32) := BitVec.toInt_eq_toNat_bmod n.toBitVec
  have same : (Int16.ofInt ((n.toUInt32.toNat % 65536 : Nat) : Int)).toInt = n.toInt := by
    rw [Int16.toInt_ofInt]
    simp only [Int16.size, Int.bmod] at wrapped ⊢
    omega
  rw [same, Int32.ofInt_toInt]

end Numbers

namespace Write

open Machine

variable {V : Type} {I : Interp V} {P : Pool} {p : Plan} {d d' : Draft} {m : Machine V} {c : Constant}
  {x : Value} {xs : List Value} {i : Instruction Marker}

lemma pushes_intern {k : PoolKind} {v : k.Entry} {o : Opcode}
    (run : (do return .withIndex o (← intern k v) : Write (Instruction Marker)).run d = .ok i d') :
    ∃ n, i = .withIndex o n ∧ d'.pool.get? k n = some v := by
  obtain ⟨n, d₁, asked, rest⟩ := bind_eq_ok.1 run
  obtain ⟨rfl, rfl⟩ := pure_eq_ok.1 rest
  obtain ⟨rfl, rfl⟩ := intern_eq_ok asked
  exact ⟨_, rfl, Pool.get?_intern v⟩

/-- The instruction for a constant pushes it, whatever has been entered into the pool since. -/
lemma follow_constant (run : (constant c).run d = .ok i d') (later : d'.pool.Extends P) (nan : I.OneNaN)
    (named : P.Names (.const c)) : follow P I [i] m = some (.passes (m.push (I.const c))) := by
  have pushed {o : Opcode} {k : PoolKind} {v : k.Entry}
      (run : (do return .withIndex o (← intern k v) : Write (Instruction Marker)).run d = .ok i d') :
      ∃ n, i = .withIndex o n ∧ P.get? k n = some v := by
    obtain ⟨n, rfl, known⟩ := pushes_intern run
    exact ⟨n, rfl, later.get? known⟩
  cases c with
  | undefined | null =>
    obtain ⟨rfl, -⟩ := pure_eq_ok.1 run
    exact follow_singleton rfl rfl
  | bool b =>
    cases b <;> (obtain ⟨rfl, -⟩ := pure_eq_ok.1 run; exact follow_singleton rfl rfl)
  | int n =>
    rw [constant] at run
    split at run
    · rename_i small
      obtain ⟨rfl, -⟩ := pure_eq_ok.1 run
      refine (follow_singleton rfl rfl).trans ?_
      rw [ofInt_toInt8 small.1 small.2]
    · split at run
      · rename_i small
        obtain ⟨rfl, -⟩ := pure_eq_ok.1 run
        refine (follow_singleton rfl rfl).trans ?_
        rw [ofInt_toInt16 small.1 small.2]
      · obtain ⟨n, rfl, known⟩ := pushed run
        refine follow_singleton rfl ?_
        simp [execute, Lift.constant, Lift.pooled, Instruction.withIndex, known, Except.toOption]
  | uint n =>
    obtain ⟨n, rfl, known⟩ := pushed run
    exact follow_singleton rfl (by simp [execute, Lift.constant, Lift.pooled, Instruction.withIndex, known,
      Except.toOption])
  | double x =>
    rw [constant] at run
    split at run
    · rename_i none
      obtain ⟨rfl, -⟩ := pure_eq_ok.1 run
      rw [nan x none]
      exact follow_singleton rfl rfl
    · obtain ⟨n, rfl, known⟩ := pushed run
      exact follow_singleton rfl (by simp [execute, Lift.constant, Lift.pooled, Instruction.withIndex, known,
        Except.toOption])
  | string s =>
    obtain ⟨n, rfl, known⟩ := pushed run
    exact follow_singleton rfl (by simp [execute, Lift.constant, Lift.pooled, Instruction.withIndex, known,
      Except.toOption])
  | ns n =>
    obtain ⟨rfl, -⟩ := pure_eq_ok.1 run
    obtain ⟨e, known⟩ := Option.isSome_iff_exists.1 (named n rfl)
    exact follow_singleton rfl (by simp [execute, Lift.constant, Lift.pooled, Instruction.withIndex, known,
      Except.toOption])

lemma reads_congr {m' : Machine V} {temps : List (ValueId × Nat)} (off : p.stays x = false)
    (same : m'.registers = m.registers) : reads I p temps m' x = reads I p temps m x := by
  cases x with
  | const c => rfl
  | reg r version => exact congrArg (fun registers => some (registers r)) same
  | node v =>
    have off : p.onStack.contains v = false := off
    rw [reads, reads, off, if_neg Bool.false_ne_true, if_neg Bool.false_ne_true, same]

lemma value_of_stays {u : Unit} (on : p.stays x = true) (run : (value p x).run d = .ok u d') : d' = d := by
  cases x with
  | const c | reg r version => cases on
  | node v =>
    have on : p.onStack.contains v = true := on
    rw [value, if_pos on] at run
    exact (pure_eq_ok.1 run).2

lemma follow_value {u : Unit} (off : p.stays x = false) (run : (value p x).run d = .ok u d') :
    ∃ i, Draft.Puts [i] d d' ∧ ∀ {V : Type} {I : Interp V} {P : Pool} {m : Machine V}, d'.pool.Extends P → I.OneNaN →
      P.Names x → ∃ y, reads I p d.temps m x = some y ∧ follow P I [i] m = some (.passes (m.push y)) := by
  cases x with
  | const c =>
    obtain ⟨i, d₁, made, pushed⟩ := bind_eq_ok.1 run
    have put := puts_push pushed
    exact ⟨i, (puts_constant made).trans put, fun later nan named =>
      ⟨_, rfl, follow_constant made (put.pool.trans later) nan named⟩⟩
  | reg r version =>
    exact ⟨.getLocal r, puts_push run, fun _ _ _ => ⟨_, rfl, follow_getLocal⟩⟩
  | node v =>
    have off : p.onStack.contains v = false := off
    rw [value, off] at run
    obtain ⟨e, d₁, got, rest⟩ := bind_eq_ok.1 run
    obtain ⟨rfl, rfl⟩ := get_eq_ok.1 got
    split at rest
    · rename_i r known
      refine ⟨.getLocal r, puts_push rest, fun _ _ _ => ⟨_, ?_, follow_getLocal⟩⟩
      rw [reads, off, known]
      rfl
    · exact absurd rest throw_ne_ok

/-- Values that are not on the operand stack are put onto it, one on top of the other. -/
lemma follow_values_of_not_stays {u : Unit} (off : ∀ x ∈ xs, p.stays x = false) (run : (values p xs).run d = .ok u d') :
    ∃ is, Draft.Puts is d d' ∧ ∀ {V : Type} {I : Interp V} {P : Pool} {m : Machine V}, d'.pool.Extends P → I.OneNaN →
      (∀ x ∈ xs, P.Names x) → ∃ ys : List V, xs.map (reads I p d.temps m) = ys.map some ∧
        follow P I is m = some (.passes { m with stack := ys.reverse ++ m.stack }) := by
  induction xs generalizing d with
  | nil =>
    obtain ⟨-, rfl⟩ := pure_eq_ok.1 run
    exact ⟨[], .refl _, fun _ _ _ => ⟨[], rfl, rfl⟩⟩
  | cons x xs ih =>
    obtain ⟨_, d₁, first, rest⟩ := bind_eq_ok.1 run
    obtain ⟨offFirst, offRest⟩ := List.forall_mem_cons.1 off
    obtain ⟨i, puts, one⟩ := follow_value offFirst first
    obtain ⟨is, more, others⟩ := ih offRest rest
    refine ⟨i :: is, puts.trans more, fun {V I P m} later nan named => ?_⟩
    obtain ⟨namedFirst, namedRest⟩ := List.forall_mem_cons.1 named
    obtain ⟨y, worth, pushed⟩ := one (m := m) (more.pool.trans later) nan namedFirst
    obtain ⟨ys, worths, through⟩ := others (m := m.push y) later nan namedRest
    refine ⟨y :: ys, ?_, ?_⟩
    · have same : xs.map (reads I p d.temps m) = xs.map (reads I p d₁.temps (m.push y)) := by
        refine List.map_congr_left fun x mem => ?_
        have kept : reads I p d.temps (m.push y) x = reads I p d.temps m x := reads_congr (offRest x mem) rfl
        rw [puts.temps, kept]
      rw [List.map_cons, List.map_cons, worth, same, worths]
    · rw [← List.singleton_append, follow_append_passes pushed, through]
      simp [Machine.push]

/-- Where the operand stack holds just the first value if that is left there, and nothing otherwise, values end up on it
with the first one lowest. -/
theorem follow_values {u : Unit} (off : ∀ x ∈ xs.tail, p.stays x = false) (run : (values p xs).run d = .ok u d') :
    ∃ is, Draft.Puts is d d' ∧ ∀ {V : Type} {I : Interp V} {P : Pool} {m : Machine V}, d'.pool.Extends P → I.OneNaN →
      (∀ x ∈ xs, P.Names x) → m.stack.length = p.ahead xs → ∃ ys : List V, xs.map (reads I p d.temps m) = ys.map some ∧
        follow P I is m = some (.passes { m with stack := ys.reverse }) := by
  cases on : xs.head?.any p.stays with
  | false =>
    have none : ∀ x ∈ xs, p.stays x = false := by
      cases xs with
      | nil => nofun
      | cons x xs => exact List.forall_mem_cons.2 ⟨on, off⟩
    obtain ⟨is, puts, through⟩ := follow_values_of_not_stays none run
    refine ⟨is, puts, fun {V I P m} later nan named deep => ?_⟩
    obtain ⟨ys, worths, passes⟩ := through (m := m) later nan named
    rw [Plan.ahead, on, if_neg Bool.false_ne_true, List.length_eq_zero_iff] at deep
    exact ⟨ys, worths, by rw [passes, deep, List.append_nil]⟩
  | true =>
    cases xs with
    | nil => cases on
    | cons x xs =>
      obtain ⟨_, d₁, first, rest⟩ := bind_eq_ok.1 run
      obtain rfl := value_of_stays on first
      obtain ⟨is, puts, through⟩ := follow_values_of_not_stays off rest
      refine ⟨is, puts, fun {V I P m} later nan named deep => ?_⟩
      obtain ⟨ys, worths, passes⟩ := through (m := m) later nan (List.forall_mem_cons.1 named).2
      rw [Plan.ahead, on, if_pos rfl, List.length_eq_one_iff] at deep
      obtain ⟨y, deep⟩ := deep
      refine ⟨y :: ys, ?_, ?_⟩
      · rw [List.map_cons, List.map_cons, ← worths]
        refine congrArg (· :: _) ?_
        cases x with
        | const c | reg r version => cases on
        | node v =>
          have on : p.onStack.contains v = true := on
          rw [reads, if_pos on, deep]
          rfl
      · rw [passes, deep, List.reverse_cons]

end Write

end Emit

end Avm
