import Avm.Proofs.Code.RoundTrip
import Avm.Proofs.Emit.Fetching

/-!
# Constants on their way through bytes

A constant is written as the instruction that pushes it, with its number in the pool or with its value in the
operand.  Small integers have their low bits in the operand, and get their sign back when they are read.  Of the doubles
that are not numbers, one is read back for all.

The main statement is `rereads_of_constant`.
-/

namespace Avm

section Bytes

variable {i : Instruction Marker}

lemma Operands.Rel.eq_of_targets {α β : Type} {R S : α → β → Prop} {a a' : Operands α} {b : Operands β}
    (h : Operands.Rel R a b) (h' : Operands.Rel S a' b) (none : a.targets = []) : a' = a := by
  cases h with
  | branch r => cases none
  | switch r rs => cases none
  | _ => cases h'; rfl

lemma exists_getElem?_of_forall₂ {α β : Type} {R : α → β → Prop} {l : List α} {r : List β} {p : Nat} {a : α}
    (h : List.Forall₂ R l r) (there : l[p]? = some a) : ∃ b, r[p]? = some b ∧ R a b := by
  induction h generalizing p with
  | nil => cases there
  | cons rel _ ih =>
    cases p with
    | zero =>
      obtain rfl := Option.some.inj there
      exact ⟨_, rfl, rel⟩
    | succ p => exact ih there

/-- An instruction without targets comes out of the bytes of its code as it went in. -/
lemma Encoded.at?_decode {c : Code} {e : EncodedCode} {rs : List (Nat × Instruction Nat)} {p : Nat} {id : InstrId}
    (h : Encoded c e rs) (small : e.bytes.length < 0x100000000) (there : c.at? p = some (id, i))
    (flat : i.targets = []) :
    ∃ d id', Code.decode e.bytes e.exceptions = .ok d ∧ d.at? p = some (id', i) := by
  obtain ⟨d, t, decoded, drafted, -⟩ := h.decode_eq_ok small
  obtain ⟨r, laid, opcode, rel⟩ := exists_getElem?_of_forall₂ h.instrs there
  obtain ⟨⟨id', j⟩, read, opcode', rel'⟩ := exists_getElem?_of_forall₂ drafted.instrs.flip laid
  have same : j = i := by
    obtain ⟨o, ops⟩ := i
    obtain ⟨o', ops'⟩ := j
    obtain rfl : ops' = ops := rel.eq_of_targets rel' flat
    obtain rfl : o' = o := opcode'.symm.trans opcode
    rfl
  exact ⟨_, id', decoded, same ▸ read⟩

lemma Code.encode_alone (checked : Encode.check 0 i = .ok ()) (flat : i.targets = []) :
    (({} : Code).push i).1.encode = .ok ⟨Encode.bytes 0 (i.map fun _ => 0), []⟩ := by
  have relocated (off : Marker → Option Nat) :
      Encode.relocateInstr (({} : Code).push i).1 off 0 i = .ok (i.map fun _ => 0) := by
    obtain ⟨o, ops⟩ := i
    cases ops with
    | branch m => cases flat
    | switch m ms => cases flat
    | _ => rfl
  refine bind_eq_ok.2 ⟨(), forM_eq_ok.2 fun e mem => ?_, bind_eq_ok.2 ⟨[(0, i.map fun _ => 0)], ?_, ?_⟩⟩
  · obtain rfl := List.mem_singleton.1 mem
    exact checked
  · refine List.mapM_cons.trans ?_
    exact bind_eq_ok.2 ⟨_, bind_eq_ok.2 ⟨_, relocated _, rfl⟩, rfl⟩
  · refine bind_eq_ok.2 ⟨[], rfl, ?_⟩
    rw [List.flatMap_singleton]
    rfl

lemma Encode.length_bytes_alone (flat : i.targets = []) :
    (Encode.bytes 0 (i.map fun _ => 0)).length ≤ 13 := by
  rw [Encode.length_bytes, Encode.size]
  obtain ⟨o, ops⟩ := i
  cases ops with
  | branch m => cases flat
  | switch m ms => cases flat
  | pair m n | debug x m r n =>
    have first := Wire.u30Length_le m
    have second := Wire.u30Length_le n
    simp only [Instruction.map, Operands.map, operandSize]
    omega
  | index n => exact Nat.add_le_add_left ((Wire.u30Length_le n).trans (by decide : 5 ≤ 12)) 1
  | none => exact (by decide : 1 + 0 ≤ 13)
  | byte x => exact (by decide : 1 + 1 ≤ 13)

end Bytes

namespace Ir

variable {P Q : Pool} {i : Instruction Marker} {c : Constant}

/-- The constant as it is read back: all doubles that are not numbers are one. -/
def Constant.canonical : Constant → Constant
  | .double d => .double (if d.isNaN then Double.nan else d)
  | c => c

lemma Lift.pooled_of_extends {o : Opcode} {k : PoolKind} {n : Nat} {x : k.Entry} (longer : P.Extends Q)
    (found : Lift.pooled P o k n = .ok x) : Lift.pooled Q o k n = .ok x := by
  rw [Lift.pooled] at found ⊢
  split at found
  · rename_i y known
    rw [longer.get? known, ← found]
  · cases found

lemma Lift.constant_of_extends (longer : P.Extends Q) (read : Lift.constant P i = .ok c) :
    Lift.constant Q i = .ok c := by
  obtain ⟨o, ops⟩ := i
  rw [Lift.constant] at read ⊢
  dsimp only at read ⊢
  split at read
  case h_8 | h_9 | h_10 | h_11 | h_12 =>
    obtain ⟨x, found, rest⟩ := bind_eq_ok.1 read
    rw [Lift.pooled_of_extends longer found]
    exact rest
  case h_13 => cases read
  all_goals exact read

/-- An instruction with operands of the right shape that is read as a constant. -/
structure Lift.Pushes (P : Pool) (i : Instruction Marker) (c : Constant) : Prop where
  reads : Lift.constant P i = .ok c
  shape : i.operands.layout = i.opcode.layout

/-- Instructions that push constants have no targets, and no operands but a byte or an index. -/
lemma Lift.Pushes.operands (h : Lift.Pushes P i c) :
    i.operands = .none ∨ (∃ x, i.operands = .byte x) ∨ ∃ n, i.operands = .index n := by
  obtain ⟨o, ops⟩ := i
  obtain ⟨reads, shape⟩ := h
  dsimp only at shape ⊢
  cases ops with
  | none => exact .inl rfl
  | byte x => exact .inr (.inl ⟨x, rfl⟩)
  | index n => exact .inr (.inr ⟨n, rfl⟩)
  | _ =>
    rw [Lift.constant] at reads
    dsimp only at reads
    split at reads <;> first | cases shape | cases reads

end Ir

namespace Emit

open Ir

variable {d d' : Draft} {c : Constant} {i : Instruction Marker} {P : Pool}

/-- Written to bytes as part of whatever code, the instruction pushes the constant when the bytes are read; and it can
be written. -/
structure Rereads (P : Pool) (i : Instruction Marker) (c : Constant) : Prop where
  written : ∃ e, (({} : Code).push i).1.encode = .ok e ∧ e.bytes.length < 0x100000000
  read : ∀ (code : Code) p id e, code.at? p = some (id, i) → code.encode = .ok e → e.bytes.length < 0x100000000 →
    ∃ code' id' j, Code.decode e.bytes e.exceptions = .ok code' ∧ code'.at? p = some (id', j) ∧
      Lift.constant P j = .ok c

lemma rereads_of_pushes (h : Lift.Pushes P i c) (small : ∀ n, i.index? = some n → n < u30Bound) : Rereads P i c := by
  have flat : i.targets = [] := by
    rw [Instruction.targets]
    obtain same | ⟨x, same⟩ | ⟨n, same⟩ := h.operands <;> rw [same] <;> rfl
  have checked : Encode.check 0 i = .ok () := by
    rw [Encode.check, if_neg (not_not_intro h.shape)]
    obtain same | ⟨x, same⟩ | ⟨n, same⟩ := h.operands
    · rw [same]
    · rw [same]
    · rw [same]
      exact if_neg (Nat.not_le.2 (small n (by rw [Instruction.index?, same])))
  refine ⟨⟨_, Code.encode_alone checked flat, ?_⟩, fun code p id e there encoded short => ?_⟩
  · exact (Encode.length_bytes_alone flat).trans_lt (by decide)
  · obtain ⟨rs, laid⟩ := code.encode_eq_ok encoded
    obtain ⟨code', id', decoded, there'⟩ := laid.at?_decode short there flat
    exact ⟨code', id', i, decoded, there', h.reads⟩

namespace Write

/-- Writing a constant succeeds, and nothing but the pool changes, which keeps what it has. -/
lemma exists_constant (c : Constant) (d : Draft) :
    ∃ i Q, (constant c).run d = .ok i { d with pool := Q } ∧ d.pool.Extends Q := by
  obtain ⟨i, -, eq⟩ | ⟨k, v, o, ordinary, eq, -⟩ := constant_cases c
  · exact ⟨i, d.pool, by rw [eq]; rfl, .refl _⟩
  · exact ⟨.withIndex o (d.pool.intern k v).2, (d.pool.intern k v).1, by rw [eq]; rfl, Pool.extends_intern ordinary v⟩

lemma pushes_constant (run : (constant c).run d = .ok i d') (named : ∀ n, c = .ns n → (d'.pool.get? .ns n).isSome) :
    Lift.Pushes d'.pool i c.canonical := by
  have pooled {o : Opcode} {k : PoolKind} {v : k.Entry}
      (run : (do return .withIndex o (← intern k v) : Write (Instruction Marker)).run d = .ok i d') :
      ∃ n, i = .withIndex o n ∧ Lift.pooled d'.pool o k n = .ok v := by
    obtain ⟨n, same, known⟩ := pushes_intern run
    exact ⟨n, same, by rw [Lift.pooled, known]⟩
  cases c with
  | undefined | null =>
    obtain ⟨rfl, -⟩ := pure_eq_ok.1 run
    exact ⟨rfl, rfl⟩
  | bool b => cases b <;> (obtain ⟨rfl, -⟩ := pure_eq_ok.1 run; exact ⟨rfl, rfl⟩)
  | int n =>
    rw [constant] at run
    split at run
    · rename_i small
      obtain ⟨rfl, -⟩ := pure_eq_ok.1 run
      exact ⟨congrArg (fun n => Except.ok (Constant.int n)) (ofInt_toInt8 small.1 small.2), rfl⟩
    · split at run
      · rename_i small
        obtain ⟨rfl, -⟩ := pure_eq_ok.1 run
        exact ⟨congrArg (fun n => Except.ok (Constant.int n)) (ofInt_toInt16 small.1 small.2), rfl⟩
      · obtain ⟨k, rfl, known⟩ := pooled run
        exact ⟨Avm.bind_eq_ok.2 ⟨n, known, rfl⟩, rfl⟩
  | uint n =>
    obtain ⟨k, rfl, known⟩ := pooled run
    exact ⟨Avm.bind_eq_ok.2 ⟨n, known, rfl⟩, rfl⟩
  | double x =>
    rw [constant] at run
    rw [Constant.canonical]
    split at run
    · rename_i nan
      obtain ⟨rfl, -⟩ := pure_eq_ok.1 run
      rw [if_pos nan]
      exact ⟨rfl, rfl⟩
    · rename_i number
      obtain ⟨k, rfl, known⟩ := pooled run
      rw [if_neg number]
      exact ⟨Avm.bind_eq_ok.2 ⟨x, known, rfl⟩, rfl⟩
  | string s =>
    obtain ⟨k, rfl, known⟩ := pooled run
    exact ⟨Avm.bind_eq_ok.2 ⟨s, known, rfl⟩, rfl⟩
  | ns n =>
    obtain ⟨rfl, -⟩ := pure_eq_ok.1 run
    obtain ⟨x, known⟩ := Option.isSome_iff_exists.1 (named n rfl)
    refine ⟨Avm.bind_eq_ok.2 ⟨x, ?_, rfl⟩, rfl⟩
    rw [Lift.pooled]
    simp only [known]

end Write

/-- Whatever the pool holds, writing a constant succeeds, and changes nothing but the pool.  If its number fits into an
index, the constant is read back from the bytes, and all that could be read from the pool before is
read from it still. -/
theorem rereads_of_constant (c : Constant) (d : Draft) (named : ∀ n, c = .ns n → (d.pool.get? .ns n).isSome) :
    ∃ i d', (Write.constant c).run d = .ok i d' ∧ d' = { d with pool := d'.pool } ∧
      ((∀ n, i.index? = some n → n < u30Bound) → Rereads d'.pool i c.canonical) ∧
      (∀ k n x, d.pool.get? k n = some x → d'.pool.get? k n = some x) ∧
      ∀ j x, Lift.constant d.pool j = .ok x → Lift.constant d'.pool j = .ok x := by
  obtain ⟨i, Q, run, longer⟩ := Write.exists_constant c d
  have pushes : Lift.Pushes Q i c.canonical := Write.pushes_constant run fun n same => by
    obtain ⟨x, there⟩ := Option.isSome_iff_exists.1 (named n same)
    exact Option.isSome_iff_exists.2 ⟨x, longer.get? there⟩
  exact ⟨i, _, run, rfl, rereads_of_pushes pushes, fun k n x => longer.get?, fun j x => Lift.constant_of_extends longer⟩

/-- A namespace of the pool is read back as it was written. -/
theorem rereads_of_constant_namespace :
    ∃ i d', (Write.constant (.ns 1)).run { pool := { namespaces := [default] }, nextTemp := 0 } = .ok i d' ∧
      Rereads d'.pool i (.ns 1) := by
  obtain ⟨i, d', run, -, reads, -⟩ :=
    rereads_of_constant (.ns 1) { pool := { namespaces := [default] }, nextTemp := 0 } fun n same => by
      cases same
      rfl
  refine ⟨i, d', run, reads fun n known => ?_⟩
  cases run
  cases known
  decide

end Emit

end Avm
