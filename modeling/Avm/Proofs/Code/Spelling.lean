import Avm.Proofs.Ir.Written
import Avm.Wire

/-!
# Constants by their values

The number of a constant depends on what was entered into the pool before it.  A pool `Extends` another
if it knows all constants of that one by the same numbers and has the same names.  An instruction is
spelt with the value of its constant in place of the number, and two instructions are `Alike` in two
pools if they are spelt the same.

The main statements are `Alike.mono` and `Alike.blank_eq`: spelling survives the growth of the pools, and
instructions that are alike differ in nothing but the numbers of constants.
-/

namespace Avm

namespace Pool

variable {P Q R : Pool} {k : PoolKind} {n : Nat}

/-- The pool has all constants of another one, by the same numbers, and no other names. -/
structure Extends (P Q : Pool) : Prop where
  tables : ∀ k, P.table k <+: Q.table k
  names : Q.multinames = P.multinames

lemma Extends.refl (P : Pool) : P.Extends P := ⟨fun _ => List.prefix_rfl, rfl⟩

lemma Extends.trans (h : P.Extends Q) (h' : Q.Extends R) : P.Extends R :=
  ⟨fun k => (h.tables k).trans (h'.tables k), h'.names.trans h.names⟩

lemma Extends.get? (h : P.Extends Q) {v : k.Entry} (known : P.get? k n = some v) :
    Q.get? k n = some v := by
  rw [Pool.get?] at known ⊢
  split
  · rename_i zero
    rw [if_pos zero] at known
    cases known
  · rename_i positive
    rw [if_neg positive] at known
    obtain ⟨more, longer⟩ := h.tables k
    rw [← longer]
    exact List.getElem?_append_left (List.getElem?_eq_some_iff.1 known).1 ▸ known

@[simp] lemma table_setTable (P : Pool) (t : List k.Entry) (j : PoolKind) :
    (P.setTable k t).table j = if h : k = j then h ▸ t else P.table j := by
  cases k <;> cases j <;> rfl

lemma prefix_intern (v : k.Entry) (j : PoolKind) : P.table j <+: (P.intern k v).1.table j := by
  rw [intern]
  split
  · exact List.prefix_rfl
  · rw [table_setTable]
    split
    · rename_i same
      subst same
      exact List.prefix_append _ _
    · exact List.prefix_rfl

lemma extends_intern (ordinary : k ≠ .multiname) (v : k.Entry) : P.Extends (P.intern k v).1 := by
  refine ⟨prefix_intern v, ?_⟩
  rw [intern]
  split
  · rfl
  · have names := P.table_setTable (P.table k ++ [v]) .multiname
    rw [dif_neg ordinary] at names
    exact names

lemma get?_intern (v : k.Entry) : (P.intern k v).1.get? k (P.intern k v).2 = some v := by
  rw [intern, find?]
  cases found : (P.table k).findIdx? (· == v) with
  | some i =>
    obtain ⟨inside, same, -⟩ := List.findIdx?_eq_some_iff_getElem.1 found
    rw [Option.map_some, Pool.get?, if_neg (Nat.succ_ne_zero i), Nat.add_sub_cancel,
      List.getElem?_eq_getElem inside, eq_of_beq same]
  | none =>
    rw [Option.map_none, Pool.get?, if_neg (Nat.succ_ne_zero _), table_setTable, dif_pos rfl]
    simp

/-- The constants that are pushed by their numbers have numbers of at most thirty bits. -/
def Fits (P : Pool) : Prop := ∀ k ∈ [PoolKind.int, .uint, .double, .string], (P.table k).length < u30Bound

instance (P : Pool) : Decidable P.Fits := inferInstanceAs (Decidable (∀ _ ∈ _, _))

lemma Fits.lt (fits : P.Fits) (pushed : k ∈ [PoolKind.int, .uint, .double, .string]) {n : Nat} {v : k.Entry}
    (known : P.get? k n = some v) : n < u30Bound := by
  rw [Pool.get?] at known
  split at known
  · cases known
  · have inside := (List.getElem?_eq_some_iff.1 known).1
    have few := fits k pushed
    omega

lemma runtimeArity?_congr (names : Q.multinames = P.multinames) (n : Nat) :
    Q.runtimeArity? n = P.runtimeArity? n := by
  simp only [runtimeArity?, Pool.get?, table, names]

end Pool

/-- The opcode that pushes a constant of the pool. -/
def Ir.Constant.pusher : Ir.Constant → Opcode
  | .int _ => .pushInt
  | .uint _ => .pushUInt
  | .double _ => .pushDouble
  | _ => .pushString

/-- An instruction with the value of its constant in place of the number. -/
inductive Spelt (α : Type) where
  /-- An instruction that pushes no constant of the pool. -/
  | plain (i : Instruction α)
  /-- An instruction that pushes the constant. -/
  | push (value : Ir.Constant)
deriving DecidableEq, Repr

/-- The instruction with its branch targets replaced. -/
def Spelt.map {α β : Type} (f : α → β) : Spelt α → Spelt β
  | plain i => plain (i.map f)
  | push value => push value

namespace Instruction

variable {α β : Type} {i j : Instruction α} {P Q P' Q' : Pool}

/-- The instruction with the value of its constant, if the pool has one of that number. -/
def spell? (pool : Pool) (i : Instruction α) : Option (Spelt α) :=
  match i.opcode, i.operands with
  | .pushInt, .index n => (pool.get? .int n).map fun v => .push (.int v)
  | .pushUInt, .index n => (pool.get? .uint n).map fun v => .push (.uint v)
  | .pushDouble, .index n => (pool.get? .double n).map fun v => .push (.double v)
  | .pushString, .index n => (pool.get? .string n).map fun v => .push (.string v)
  | _, _ => some (.plain i)

lemma spell?_of_isLiteral (plain : i.opcode.isLiteral = false) : i.spell? P = some (.plain i) := by
  rw [spell?]
  split
  all_goals simp_all [Opcode.isLiteral]

lemma spell?_map (f : α → β) : (i.map f).spell? P = (i.spell? P).map (Spelt.map f) := by
  obtain ⟨o, ops⟩ := i
  simp only [spell?, map]
  cases ops with
  | index n => cases o <;> simp [Operands.map, Spelt.map, Function.comp_def, Instruction.map]
  | _ => cases o <;> rfl

lemma spell?_mono (longer : P.Extends Q) {s : Spelt α} (h : i.spell? P = some s) :
    i.spell? Q = some s := by
  rw [spell?] at h ⊢
  split
  case h_5 => simp_all only
  all_goals
    simp_all only
    obtain ⟨v, known, rfl⟩ := Option.map_eq_some_iff.1 h
    rw [longer.get? known]
    rfl

lemma lt_of_spell? {o : Opcode} {n : Nat} {s : Spelt α} (fits : P.Fits) (literal : o.isLiteral = true)
    (spelt : (withIndex o n : Instruction α).spell? P = some s) : n < u30Bound := by
  cases o with
  | pushInt | pushUInt | pushDouble | pushString =>
    obtain ⟨v, known, -⟩ := Option.map_eq_some_iff.1 spelt
    exact fits.lt (by decide) known
  | _ => cases literal

/-- Two instructions are spelt the same, each in its own pool. -/
def Alike (P Q : Pool) (i j : Instruction α) : Prop := ∃ s, i.spell? P = some s ∧ j.spell? Q = some s

lemma Alike.mono (h : Alike P Q i j) (longer : P.Extends P') (longer' : Q.Extends Q') :
    Alike P' Q' i j := by
  obtain ⟨s, left, right⟩ := h
  exact ⟨s, spell?_mono longer left, spell?_mono longer' right⟩

lemma Alike.symm (h : Alike P Q i j) : Alike Q P j i := by
  obtain ⟨s, left, right⟩ := h
  exact ⟨s, right, left⟩

lemma alike_of_isLiteral (plain : i.opcode.isLiteral = false) : Alike P Q i i :=
  ⟨_, spell?_of_isLiteral plain, spell?_of_isLiteral plain⟩

/-- What is left of an instruction if the number of its constant is forgotten. -/
def blank (i : Instruction α) : Instruction α :=
  match i.operands with
  | .index _ => if i.opcode.isLiteral then withIndex i.opcode 0 else i
  | _ => i

lemma blank_cases (i : Instruction α) : i.blank = i ∨
    ∃ o n, o.isLiteral = true ∧ i = withIndex o n ∧ i.blank = withIndex o 0 := by
  obtain ⟨o, ops⟩ := i
  cases ops with
  | index n =>
    by_cases literal : o.isLiteral = true
    · exact .inr ⟨o, n, literal, rfl, if_pos literal⟩
    · exact .inl (if_neg literal)
  | _ => exact .inl rfl

lemma spell?_cases {s : Spelt α} (h : i.spell? P = some s) :
    s = .plain i ∨ ∃ o n v, s = .push v ∧ o.isLiteral = true ∧ i = withIndex o n ∧ o = v.pusher := by
  obtain ⟨o, ops⟩ := i
  rw [spell?] at h
  split at h
  case h_5 => exact .inl (Option.some.inj h).symm
  all_goals
    rename_i opcode operands
    cases opcode
    cases operands
    obtain ⟨v, -, rfl⟩ := Option.map_eq_some_iff.1 h
    exact .inr ⟨_, _, _, rfl, rfl, rfl, rfl⟩

lemma Alike.eq_or_literal (h : Alike P Q i j) :
    i = j ∨ ∃ o n m, o.isLiteral = true ∧ i = withIndex o n ∧ j = withIndex o m := by
  obtain ⟨s, left, right⟩ := h
  obtain rfl | ⟨o, n, v, rfl, literal, rfl, rfl⟩ := spell?_cases left
  · obtain same | ⟨o, n, v, same, -⟩ := spell?_cases right
    · exact .inl (Spelt.plain.inj same)
    · cases same
  · obtain same | ⟨o, m, w, same, -, rfl, rfl⟩ := spell?_cases right
    · cases same
    · cases same
      exact .inr ⟨_, n, m, literal, rfl, rfl⟩

lemma Alike.blank_eq (h : Alike P Q i j) : i.blank = j.blank := by
  obtain rfl | ⟨o, n, m, literal, rfl, rfl⟩ := h.eq_or_literal
  · rfl
  · exact (if_pos literal).trans (if_pos literal).symm

section Blank

@[simp] lemma opcode_blank : i.blank.opcode = i.opcode := by
  obtain same | ⟨o, n, -, rfl, same⟩ := i.blank_cases
  · rw [same]
  · rw [same]
    rfl

@[simp] lemma targets_blank : i.blank.targets = i.targets := by
  obtain same | ⟨o, n, -, rfl, same⟩ := i.blank_cases
  · rw [same]
  · rw [same]
    rfl

@[simp] lemma effect_blank : i.blank.effect P = i.effect P := by
  obtain same | ⟨o, n, literal, rfl, same⟩ := i.blank_cases
  · rw [same]
  · have fixed : o.isFixed = true := by
      cases o
      all_goals first | rfl | cases literal
    rw [same, effect_of_isFixed rfl fixed, effect_of_isFixed rfl fixed]
    rfl

@[simp] lemma registers_blank : i.blank.registers = i.registers := by
  obtain same | ⟨o, n, literal, rfl, same⟩ := i.blank_cases
  · rw [same]
  · rw [same]
    cases o
    all_goals first | rfl | cases literal

end Blank

lemma effect_congr (names : Q.multinames = P.multinames) : i.effect Q = i.effect P := by
  simp only [effect, nameSlots, Pool.runtimeArity?_congr names]

end Instruction

end Avm
