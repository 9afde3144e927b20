import Avm.Proofs.Code.Spelling

/-!
# Numbers of constants are good for ever

A pool gives each constant that it is asked for a number, and the constants of one kind are told apart by their
numbers from then on: no entry changes, and no constant is entered twice.  A pool is kept as tables in which
entry number zero is a constant that stands for "none", with the numbers of strings apart from the table of
strings (`Pool.Slots`).  What is kept so answers as the pool does as long as numbers fit in a word, and the
constant in entry number zero is never found.

The main statement is `interns_for_good`.
-/

namespace Avm.Pool

/-- A constant of some kind. -/
abbrev Item := Σ k : PoolKind, k.Entry

/-- The pool with a number of constants entered, one after another. -/
def entered (items : List Item) (pool : Pool) : Pool := items.foldl (fun p e => (p.intern e.1 e.2).1) pool

/-- No entry is there twice. -/
def Distinct (pool : Pool) : Prop := ∀ k, (pool.table k).Nodup

variable {pool : Pool} {j k : PoolKind} {v w : k.Entry} {n : Nat} {items : List Item}

lemma get?_eq_some : pool.get? k n = some v ↔ ∃ i, n = i + 1 ∧ (pool.table k)[i]? = some v := by
  rw [Pool.get?]
  cases n with
  | zero => simp
  | succ i =>
    rw [if_neg (Nat.succ_ne_zero i), Nat.add_sub_cancel]
    constructor
    · exact fun found => ⟨i, rfl, found⟩
    · rintro ⟨i', same, found⟩
      rwa [Nat.succ.inj same]

lemma find?_eq_some_iff (distinct : pool.Distinct) : pool.find? k v = some n ↔ pool.get? k n = some v := by
  rw [find?, get?_eq_some, Option.map_eq_some_iff]
  constructor
  · rintro ⟨i, found, rfl⟩
    obtain ⟨inside, same, -⟩ := List.findIdx?_eq_some_iff_getElem.1 found
    exact ⟨i, rfl, by rw [List.getElem?_eq_getElem inside, eq_of_beq same]⟩
  · rintro ⟨i, rfl, found⟩
    refine ⟨i, List.findIdx?_eq_some_iff_getElem.2 ?_, rfl⟩
    obtain ⟨inside, rfl⟩ := List.getElem?_eq_some_iff.1 found
    refine ⟨inside, beq_self_eq_true _, fun j below => ?_⟩
    rw [Bool.not_eq_true, beq_eq_false_iff_ne]
    intro same
    exact below.ne ((distinct k).getElem_inj_iff.1 same)

lemma notMem_table (unknown : pool.find? k v = none) : v ∉ pool.table k := by
  rw [find?, Option.map_eq_none_iff, List.findIdx?_eq_none_iff] at unknown
  intro mem
  have other := unknown v mem
  rw [beq_self_eq_true] at other
  cases other

lemma find?_setTable : (pool.setTable k (pool.table k ++ [v])).find? k w =
    (pool.find? k w).or (if w = v then some ((pool.table k).length + 1) else none) := by
  rw [find?, table_setTable, dif_pos rfl, List.findIdx?_append, find?]
  cases (pool.table k).findIdx? (· == w) with
  | some i => rfl
  | none =>
    rw [Option.none_or, Option.map_none, Option.none_or, List.findIdx?_singleton]
    by_cases same : w = v
    · subst same
      simp [Nat.add_comm]
    · rw [if_neg same, if_neg (by simpa using Ne.symm same)]
      rfl

lemma Distinct.intern (distinct : pool.Distinct) : (pool.intern k v).1.Distinct := by
  rw [Pool.intern]
  cases unknown : pool.find? k v with
  | some i => exact distinct
  | none =>
    intro j
    rw [table_setTable]
    split
    · rename_i same
      subst same
      show (pool.table k ++ [v]).Nodup
      rw [← List.concat_eq_append]
      exact (distinct k).concat (notMem_table unknown)
    · exact distinct j

lemma distinct_entered (items : List Item) (distinct : pool.Distinct) : (entered items pool).Distinct :=
  List.foldlRecOn items _ distinct fun _ distinct _ _ => distinct.intern

lemma prefix_entered (items : List Item) (k : PoolKind) : pool.table k <+: (entered items pool).table k :=
  List.foldlRecOn (motive := fun (p : Pool) => pool.table k <+: p.table k) items _ List.prefix_rfl
    fun _ grown e _ => grown.trans (prefix_intern e.2 k)

lemma get?_entered (known : pool.get? k n = some v) : (entered items pool).get? k n = some v := by
  obtain ⟨i, rfl, found⟩ := get?_eq_some.1 known
  apply get?_eq_some.2
  have grown : pool.table k <+: (entered items pool).table k := prefix_entered items k
  obtain ⟨more, eq⟩ := grown
  refine ⟨i, rfl, ?_⟩
  rw [← eq, List.getElem?_append_left (List.getElem?_eq_some_iff.1 found).1, found]

/-- The constant that stands for "none" among those of a kind. -/
def reserved : (k : PoolKind) → k.Entry
  | .int => 0
  | .uint => 0
  | .double => ⟨0x7ff8000000000000⟩
  | .string => ""
  | .ns => ⟨.plain, 0⟩
  | .nsSet => []
  | .multiname => .qualified 0 0 false

/-- Numbers of entries are below this one. -/
def numberBound : Nat := 0x100000000

/-- A pool as it is kept. -/
structure Slots where
  /-- The entries of each kind, from number zero on. -/
  slots : (k : PoolKind) → List k.Entry := fun k => [reserved k]
  /-- The numbers of strings. -/
  numbers : List (String × Nat) := []

namespace Slots

/-- The entry with a given number. -/
def get? (s : Slots) (k : PoolKind) (n : Nat) : Option k.Entry := if n = 0 then none else (s.slots k)[n]?

/-- The number of a constant; strings are looked up apart from their table. -/
def find? (s : Slots) : (k : PoolKind) → k.Entry → Option Nat
  | .string, text => s.numbers.lookup text
  | k, v => (((s.slots k).drop 1).findIdx? (· == v)).bind fun i => if i + 1 < numberBound then some (i + 1) else none

/-- The numbers of strings with that of a new entry. -/
def note (numbers : List (String × Nat)) : (k : PoolKind) → k.Entry → Nat → List (String × Nat)
  | .string, text, n => (text, n) :: numbers
  | _, _, _ => numbers

/-- The number of a constant, and the tables in which it has that number. -/
def intern (s : Slots) (k : PoolKind) (v : k.Entry) : Slots × Nat :=
  match s.find? k v with
  | some n => (s, n)
  | none =>
    let n := min (s.slots k).length (numberBound - 1)
    ({ slots := Function.update s.slots k (s.slots k ++ [v]), numbers := note s.numbers k v n }, n)

/-- The tables with a number of constants entered, one after another. -/
def entered (items : List Item) (s : Slots) : Slots := items.foldl (fun s e => (s.intern e.1 e.2).1) s

/-- No table has more entries than there are numbers. -/
def Fits (s : Slots) : Prop := ∀ k, (s.slots k).length < numberBound

/-- The tables stand for the pool. -/
structure Keeps (s : Slots) (pool : Pool) : Prop where
  slots : ∀ k, s.slots k = reserved k :: pool.table k
  numbers : ∀ text, s.numbers.lookup text = pool.find? .string text

variable {s : Slots}

lemma keeps_empty : Keeps {} {} where
  slots k := by cases k <;> rfl
  numbers _ := rfl

namespace Keeps

variable (keeps : Keeps s pool)
include keeps

lemma get? : s.get? k n = pool.get? k n := by
  rw [Slots.get?, Pool.get?, keeps.slots]
  cases n with
  | zero => rfl
  | succ i => rfl

lemma find? (fits : s.Fits) : s.find? k v = pool.find? k v := by
  have search (k : PoolKind) (v : k.Entry) :
      ((((s.slots k).drop 1).findIdx? (· == v)).bind fun i => if i + 1 < numberBound then some (i + 1) else none) =
        pool.find? k v := by
    rw [keeps.slots, Pool.find?, List.drop_one, List.tail_cons]
    cases found : (pool.table k).findIdx? (· == v) with
    | none => rfl
    | some i =>
      have inside := (List.findIdx?_eq_some_iff_getElem.1 found).1
      have small := fits k
      rw [keeps.slots, List.length_cons] at small
      rw [Option.bind_some, Option.map_some, if_pos (by omega)]
  cases k with
  | string => exact keeps.numbers v
  | int => exact search .int v
  | uint => exact search .uint v
  | double => exact search .double v
  | ns => exact search .ns v
  | nsSet => exact search .nsSet v
  | multiname => exact search .multiname v

lemma intern (fits : s.Fits) (v : k.Entry) :
    (s.intern k v).2 = (pool.intern k v).2 ∧ Keeps (s.intern k v).1 (pool.intern k v).1 := by
  have small := fits k
  rw [Slots.intern, Pool.intern, keeps.find? fits]
  cases unknown : pool.find? k v with
  | some n => exact ⟨rfl, keeps⟩
  | none =>
    have number : min (s.slots k).length (numberBound - 1) = (pool.table k).length + 1 := by
      rw [min_eq_left (by omega), keeps.slots, List.length_cons]
    dsimp only
    rw [number]
    refine ⟨rfl, fun j => ?_, fun text => ?_⟩
    · dsimp only
      rw [table_setTable]
      by_cases same : k = j
      · subst same
        rw [Function.update_self, dif_pos rfl, keeps.slots]
        rfl
      · rw [Function.update_of_ne (Ne.symm same), dif_neg same, keeps.slots]
    · cases k with
      | string =>
        dsimp only
        rw [note, List.lookup_cons, find?_setTable, keeps.numbers]
        by_cases same : text = v
        · subst same
          rw [unknown, beq_self_eq_true, if_pos rfl]
          rfl
        · rw [beq_false_of_ne same, if_neg same, Option.or_none]
      | _ => exact keeps.numbers text

end Keeps

lemma prefix_slots (v : k.Entry) (j : PoolKind) : s.slots j <+: (s.intern k v).1.slots j := by
  rw [intern]
  split
  · exact List.prefix_rfl
  · dsimp only
    by_cases same : j = k
    · subst same
      rw [Function.update_self]
      exact List.prefix_append _ _
    · rw [Function.update_of_ne same]

lemma prefix_entered_slots (items : List Item) (j : PoolKind) : s.slots j <+: (entered items s).slots j :=
  List.foldlRecOn (motive := fun (t : Slots) => s.slots j <+: t.slots j) items _ List.prefix_rfl
    fun _ grown e _ => grown.trans (prefix_slots e.2 j)

lemma Fits.before (items : List Item) (fits : (entered items s).Fits) : s.Fits :=
  fun k => (prefix_entered_slots items k).length_le.trans_lt (fits k)

lemma Keeps.entered (keeps : Keeps s pool) (fits : (Slots.entered items s).Fits) :
    Keeps (Slots.entered items s) (Pool.entered items pool) := by
  induction items generalizing s pool with
  | nil => exact keeps
  | cons e items ih =>
    apply ih _ fits
    have fits' : (s.intern e.1 e.2).1.Fits := Fits.before items fits
    have start : s.Fits := fun k => (prefix_slots e.2 k).length_le.trans_lt (fits' k)
    exact (keeps.intern start e.2).2

end Slots

/-- Tables answer for ever as they did once.  A constant that was entered has a number other than zero, from
which it can be had back, and is given the same number at any later time; a constant of the same kind that is
not the same is given another one.  No entry changes, and a constant is found under a number if it is the entry
of that number.  The pool gives the same answers. -/
theorem interns_for_good (before after : List Item) (k : PoolKind) (v w : k.Entry)
    (fits : (Slots.entered (before ++ ⟨k, v⟩ :: after) {}).Fits) :
    let s := Slots.entered before {}
    let t := Slots.entered (before ++ ⟨k, v⟩ :: after) {}
    let n := (s.intern k v).2
    (1 ≤ n ∧ n < numberBound ∧ (s.intern k v).1.get? k n = some v) ∧
    t.intern k v = (t, n) ∧
    (w ≠ v → (t.intern k w).2 ≠ n) ∧
    (∀ j, s.slots j <+: (s.intern k v).1.slots j) ∧
    (∀ i, s.find? k v = some i ↔ s.get? k i = some v) ∧
    ((entered before {}).intern k v).2 = n ∧
    ∀ j, (∀ i, (entered before {}).get? j i = s.get? j i) ∧ ∀ e, (entered before {}).find? j e = s.find? j e := by
  intro s t n
  have later : t = Slots.entered after (s.intern k v).1 := List.foldl_append ..
  have fits' : (s.intern k v).1.Fits := Slots.Fits.before after (later ▸ fits)
  have start : s.Fits := fun k => (Slots.prefix_slots v k).length_le.trans_lt (fits' k)
  have empty : ({} : Pool).Distinct := fun k => by cases k <;> exact List.nodup_nil
  -- What the tables stand for, before and after the constant is entered and in the end.
  have keeps : Slots.Keeps s (entered before {}) := Slots.keeps_empty.entered start
  obtain ⟨number, keeps'⟩ := keeps.intern start v
  have last : Slots.Keeps t (entered after ((entered before {}).intern k v).1) := later ▸ keeps'.entered (later ▸ fits)
  have distinct : (entered before {}).Distinct := distinct_entered before empty
  have distinct' : (entered after ((entered before {}).intern k v).1).Distinct :=
    distinct_entered after distinct.intern
  have had : ((entered before {}).intern k v).1.get? k n = some v := by
    show Pool.get? _ k (s.intern k v).2 = some v
    rw [number]
    exact get?_intern v
  have still : (entered after ((entered before {}).intern k v).1).get? k n = some v := get?_entered had
  obtain ⟨i, same, found⟩ := get?_eq_some.1 still
  have inside := (List.getElem?_eq_some_iff.1 found).1
  have small := fits k
  change (t.slots k).length < numberBound at small
  rw [last.slots, List.length_cons] at small
  refine ⟨⟨by omega, by omega, keeps'.get?.trans had⟩, ?_, fun other clash => ?_, Slots.prefix_slots v,
    fun i => ?_, number.symm, fun j => ⟨fun i => keeps.get?.symm, fun e => (keeps.find? start).symm⟩⟩
  · have known : t.find? k v = some n := by
      rw [last.find? fits]
      exact (find?_eq_some_iff distinct').2 still
    rw [Slots.intern, known]
  · -- The other constant has an entry of its own, or one behind all that there are.
    rw [(last.intern fits w).1, Pool.intern] at clash
    split at clash
    · rename_i m known
      have entry := (find?_eq_some_iff distinct').1 known
      dsimp only at clash
      rw [clash, still, Option.some.injEq] at entry
      exact other entry.symm
    · dsimp only at clash
      omega
  · rw [keeps.find? start, keeps.get?]
    exact find?_eq_some_iff distinct

/-- Constants that are equal to those of entry number zero have numbers of their own, and so have the two
zeros. -/
theorem interns_for_good_reserved :
    let before : List Item := [⟨.string, "a"⟩, ⟨.double, ⟨0⟩⟩]
    let after : List Item := [⟨.double, ⟨0x8000000000000000⟩⟩, ⟨.int, 0⟩, ⟨.string, "a"⟩]
    (Slots.entered (before ++ ⟨.string, ""⟩ :: after) {}).Fits ∧
    ((Slots.entered before {}).intern .string "").2 = 2 ∧
    ((Slots.entered (before ++ ⟨.string, ""⟩ :: after) {}).intern .string "a").2 ≠ 2 ∧
    (Slots.entered (before ++ ⟨.string, ""⟩ :: after) {}).intern .string "" =
      (Slots.entered (before ++ ⟨.string, ""⟩ :: after) {}, 2) ∧
    ((Slots.entered after {}).intern .double ⟨0⟩).2 = 2 := by
  have fits : (Slots.entered ([⟨.string, "a"⟩, ⟨.double, ⟨0⟩⟩] ++
      ⟨.string, ""⟩ :: [⟨.double, ⟨0x8000000000000000⟩⟩, ⟨.int, 0⟩, ⟨.string, "a"⟩]) {}).Fits := by
    intro k
    cases k <;> decide
  have number : ((Slots.entered [⟨.string, "a"⟩, ⟨.double, ⟨0⟩⟩] {}).intern .string "").2 = 2 := by decide
  have facts := interns_for_good [⟨.string, "a"⟩, ⟨.double, ⟨0⟩⟩]
    [⟨.double, ⟨0x8000000000000000⟩⟩, ⟨.int, 0⟩, ⟨.string, "a"⟩] .string "" "a" fits
  obtain ⟨-, again, others, -⟩ := facts
  rw [number] at again others
  exact ⟨fits, number, others (by decide), again, by decide⟩

end Avm.Pool
