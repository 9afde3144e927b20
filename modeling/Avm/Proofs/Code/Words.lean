import Avm.Proofs.Code.Cutting
import Mathlib.Data.Nat.Bitwise

/-!
# Numbers from words and in words

Numbers in code are the low thirty bits of words of thirty-two bits.  A word is written by taking groups of
seven bits off its low end until none are left, behind whatever is in a buffer already (`pushU30`).  It is read
one byte after another, each shifted in above those before, and what the fifth byte has beyond the word falls
off its high end (`Cursor.readWord`).  Words are so written and read as `writeU30` and `readU30` write and read
numbers, which divide and add instead.

`pushGroups_eq` goes by the number of groups that a word fills.  `shiftGroups_eq` goes by the number of groups
that may follow; the word that is read so far has no bits above the shift, so that shifting in adds.

The main statement is `u30_exact`.
-/

namespace Avm.Wire

/-- The word whose low thirty bits are set, which is the largest number in code. -/
def u30Mask : UInt32 := 0x3fffffff

lemma toNat_shiftRight_seven (word : UInt32) : (word >>> 7).toNat = word.toNat / 128 := by
  rw [UInt32.toNat_shiftRight, Nat.shiftRight_eq_div_pow]
  rfl

lemma shiftRight_seven_eq_zero {word : UInt32} : word >>> 7 = 0 ↔ word.toNat < 128 := by
  rw [← UInt32.toNat_inj, toNat_shiftRight_seven]
  exact Nat.div_eq_zero_iff_lt (by decide)

/-- Puts the groups of a word at the end of a buffer; all bytes but the last have the top bit set. -/
def pushGroups (out : List UInt8) (word : UInt32) : List UInt8 :=
  let byte := (word &&& 0x7f).toUInt8
  if word >>> 7 = 0 then out ++ [byte] else pushGroups (out ++ [byte ||| 0x80]) (word >>> 7)
termination_by word.toNat
decreasing_by
  rename_i more
  rw [shiftRight_seven_eq_zero] at more
  rw [toNat_shiftRight_seven]
  omega

/-- Puts the low thirty bits of a word at the end of a buffer. -/
def pushU30 (out : List UInt8) (word : UInt32) : List UInt8 := pushGroups out (word &&& u30Mask)

/-- A word with the group of a byte from some bit on. -/
def shiftIn (shift : Nat) (word : UInt32) (byte : UInt8) : UInt32 :=
  word ||| (byte &&& 0x7f).toUInt32 <<< UInt32.ofNat shift

/-- Shifts the groups of at most so many bytes into a word, from some bit on, up to the first byte without the top
bit. -/
def shiftGroups : Nat → Nat → UInt32 → Cursor → Option UInt32 × Cursor
  | 0, _, word, c => (some word, c)
  | groups + 1, shift, word, c =>
    match c.read readU8 with
    | (none, c) => (none, c)
    | (some byte, c) =>
      let next := shiftIn shift word byte
      if byte &&& 0x80 = 0 then (some next, c) else shiftGroups groups (shift + 7) next c

/-- Reads a word of thirty bits. -/
def Cursor.readWord (c : Cursor) : Option UInt32 × Cursor :=
  Prod.map (Option.map (· &&& u30Mask)) id (shiftGroups 5 0 0 c)

/-! ## Bits -/

lemma toNat_and_u30Mask (word : UInt32) : (word &&& u30Mask).toNat = word.toNat % u30Bound := by
  rw [UInt32.toNat_and]
  exact Nat.and_two_pow_sub_one_eq_mod word.toNat 30

lemma toNat_and_low (byte : UInt8) : (byte &&& 0x7f).toNat = byte.toNat % 128 := by
  rw [UInt8.toNat_and]
  exact Nat.and_two_pow_sub_one_eq_mod byte.toNat 7

lemma and_top_eq_zero {byte : UInt8} : byte &&& 0x80 = 0 ↔ byte.toNat < 128 := by
  have inside := byte.toNat_lt
  have top : (byte &&& 0x80).toNat = (byte.toNat.testBit 7).toNat * 2 ^ 7 := by
    rw [UInt8.toNat_and]
    exact Nat.and_two_pow byte.toNat 7
  rw [← UInt8.toNat_inj, top, Nat.testBit_eq_decide_div_mod_eq]
  by_cases small : byte.toNat < 128
  · have zero : byte.toNat / 2 ^ 7 % 2 = 0 := by omega
    rw [zero]
    exact iff_of_true rfl small
  · have one : byte.toNat / 2 ^ 7 % 2 = 1 := by omega
    rw [one]
    exact iff_of_false (by decide) small

lemma low_eq (word : UInt32) : (word &&& 0x7f).toUInt8 = (word.toNat % 128).toUInt8 := by
  have low : (word &&& 0x7f).toNat = word.toNat % 128 := by
    rw [UInt32.toNat_and]
    exact Nat.and_two_pow_sub_one_eq_mod word.toNat 7
  rw [← UInt8.toNat_inj, UInt32.toNat_toUInt8, low, toNat_toUInt8 (by omega)]
  omega

lemma or_top_eq {n : Nat} (small : n < 128) : n.toUInt8 ||| 0x80 = (n + 128).toUInt8 := by
  rw [← UInt8.toNat_inj, UInt8.toNat_or, toNat_toUInt8 (by omega), toNat_toUInt8 (by omega), Nat.or_comm,
    Nat.add_comm]
  exact (Nat.two_pow_add_eq_or_of_lt (i := 7) small 1).symm

/-- A group that is shifted in above a word is added to it, as far as it stays inside. -/
lemma toNat_shiftIn {shift : Nat} {word : UInt32} (byte : UInt8) (low : word.toNat < 2 ^ shift) (few : shift < 32) :
    (shiftIn shift word byte).toNat = (word.toNat + byte.toNat % 128 * 2 ^ shift) % 2 ^ 32 := by
  have whole : 2 ^ 32 = 2 ^ shift * 2 ^ (32 - shift) := by rw [← Nat.pow_add, Nat.add_sub_cancel' few.le]
  have amount : (UInt32.ofNat shift).toNat % 32 = shift := by
    rw [UInt32.toNat_ofNat']
    omega
  have high : (word.toNat + byte.toNat % 128 * 2 ^ shift) / 2 ^ shift = byte.toNat % 128 := by
    rw [Nat.add_mul_div_right _ _ (Nat.two_pow_pos shift), Nat.div_eq_of_lt low, Nat.zero_add]
  calc (shiftIn shift word byte).toNat
      = word.toNat ||| byte.toNat % 128 * 2 ^ shift % 2 ^ 32 := by
        rw [shiftIn, UInt32.toNat_or, UInt32.toNat_shiftLeft, UInt8.toNat_toUInt32, toNat_and_low, amount,
          Nat.shiftLeft_eq]
    _ = 2 ^ shift * (byte.toNat % 128 % 2 ^ (32 - shift)) ||| word.toNat := by
        rw [whole, Nat.mul_comm (byte.toNat % 128), Nat.mul_mod_mul_left, Nat.or_comm]
    _ = 2 ^ shift * (byte.toNat % 128 % 2 ^ (32 - shift)) + word.toNat := (Nat.two_pow_add_eq_or_of_lt low _).symm
    _ = (word.toNat + byte.toNat % 128 * 2 ^ shift) % 2 ^ 32 := by
        rw [whole, Nat.mod_mul, high, Nat.add_mul_mod_self_right, Nat.mod_eq_of_lt low, Nat.add_comm]

lemma toNat_shiftIn_lt {shift : Nat} {word : UInt32} (byte : UInt8) (low : word.toNat < 2 ^ shift)
    (few : shift < 32) : (shiftIn shift word byte).toNat < 2 ^ (shift + 7) := by
  have group : byte.toNat % 128 * 2 ^ shift ≤ 127 * 2 ^ shift := Nat.mul_le_mul_right _ (by omega)
  rw [toNat_shiftIn byte low few, Nat.pow_add]
  exact (Nat.mod_le _ _).trans_lt (by omega)

/-! ## Writing -/

lemma pushGroups_eq {groups : Nat} {out : List UInt8} {word : UInt32} (fits : word.toNat < 128 * 128 ^ groups) :
    pushGroups out word = out ++ writeGroups (groups + 1) word.toNat := by
  induction groups generalizing out word with
  | zero =>
    have small : word.toNat < 128 := by simpa using fits
    rw [pushGroups, if_pos (shiftRight_seven_eq_zero.2 small), writeGroups, if_pos small, low_eq,
      Nat.mod_eq_of_lt small]
  | succ groups ih =>
    rw [pushGroups, writeGroups]
    by_cases small : word.toNat < 128
    · rw [if_pos (shiftRight_seven_eq_zero.2 small), if_pos small, low_eq, Nat.mod_eq_of_lt small]
    · have fits' : (word >>> 7).toNat < 128 * 128 ^ groups := by
        rw [toNat_shiftRight_seven, Nat.div_lt_iff_lt_mul (by decide)]
        rw [Nat.pow_succ] at fits
        omega
      rw [if_neg (mt shiftRight_seven_eq_zero.1 small), if_neg small, ih fits', toNat_shiftRight_seven, low_eq,
        or_top_eq (Nat.mod_lt _ (by decide)), List.append_assoc, List.singleton_append]

lemma pushU30_eq (out : List UInt8) (word : UInt32) : pushU30 out word = out ++ writeU30 word.toNat := by
  have bound : word.toNat % u30Bound < u30Bound := Nat.mod_lt _ (by decide)
  have fits : (word &&& u30Mask).toNat < 128 * 128 ^ 4 := by
    rw [toNat_and_u30Mask]
    exact bound.trans (by decide)
  rw [pushU30, pushGroups_eq fits, toNat_and_u30Mask, writeU30]

/-! ## Reading -/

namespace Cursor

variable {α β : Type} {reader : List UInt8 → Option (α × List UInt8)} {c c' : Cursor} {a : α}
  {left : List UInt8}

lemma read_of_some (h : reader c.rest = some (a, left)) :
    c.read reader = (some a, { c with position := c.bytes.length - left.length }) := by
  rw [read, h]

lemma read_of_none (h : reader c.rest = none) : c.read reader = (none, { c with position := c.bytes.length }) := by
  rw [read, h]

lemma exists_of_read (h : c.read reader = (some a, c')) :
    ∃ left, reader c.rest = some (a, left) ∧ c' = { c with position := c.bytes.length - left.length } := by
  cases read : reader c.rest with
  | none => cases (read_of_none read).symm.trans h
  | some r =>
    obtain ⟨same, rfl⟩ := Prod.mk.inj ((read_of_some read).symm.trans h)
    obtain rfl := Option.some.inj same
    exact ⟨r.2, rfl, rfl⟩

lemma read_map (reader : List UInt8 → Option (α × List UInt8)) (f : α → β) :
    c.read (fun bytes => (reader bytes).map fun r => (f r.1, r.2)) =
      Prod.map (Option.map f) id (c.read reader) := by
  cases read : reader c.rest with
  | none =>
    rw [read_of_none read, read_of_none (by rw [read]; rfl)]
    rfl
  | some r =>
    rw [read_of_some read, read_of_some (by rw [read]; rfl)]
    rfl

lemma length_rest (c : Cursor) : c.rest.length = c.bytes.length - c.position := List.length_drop

lemma rest_of_suffix (ends : left <:+ c.bytes) :
    ({ c with position := c.bytes.length - left.length } : Cursor).rest = left :=
  (List.suffix_iff_eq_drop.1 ends).symm

end Cursor

lemma shiftGroups_eq {groups shift : Nat} {word : UInt32} {c : Cursor} (inside : c.position ≤ c.bytes.length)
    (all : shift + 7 * groups = 35) (low : word.toNat < 2 ^ shift) :
    shiftGroups groups shift word c =
      Prod.map (Option.map fun m => UInt32.ofNat (word.toNat + m * 2 ^ shift)) id (c.read (readGroups groups)) := by
  induction groups generalizing shift word c with
  | zero =>
    have stays : c.bytes.length - c.rest.length = c.position := by
      rw [c.length_rest]
      omega
    rw [shiftGroups, Cursor.read_of_some (readGroups.eq_1 _), stays]
    simp
  | succ groups ih =>
    rw [shiftGroups]
    cases rest : c.rest with
    | nil =>
      rw [Cursor.read_of_none (by rw [rest]; rfl), Cursor.read_of_none (by rw [rest]; rfl)]
      rfl
    | cons byte left =>
      have ends : left <:+ c.bytes := (rest ▸ List.suffix_cons byte left).trans (List.drop_suffix _ _)
      have few : shift < 32 := by omega
      have first : readU8 c.rest = some (byte, left) := by rw [rest, readU8]
      rw [Cursor.read_of_some first]
      dsimp only
      by_cases small : byte.toNat < 128
      · have last : readGroups (groups + 1) c.rest = some (byte.toNat, left) := by
          rw [rest, readGroups, if_pos small]
        rw [if_pos (and_top_eq_zero.2 small), Cursor.read_of_some last]
        refine Prod.ext (congrArg some ?_) rfl
        rw [← UInt32.toNat_inj, UInt32.toNat_ofNat', toNat_shiftIn byte low few, Nat.mod_eq_of_lt small]
      · have more : readGroups (groups + 1) c.rest =
            (readGroups groups left).map fun r => (byte.toNat % 128 + 128 * r.1, r.2) := by
          rw [rest, readGroups, if_neg small]
        have behind := Cursor.rest_of_suffix ends
        rw [if_neg (mt and_top_eq_zero.1 small), ih (Nat.sub_le _ _) (by omega) (toNat_shiftIn_lt byte low few)]
        cases read : readGroups groups left with
        | none =>
          rw [Cursor.read_of_none (by rw [behind, read]), Cursor.read_of_none (by rw [more, read]; rfl)]
          rfl
        | some r =>
          rw [Cursor.read_of_some (by rw [behind, read]), Cursor.read_of_some (by rw [more, read]; rfl)]
          refine Prod.ext (congrArg some ?_) rfl
          -- what has fallen off the word is left out of the number as well
          rw [← UInt32.toNat_inj, UInt32.toNat_ofNat', UInt32.toNat_ofNat', toNat_shiftIn byte low few,
            Nat.mod_add_mod, Nat.pow_add]
          congr 1
          ring

/-- Shifting groups into a word gives the number that adding them gives, less all bits beyond the thirtieth. -/
lemma read_readU30_eq (c : Cursor) : c.read readU30 = Prod.map (Option.map UInt32.toNat) id c.readWord := by
  have thirty : c.read readU30 = Prod.map (Option.map (· % u30Bound)) id (c.read (readGroups 5)) :=
    Cursor.read_map (readGroups 5) (· % u30Bound)
  rw [thirty, Cursor.readWord]
  by_cases inside : c.position ≤ c.bytes.length
  · rw [shiftGroups_eq inside rfl (by decide), Prod.map_map, Prod.map_map, Option.map_comp_map,
      Option.map_comp_map]
    congr 2
    funext m
    rw [Function.comp_apply, Function.comp_apply, toNat_and_u30Mask, UInt32.toNat_ofNat',
      Nat.mod_mod_of_dvd _ (by decide)]
    simp
  · have rest : c.rest = [] := List.drop_eq_nil_of_le (Nat.le_of_not_le inside)
    rw [Cursor.read_of_none (by rw [rest]; rfl), shiftGroups, Cursor.read_of_none (by rw [rest]; rfl)]
    rfl

lemma u30Length_mod (v : Nat) : u30Length (v % u30Bound) = u30Length v := by
  simp only [u30Length, Nat.mod_mod]

lemma length_numberField_le {v : Nat} {bytes rest : List UInt8} (h : readU30 bytes = some (v, rest)) :
    (numberField bytes).length ≤ 5 := by
  obtain ⟨r, read, -⟩ := Option.map_eq_some_iff.1 h
  obtain ⟨-, -, -, -, few⟩ := exists_last_group read
  exact few

/-- A reading takes the bytes of a number, which are no fewer than it would be written with, and no more than
five. -/
lemma takes_of_read {c c' : Cursor} {v : Nat} (h : c.read readU30 = (some v, c')) :
    c'.bytes = c.bytes ∧ c.position + u30Length v ≤ c'.position ∧ c'.position ≤ c.position + 5 ∧
      c'.position ≤ c.bytes.length ∧ v < u30Bound := by
  obtain ⟨left, read, rfl⟩ := Cursor.exists_of_read h
  obtain ⟨split, bound, least, -⟩ := readU30_eq_some read
  have most := length_numberField_le read
  have some_byte := u30Length_pos v
  have total := congrArg List.length split
  rw [List.length_append, c.length_rest] at total
  exact ⟨rfl, by dsimp only; omega, by dsimp only; omega, Nat.sub_le _ _, bound⟩

/-- Numbers of variable length are written and read without loss.  A word is put behind what is in the buffer, in
as many bytes as are said to be its length, and its low thirty bits are read from there, whatever follows.  To
read the same number elsewhere takes no fewer bytes.  Whatever is read takes one byte to five and has thirty bits,
and it is the word into which the groups are shifted. -/
theorem u30_exact (v : UInt32) (before after : List UInt8) :
    let length := u30Length v.toNat
    let value := (v &&& u30Mask).toNat
    let block := pushU30 before v ++ after
    pushU30 before v = before ++ writeU30 v.toNat ∧ (writeU30 v.toNat).length = length ∧
    Cursor.read ⟨block, before.length⟩ readU30 = (some value, ⟨block, before.length + length⟩) ∧
    (∀ c c' : Cursor, c.read readU30 = (some value, c') →
      c.position + length ≤ c'.position ∧ length ≤ c.bytes.length) ∧
    (∀ c c' : Cursor, ∀ w, c.read readU30 = (some w, c') →
      c'.bytes = c.bytes ∧ c.position + 1 ≤ c'.position ∧ c'.position ≤ c.position + 5 ∧
        c'.position ≤ c.bytes.length ∧ w ≤ u30Mask.toNat) ∧
    ∀ c : Cursor, c.read readU30 = Prod.map (Option.map UInt32.toNat) id c.readWord := by
  intro length value block
  have masked : value = v.toNat % u30Bound := toNat_and_u30Mask v
  refine ⟨pushU30_eq before v, length_writeU30 _, ?_, fun c c' read => ?_, fun c c' w read => ?_, read_readU30_eq⟩
  · have whole : block = before ++ (writeU30 v.toNat ++ after) := by
      rw [← List.append_assoc, ← pushU30_eq]
    have read : readU30 (Cursor.rest ⟨block, before.length⟩) = some (value, after) := by
      rw [Cursor.rest, whole, List.drop_left, readU30_writeU30, masked]
    have position : block.length - after.length = before.length + length := by
      rw [whole, List.length_append, List.length_append, length_writeU30]
      omega
    rw [Cursor.read_of_some read, position]
  · obtain ⟨-, least, -, inside, -⟩ := takes_of_read read
    have same : u30Length value = length := masked ▸ u30Length_mod v.toNat
    omega
  · obtain ⟨bytes, least, most, inside, bound⟩ := takes_of_read read
    have some_byte := u30Length_pos w
    exact ⟨bytes, by omega, most, inside, Nat.le_of_lt_succ bound⟩

/-- A number that is written in two bytes is also read from five, if the two behind those add nothing and the last
one has only bits that are left out. -/
theorem u30_exact_overlong :
    let c : Cursor := ⟨[0xd0, 0x80, 0x81, 0x80, 0x80, 0xfc, 0x47], 1⟩
    let c' : Cursor := { c with position := 6 }
    c.read readU30 = (some 128, c') ∧ c.position + u30Length 0xc0000080 ≤ c'.position ∧
    c'.position ≤ c.position + 5 ∧ pushU30 [0xd0] 0xc0000080 = [0xd0, 0x80, 0x01] := by
  intro c c'
  have read : c.read readU30 = (some 128, c') := by decide
  obtain ⟨pushed, -, -, shortest, taken, -⟩ := u30_exact 0xc0000080 [0xd0] []
  obtain ⟨least, -⟩ := shortest c c' read
  obtain ⟨-, -, most, -⟩ := taken c c' 128 read
  exact ⟨read, least, most, pushed.trans (by decide)⟩

end Avm.Wire
