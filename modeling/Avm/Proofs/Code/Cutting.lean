import Avm.Proofs.Code.Reading

/-!
# What decoded bytes look like

Bytes that are cut into instructions may hold variable-length numbers that are longer than they need to
be.  `Wire.shortest` says of the bytes of one such number that they are the shortest ones, and
`Decode.numberFields` lists the bytes of all such numbers in code.  `Decode.Cut` relates bytes to the
instructions that they are cut into: each instruction takes at least the bytes that it would be written
with, and exactly those if its numbers are the shortest ones.

The main statement is `Decode.instructions_eq_ok`: bytes that can be read are cut into instructions.
-/

namespace Avm

namespace Wire

/-- The bytes of a variable-length number of at most `groups` groups. -/
def groupField : Nat → List UInt8 → List UInt8
  | 0, _ => []
  | _, [] => []
  | groups + 1, b :: rest => if b.toNat < 128 then [b] else b :: groupField groups rest

/-- The bytes of the variable-length number at the start. -/
def numberField (bytes : List UInt8) : List UInt8 := groupField 5 bytes

/-- No last group is empty, unless it is the only one, and no bit lies beyond the thirtieth. -/
def shortest (field : List UInt8) : Bool :=
  (field.length ≤ 1 || field.getLast? != some 0) &&
    (field.length < 5 || field.getLast?.all fun b => b.toNat < 4)

lemma toUInt8_eq {n : Nat} {b : UInt8} (h : n = b.toNat) : n.toUInt8 = b := by
  subst h
  simp

lemma readGroups_field {groups v : Nat} {bytes rest : List UInt8}
    (h : readGroups groups bytes = some (v, rest)) : bytes = groupField groups bytes ++ rest := by
  induction groups generalizing v bytes with
  | zero =>
    obtain ⟨-, rfl⟩ := Prod.mk.inj (Option.some.inj h)
    rfl
  | succ groups ih =>
    cases bytes with
    | nil => cases h
    | cons b bytes =>
      rw [readGroups] at h
      rw [groupField]
      split at h
      · rename_i last
        obtain ⟨-, rfl⟩ := Prod.mk.inj (Option.some.inj h)
        rw [if_pos last, List.singleton_append]
      · rename_i more
        obtain ⟨r, read, eq⟩ := Option.map_eq_some_iff.1 h
        obtain ⟨-, rfl⟩ := Prod.mk.inj eq
        rw [if_neg more, List.cons_append, ← ih read]

lemma length_writeGroups_le {groups v w : Nat} {bytes rest : List UInt8}
    (h : readGroups (groups + 1) bytes = some (v, rest)) (le : w ≤ v) :
    (writeGroups (groups + 1) w).length ≤ (groupField (groups + 1) bytes).length := by
  induction bytes generalizing groups v w with
  | nil => cases h
  | cons b bytes ih =>
    have byte := b.toNat_lt
    rw [readGroups] at h
    rw [groupField, writeGroups]
    split at h
    · rename_i last
      obtain ⟨rfl, -⟩ := Prod.mk.inj (Option.some.inj h)
      rw [if_pos last, if_pos (by omega : w < 128)]
      exact Nat.le_refl _
    · rename_i more
      obtain ⟨⟨r, left⟩, read, eq⟩ := Option.map_eq_some_iff.1 h
      obtain ⟨value, rfl⟩ := Prod.mk.inj eq
      have shorter : w / 128 ≤ r := by omega
      rw [if_neg more, List.length_cons]
      split
      · exact Nat.succ_le_succ (Nat.zero_le _)
      · rw [List.length_cons, Nat.add_le_add_iff_right]
        cases groups with
        | zero => exact Nat.zero_le _
        | succ groups => exact ih read shorter

/-- A field that ends in a last group, which is empty only if it is the only one, is what its number is
written as. -/
lemma groupField_eq_writeGroups {groups v : Nat} {bytes rest : List UInt8} {last : UInt8}
    (h : readGroups (groups + 1) bytes = some (v, rest))
    (ends : (groupField (groups + 1) bytes).getLast? = some last) (closed : last.toNat < 128)
    (full : (groupField (groups + 1) bytes).length ≤ 1 ∨ last ≠ 0) :
    groupField (groups + 1) bytes = writeGroups (groups + 1) v ∧ (last ≠ 0 → 0 < v) := by
  induction bytes generalizing groups v with
  | nil => cases h
  | cons b bytes ih =>
    have byte := b.toNat_lt
    rw [readGroups] at h
    rw [groupField] at ends full ⊢
    split at h
    · rename_i small
      obtain ⟨rfl, -⟩ := Prod.mk.inj (Option.some.inj h)
      rw [if_pos small] at ends ⊢
      obtain rfl : b = last := by simpa using ends
      refine ⟨by rw [writeGroups, if_pos small, toUInt8_eq rfl], fun ne => ?_⟩
      rw [Nat.pos_iff_ne_zero]
      exact fun zero => ne (UInt8.toNat_inj.1 zero)
    · rename_i large
      rw [if_neg large] at ends full ⊢
      obtain ⟨⟨r, left⟩, read, eq⟩ := Option.map_eq_some_iff.1 h
      obtain ⟨rfl, rfl⟩ := Prod.mk.inj eq
      cases groups with
      | zero =>
        obtain rfl : b = last := by simpa [groupField] using ends
        exact absurd closed large
      | succ groups =>
        -- More groups follow, so the last one is not the only one and is not empty.
        have nonempty : groupField (groups + 1) bytes ≠ [] := by
          cases bytes with
          | nil => cases read
          | cons c bytes =>
            rw [groupField]
            split <;> simp
        have ends' : (groupField (groups + 1) bytes).getLast? = some last := by
          rwa [List.getLast?_cons_of_ne_nil nonempty] at ends
        have ne : last ≠ 0 := by
          refine full.resolve_left fun short => nonempty (List.length_eq_zero_iff.1 ?_)
          simpa using short
        obtain ⟨field, positive⟩ := ih read ends' (.inr ne)
        have r_pos := positive ne
        have value : ¬ b.toNat % 128 + 128 * r < 128 := by omega
        have low : (b.toNat % 128 + 128 * r) % 128 + 128 = b.toNat := by omega
        have high : (b.toNat % 128 + 128 * r) / 128 = r := by omega
        refine ⟨?_, fun _ => by omega⟩
        rw [writeGroups, if_neg value, high, ← field, toUInt8_eq low]

/-- The last group of a field bounds its number; only if all groups are used up may it call for
more. -/
lemma exists_last_group {groups v : Nat} {bytes rest : List UInt8}
    (h : readGroups (groups + 1) bytes = some (v, rest)) :
    ∃ last, (groupField (groups + 1) bytes).getLast? = some last ∧
      v < (last.toNat + 1) * 128 ^ ((groupField (groups + 1) bytes).length - 1) ∧
      (last.toNat < 128 ∨ (groupField (groups + 1) bytes).length = groups + 1) ∧
      (groupField (groups + 1) bytes).length ≤ groups + 1 := by
  induction bytes generalizing groups v with
  | nil => cases h
  | cons b bytes ih =>
    rw [readGroups] at h
    rw [groupField]
    split at h
    · rename_i small
      obtain ⟨rfl, -⟩ := Prod.mk.inj (Option.some.inj h)
      rw [if_pos small]
      exact ⟨b, rfl, by simp, .inl small, by simp⟩
    · rename_i large
      rw [if_neg large]
      obtain ⟨⟨r, left⟩, read, eq⟩ := Option.map_eq_some_iff.1 h
      obtain ⟨rfl, rfl⟩ := Prod.mk.inj eq
      have remainder := Nat.mod_lt b.toNat (by decide : 0 < 128)
      cases groups with
      | zero =>
        obtain ⟨rfl, -⟩ := Prod.mk.inj (Option.some.inj read)
        have := Nat.mod_le b.toNat 128
        refine ⟨b, rfl, ?_, .inr rfl, Nat.le_refl _⟩
        simp only [groupField, List.length_singleton, Nat.sub_self, Nat.pow_zero]
        omega
      | succ groups =>
        obtain ⟨last, ends, bound, closed, fits⟩ := ih read
        have some_group : groupField (groups + 1) bytes ≠ [] := by
          intro empty
          simp [empty] at ends
        have positive := List.length_pos_iff.2 some_group
        refine ⟨last, by rwa [List.getLast?_cons_of_ne_nil some_group], ?_, ?_, ?_⟩
        · rw [List.length_cons, Nat.add_sub_cancel,
            show (groupField (groups + 1) bytes).length =
              (groupField (groups + 1) bytes).length - 1 + 1 by omega, Nat.pow_succ,
            ← Nat.mul_assoc]
          omega
        · exact closed.imp id fun all => by rw [List.length_cons, all]
        · rw [List.length_cons]
          omega

/-- A number that is read has thirty bits, takes no more bytes than it was read from, and takes the same
bytes if they were the shortest ones. -/
lemma readU30_eq_some {v : Nat} {bytes rest : List UInt8} (h : readU30 bytes = some (v, rest)) :
    bytes = numberField bytes ++ rest ∧ v < u30Bound ∧ u30Length v ≤ (numberField bytes).length ∧
      (shortest (numberField bytes) = true → numberField bytes = writeU30 v) := by
  obtain ⟨⟨w, left⟩, read, eq⟩ := Option.map_eq_some_iff.1 h
  obtain ⟨rfl, rfl⟩ := Prod.mk.inj eq
  have bound : w % u30Bound < u30Bound := Nat.mod_lt _ (by decide)
  refine ⟨readGroups_field read, bound, ?_, ?_⟩
  · rw [← length_writeU30, writeU30, Nat.mod_mod]
    exact length_writeGroups_le read (Nat.mod_le _ _)
  · intro short
    obtain ⟨last, ends, value, closed, fits⟩ := exists_last_group read
    rw [← numberField] at ends value closed fits
    simp only [shortest, ends, Bool.and_eq_true, Bool.or_eq_true, decide_eq_true_eq, bne_iff_ne,
      Option.all_some, ne_eq, Option.some.injEq] at short
    obtain ⟨full, top⟩ := short
    have ended : last.toNat < 128 := by omega
    have thirty : w < u30Bound := by
      refine Nat.lt_of_lt_of_le value ?_
      obtain few | all : (numberField bytes).length - 1 ≤ 3 ∨ (numberField bytes).length - 1 = 4 := by
        omega
      · calc (last.toNat + 1) * 128 ^ ((numberField bytes).length - 1)
            ≤ 128 * 128 ^ 3 := Nat.mul_le_mul ended (Nat.pow_le_pow_right (by decide) few)
          _ ≤ u30Bound := by decide
      · rw [all]
        have : last.toNat < 4 := by omega
        calc (last.toNat + 1) * 128 ^ 4 ≤ 4 * 128 ^ 4 := Nat.mul_le_mul_right _ this
          _ = u30Bound := by decide
    rw [writeU30, Nat.mod_mod, Nat.mod_eq_of_lt thirty]
    exact (groupField_eq_writeGroups read ends ended full).1

/-- A signed number that is read fits into its field, and is written as the bytes it was read from. -/
lemma readS24_eq_some {v : Int} {bytes rest : List UInt8} (h : readS24 bytes = some (v, rest)) :
    bytes = writeS24 v ++ rest ∧ fitsS24 v = true := by
  match bytes, h with
  | a :: b :: c :: bytes, h =>
    obtain ⟨value, rfl⟩ := Prod.mk.inj (Option.some.inj h)
    have ha := a.toNat_lt
    have hb := b.toNat_lt
    have hc := c.toNat_lt
    have raw : (v % 0x1000000).toNat = a.toNat + 256 * b.toNat + 65536 * c.toNat := by
      split at value <;> omega
    refine ⟨?_, ?_⟩
    · rw [writeS24, raw, toUInt8_eq (b := a) (by omega), toUInt8_eq (b := b) (by omega),
        toUInt8_eq (b := c) (by omega)]
      rfl
    · rw [fitsS24, Bool.and_eq_true, decide_eq_true_eq, decide_eq_true_eq]
      split at value <;> omega

end Wire

namespace Decode

/-- The bytes of the variable-length numbers among operands of a layout. -/
def operandFields (layout : Layout) (bytes : List UInt8) : List (List UInt8) :=
  match layout with
  | .index => [Wire.numberField bytes]
  | .pair =>
    let first := Wire.numberField bytes
    [first, Wire.numberField (bytes.drop first.length)]
  | .switch => [Wire.numberField (bytes.drop 3)]
  | .debug =>
    let name := Wire.numberField (bytes.drop 1)
    [name, Wire.numberField (bytes.drop (1 + name.length + 1))]
  | .none | .byte | .branch => []

/-- The bytes of the variable-length numbers of at most `fuel` instructions. -/
def fieldsFrom (length : Nat) : Nat → List UInt8 → List (List UInt8)
  | 0, _ => []
  | _, [] => []
  | fuel + 1, byte :: bytes =>
    match instruction length (length - (bytes.length + 1)) (byte :: bytes) with
    | .ok (i, rest) => operandFields i.opcode.layout bytes ++ fieldsFrom length fuel rest
    | .error _ => []

/-- The bytes of all variable-length numbers in code. -/
def numberFields (bytes : List UInt8) : List (List UInt8) :=
  fieldsFrom bytes.length bytes.length bytes

/-- Bytes that are cut into instructions from an offset to the end of the code, and the bytes of the
variable-length numbers in them. -/
inductive Cut (length : Nat) :
    Nat → List UInt8 → List (Nat × Instruction Nat) → List (List UInt8) → Prop where
  | nil :
    Cut length length [] [] []
  | cons {start i front rest fields is more} :
    i.operands.layout = i.opcode.layout →
    Encode.FitsOperands length start i.operands →
    Encode.size i ≤ front.length →
    ((∀ field ∈ fields, Wire.shortest field = true) → front = Encode.bytes start i) →
    Cut length (start + front.length) rest is more →
    Cut length start (front ++ rest) ((start, i) :: is) (fields ++ more)

lemma need_eq_ok {α : Type} {start : Nat} {x : Option α} {a : α} :
    need start x = .ok a ↔ x = some a := by
  cases x <;> simp [need]

lemma target_eq_ok {length start base t : Nat} {relative : Int}
    (h : target length start base relative = .ok t) :
    t ≤ length ∧ relative = (t : Int) - base := by
  simp only [target] at h
  split at h
  · cases h
  · obtain rfl := Except.ok.inj h
    omega

lemma cases_eq_ok {length start n : Nat} {bytes rest : List UInt8} {ts : List Nat}
    (h : cases length start n bytes = .ok (ts, rest)) :
    bytes = (ts.flatMap fun (t : Nat) => Wire.writeS24 ((t : Int) - start)) ++ rest ∧
      ts.length = n ∧ ∀ t ∈ ts, t ≤ length ∧ fitsS24 ((t : Int) - start) = true := by
  induction n generalizing bytes ts with
  | zero =>
    obtain ⟨rfl, rfl⟩ := Prod.mk.inj (Except.ok.inj h)
    exact ⟨rfl, rfl, by simp⟩
  | succ n ih =>
    simp only [cases, bind_eq_ok, need_eq_ok] at h
    obtain ⟨⟨relative, left⟩, read, t, at_t, ⟨more, left'⟩, others, h⟩ := h
    obtain ⟨rfl, rfl⟩ := Prod.mk.inj (Except.ok.inj h)
    obtain ⟨rfl, near⟩ := Wire.readS24_eq_some read
    obtain ⟨inside, rfl⟩ := target_eq_ok at_t
    obtain ⟨rfl, rfl, all⟩ := ih others
    refine ⟨?_, rfl, List.forall_mem_cons.2 ⟨⟨inside, near⟩, all⟩⟩
    rw [List.flatMap_cons, List.append_assoc]

/-- What is known about the bytes `front` before `rest` that operands were read from. -/
structure Taken (length start : Nat) (layout : Layout) (bytes : List UInt8) (ops : Operands Nat)
    (front rest : List UInt8) : Prop where
  /-- The bytes are split in two. -/
  split : bytes = front ++ rest
  /-- The operands have the layout that was asked for. -/
  layout_eq : ops.layout = layout
  /-- The operands have a place in their fields. -/
  fits : Encode.FitsOperands length start ops
  /-- The operands are not longer than the bytes they were read from. -/
  size_le : Encode.operandSize ops ≤ front.length
  /-- The operands are written as these bytes if the numbers among them are the shortest ones. -/
  exact : (∀ field ∈ operandFields layout bytes, Wire.shortest field = true) →
    front = Encode.operandBytes start ops

section Operands

variable {length start : Nat} {bytes rest : List UInt8} {ops : Operands Nat}

lemma taken_pair (h : operands length start .pair bytes = .ok (ops, rest)) :
    ∃ front, Taken length start .pair bytes ops front rest := by
  simp only [operands, bind_eq_ok, need_eq_ok, Prod.exists] at h
  obtain ⟨first, left, read, second, left', read', h⟩ := h
  obtain ⟨rfl, rfl⟩ := Prod.mk.inj (Except.ok.inj h)
  obtain ⟨split, bound, size, same⟩ := Wire.readU30_eq_some read
  obtain ⟨split', bound', size', same'⟩ := Wire.readU30_eq_some read'
  have behind : bytes.drop (Wire.numberField bytes).length = left := by
    conv_lhs => arg 2; rw [split]
    exact List.drop_left
  refine ⟨Wire.numberField bytes ++ Wire.numberField left, ?_, rfl, ⟨bound, bound'⟩, ?_, ?_⟩
  · rw [List.append_assoc, ← split', ← split]
  · rw [List.length_append]
    exact Nat.add_le_add size size'
  · intro short
    simp only [operandFields, behind, List.forall_mem_cons] at short
    rw [same short.1, same' short.2.1]
    rfl

lemma taken_switch (h : operands length start .switch bytes = .ok (ops, rest)) :
    ∃ front, Taken length start .switch bytes ops front rest := by
  simp only [operands, bind_eq_ok, need_eq_ok, Prod.exists] at h
  obtain ⟨relative, left, read, default, at_default, count, left', counted, h⟩ := h
  split at h
  · cases h
  · obtain ⟨⟨ts, last⟩, read', h⟩ := bind_eq_ok.1 h
    obtain ⟨rfl, rfl⟩ := Prod.mk.inj (Except.ok.inj h)
    obtain ⟨split, near⟩ := Wire.readS24_eq_some read
    obtain ⟨inside, rfl⟩ := target_eq_ok at_default
    obtain ⟨split', bound, size, same⟩ := Wire.readU30_eq_some counted
    obtain ⟨rest_eq, number, all⟩ := cases_eq_ok read'
    have behind : bytes.drop 3 = left := by
      rw [split]
      rfl
    have count_eq : ts.length - 1 = count := by omega
    refine ⟨Wire.writeS24 ((default : Int) - start) ++ Wire.numberField left
      ++ ts.flatMap fun (t : Nat) => Wire.writeS24 ((t : Int) - start), ?_, rfl, ?_, ?_, ?_⟩
    · rw [List.append_assoc, List.append_assoc, ← rest_eq, ← split', ← split]
    · refine ⟨?_, by rwa [count_eq], List.forall_mem_cons.2 ⟨⟨inside, near⟩, all⟩⟩
      rintro rfl
      simp at number
    · simp only [Encode.operandSize, List.length_append, Wire.length_writeS24,
        Encode.length_flatMap_writeS24, count_eq]
      omega
    · intro short
      simp only [operandFields, behind, List.forall_mem_cons] at short
      rw [Encode.operandBytes, count_eq, same short.1]

lemma taken_debug (h : operands length start .debug bytes = .ok (ops, rest)) :
    ∃ front, Taken length start .debug bytes ops front rest := by
  simp only [operands, bind_eq_ok, need_eq_ok, Prod.exists] at h
  obtain ⟨kind, left, read, name, left', named, register, behind, read', extra, last, more, h⟩ := h
  obtain ⟨rfl, rfl⟩ := Prod.mk.inj (Except.ok.inj h)
  cases bytes with
  | nil => cases read
  | cons b bytes =>
    obtain ⟨rfl, rfl⟩ := Prod.mk.inj (Option.some.inj read)
    obtain ⟨split, bound, size, same⟩ := Wire.readU30_eq_some named
    cases left' with
    | nil => cases read'
    | cons c left' =>
      obtain ⟨rfl, rfl⟩ := Prod.mk.inj (Option.some.inj read')
      obtain ⟨split', bound', size', same'⟩ := Wire.readU30_eq_some more
      have after : (b :: bytes).drop (1 + (Wire.numberField bytes).length + 1) = left' := by
        conv_lhs => arg 2; rw [split]
        rw [Nat.add_assoc, Nat.add_comm 1, List.drop_succ_cons, List.drop_append]
        simp
      refine ⟨b :: Wire.numberField bytes ++ c :: Wire.numberField left', ?_, rfl,
        ⟨bound, bound'⟩, ?_, ?_⟩
      · rw [List.cons_append, List.cons_append, List.append_assoc, List.cons_append, ← split', ← split]
      · simp only [Encode.operandSize, List.length_append, List.length_cons]
        omega
      · intro short
        simp only [operandFields, after, List.drop_succ_cons, List.drop_zero,
          List.forall_mem_cons] at short
        rw [Encode.operandBytes, same short.1, same' short.2.1]
        simp

lemma operands_eq_ok {layout : Layout} (h : operands length start layout bytes = .ok (ops, rest)) :
    ∃ front, Taken length start layout bytes ops front rest := by
  cases layout with
  | none =>
    obtain ⟨rfl, rfl⟩ := Prod.mk.inj (Except.ok.inj h)
    exact ⟨[], rfl, rfl, trivial, Nat.le_refl _, fun _ => rfl⟩
  | byte =>
    simp only [operands, bind_eq_ok, need_eq_ok, Prod.exists] at h
    obtain ⟨value, left, read, h⟩ := h
    obtain ⟨rfl, rfl⟩ := Prod.mk.inj (Except.ok.inj h)
    cases bytes with
    | nil => cases read
    | cons b bytes =>
      obtain ⟨rfl, rfl⟩ := Prod.mk.inj (Option.some.inj read)
      exact ⟨[b], rfl, rfl, trivial, Nat.le_refl _, fun _ => rfl⟩
  | index =>
    simp only [operands, bind_eq_ok, need_eq_ok, Prod.exists] at h
    obtain ⟨value, left, read, h⟩ := h
    obtain ⟨rfl, rfl⟩ := Prod.mk.inj (Except.ok.inj h)
    obtain ⟨split, bound, size, same⟩ := Wire.readU30_eq_some read
    exact ⟨_, split, rfl, bound, size, fun short => same (short _ List.mem_cons_self)⟩
  | pair => exact taken_pair h
  | branch =>
    simp only [operands, bind_eq_ok, need_eq_ok, Prod.exists] at h
    obtain ⟨relative, left, read, t, at_t, h⟩ := h
    obtain ⟨rfl, rfl⟩ := Prod.mk.inj (Except.ok.inj h)
    obtain ⟨split, near⟩ := Wire.readS24_eq_some read
    obtain ⟨inside, rfl⟩ := target_eq_ok at_t
    exact ⟨_, split, rfl, ⟨inside, near⟩, Nat.le_refl _, fun _ => rfl⟩
  | switch => exact taken_switch h
  | debug => exact taken_debug h

end Operands

lemma instruction_eq_ok {length start : Nat} {byte : UInt8} {bytes rest : List UInt8}
    {i : Instruction Nat} (h : instruction length start (byte :: bytes) = .ok (i, rest)) :
    byte = i.opcode.byte ∧ ∃ front, Taken length start i.opcode.layout bytes i.operands front rest := by
  simp only [instruction, Wire.readU8, need, ok_bind] at h
  split at h
  · cases h
  · rename_i opcode found
    obtain ⟨⟨ops, left⟩, read, h⟩ := bind_eq_ok.1 h
    obtain ⟨rfl, rfl⟩ := Prod.mk.inj (Except.ok.inj h)
    have same : opcode.byte = byte := by simpa using List.find?_some found
    exact ⟨same.symm, operands_eq_ok read⟩

lemma instructions_eq_ok {length fuel : Nat} {bytes : List UInt8}
    {is : List (Nat × Instruction Nat)} (h : instructions length fuel bytes = .ok is)
    (inside : bytes.length ≤ length) (enough : bytes.length ≤ fuel) :
    Cut length (length - bytes.length) bytes is (fieldsFrom length fuel bytes) := by
  induction fuel generalizing bytes is with
  | zero =>
    obtain rfl := List.length_eq_zero_iff.1 (Nat.le_zero.1 enough)
    obtain rfl := Except.ok.inj h
    exact .nil
  | succ fuel ih =>
    cases bytes with
    | nil =>
      obtain rfl := Except.ok.inj h
      exact .nil
    | cons byte bytes =>
      simp only [instructions, bind_eq_ok, pure_eq_ok, Except.ok.injEq, Prod.exists] at h
      obtain ⟨i, rest, read, is', more, rfl⟩ := h
      have fields : fieldsFrom length (fuel + 1) (byte :: bytes) =
          operandFields i.opcode.layout bytes ++ fieldsFrom length fuel rest := by
        rw [List.length_cons] at read
        rw [fieldsFrom, read]
      obtain ⟨rfl, front, taken⟩ := instruction_eq_ok read
      have total : bytes.length = front.length + rest.length := by
        rw [taken.split, List.length_append]
      rw [List.length_cons] at inside enough
      have tail := ih more (by omega) (by omega)
      have start_eq : length - rest.length =
          length - (i.opcode.byte :: bytes).length + (i.opcode.byte :: front).length := by
        simp only [List.length_cons]
        omega
      have bytes_eq : i.opcode.byte :: bytes = (i.opcode.byte :: front) ++ rest := by
        rw [List.cons_append, ← taken.split]
      rw [start_eq] at tail
      rw [fields]
      conv => arg 3; rw [bytes_eq]
      refine .cons taken.layout_eq taken.fits ?_ ?_ tail
      · rw [Encode.size, List.length_cons, Nat.add_comm]
        exact Nat.succ_le_succ taken.size_le
      · intro short
        rw [Encode.bytes, ← taken.exact short]

end Decode

end Avm
