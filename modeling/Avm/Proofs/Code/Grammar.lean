import Avm.Proofs.Code.Shrinking

/-!
# The grammar of code

Which bytes are code can be said without a reader.  `IsNumber` and `offset` describe the two kinds of
fields, `Spells` the operands of each layout, and `Sentence` a row of instructions, each with the offset
that it starts at; targets are offsets as well.  Code is well placed if all targets, and all places that
handlers name, are offsets at which an instruction starts or the code ends.

The main statement is `Code.decode_iff_sentence`: what is decoded are the well placed sentences.
-/

namespace Avm

namespace Grammar

/-- The bytes of one number: all but the last have the top bit set, and the last is the first one that
has it clear, or as many as allowed are used up. -/
def IsGroups (groups : Nat) (field : List UInt8) : Prop :=
  ∃ init last, field = init ++ [last] ∧ (∀ b ∈ init, 128 ≤ b.toNat) ∧
    (init.length + 1 < groups ∧ last.toNat < 128 ∨ init.length + 1 = groups)

/-- The bytes of one variable-length number. -/
def IsNumber (field : List UInt8) : Prop := IsGroups 5 field

/-- The seven low bits of all bytes, the first ones lowest. -/
def groupsValue (field : List UInt8) : Nat := Nat.ofDigits 128 (field.map (·.toNat % 128))

/-- The number of a field, which has thirty bits. -/
def number (field : List UInt8) : Nat := groupsValue field % 2 ^ 30

/-- The signed number of a field of three bytes, the low one first, in two's complement. -/
def offset : List UInt8 → Int
  | [low, middle, high] =>
    (BitVec.ofNat 24 (low.toNat + 256 * middle.toNat + 65536 * high.toNat)).toInt
  | _ => 0

/-- The bytes of the operands of an instruction that starts at an offset, with offsets as targets.
Branches count from their end, which lies four bytes behind the start, and switches from their start. -/
inductive Spells (start : Nat) : Layout → List UInt8 → Operands Int → Prop where
  | none :
    Spells start .none [] .none
  | byte (value : UInt8) :
    Spells start .byte [value] (.byte value)
  | index {field} :
    IsNumber field →
    Spells start .index field (.index (number field))
  | pair {first second} :
    IsNumber first →
    IsNumber second →
    Spells start .pair (first ++ second) (.pair (number first) (number second))
  | branch {field} :
    field.length = 3 →
    Spells start .branch field (.branch (start + 4 + offset field))
  | switch {default count} {cases : List (List UInt8)} :
    default.length = 3 →
    IsNumber count →
    cases.length = number count + 1 →
    (∀ field ∈ cases, field.length = 3) →
    Spells start .switch (default ++ count ++ cases.flatten)
      (.switch (start + offset default) (cases.map fun field => start + offset field))
  | debug (kind register : UInt8) {name extra} :
    IsNumber name →
    IsNumber extra →
    Spells start .debug (kind :: name ++ register :: extra)
      (.debug kind (number name) register (number extra))

/-- Bytes from an offset on that are instructions one behind the other, each the byte of an opcode and
operands of its layout. -/
inductive Sentence : Nat → List UInt8 → List (Nat × Instruction Int) → Prop where
  | nil {start} :
    Sentence start [] []
  | cons {start opcode front operands rest is} :
    Spells start opcode.layout front operands →
    Sentence (start + (1 + front.length)) rest is →
    Sentence start (opcode.byte :: (front ++ rest)) ((start, ⟨opcode, operands⟩) :: is)

/-- At the offset starts one of the instructions, or the code ends there. -/
def Lands (length : Nat) (is : List (Nat × Instruction Int)) (o : Int) : Prop :=
  o = length ∨ ∃ r ∈ is, o = r.1

/-- Targets of instructions and places of handlers are offsets at which there is something. -/
structure Placed (length : Nat) (is : List (Nat × Instruction Int)) (exceptions : List (Handler Nat)) :
    Prop where
  /-- Where branches and switches lead. -/
  targets : ∀ r ∈ is, ∀ o ∈ r.2.operands.targets, Lands length is o
  /-- The places of handlers. -/
  handlers : ∀ x ∈ exceptions,
    Lands length is x.start ∧ Lands length is x.stop ∧ Lands length is x.target

variable {groups : Nat} {b : UInt8} {field : List UInt8}

lemma not_isGroups_nil : ¬IsGroups groups [] := by
  rintro ⟨init, last, eq, -⟩
  simp at eq

lemma isGroups_one : IsGroups 1 (b :: field) ↔ field = [] := by
  constructor
  · rintro ⟨init, last, eq, -, ⟨short, -⟩ | all⟩
    · omega
    · obtain rfl := List.length_eq_zero_iff.1 (Nat.succ.inj all)
      exact (List.cons.inj eq).2
  · rintro rfl
    exact ⟨[], b, rfl, by simp, .inr rfl⟩

lemma isGroups_cons : IsGroups (groups + 2) (b :: field) ↔
    (b.toNat < 128 ∧ field = []) ∨ (128 ≤ b.toNat ∧ IsGroups (groups + 1) field) := by
  constructor
  · rintro ⟨init, last, eq, more, ends⟩
    cases init with
    | nil =>
      obtain ⟨rfl, rfl⟩ := List.cons.inj eq
      obtain ⟨-, small⟩ | all := ends
      · exact .inl ⟨small, rfl⟩
      · simp at all
    | cons c init =>
      obtain ⟨rfl, rfl⟩ := List.cons.inj eq
      obtain ⟨first, others⟩ := List.forall_mem_cons.1 more
      rw [List.length_cons] at ends
      exact .inr ⟨first, init, last, rfl, others, by omega⟩
  · rintro (⟨small, rfl⟩ | ⟨large, init, last, rfl, more, ends⟩)
    · exact ⟨[], b, rfl, by simp, .inl ⟨by simp, small⟩⟩
    · refine ⟨b :: init, last, rfl, List.forall_mem_cons.2 ⟨large, more⟩, ?_⟩
      rw [List.length_cons]
      omega

lemma Sentence.start_lt {start : Nat} {bytes : List UInt8} {is : List (Nat × Instruction Int)}
    (h : Sentence start bytes is) : ∀ r ∈ is, r.1 < start + bytes.length := by
  induction h with
  | nil => simp
  | cons _ _ ih =>
    rw [List.length_cons, List.length_append]
    refine List.forall_mem_cons.2 ⟨by dsimp only; omega, fun r mem => ?_⟩
    have := ih r mem
    omega

lemma groupsValue_singleton : groupsValue [b] = b.toNat % 128 := by
  simp [groupsValue]

lemma groupsValue_cons : groupsValue (b :: field) = b.toNat % 128 + 128 * groupsValue field := by
  simp [groupsValue, Nat.ofDigits_cons]

end Grammar

open Grammar

namespace Wire

variable {bytes rest : List UInt8} {v : Nat}

lemma readGroups_one {b : UInt8} : readGroups 1 (b :: bytes) = some (b.toNat % 128, bytes) := by
  rw [readGroups]
  split
  · rename_i small
    rw [Nat.mod_eq_of_lt small]
  · rfl

lemma readGroups_iff {groups : Nat} : readGroups (groups + 1) bytes = some (v, rest) ↔
    ∃ field, IsGroups (groups + 1) field ∧ bytes = field ++ rest ∧ v = groupsValue field := by
  induction groups generalizing bytes v with
  | zero =>
    constructor
    · intro h
      cases bytes with
      | nil => cases h
      | cons b bytes =>
        rw [readGroups_one] at h
        obtain ⟨rfl, rfl⟩ := Prod.mk.inj (Option.some.inj h)
        exact ⟨[b], isGroups_one.2 rfl, rfl, groupsValue_singleton.symm⟩
    · rintro ⟨_ | ⟨b, field⟩, is, rfl, rfl⟩
      · exact absurd is not_isGroups_nil
      · obtain rfl := isGroups_one.1 is
        rw [List.singleton_append, readGroups_one, groupsValue_singleton]
  | succ groups ih =>
    constructor
    · intro h
      cases bytes with
      | nil => cases h
      | cons b bytes =>
        rw [readGroups] at h
        split at h
        · rename_i small
          obtain ⟨rfl, rfl⟩ := Prod.mk.inj (Option.some.inj h)
          refine ⟨[b], isGroups_cons.2 (.inl ⟨small, rfl⟩), rfl, ?_⟩
          rw [groupsValue_singleton, Nat.mod_eq_of_lt small]
        · rename_i large
          obtain ⟨⟨w, left⟩, read, eq⟩ := Option.map_eq_some_iff.1 h
          obtain ⟨rfl, rfl⟩ := Prod.mk.inj eq
          obtain ⟨field, is, rfl, rfl⟩ := ih.1 read
          exact ⟨b :: field, isGroups_cons.2 (.inr ⟨Nat.le_of_not_lt large, is⟩), rfl,
            groupsValue_cons.symm⟩
    · rintro ⟨_ | ⟨b, field⟩, is, rfl, rfl⟩
      · exact absurd is not_isGroups_nil
      · rw [List.cons_append, readGroups]
        obtain ⟨small, rfl⟩ | ⟨large, more⟩ := isGroups_cons.1 is
        · rw [if_pos small, groupsValue_singleton, Nat.mod_eq_of_lt small]
          rfl
        · rw [if_neg (Nat.not_lt.2 large), ih.2 ⟨field, more, rfl, rfl⟩, groupsValue_cons]
          rfl

lemma readU30_iff : readU30 bytes = some (v, rest) ↔
    ∃ field, IsNumber field ∧ bytes = field ++ rest ∧ v = number field := by
  rw [readU30, Option.map_eq_some_iff]
  constructor
  · rintro ⟨⟨w, left⟩, read, eq⟩
    obtain ⟨rfl, rfl⟩ := Prod.mk.inj eq
    obtain ⟨field, is, split, rfl⟩ := readGroups_iff.1 read
    exact ⟨field, is, split, rfl⟩
  · rintro ⟨field, is, split, rfl⟩
    exact ⟨_, readGroups_iff.2 ⟨field, is, split, rfl⟩, rfl⟩

lemma toInt_ofNat_of_lt {n : Nat} (h : n < 0x1000000) :
    (BitVec.ofNat 24 n).toInt = if n < 0x800000 then (n : Int) else n - 0x1000000 := by
  rw [BitVec.toInt_eq_toNat_cond, BitVec.toNat_ofNat, Nat.mod_eq_of_lt h]
  split <;> split <;> omega

lemma offset_eq (a b c : UInt8) : offset [a, b, c] =
    let raw : Int := a.toNat + 256 * b.toNat + 65536 * c.toNat
    if raw < 0x800000 then raw else raw - 0x1000000 := by
  have ha := a.toNat_lt
  have hb := b.toNat_lt
  have hc := c.toNat_lt
  refine (toInt_ofNat_of_lt (by omega)).trans ?_
  push_cast
  split <;> split <;> omega

lemma readS24_iff {z : Int} : readS24 bytes = some (z, rest) ↔
    ∃ field : List UInt8, field.length = 3 ∧ bytes = field ++ rest ∧ z = offset field := by
  constructor
  · intro h
    match bytes, h with
    | a :: b :: c :: bytes, h =>
      obtain ⟨eq, rfl⟩ := Prod.mk.inj (Option.some.inj h)
      exact ⟨[a, b, c], rfl, rfl, by rw [offset_eq, ← eq]⟩
  · rintro ⟨field, three, rfl, rfl⟩
    obtain ⟨a, b, c, rfl⟩ := List.length_eq_three.1 three
    rw [offset_eq]
    rfl

lemma readU8_iff {b : UInt8} : readU8 bytes = some (b, rest) ↔ bytes = b :: rest := by
  cases bytes with
  | nil => exact iff_of_false nofun nofun
  | cons c bytes => rw [readU8, Option.some.injEq, Prod.mk.injEq, List.cons.injEq]

lemma readU30_append {field : List UInt8} (is : IsNumber field) (rest : List UInt8) :
    readU30 (field ++ rest) = some (number field, rest) :=
  readU30_iff.2 ⟨field, is, rfl, rfl⟩

lemma readS24_append {field : List UInt8} (three : field.length = 3) (rest : List UInt8) :
    readS24 (field ++ rest) = some (offset field, rest) :=
  readS24_iff.2 ⟨field, three, rfl, rfl⟩

end Wire

namespace Decode

variable {length start : Nat} {bytes rest : List UInt8}

/-- An offset is a target if it lies inside the code. -/
def Inside (length : Nat) (o : Int) : Prop := ∃ t : Nat, t ≤ length ∧ (t : Int) = o

lemma target_iff {base t : Nat} {relative : Int} : target length start base relative = .ok t ↔
    t ≤ length ∧ (t : Int) = base + relative := by
  constructor
  · intro h
    obtain ⟨inside, rfl⟩ := target_eq_ok h
    exact ⟨inside, by omega⟩
  · rintro ⟨inside, eq⟩
    rw [show relative = (t : Int) - base by omega, target_sub inside]

lemma fields_of_cases {n : Nat} {ts : List Nat} (h : cases length start n bytes = .ok (ts, rest)) :
    ∃ fields : List (List UInt8), fields.length = n ∧ (∀ field ∈ fields, field.length = 3) ∧
      bytes = fields.flatten ++ rest ∧
      ts.map (Nat.cast : Nat → Int) = fields.map fun field => start + offset field := by
  induction n generalizing bytes ts with
  | zero =>
    obtain ⟨rfl, rfl⟩ := Prod.mk.inj (Except.ok.inj h)
    exact ⟨[], rfl, by simp, rfl, rfl⟩
  | succ n ih =>
    simp only [cases, bind_eq_ok, need_eq_ok, pure_eq_ok, Except.ok.injEq, Prod.exists, Prod.mk.injEq,
      Wire.readS24_iff, target_iff] at h
    obtain ⟨_, _, ⟨field, three, rfl, rfl⟩, t, ⟨-, eq⟩, ts, left, others, rfl, rfl⟩ := h
    obtain ⟨fields, rfl, all, rfl, eqs⟩ := ih others
    refine ⟨field :: fields, rfl, List.forall_mem_cons.2 ⟨three, all⟩, ?_, ?_⟩
    · rw [List.flatten_cons, List.append_assoc]
    · rw [List.map_cons, List.map_cons, eq, eqs]

lemma exists_cases (rest : List UInt8) {fields : List (List UInt8)} (three : ∀ field ∈ fields, field.length = 3)
    (inside : ∀ field ∈ fields, Inside length (start + offset field)) :
    ∃ ts : List Nat, cases length start fields.length (fields.flatten ++ rest) = .ok (ts, rest) ∧
      ts.map (Nat.cast : Nat → Int) = fields.map fun field => start + offset field := by
  induction fields with
  | nil => exact ⟨[], rfl, rfl⟩
  | cons field fields ih =>
    obtain ⟨first, others⟩ := List.forall_mem_cons.1 three
    obtain ⟨⟨t, le, eq⟩, insides⟩ := List.forall_mem_cons.1 inside
    obtain ⟨ts, more, eqs⟩ := ih others insides
    have read := Wire.readS24_iff.2 ⟨field, first, List.append_assoc field fields.flatten rest, rfl⟩
    refine ⟨t :: ts, ?_, by rw [List.map_cons, List.map_cons, eq, eqs]⟩
    rw [List.flatten_cons, List.length_cons, cases, read]
    simp only [need, ok_bind, target_iff.2 ⟨le, eq⟩, more, pure_eq_ok]

lemma spells_of_operands {layout : Layout} {ops : Operands Nat}
    (h : operands length start layout bytes = .ok (ops, rest)) :
    ∃ front, Spells start layout front (ops.map Nat.cast) ∧ bytes = front ++ rest := by
  cases layout with
  | none =>
    obtain ⟨rfl, rfl⟩ := Prod.mk.inj (Except.ok.inj h)
    exact ⟨[], .none, rfl⟩
  | byte =>
    simp only [operands, bind_eq_ok, need_eq_ok, pure_eq_ok, Except.ok.injEq, Prod.exists, Prod.mk.injEq,
      Wire.readU8_iff] at h
    obtain ⟨value, _, rfl, rfl, rfl⟩ := h
    exact ⟨[value], .byte value, rfl⟩
  | index =>
    simp only [operands, bind_eq_ok, need_eq_ok, pure_eq_ok, Except.ok.injEq, Prod.exists, Prod.mk.injEq,
      Wire.readU30_iff] at h
    obtain ⟨_, _, ⟨field, is, rfl, rfl⟩, rfl, rfl⟩ := h
    exact ⟨field, .index is, rfl⟩
  | pair =>
    simp only [operands, bind_eq_ok, need_eq_ok, pure_eq_ok, Except.ok.injEq, Prod.exists, Prod.mk.injEq,
      Wire.readU30_iff] at h
    obtain ⟨_, _, ⟨first, is, rfl, rfl⟩, _, _, ⟨second, is', rfl, rfl⟩, rfl, rfl⟩ := h
    exact ⟨first ++ second, .pair is is', (List.append_assoc ..).symm⟩
  | branch =>
    simp only [operands, bind_eq_ok, need_eq_ok, pure_eq_ok, Except.ok.injEq, Prod.exists, Prod.mk.injEq,
      Wire.readS24_iff, target_iff] at h
    obtain ⟨_, _, ⟨field, three, rfl, rfl⟩, t, ⟨-, eq⟩, rfl, rfl⟩ := h
    refine ⟨field, ?_, rfl⟩
    rw [Operands.map, eq]
    exact .branch three
  | switch =>
    simp only [operands, bind_eq_ok, need_eq_ok, Prod.exists, Wire.readS24_iff, Wire.readU30_iff,
      target_iff] at h
    obtain ⟨_, _, ⟨default, three, rfl, rfl⟩, d, ⟨-, eq⟩, _, _, ⟨count, is, rfl, rfl⟩, h⟩ := h
    split at h
    · cases h
    · obtain ⟨⟨ts, _⟩, read, h⟩ := bind_eq_ok.1 h
      obtain ⟨rfl, rfl⟩ := Prod.mk.inj (Except.ok.inj h)
      obtain ⟨fields, many, all, rfl, eqs⟩ := fields_of_cases read
      refine ⟨default ++ count ++ fields.flatten, ?_, by simp only [List.append_assoc]⟩
      rw [Operands.map, eq, eqs]
      exact .switch three is many all
  | debug =>
    simp only [operands, bind_eq_ok, need_eq_ok, pure_eq_ok, Except.ok.injEq, Prod.exists, Prod.mk.injEq,
      Wire.readU8_iff, Wire.readU30_iff] at h
    obtain ⟨kind, _, rfl, _, _, ⟨name, is, rfl, rfl⟩, register, _, rfl, _, _, ⟨extra, is', rfl, rfl⟩,
      rfl, rfl⟩ := h
    exact ⟨_, .debug kind register is is', by simp only [List.cons_append, List.append_assoc]⟩

/-- Operands are read from the bytes that they are spelled with, if their targets lie inside the code.  The
early check of the number of cases turns nothing of that down, as each case takes three bytes. -/
lemma exists_operands (rest : List UInt8) {layout : Layout} {front : List UInt8} {spelled : Operands Int}
    (h : Spells start layout front spelled) (inside : ∀ o ∈ spelled.targets, Inside length o)
    (room : front.length ≤ length) :
    ∃ ops, operands length start layout (front ++ rest) = .ok (ops, rest) ∧
      ops.map Nat.cast = spelled := by
  cases h with
  | none => exact ⟨.none, rfl, rfl⟩
  | byte value => exact ⟨.byte value, rfl, rfl⟩
  | index is =>
    refine ⟨.index (number front), ?_, rfl⟩
    simp only [operands, Wire.readU30_append is, need, ok_bind, pure_eq_ok]
  | @pair first second is is' =>
    refine ⟨.pair (number first) (number second), ?_, rfl⟩
    simp only [operands, List.append_assoc, Wire.readU30_append is, Wire.readU30_append is', need, ok_bind, pure_eq_ok]
  | @branch field three =>
    obtain ⟨t, le, eq⟩ := inside _ (List.mem_singleton_self _)
    refine ⟨.branch t, ?_, by rw [Operands.map, eq]⟩
    simp only [operands, Wire.readS24_append three, need, ok_bind, target_iff.2 ⟨le, eq⟩, pure_eq_ok]
  | @switch default count fields three is many all =>
    obtain ⟨⟨d, le, eq⟩, insides⟩ := List.forall_mem_cons.1 inside
    obtain ⟨ts, more, eqs⟩ := exists_cases rest all fun _ mem =>
      insides _ (List.mem_map_of_mem mem)
    have long : fields.flatten.length = 3 * fields.length := by
      rw [List.length_flatten, List.map_congr_left all, List.map_const', List.sum_replicate_nat,
        Nat.mul_comm]
    have few : ¬length ≤ number count := by
      simp only [List.length_append] at room
      omega
    rw [many] at more
    refine ⟨.switch d ts, ?_, by rw [Operands.map, eq, eqs]⟩
    simp only [operands, List.append_assoc, Wire.readS24_append three, Wire.readU30_append is, need, ok_bind,
      target_iff.2 ⟨le, eq⟩, few, if_false, more, pure_eq_ok]
  | @debug kind register name extra is is' =>
    refine ⟨.debug kind (number name) register (number extra), ?_, rfl⟩
    simp only [operands, List.cons_append, List.append_assoc, Wire.readU8, Wire.readU30_append is,
      Wire.readU30_append is', need, ok_bind, pure_eq_ok]

/-- Instructions without the bytes they were read from, with whole numbers for targets. -/
def spelled (is : List (Nat × Instruction Nat)) : List (Nat × Instruction Int) :=
  is.map fun r => (r.1, r.2.map Nat.cast)

lemma sentence_of_instructions {fuel : Nat} {is : List (Nat × Instruction Nat)}
    (h : instructions length fuel bytes = .ok is) (room : bytes.length ≤ length)
    (enough : bytes.length ≤ fuel) : Sentence (length - bytes.length) bytes (spelled is) := by
  induction fuel generalizing bytes is with
  | zero =>
    obtain rfl := List.length_eq_zero_iff.1 (Nat.le_zero.1 enough)
    obtain rfl := Except.ok.inj h
    exact .nil
  | succ fuel ih =>
    cases bytes with
    | nil =>
      obtain rfl := Except.ok.inj h
      exact .nil
    | cons byte bytes =>
      simp only [instructions, bind_eq_ok, pure_eq_ok, Except.ok.injEq, Prod.exists] at h
      obtain ⟨i, rest, read, more, others, rfl⟩ := h
      simp only [instruction, Wire.readU8, need, ok_bind] at read
      split at read
      · cases read
      · rename_i opcode found
        simp only [bind_eq_ok, pure_eq_ok, Except.ok.injEq, Prod.exists, Prod.mk.injEq] at read
        obtain ⟨ops, left, taken, rfl, rfl⟩ := read
        obtain ⟨front, spells, rfl⟩ := spells_of_operands taken
        obtain rfl : opcode.byte = byte := by simpa using List.find?_some found
        rw [List.length_cons, List.length_append] at room enough
        have tail := ih others (by omega) (by omega)
        have next : length - left.length =
            length - (opcode.byte :: (front ++ left)).length + (1 + front.length) := by
          rw [List.length_cons, List.length_append]
          omega
        rw [next] at tail
        exact .cons spells tail

lemma exists_instructions {fuel : Nat} {is : List (Nat × Instruction Int)}
    (h : Sentence start bytes is)
    (inside : ∀ r ∈ is, ∀ o ∈ r.2.operands.targets, Inside length o)
    (whole : start + bytes.length = length) (enough : bytes.length ≤ fuel) :
    ∃ rs, instructions length fuel bytes = .ok rs ∧ spelled rs = is := by
  induction h generalizing fuel with
  | nil => exact ⟨[], by cases fuel <;> rfl, rfl⟩
  | @cons start opcode front operands rest is spells _ ih =>
    obtain ⟨first, others⟩ := List.forall_mem_cons.1 inside
    rw [List.length_cons, List.length_append] at whole enough
    obtain _ | fuel := fuel
    · omega
    obtain ⟨ops, read, same⟩ := exists_operands rest spells first (by omega)
    obtain ⟨rs, more, sames⟩ := @ih fuel others (by omega) (by omega)
    have at_start : length - (opcode.byte :: (front ++ rest)).length = start := by
      rw [List.length_cons, List.length_append]
      omega
    refine ⟨(start, ⟨opcode, ops⟩) :: rs, ?_, ?_⟩
    · rw [instructions]
      · simp only [at_start, instruction, Wire.readU8, need, ok_bind, Opcode.ofByte?_byte, read, more,
          pure_eq_ok]
      · simp
    · rw [spelled, List.map_cons, ← spelled, sames, Instruction.map, same]

lemma lands_spelled {is : List (Nat × Instruction Nat)} {o : Nat} :
    Lands length (spelled is) o ↔ o ∈ Encode.rowBounds length is := by
  simp only [Lands, spelled, Encode.rowBounds, List.mem_append, List.mem_map, List.mem_singleton,
    Nat.cast_inj]
  constructor
  · rintro (rfl | ⟨_, ⟨r, mem, rfl⟩, rfl⟩)
    · exact .inr rfl
    · exact .inl ⟨r, mem, rfl⟩
  · rintro (⟨r, mem, rfl⟩ | rfl)
    · exact .inr ⟨_, ⟨r, mem, rfl⟩, rfl⟩
    · exact .inl rfl

lemma targets_map {α β : Type} (f : α → β) (ops : Operands α) :
    (ops.map f).targets = ops.targets.map f := by
  cases ops <;> rfl

lemma anchorAt?_of_mem_rowBounds {is : List (Nat × Instruction Nat)} {o : Nat}
    (mem : o ∈ Encode.rowBounds length is) :
    (MarkerTable.anchorAt? (is.mapIdx fun k r => (r.1, k)) length o).isSome := by
  rw [MarkerTable.anchorAt?]
  split
  · rfl
  · rename_i inner
    obtain first | last := List.mem_append.1 mem
    · obtain ⟨r, listed, rfl⟩ := List.mem_map.1 first
      obtain ⟨k, lt, rfl⟩ := List.getElem_of_mem listed
      rw [Option.isSome_map, List.lookup_isSome_iff]
      exact ⟨_, List.mem_mapIdx.2 ⟨k, lt, rfl⟩, beq_self_eq_true _⟩
    · exact absurd (List.mem_singleton.1 last) inner

lemma exists_decode_iff {exceptions : List (Handler Nat)} :
    (∃ c, Code.decode bytes exceptions = .ok c) ↔ bytes.length < 0x100000000 ∧
      ∃ is, instructions bytes.length bytes.length bytes = .ok is ∧
        (∀ r ∈ is, ∀ o ∈ r.2.operands.targets, o ∈ Encode.rowBounds bytes.length is) ∧
        ∀ x ∈ exceptions, x.start ∈ Encode.rowBounds bytes.length is ∧
          x.stop ∈ Encode.rowBounds bytes.length is ∧ x.target ∈ Encode.rowBounds bytes.length is := by
  constructor
  · rintro ⟨c, h⟩
    simp only [Code.decode] at h
    split at h
    · cases h
    · rename_i small
      obtain ⟨is, read, h⟩ := bind_eq_ok.1 h
      obtain ⟨d, added, h⟩ := bind_eq_ok.1 h
      split at h
      · cases h
      · rename_i t prepared
        have cut := instructions_eq_ok read (Nat.le_refl _) (Nat.le_refl _)
        obtain ⟨d', added', drafted⟩ :=
          (Drafted.empty.foldl_addInstr cut.targets_le).foldlM_addHandler (fun _ le => le)
            (inside_of_foldlM_addHandler added)
        obtain rfl := Except.ok.inj (added.symm.trans added')
        rw [List.nil_append, List.nil_append] at drafted
        have bound {m o} (waits : d.markers.Waits m o) : o ∈ Encode.rowBounds bytes.length is :=
          mem_rowBounds_of_anchorAt? (MarkerTable.known_of_prepare prepared waits)
        refine ⟨Nat.lt_of_not_le small, is, read, fun r mem o target => ?_, fun x mem => ?_⟩
        · obtain ⟨y, -, -, rel⟩ := exists_mem_of_mem_right drafted.instrs mem
          obtain ⟨m, -, waits⟩ := exists_mem_of_mem_right rel.targets target
          exact bound waits
        · obtain ⟨y, -, rel⟩ := exists_mem_of_mem_right drafted.handlers mem
          exact ⟨bound rel.start, bound rel.stop, bound rel.target⟩
  · rintro ⟨small, is, read, targets, places⟩
    have inside : ∀ o, o ∈ Encode.rowBounds bytes.length is → o ≤ bytes.length := by
      intro o mem
      obtain first | last := List.mem_append.1 mem
      · have sentence := sentence_of_instructions read (Nat.le_refl _) (Nat.le_refl _)
        obtain ⟨r, listed, rfl⟩ := List.mem_map.1 first
        have before := sentence.start_lt _ (List.mem_map_of_mem listed)
        dsimp only at before
        omega
      · exact (List.mem_singleton.1 last).le
    obtain ⟨d, added, drafted⟩ :=
      (Drafted.empty.foldl_addInstr targets).foldlM_addHandler inside places
    have known : ∀ b ∈ d.markers.bindings, ∀ o, b = .pending o →
        (MarkerTable.anchorAt? (is.mapIdx fun k r => (r.1, k)) bytes.length o).isSome := by
      rintro b mem o rfl
      obtain ⟨o', eq, place⟩ := drafted.markers.pending _ mem
      obtain rfl := Binding.pending.inj eq
      exact anchorAt?_of_mem_rowBounds place
    obtain ⟨t, prepared, -⟩ := MarkerTable.bindings_prepare known
    refine ⟨{ d with markers := t }, ?_⟩
    simp only [Code.decode, Nat.not_le.2 small, if_false, read, ok_bind, added, prepared, pure_eq_ok]

/-- Nothing goes wrong but what is a fault of the bytes. -/
def OnlyCodec {α : Type} (x : Except Fault α) : Prop :=
  ∀ e, x = .error e → ∃ position defect, e = .codec position defect

section OnlyCodec

variable {α β : Type}

lemma OnlyCodec.ok (a : α) : OnlyCodec (.ok a) := by
  rintro e ⟨⟩

lemma OnlyCodec.codec (position : Nat) (defect : CodecDefect) :
    OnlyCodec (.error (.codec position defect) : Except Fault α) := by
  rintro e ⟨⟩
  exact ⟨position, defect, rfl⟩

lemma OnlyCodec.bind {x : Except Fault α} {f : α → Except Fault β} (h : OnlyCodec x)
    (more : ∀ a, OnlyCodec (f a)) : OnlyCodec (x >>= f) := by
  intro e eq
  obtain first | ⟨a, -, later⟩ := bind_eq_error_iff.1 eq
  · exact h e first
  · exact more a e later

lemma onlyCodec_need {x : Option α} : OnlyCodec (need start x) := by
  cases x with
  | none => exact .codec _ _
  | some a => exact .ok a

lemma onlyCodec_target {base : Nat} {relative : Int} : OnlyCodec (target length start base relative) := by
  rw [target]
  split
  · exact .codec _ _
  · exact .ok _

lemma onlyCodec_cases (n : Nat) (bytes : List UInt8) : OnlyCodec (cases length start n bytes) := by
  induction n generalizing bytes with
  | zero => exact .ok _
  | succ n ih =>
    exact onlyCodec_need.bind fun _ => onlyCodec_target.bind fun _ => (ih _).bind fun _ => .ok _

lemma onlyCodec_operands {layout : Layout} : OnlyCodec (operands length start layout bytes) := by
  cases layout with
  | none => exact .ok _
  | byte | index => exact onlyCodec_need.bind fun _ => .ok _
  | pair => exact onlyCodec_need.bind fun _ => onlyCodec_need.bind fun _ => .ok _
  | branch => exact onlyCodec_need.bind fun _ => onlyCodec_target.bind fun _ => .ok _
  | switch =>
    refine onlyCodec_need.bind fun _ => onlyCodec_target.bind fun _ => onlyCodec_need.bind fun _ => ?_
    dsimp only
    split
    · exact .codec _ _
    · exact (onlyCodec_cases _ _).bind fun _ => .ok _
  | debug =>
    exact onlyCodec_need.bind fun _ => onlyCodec_need.bind fun _ => onlyCodec_need.bind fun _ =>
      onlyCodec_need.bind fun _ => .ok _

lemma onlyCodec_instruction : OnlyCodec (instruction length start bytes) := by
  refine onlyCodec_need.bind fun _ => ?_
  dsimp only
  split
  · exact .codec _ _
  · exact onlyCodec_operands.bind fun _ => .ok _

lemma onlyCodec_instructions (fuel : Nat) (bytes : List UInt8) :
    OnlyCodec (instructions length fuel bytes) := by
  induction fuel generalizing bytes with
  | zero => exact .ok _
  | succ fuel ih =>
    cases bytes with
    | nil => exact .ok _
    | cons byte bytes => exact onlyCodec_instruction.bind fun _ => (ih _).bind fun _ => .ok _

lemma onlyCodec_addHandler {c : Code} {x : Handler Nat} : OnlyCodec (addHandler length c x) := by
  have outside (position : Nat) (h : addHandler length c x =
      .error (.codec position (.handlerOutside position))) : OnlyCodec (addHandler length c x) :=
    h ▸ .codec _ _
  by_cases start : length < x.start
  · exact outside x.start (by simp [addHandler, start])
  by_cases stop : length < x.stop
  · exact outside x.stop (by simp [addHandler, start, stop])
  by_cases target : length < x.target
  · exact outside x.target (by simp [addHandler, start, stop, target])
  rw [addHandler]
  simp [start, stop, target, OnlyCodec]

lemma onlyCodec_handlers (xs : List (Handler Nat)) (c : Code) :
    OnlyCodec (xs.foldlM (addHandler length) c) := by
  induction xs generalizing c with
  | nil => exact .ok _
  | cons x xs ih =>
    rw [List.foldlM_cons]
    exact onlyCodec_addHandler.bind fun _ => ih _

lemma onlyCodec_settle {starts : List (Nat × InstrId)} (ms : List Marker) (t : MarkerTable) {e : Fault}
    (h : (MarkerTable.settle starts length ms t).2 = some e) :
    ∃ position defect, e = .codec position defect := by
  induction ms generalizing t with
  | nil => cases h
  | cons m ms ih =>
    rw [MarkerTable.settle] at h
    split at h
    · split at h
      · exact ih _ h
      · exact ⟨_, _, (Option.some.inj h).symm⟩
    · exact ih _ h

lemma onlyCodec_decode {exceptions : List (Handler Nat)} : OnlyCodec (Code.decode bytes exceptions) := by
  rw [Code.decode]
  dsimp only
  split
  · exact .codec _ _
  · refine (onlyCodec_instructions _ _).bind fun is => (onlyCodec_handlers _ _).bind fun c => ?_
    split
    · rename_i t fault prepared
      rintro e ⟨⟩
      rw [MarkerTable.prepare] at prepared
      split at prepared
      · cases prepared
      · rename_i t' fault' settled
        obtain rfl := Option.some.inj (Prod.mk.inj prepared).2
        exact onlyCodec_settle _ _ (congrArg Prod.snd settled)
    · exact .ok _

end OnlyCodec

end Decode

/-- Bytes are decoded exactly if they are a sentence, short enough, whose targets and handlers name only
offsets at which an instruction starts or the code ends.  Whatever else they are, decoding them fails with a
fault of the bytes. -/
theorem Code.decode_iff_sentence (bytes : List UInt8) (exceptions : List (Handler Nat)) :
    ((∃ c, Code.decode bytes exceptions = .ok c) ↔
      bytes.length < 2 ^ 32 ∧ ∃ is, Sentence 0 bytes is ∧ Placed bytes.length is exceptions) ∧
    ∀ e, Code.decode bytes exceptions = .error e → ∃ position defect, e = .codec position defect := by
  refine ⟨?_, Decode.onlyCodec_decode⟩
  rw [Decode.exists_decode_iff]
  refine and_congr_right fun _ => ⟨?_, ?_⟩
  · rintro ⟨rs, read, targets, places⟩
    have sentence := Decode.sentence_of_instructions read (Nat.le_refl _) (Nat.le_refl _)
    rw [Nat.sub_self] at sentence
    refine ⟨Decode.spelled rs, sentence, ?_, fun x mem => ?_⟩
    · intro r mem o target
      obtain ⟨s, listed, rfl⟩ := List.mem_map.1 mem
      dsimp only [Instruction.map] at target
      rw [Decode.targets_map] at target
      obtain ⟨t, there, rfl⟩ := List.mem_map.1 target
      exact Decode.lands_spelled.2 (targets s listed t there)
    · obtain ⟨start, stop, target⟩ := places x mem
      exact ⟨Decode.lands_spelled.2 start, Decode.lands_spelled.2 stop, Decode.lands_spelled.2 target⟩
  · rintro ⟨is, sentence, placed⟩
    have inside : ∀ r ∈ is, ∀ o ∈ r.2.operands.targets, Decode.Inside bytes.length o := by
      intro r mem o target
      obtain rfl | ⟨s, listed, rfl⟩ := placed.targets r mem o target
      · exact ⟨_, Nat.le_refl _, rfl⟩
      · have before := sentence.start_lt s listed
        exact ⟨s.1, by omega, rfl⟩
    obtain ⟨rs, read, rfl⟩ := Decode.exists_instructions sentence inside (Nat.zero_add _) (Nat.le_refl _)
    refine ⟨rs, read, fun r mem o target => ?_, fun x mem => ?_⟩
    · refine Decode.lands_spelled.1 (placed.targets _ (List.mem_map_of_mem mem) _ ?_)
      dsimp only [Instruction.map]
      rw [Decode.targets_map]
      exact List.mem_map_of_mem target
    · obtain ⟨start, stop, target⟩ := placed.handlers x mem
      exact ⟨Decode.lands_spelled.1 start, Decode.lands_spelled.1 stop, Decode.lands_spelled.1 target⟩

end Avm
