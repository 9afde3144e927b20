import Avm.Code.Encode
import Avm.Proofs.Sequence

/-!
# Where instructions lie in the bytes

What the writers of variable-length and 24-bit numbers write, the readers give back, whatever bytes
follow.  `readGroups_writeGroups` goes by the number of groups of seven bits that are left; the statements
about thirty-bit numbers are its instances at five groups.

Encoded code is a row of instructions without gaps.  `Encode.boundaries` lists the offsets between
them, with the end of the code as the last one, so that the position of a marker and its offset are
tied by one list: `Encode.markerOffset?_eq` says that the offset of a marker is the boundary at its position.
`Operands.Rel` relates operands that agree but for their branch targets.  The main statement is
`Code.encode_eq_ok`: what is encoded is laid out from the start to the end, every operand fits its field,
and each target stands for the offset of its marker.
-/

/-! ## Numbers -/

namespace Avm.Wire

lemma toNat_toUInt8 {n : Nat} (h : n < 256) : n.toUInt8.toNat = n := by
  simp [Nat.mod_eq_of_lt h]

/-- A number that fits into the groups is read back from what was written, and the rest is left. -/
lemma readGroups_writeGroups (groups v : Nat) (rest : List UInt8) (h : v < 128 * 128 ^ groups) :
    readGroups (groups + 1) (writeGroups (groups + 1) v ++ rest) = some (v, rest) := by
  induction groups generalizing v with
  | zero =>
    have small : v < 128 := by simpa using h
    simp [writeGroups, readGroups, small, toNat_toUInt8 (by omega : v < 256)]
  | succ groups ih =>
    rw [writeGroups]
    split
    · rename_i small
      simp [readGroups, small, toNat_toUInt8 (by omega : v < 256)]
    · have byte := toNat_toUInt8 (by omega : v % 128 + 128 < 256)
      have fits : v / 128 < 128 * 128 ^ groups := by
        rw [Nat.div_lt_iff_lt_mul (by decide)]
        rw [Nat.pow_succ] at h
        omega
      have large : ¬ v % 128 + 128 < 128 := by omega
      rw [List.cons_append, readGroups, byte, if_neg large, ih _ fits]
      simp only [Option.map_some, Option.some.injEq, Prod.mk.injEq, and_true]
      omega

lemma readU30_writeU30 (v : Nat) (rest : List UInt8) :
    readU30 (writeU30 v ++ rest) = some (v % u30Bound, rest) := by
  have bound : v % u30Bound < u30Bound := Nat.mod_lt _ (by decide)
  have fits : v % u30Bound < 128 * 128 ^ 4 := Nat.lt_trans bound (by decide)
  simp [readU30, writeU30, readGroups_writeGroups 4 _ rest fits, Nat.mod_eq_of_lt bound]

lemma readU30_writeU30_of_lt {v : Nat} (h : v < u30Bound) (rest : List UInt8) :
    readU30 (writeU30 v ++ rest) = some (v, rest) := by
  rw [readU30_writeU30, Nat.mod_eq_of_lt h]

lemma length_writeU30 (v : Nat) : (writeU30 v).length = u30Length v := by
  have bound : v % u30Bound < 1073741824 := Nat.mod_lt _ (by decide)
  simp only [writeU30, u30Length]
  generalize v % u30Bound = w at bound
  simp only [writeGroups]
  split_ifs <;> simp <;> omega

lemma u30Length_pos (v : Nat) : 1 ≤ u30Length v := by
  rw [u30Length]
  split_ifs <;> decide

lemma u30Length_le (v : Nat) : u30Length v ≤ 5 := by
  rw [u30Length]
  split_ifs <;> decide

lemma readS24_writeS24 {v : Int} (h : fitsS24 v = true) (rest : List UInt8) :
    readS24 (writeS24 v ++ rest) = some (v, rest) := by
  simp only [fitsS24, Bool.and_eq_true, decide_eq_true_eq] at h
  obtain ⟨low, high⟩ := h
  have raw : (v % 0x1000000).toNat < 16777216 := by omega
  have whole : ((v % 0x1000000).toNat : Int) = v % 0x1000000 := by omega
  simp only [writeS24, List.cons_append, List.nil_append, readS24]
  generalize (v % 0x1000000).toNat = w at raw whole
  have b0 := toNat_toUInt8 (by omega : w % 256 < 256)
  have b1 := toNat_toUInt8 (by omega : w / 256 % 256 < 256)
  have b2 := toNat_toUInt8 (by omega : w / 65536 < 256)
  rw [b0, b1, b2]
  simp only [Option.some.injEq, Prod.mk.injEq, and_true]
  split <;> omega

lemma length_writeS24 (v : Int) : (writeS24 v).length = 3 := rfl

end Avm.Wire

/-! ## Instructions -/

namespace Avm

/-- Operands that agree, with targets that are related. -/
inductive Operands.Rel {α β : Type} (R : α → β → Prop) : Operands α → Operands β → Prop where
  | none :
    Operands.Rel R .none .none
  | byte {value} :
    Operands.Rel R (.byte value) (.byte value)
  | index {value} :
    Operands.Rel R (.index value) (.index value)
  | pair {first second} :
    Operands.Rel R (.pair first second) (.pair first second)
  | branch {a b} :
    R a b →
    Operands.Rel R (.branch a) (.branch b)
  | switch {a b as bs} :
    R a b →
    List.Forall₂ R as bs →
    Operands.Rel R (.switch a as) (.switch b bs)
  | debug {kind name register extra} :
    Operands.Rel R (.debug kind name register extra) (.debug kind name register extra)

namespace Operands.Rel

variable {α β : Type} {R S : α → β → Prop} {a : Operands α} {b : Operands β}

lemma mono (h : Operands.Rel R a b) (sub : ∀ x y, R x y → S x y) : Operands.Rel S a b := by
  cases h with
  | none => exact .none
  | byte => exact .byte
  | index => exact .index
  | pair => exact .pair
  | branch r => exact .branch (sub _ _ r)
  | switch r rs => exact .switch (sub _ _ r) (rs.imp sub)
  | debug => exact .debug

lemma operandSize_eq (h : Operands.Rel R a b) :
    Encode.operandSize a = Encode.operandSize b := by
  cases h with
  | switch _ rs => simp only [Encode.operandSize, rs.length_eq]
  | _ => rfl

lemma targets (h : Operands.Rel R a b) : List.Forall₂ R a.targets b.targets := by
  cases h with
  | branch r => exact .cons r .nil
  | switch r rs => exact .cons r rs
  | _ => exact .nil

lemma map_eq_map {γ : Type} {f : α → γ} {g : β → γ}
    (h : Operands.Rel (fun x y => f x = g y) a b) : a.map f = b.map g := by
  cases h with
  | branch r => rw [map, map, r]
  | switch r rs =>
    rw [map, map, r]
    congr 1
    induction rs with
    | nil => rfl
    | cons head _ ih => rw [List.map_cons, List.map_cons, head, ih]
  | _ => rfl

end Operands.Rel

namespace Encode

variable {α : Type}

/-- The offsets between instructions, the first of which starts at `start`; the last offset is the end
of the code. -/
def boundaries : Nat → List (InstrId × Instruction α) → List Nat
  | start, [] => [start]
  | start, e :: rest => start :: boundaries (start + size e.2) rest

lemma le_of_mem_boundaries {start b : Nat} {l : List (InstrId × Instruction α)}
    (mem : b ∈ boundaries start l) : start ≤ b := by
  induction l generalizing start with
  | nil => simp_all [boundaries]
  | cons e l ih =>
    rw [boundaries, List.mem_cons] at mem
    obtain rfl | mem := mem
    · exact Nat.le_refl _
    · exact Nat.le_trans (Nat.le_add_right _ _) (ih mem)

lemma size_pos (i : Instruction α) : 0 < size i := by
  rw [size]
  omega

lemma pairwise_boundaries (start : Nat) (l : List (InstrId × Instruction α)) :
    (boundaries start l).Pairwise (· < ·) := by
  induction l generalizing start with
  | nil => exact List.pairwise_singleton _ _
  | cons e l ih =>
    rw [boundaries, List.pairwise_cons]
    refine ⟨fun b mem => ?_, ih _⟩
    have := le_of_mem_boundaries mem
    have := size_pos e.2
    omega

lemma nodup_boundaries (start : Nat) (l : List (InstrId × Instruction α)) :
    (boundaries start l).Nodup :=
  (pairwise_boundaries start l).imp Nat.ne_of_lt

lemma lookup_starts (start : Nat) (l : List (InstrId × Instruction α)) (id : InstrId) :
    (starts start l).lookup id =
      (l.findIdx? (·.1 == id)).bind fun p => (boundaries start l)[p]? := by
  induction l generalizing start with
  | nil => rfl
  | cons e l ih =>
    obtain ⟨k, i⟩ := e
    rw [starts, List.lookup_cons, List.findIdx?_cons]
    by_cases eq : k = id
    · subst eq
      simp [boundaries]
    · have ne : ¬ id = k := fun h => eq h.symm
      simp only [eq, ne, beq_false_of_ne, ih, ne_eq, not_false_eq_true]
      cases l.findIdx? (·.1 == id) <;> simp [boundaries]

lemma foldl_size_eq (start : Nat) (l : List (InstrId × Instruction α)) :
    (boundaries start l)[l.length]? = some (l.foldl (fun n e => n + size e.2) start) := by
  induction l generalizing start with
  | nil => rfl
  | cons e l ih =>
    simpa only [boundaries, List.length_cons, List.getElem?_cons_succ, List.foldl_cons] using ih _

/-- The end of encoded code. -/
def codeLength (c : Code) : Nat := c.instrs.foldl (fun n e => n + size e.2) 0

/-- The offset of a marker in code. -/
def markerOffset? (c : Code) (m : Marker) : Option Nat :=
  offset? c (starts 0 c.instrs) (codeLength c) m

lemma markerOffset?_eq (c : Code) (m : Marker) :
    markerOffset? c m = (c.resolve? m).bind fun p => (boundaries 0 c.instrs)[p]? := by
  rw [markerOffset?, offset?, Code.resolve?]
  cases c.markers.target? m with
  | none => rfl
  | some a =>
    cases a with
    | instr id => exact lookup_starts 0 c.instrs id
    | codeEnd => exact (foldl_size_eq 0 c.instrs).symm

lemma le_foldl_of_mem_boundaries {start b : Nat} {l : List (InstrId × Instruction α)}
    (mem : b ∈ boundaries start l) : b ≤ l.foldl (fun n e => n + size e.2) start := by
  induction l generalizing start with
  | nil => simp_all [boundaries]
  | cons e l ih =>
    rw [boundaries, List.mem_cons] at mem
    obtain rfl | mem := mem
    · exact le_of_mem_boundaries (List.mem_of_getElem? (foldl_size_eq b (e :: l)))
    · exact ih mem

lemma markerOffset?_le {c : Code} {m : Marker} {t : Nat} (h : markerOffset? c m = some t) :
    t ≤ codeLength c := by
  rw [markerOffset?_eq, Option.bind_eq_some_iff] at h
  obtain ⟨p, -, hp⟩ := h
  exact le_foldl_of_mem_boundaries (List.mem_of_getElem? hp)

/-- The operands of the instruction at an offset have a place in its fields, and its targets are near
enough and inside the code. -/
def FitsOperands (length start : Nat) : Operands Nat → Prop
  | .none | .byte _ => True
  | .index value => value < u30Bound
  | .pair first second => first < u30Bound ∧ second < u30Bound
  | .branch t => t ≤ length ∧ fitsS24 ((t : Int) - (start + 4 : Nat)) = true
  | .switch default cases =>
    cases ≠ [] ∧ cases.length - 1 < u30Bound ∧
      ∀ t ∈ default :: cases, t ≤ length ∧ fitsS24 ((t : Int) - start) = true
  | .debug _ name _ extra => name < u30Bound ∧ extra < u30Bound

/-- Instructions follow one another from an offset to the end of the code, and their operands fit. -/
inductive Laid (length : Nat) : Nat → List (Nat × Instruction Nat) → Prop where
  | nil :
    Laid length length []
  | cons {start i rest} :
    i.operands.layout = i.opcode.layout →
    FitsOperands length start i.operands →
    Laid length (start + size i) rest →
    Laid length start ((start, i) :: rest)

/-- The offsets at which the instructions of a row start, and the end of the code. -/
def rowBounds (length : Nat) (rs : List (Nat × Instruction Nat)) : List Nat :=
  rs.map (·.1) ++ [length]

lemma checkIndex_eq_ok {position value : Nat} {opcode : Opcode} :
    checkIndex position opcode value = .ok () ↔ value < u30Bound := by
  rw [checkIndex]
  split <;> simp <;> omega

lemma relocate_eq_ok {c : Code} {off : Marker → Option Nat} {field base m t : Nat} :
    relocate c off field base m = .ok t ↔ off m = some t ∧ fitsS24 ((t : Int) - base) = true := by
  rw [relocate]
  cases off m with
  | none => simp
  | some o =>
    simp only [Option.some.injEq]
    constructor
    · intro h
      split at h
      · rename_i near
        obtain rfl := Except.ok.inj h
        exact ⟨rfl, near⟩
      · exact absurd h (by simp)
    · rintro ⟨rfl, near⟩
      rw [if_pos near]

lemma mapM_relocate {c : Code} {off : Marker → Option Nat} {base first : Nat} {ms ts : List Nat}
    (h : (ms.mapIdx fun k m => (first + 3 * k, m)).mapM (fun e => relocate c off e.1 base e.2)
      = .ok ts) :
    List.Forall₂ (fun m t => off m = some t ∧ fitsS24 ((t : Int) - base) = true) ms ts := by
  rw [mapM_eq_ok, List.forall₂_iff_get] at h
  obtain ⟨len, all⟩ := h
  rw [List.forall₂_iff_get]
  refine ⟨by simpa using len, fun i hi hj => ?_⟩
  have := all i (by simpa using hi) hj
  simp only [List.get_eq_getElem, List.getElem_mapIdx] at this
  exact relocate_eq_ok.1 this

/-- An instruction that passes the check and can be relocated fits at its offset, and its targets are
the offsets of its markers. -/
lemma relocateInstr_fits {c : Code} {position start length : Nat} {i : Instruction Marker}
    {j : Instruction Nat} {off : Marker → Option Nat} (inside : ∀ m t, off m = some t → t ≤ length)
    (checked : check position i = .ok ()) (h : relocateInstr c off start i = .ok j) :
    j.opcode = i.opcode ∧ Operands.Rel (fun m t => off m = some t) i.operands j.operands ∧
      j.operands.layout = j.opcode.layout ∧ FitsOperands length start j.operands := by
  obtain ⟨opcode, operands⟩ := i
  rw [check] at checked
  split at checked
  · exact absurd checked (by simp)
  · rename_i layout
    simp only [ne_eq, not_not] at layout
    cases operands with
    | none =>
      obtain rfl := Except.ok.inj h
      exact ⟨rfl, .none, layout, trivial⟩
    | byte value =>
      obtain rfl := Except.ok.inj h
      exact ⟨rfl, .byte, layout, trivial⟩
    | index value =>
      obtain rfl := Except.ok.inj h
      exact ⟨rfl, .index, layout, checkIndex_eq_ok.1 checked⟩
    | pair first second =>
      obtain rfl := Except.ok.inj h
      obtain ⟨_, one, two⟩ := bind_eq_ok.1 checked
      exact ⟨rfl, .pair, layout, checkIndex_eq_ok.1 one, checkIndex_eq_ok.1 two⟩
    | branch m =>
      obtain ⟨t, ht, hj⟩ := bind_eq_ok.1 h
      obtain rfl := Except.ok.inj hj
      obtain ⟨known, near⟩ := relocate_eq_ok.1 ht
      exact ⟨rfl, .branch known, layout, inside _ _ known, near⟩
    | switch default cases =>
      obtain ⟨d, hd, h⟩ := bind_eq_ok.1 h
      obtain ⟨ts, hts, hj⟩ := bind_eq_ok.1 h
      obtain rfl := Except.ok.inj hj
      obtain ⟨known, near⟩ := relocate_eq_ok.1 hd
      have all := mapM_relocate hts
      have cases_ne : cases ≠ [] := by
        rintro rfl
        simp at checked
      simp only [List.isEmpty_iff, cases_ne, if_false] at checked
      have count := checkIndex_eq_ok.1 checked
      refine ⟨rfl, .switch known (all.imp fun _ _ h => h.1), layout, ?_, ?_, ?_⟩
      · rintro rfl
        exact cases_ne (List.forall₂_nil_right_iff.1 all)
      · rwa [← all.length_eq]
      · rintro t (_ | ⟨_, mem⟩)
        · exact ⟨inside _ _ known, near⟩
        · obtain ⟨m, -, known, near⟩ := exists_mem_of_mem_right all mem
          exact ⟨inside _ _ known, near⟩
    | debug kind name register extra =>
      obtain rfl := Except.ok.inj h
      obtain ⟨_, one, two⟩ := bind_eq_ok.1 checked
      exact ⟨rfl, .debug, layout, checkIndex_eq_ok.1 one, checkIndex_eq_ok.1 two⟩

lemma laid_of_relocated {c : Code} {off : Marker → Option Nat} {length start : Nat}
    {l : List (InstrId × Instruction Marker)} {rs : List (Nat × Instruction Nat)}
    (inside : ∀ m t, off m = some t → t ≤ length)
    (checked : ∀ e ∈ l, ∃ position, check position e.2 = .ok ())
    (stop : l.foldl (fun n e => n + size e.2) start = length)
    (h : List.Forall₂ (fun e r => ∃ i, relocateInstr c off e.2.2 e.1.2 = .ok i ∧ (e.2.2, i) = r)
      (l.zip (starts start l)) rs) :
    Laid length start rs ∧ rowBounds length rs = boundaries start l ∧
      List.Forall₂ (fun e r => r.2.opcode = e.2.opcode ∧
        Operands.Rel (fun m t => off m = some t) e.2.operands r.2.operands) l rs := by
  induction l generalizing start rs with
  | nil =>
    simp only [starts, List.zip_nil_right, List.forall₂_nil_left_iff] at h
    subst h stop
    exact ⟨.nil, rfl, .nil⟩
  | cons e l ih =>
    simp only [starts, List.zip_cons_cons, List.forall₂_cons_left_iff] at h
    obtain ⟨r, rest, ⟨j, hj, rfl⟩, hrest, rfl⟩ := h
    obtain ⟨position, passed⟩ := checked e List.mem_cons_self
    obtain ⟨opcode, rel, layout, fits⟩ := relocateInstr_fits inside passed hj
    have same : size j = size e.2 := by rw [size, size, rel.operandSize_eq]
    obtain ⟨laid, bounds, all⟩ :=
      ih (fun e' mem => checked e' (List.mem_cons_of_mem _ mem)) stop hrest
    refine ⟨.cons layout fits (same ▸ laid), ?_, .cons ⟨opcode, rel⟩ all⟩
    rw [rowBounds, List.map_cons, List.cons_append, ← rowBounds, bounds, boundaries]

end Encode

/-- Handlers that agree, with places that are related. -/
structure Handler.Rel {α β : Type} (R : α → β → Prop) (a : Handler α) (b : Handler β) : Prop where
  /-- The starts of the protected ranges are related. -/
  start : R a.start b.start
  /-- The ends of the protected ranges are related. -/
  stop : R a.stop b.stop
  /-- The places where exceptions are handled are related. -/
  target : R a.target b.target
  /-- The same type of exceptions is caught. -/
  excType : a.excType = b.excType
  /-- The same variable holds the exception. -/
  varName : a.varName = b.varName

/-- Encoded code, with the instructions as they lie in the bytes. -/
structure Encoded (c : Code) (e : EncodedCode) (rs : List (Nat × Instruction Nat)) : Prop where
  /-- The instructions follow one another to the end of the code. -/
  laid : Encode.Laid (Encode.codeLength c) 0 rs
  /-- The bytes are those of the instructions. -/
  bytes : e.bytes = rs.flatMap fun r => Encode.bytes r.1 r.2
  /-- The instructions start where those of the code do. -/
  bounds : Encode.rowBounds (Encode.codeLength c) rs = Encode.boundaries 0 c.instrs
  /-- The instructions are those of the code, with the offsets of their markers. -/
  instrs : List.Forall₂ (fun x r => r.2.opcode = x.2.opcode ∧
    Operands.Rel (fun m t => Encode.markerOffset? c m = some t) x.2.operands r.2.operands)
    c.instrs rs
  /-- The handlers are those of the code, with the offsets of their markers. -/
  handlers : List.Forall₂ (Handler.Rel fun m t => Encode.markerOffset? c m = some t)
    c.handlers e.exceptions

lemma Encode.handlerOffset_eq_ok {c : Code} {off : Marker → Option Nat} {m t : Nat} :
    handlerOffset c off m = .ok t ↔ off m = some t := by
  rw [handlerOffset]
  cases off m <;> simp

lemma Code.encode_eq_ok {c : Code} {e : EncodedCode} (h : c.encode = .ok e) :
    ∃ rs, Encoded c e rs := by
  simp only [Code.encode, bind_eq_ok, pure_eq_ok, Except.ok.injEq] at h
  obtain ⟨_, checked, rs, hrs, exceptions, hex, rfl⟩ := h
  rw [forM_eq_ok] at checked
  rw [mapM_eq_ok] at hrs hex
  have passed : ∀ x ∈ c.instrs, ∃ position, Encode.check position x.2 = .ok () := by
    intro x mem
    obtain ⟨p, hp, rfl⟩ := List.getElem_of_mem mem
    refine ⟨p, checked (p, c.instrs[p].2) ?_⟩
    exact List.mem_iff_getElem.2 ⟨p, by simpa using hp, by simp⟩
  have relocated := hrs.imp fun x r h => by
    simpa only [bind_eq_ok, pure_eq_ok, Except.ok.injEq] using h
  obtain ⟨laid, bounds, instrs⟩ := Encode.laid_of_relocated
    (fun m t => Encode.markerOffset?_le) passed rfl relocated
  refine ⟨rs, laid, rfl, bounds, instrs, hex.imp fun x r h => ?_⟩
  simp only [Encode.handler, bind_eq_ok, pure_eq_ok, Except.ok.injEq,
    Encode.handlerOffset_eq_ok] at h
  obtain ⟨start, hstart, stop, hstop, target, htarget, rfl⟩ := h
  exact ⟨hstart, hstop, htarget, rfl, rfl⟩

end Avm
