import Avm.Code.Decode
import Avm.Proofs.Code.Bytes

/-!
# Reading instructions back

A row of instructions that is laid out in bytes is cut into the same instructions again.  The lemma
about one instruction goes by the shape of its operands and leaves the bytes behind it alone; the one
about the row, `instructions_laid`, goes along the row.

While code is read, every branch target and every place of a handler gets a marker that waits for its
offset; at the end all of them are bound at once.  `Drafting` is the invariant of the first phase: all
markers wait, each offset has one marker, and markers that were given out stay as they are.  The
second phase maps every waiting marker to the place at its offset, `bindings_prepare`.
-/

/-! ## Instructions -/

namespace Avm

namespace Opcode

lemma getElem?_all (o : Opcode) : all[o.ctorIdx]? = some o := by
  cases o <;> rfl

lemma isChain_bytes : (all.map fun o => o.byte.toNat).IsChain (· < ·) := by
  decide +kernel

lemma byte_injective : Function.Injective byte := by
  intro a b eq
  have nodup : (all.map fun o => o.byte.toNat).Nodup :=
    (List.isChain_iff_pairwise.1 isChain_bytes).imp Nat.ne_of_lt
  exact List.inj_on_of_nodup_map nodup (List.mem_of_getElem? (getElem?_all a))
    (List.mem_of_getElem? (getElem?_all b)) (congrArg UInt8.toNat eq)

lemma ofByte?_byte (o : Opcode) : ofByte? o.byte = some o := by
  have found : (all.find? (·.byte == o.byte)).isSome := by
    rw [List.find?_isSome]
    exact ⟨o, List.mem_of_getElem? (getElem?_all o), beq_self_eq_true _⟩
  obtain ⟨x, hx⟩ := Option.isSome_iff_exists.1 found
  have same : x.byte = o.byte := by simpa using List.find?_some hx
  rw [ofByte?, hx, byte_injective same]

end Opcode

namespace Encode

lemma length_flatMap_writeS24 {α : Type} (l : List α) (f : α → Int) :
    (l.flatMap fun t => Wire.writeS24 (f t)).length = 3 * l.length := by
  induction l with
  | nil => rfl
  | cons t l ih =>
    rw [List.flatMap_cons, List.length_append, Wire.length_writeS24, ih, List.length_cons]
    omega

lemma length_operandBytes (start : Nat) (ops : Operands Nat) :
    (operandBytes start ops).length = operandSize ops := by
  cases ops with
  | switch default cases =>
    simp only [operandBytes, operandSize, List.length_append, Wire.length_writeS24,
      Wire.length_writeU30, length_flatMap_writeS24]
  | debug kind name register extra =>
    simp only [operandBytes, operandSize, List.length_append, List.length_singleton,
      Wire.length_writeU30]
    omega
  | _ => simp [operandBytes, operandSize, Wire.length_writeU30, Wire.length_writeS24]

lemma length_bytes (start : Nat) (i : Instruction Nat) : (bytes start i).length = size i := by
  rw [bytes, List.length_cons, length_operandBytes, size, Nat.add_comm]

lemma Laid.length_bytes {length start : Nat} {rs : List (Nat × Instruction Nat)}
    (h : Laid length start rs) :
    start + (rs.flatMap fun r => bytes r.1 r.2).length = length := by
  induction h with
  | nil => rfl
  | @cons start i rest _ _ _ ih =>
    rw [List.flatMap_cons, List.length_append, Encode.length_bytes start i]
    omega

end Encode

namespace Decode

lemma target_sub {length start base t : Nat} (h : t ≤ length) :
    target length start base ((t : Int) - base) = .ok t := by
  have inside : ¬ ((base : Int) + ((t : Int) - base) < 0 ∨
      (length : Int) < (base : Int) + ((t : Int) - base)) := by omega
  rw [target, if_neg inside]
  congr 1
  omega

lemma cases_flatMap {length start : Nat} {ts : List Nat} (rest : List UInt8)
    (h : ∀ t ∈ ts, t ≤ length ∧ fitsS24 ((t : Int) - start) = true) :
    cases length start ts.length
      ((ts.flatMap fun (t : Nat) => Wire.writeS24 ((t : Int) - start)) ++ rest)
      = .ok (ts, rest) := by
  induction ts with
  | nil => rfl
  | cons t ts ih =>
    obtain ⟨⟨inside, near⟩, tail⟩ := List.forall_mem_cons.1 h
    rw [List.length_cons, cases, List.flatMap_cons, List.append_assoc,
      Wire.readS24_writeS24 near]
    simp only [need, ok_bind, target_sub inside, ih tail, pure_eq_ok]

lemma operands_operandBytes {length start : Nat} {ops : Operands Nat} (rest : List UInt8)
    (fits : Encode.FitsOperands length start ops)
    (room : start + (1 + Encode.operandSize ops) ≤ length) :
    operands length start ops.layout (Encode.operandBytes start ops ++ rest) = .ok (ops, rest) := by
  cases ops with
  | none => rfl
  | byte value => rfl
  | index value =>
    simp only [Operands.layout, operands, Encode.operandBytes,
      Wire.readU30_writeU30_of_lt fits, need, ok_bind, pure_eq_ok]
  | pair first second =>
    simp only [Operands.layout, operands, Encode.operandBytes, List.append_assoc,
      Wire.readU30_writeU30_of_lt fits.1, Wire.readU30_writeU30_of_lt fits.2, need, ok_bind,
      pure_eq_ok]
  | branch t =>
    simp only [Operands.layout, operands, Encode.operandBytes, Wire.readS24_writeS24 fits.2, need,
      ok_bind, target_sub fits.1, pure_eq_ok]
  | switch default cases =>
    obtain ⟨some_case, count, near⟩ := fits
    obtain ⟨⟨inside, nearDefault⟩, nearCases⟩ := List.forall_mem_cons.1 near
    have positive := List.length_pos_iff.2 some_case
    have few : ¬ length ≤ cases.length - 1 := by
      rw [Encode.operandSize] at room
      omega
    have all := cases_flatMap rest nearCases
    rw [show cases.length = cases.length - 1 + 1 from by omega] at all
    simp only [Operands.layout, operands, Encode.operandBytes, List.append_assoc,
      Wire.readS24_writeS24 nearDefault, need, ok_bind, target_sub inside,
      Wire.readU30_writeU30_of_lt count, few, if_false, all, pure_eq_ok]
  | debug kind name register extra =>
    simp only [Operands.layout, operands, Encode.operandBytes, List.append_assoc,
      List.cons_append, List.nil_append, Wire.readU8, Wire.readU30_writeU30_of_lt fits.1,
      Wire.readU30_writeU30_of_lt fits.2, need, ok_bind, pure_eq_ok]

lemma instruction_bytes {length start : Nat} {i : Instruction Nat} (rest : List UInt8)
    (layout : i.operands.layout = i.opcode.layout)
    (fits : Encode.FitsOperands length start i.operands) (room : start + Encode.size i ≤ length) :
    instruction length start (Encode.bytes start i ++ rest) = .ok (i, rest) := by
  rw [Encode.bytes, List.cons_append, instruction]
  simp only [Wire.readU8, need, ok_bind, Opcode.ofByte?_byte, ← layout,
    operands_operandBytes rest fits room, pure_eq_ok]

lemma instructions_laid {length start fuel : Nat} {rs : List (Nat × Instruction Nat)}
    (h : Encode.Laid length start rs) (enough : rs.length ≤ fuel) :
    instructions length fuel (rs.flatMap fun r => Encode.bytes r.1 r.2) = .ok rs := by
  induction h generalizing fuel with
  | nil => cases fuel <;> rfl
  | @cons start i rest layout fits tail ih =>
    have total := (Encode.Laid.cons layout fits tail).length_bytes
    have after := tail.length_bytes
    cases fuel with
    | zero => exact absurd enough (by simp)
    | succ fuel =>
      have at_start : length - (((start, i) :: rest).flatMap
          fun r => Encode.bytes r.1 r.2).length = start := by omega
      rw [List.flatMap_cons, Encode.bytes, List.cons_append, instructions,
        ← List.cons_append, ← Encode.bytes]
      · rw [List.flatMap_cons] at at_start
        simp only [at_start, instruction_bytes _ layout fits (by omega : _ ≤ length), ok_bind,
          ih (by simpa using enough), pure_eq_ok]
      · simp

lemma length_le_of_laid {length start : Nat} {rs : List (Nat × Instruction Nat)}
    (h : Encode.Laid length start rs) : start + rs.length ≤ length := by
  induction h with
  | nil => exact Nat.le_refl _
  | @cons start i rest _ _ _ ih =>
    have := Encode.size_pos i
    rw [List.length_cons]
    omega

end Decode

end Avm

/-! ## Offsets become markers -/

namespace Avm

namespace MarkerTable

/-- The marker waits for the instruction at an offset. -/
def Waits (t : MarkerTable) (m : Marker) (offset : Nat) : Prop :=
  t.bindings[m]? = some (.pending offset)

/-- All markers of the table wait for offsets with a property, and the table knows them by their
offset. -/
structure Drafting (P : Nat → Prop) (t : MarkerTable) : Prop where
  /-- Every marker waits. -/
  pending : ∀ b ∈ t.bindings, ∃ offset, b = .pending offset ∧ P offset
  /-- The marker that is known for an offset waits for it. -/
  waiting : ∀ offset m, t.waiting.lookup offset = some m → t.Waits m offset

/-- The markers of one table stay as they are in another. -/
def Extends (t t' : MarkerTable) : Prop := t.bindings <+: t'.bindings

lemma Extends.refl (t : MarkerTable) : t.Extends t := List.prefix_refl _

lemma Extends.trans {t t' t'' : MarkerTable} (h : t.Extends t') (h' : t'.Extends t'') :
    t.Extends t'' := List.IsPrefix.trans h h'

lemma Extends.waits {t t' : MarkerTable} {m : Marker} {offset : Nat} (h : t.Extends t')
    (w : t.Waits m offset) : t'.Waits m offset := by
  obtain ⟨more, eq⟩ := h
  obtain ⟨lt, -⟩ := List.getElem?_eq_some_iff.1 w
  rw [Waits, ← eq, List.getElem?_append_left lt]
  exact w

variable {P : Nat → Prop} {t : MarkerTable} {offset : Nat}

lemma Drafting.empty : Drafting P {} := ⟨by simp, by simp⟩

lemma Drafting.markOffset (h : Drafting P t) (good : P offset) :
    Drafting P (t.markOffset offset).1 ∧ t.Extends (t.markOffset offset).1 ∧
      (t.markOffset offset).1.Waits (t.markOffset offset).2 offset := by
  rw [MarkerTable.markOffset]
  cases known : t.waiting.lookup offset with
  | some m => exact ⟨h, .refl t, h.waiting offset m known⟩
  | none =>
    have longer : t.Extends (t.allocate (.pending offset)).1 := List.prefix_append _ _
    have new : (t.allocate (.pending offset)).1.Waits t.size offset := by
      rw [Waits, allocate, size, List.getElem?_append_right (Nat.le_refl _), Nat.sub_self]
      rfl
    refine ⟨⟨?_, ?_⟩, longer, new⟩
    · intro b mem
      obtain mem | mem := List.mem_append.1 mem
      · exact h.pending b mem
      · exact ⟨offset, List.mem_singleton.1 mem, good⟩
    · intro o m found
      rw [allocate, List.lookup_cons] at found
      by_cases eq : o = offset
      · subst eq
        simp only [beq_self_eq_true, Option.some.injEq] at found
        exact found ▸ new
      · simp only [beq_false_of_ne eq] at found
        exact longer.waits (h.waiting o m found)

lemma Drafting.foldl_markOffset (h : Drafting P t) {offsets : List Nat} (ms : List Marker)
    (good : ∀ o ∈ offsets, P o) :
    ∃ t' ms', offsets.foldl (fun (t, ms) c =>
        let (t, m) := MarkerTable.markOffset t c
        (t, ms ++ [m])) (t, ms) = (t', ms ++ ms') ∧
      Drafting P t' ∧ t.Extends t' ∧ List.Forall₂ t'.Waits ms' offsets := by
  induction offsets generalizing t ms with
  | nil => exact ⟨t, [], by simp, h, .refl t, .nil⟩
  | cons o offsets ih =>
    obtain ⟨first, rest⟩ := List.forall_mem_cons.1 good
    obtain ⟨drafting, longer, waits⟩ := h.markOffset first
    obtain ⟨t', ms', eq, drafting', longer', all⟩ :=
      ih drafting (ms ++ [(t.markOffset o).2]) rest
    refine ⟨t', (t.markOffset o).2 :: ms', ?_, drafting', longer.trans longer',
      .cons (longer'.waits waits) all⟩
    rw [List.foldl_cons, eq, List.append_assoc, List.singleton_append]

/-- The place that a binding stands for once offsets are known. -/
def settled (starts : List (Nat × InstrId)) (length : Nat) : Binding → Binding
  | .pending offset =>
    match anchorAt? starts length offset with
    | some a => .bound a
    | none => .pending offset
  | b => b

lemma bindings_bind {m : Marker} {a : Anchor} (h : m < t.size) :
    (t.bind m a).bindings = t.bindings.set m (.bound a) := by
  rw [bind, if_pos h, offer]
  split <;> rfl

lemma settle_eq {starts : List (Nat × InstrId)} {length : Nat} (ms : List Marker)
    (known : ∀ b ∈ t.bindings, ∀ o, b = .pending o → (anchorAt? starts length o).isSome) :
    ∃ t', settle starts length ms t = (t', none) ∧
      t'.bindings = t.bindings.mapIdx fun m b => if m ∈ ms then settled starts length b else b := by
  induction ms generalizing t with
  | nil => exact ⟨t, rfl, List.ext_getElem (by simp) (by simp)⟩
  | cons m ms ih =>
    by_cases waits : ∃ o, t.Waits m o
    · obtain ⟨o, w⟩ := waits
      obtain ⟨lt, at_m⟩ := List.getElem?_eq_some_iff.1 w
      obtain ⟨a, ha⟩ := Option.isSome_iff_exists.1 (known _ (List.getElem_mem lt) o at_m)
      have known' : ∀ b ∈ (t.bind m a).bindings, ∀ o, b = .pending o →
          (anchorAt? starts length o).isSome := by
        intro b mem o eq
        rw [bindings_bind lt] at mem
        obtain mem | rfl := List.mem_or_eq_of_mem_set mem
        · exact known b mem o eq
        · exact absurd eq (by simp)
      obtain ⟨t', eq, bindings⟩ := ih known'
      refine ⟨t', ?_, bindings.trans ?_⟩
      · rw [Waits] at w
        simp only [settle, w, ha, eq]
      · rw [bindings_bind lt]
        refine List.ext_getElem (by simp) fun k _ _ => ?_
        by_cases same : k = m
        · subst same
          simp [settled, at_m, ha]
        · simp [same, Ne.symm same]
    · have skip : settle starts length (m :: ms) t = settle starts length ms t := by
        rw [settle]
        split
        · rename_i o w
          exact absurd ⟨o, w⟩ waits
        · rfl
      obtain ⟨t', eq, bindings⟩ := ih known
      refine ⟨t', skip.trans eq, bindings.trans ?_⟩
      refine List.mapIdx_eq_mapIdx_iff.2 fun k hk => ?_
      by_cases same : k = m
      · subst same
        have stays : settled starts length t.bindings[k] = t.bindings[k] := by
          cases at_k : t.bindings[k] with
          | pending o => exact absurd ⟨o, List.getElem?_eq_some_iff.2 ⟨hk, at_k⟩⟩ waits
          | unbound => rfl
          | bound a => rfl
        simp [stays]
      · simp [same]

lemma bindings_prepare {starts : List (Nat × InstrId)} {length : Nat}
    (known : ∀ b ∈ t.bindings, ∀ o, b = .pending o → (anchorAt? starts length o).isSome) :
    ∃ t', t.prepare starts length = (t', none) ∧
      t'.bindings = t.bindings.map (settled starts length) := by
  obtain ⟨t', eq, bindings⟩ := settle_eq (List.range t.size) known
  refine ⟨{ t' with waiting := [] }, by simp only [prepare, eq], bindings.trans ?_⟩
  refine List.ext_getElem (by simp) fun k hk _ => ?_
  have lt : k < t.size := by simpa [size] using hk
  simp [lt]

lemma target?_of_waits {starts : List (Nat × InstrId)} {length : Nat} {t' : MarkerTable}
    {m : Marker} {a : Anchor} (bindings : t'.bindings = t.bindings.map (settled starts length))
    (w : t.Waits m offset) (place : anchorAt? starts length offset = some a) :
    t'.target? m = some a := by
  have at_m : t'.bindings[m]? = some (.bound a) := by
    rw [bindings, List.getElem?_map, w, Option.map_some, settled, place]
  rw [target?, at_m]

end MarkerTable

end Avm
