import Avm.Proofs.Code.Cutting
import Avm.Proofs.Code.RoundTrip

/-!
# Encoding undoes decoding

Code that was decoded can be encoded again.  The instructions lie at other offsets then, as numbers
that were longer than they need to be have become shorter; but the distance between two boundaries only
shrinks, so every branch still reaches its target.  `Decode.moves` pairs the old boundaries with the
new ones, and `Decode.Cut.shrinks` is the statement about distances.
-/

namespace Avm

lemma exists_mapM_eq_ok {ε α β : Type} {f : α → Except ε β} {l : List α}
    (h : ∀ a ∈ l, ∃ b, f a = .ok b) : ∃ r, l.mapM f = .ok r := by
  induction l with
  | nil => exact ⟨[], rfl⟩
  | cons a l ih =>
    obtain ⟨⟨b, head⟩, tail⟩ := List.forall_mem_cons.1 h
    obtain ⟨r, rest⟩ := ih tail
    exact ⟨b :: r, by rw [List.mapM_cons, head, ok_bind, rest, ok_bind, pure_eq_ok]⟩

namespace MarkerTable

variable {starts : List (Nat × InstrId)} {length : Nat}

lemma known_of_settle {ms : List Marker} {t t' : MarkerTable}
    (h : settle starts length ms t = (t', none)) {m : Marker} (mem : m ∈ ms) {o : Nat}
    (waits : t.Waits m o) : (anchorAt? starts length o).isSome := by
  induction ms generalizing t with
  | nil => cases mem
  | cons k ms ih =>
    rw [settle] at h
    split at h
    · rename_i o' at_k
      split at h
      · rename_i a place
        by_cases same : m = k
        · subst same
          obtain rfl : o = o' := Binding.pending.inj (Option.some.inj (waits.symm.trans at_k))
          rw [place]
          rfl
        · have lt := (List.getElem?_eq_some_iff.1 at_k).1
          refine ih h (List.mem_of_ne_of_mem same mem) ?_
          rw [Waits, bindings_bind lt, List.getElem?_set_ne (Ne.symm same)]
          exact waits
      · cases h
    · rename_i other
      by_cases same : m = k
      · subst same
        exact absurd waits (other o)
      · exact ih h (List.mem_of_ne_of_mem same mem) waits

lemma known_of_prepare {t t' : MarkerTable} (h : t.prepare starts length = (t', none)) {m : Marker}
    {o : Nat} (waits : t.Waits m o) : (anchorAt? starts length o).isSome := by
  rw [prepare] at h
  split at h
  · rename_i settled
    have lt := (List.getElem?_eq_some_iff.1 waits).1
    exact known_of_settle settled (List.mem_range.2 lt) waits
  · cases h

end MarkerTable

namespace Decode

variable {length start : Nat} {bytes : List UInt8} {is : List (Nat × Instruction Nat)}
  {fields : List (List UInt8)} {l : List (InstrId × Instruction Marker)}

lemma Cut.laid (h : Cut length start bytes is fields)
    (short : ∀ field ∈ fields, Wire.shortest field = true) :
    Encode.Laid length start is ∧ bytes = is.flatMap fun r => Encode.bytes r.1 r.2 := by
  induction h with
  | nil => exact ⟨.nil, rfl⟩
  | @cons start i front rest fields is more layout fits _ exact _ ih =>
    obtain ⟨here, later⟩ := List.forall_mem_append.1 short
    obtain rfl := exact here
    obtain ⟨laid, rfl⟩ := ih later
    rw [Encode.length_bytes] at laid
    exact ⟨.cons layout fits laid, rfl⟩

/-- The old boundaries of cut code, each with the new one. -/
def moves (length start : Nat) (is : List (Nat × Instruction Nat))
    (l : List (InstrId × Instruction Marker)) : List (Nat × Nat) :=
  (Encode.rowBounds length is).zip (Encode.boundaries start l)

lemma Cut.moves_from {new : Nat} (h : Cut length start bytes is fields)
    (same : List.Forall₂ (fun e r => Encode.size e.2 = Encode.size r.2) l is) {b : Nat × Nat}
    (mem : b ∈ moves length new is l) : start ≤ b.1 ∧ new ≤ b.2 ∧ b.2 + start ≤ b.1 + new := by
  induction h generalizing l new with
  | nil =>
    rw [List.forall₂_nil_right_iff.1 same] at mem
    obtain rfl := List.mem_singleton.1 mem
    exact ⟨Nat.le_refl _, Nat.le_refl _, Nat.le_of_eq (Nat.add_comm _ _)⟩
  | @cons start i front rest fields is more _ _ shorter _ _ ih =>
    obtain ⟨e, l, size, tail, rfl⟩ := List.forall₂_cons_right_iff.1 same
    rw [moves, Encode.rowBounds, List.map_cons, List.cons_append, Encode.boundaries,
      List.zip_cons_cons, List.mem_cons] at mem
    obtain rfl | mem := mem
    · exact ⟨Nat.le_refl _, Nat.le_refl _, Nat.le_of_eq (Nat.add_comm _ _)⟩
    · have := ih tail mem
      dsimp only at size
      omega

/-- Of two boundaries the later one stays the later one, and the distance between them shrinks. -/
lemma Cut.shrinks {new : Nat} (h : Cut length start bytes is fields)
    (same : List.Forall₂ (fun e r => Encode.size e.2 = Encode.size r.2) l is) :
    (moves length new is l).Pairwise fun a b => a.1 < b.1 ∧ a.2 < b.2 ∧ b.2 + a.1 ≤ b.1 + a.2 := by
  induction h generalizing l new with
  | nil =>
    rw [List.forall₂_nil_right_iff.1 same]
    exact List.pairwise_singleton _ _
  | @cons start i front rest fields is more _ _ shorter _ tailCut ih =>
    obtain ⟨e, l, size, tail, rfl⟩ := List.forall₂_cons_right_iff.1 same
    rw [moves, Encode.rowBounds, List.map_cons, List.cons_append, Encode.boundaries,
      List.zip_cons_cons, List.pairwise_cons]
    refine ⟨fun b mem => ?_, ih tail⟩
    have := tailCut.moves_from tail mem
    have := Encode.size_pos i
    dsimp only at size
    omega

/-- A distance that fits into a branch still fits when both ends have moved.  Branches count from four
bytes behind their start, which plays no part in how far the ends are apart. -/
lemma Cut.fitsS24_of_moves {new shift : Nat} (h : Cut length start bytes is fields)
    (same : List.Forall₂ (fun e r => Encode.size e.2 = Encode.size r.2) l is) {a b : Nat × Nat}
    (ha : a ∈ moves length new is l) (hb : b ∈ moves length new is l) (few : shift ≤ 4)
    (near : fitsS24 ((b.1 : Int) - (a.1 + shift : Nat)) = true) :
    fitsS24 ((b.2 : Int) - (a.2 + shift : Nat)) = true := by
  have apart : ∀ ⦃a⦄, a ∈ moves length new is l → ∀ ⦃b⦄, b ∈ moves length new is l →
      a.1 ≤ b.1 → a.2 ≤ b.2 ∧ b.2 + a.1 ≤ b.1 + a.2 := by
    refine List.Pairwise.forall_of_forall_of_flip (fun a _ _ => by omega)
      ((h.shrinks same).imp fun {a b} later _ => by omega)
      ((h.shrinks same).imp fun {a b} later earlier => by omega)
  have forth := apart ha hb
  have back := apart hb ha
  simp only [fitsS24, Bool.and_eq_true, decide_eq_true_eq] at near ⊢
  omega

lemma inside_of_addHandler {c c' : Code} {x : Handler Nat}
    (h : addHandler length c x = .ok c') :
    x.start ≤ length ∧ x.stop ≤ length ∧ x.target ≤ length := by
  by_cases start : length < x.start
  · simp [addHandler, start] at h
  · by_cases stop : length < x.stop
    · simp [addHandler, start, stop] at h
    · by_cases target : length < x.target
      · simp [addHandler, start, stop, target] at h
      · omega

lemma inside_of_foldlM_addHandler {c c' : Code} {xs : List (Handler Nat)}
    (h : xs.foldlM (addHandler length) c = .ok c') :
    ∀ x ∈ xs, x.start ≤ length ∧ x.stop ≤ length ∧ x.target ≤ length := by
  induction xs generalizing c with
  | nil => simp
  | cons x xs ih =>
    rw [List.foldlM_cons, bind_eq_ok] at h
    obtain ⟨c₁, first, rest⟩ := h
    exact List.forall_mem_cons.2 ⟨inside_of_addHandler first, ih rest⟩

lemma Cut.targets_le (h : Cut length start bytes is fields) :
    ∀ r ∈ is, ∀ o ∈ r.2.operands.targets, o ≤ length := by
  induction h with
  | nil => simp
  | @cons start i front rest fields is more _ fits _ _ _ ih =>
    refine List.forall_mem_cons.2 ⟨fun o mem => ?_, ih⟩
    obtain ⟨opcode, ops⟩ := i
    cases ops with
    | branch t =>
      obtain rfl := List.mem_singleton.1 mem
      exact fits.1
    | switch default cases => exact (fits.2.2 o mem).1
    | _ => cases mem

lemma mem_rowBounds_of_anchorAt? {o : Nat}
    (h : (MarkerTable.anchorAt? (is.mapIdx fun k r => (r.1, k)) length o).isSome) :
    o ∈ Encode.rowBounds length is := by
  rw [MarkerTable.anchorAt?] at h
  split at h
  · rename_i last
    exact List.mem_append_right _ (List.mem_singleton.2 last)
  · rw [Option.isSome_map] at h
    obtain ⟨e, mem, same⟩ := List.lookup_isSome_iff.1 h
    obtain ⟨k, lt, rfl⟩ := List.mem_mapIdx.1 mem
    rw [LawfulBEq.eq_of_beq same]
    exact List.mem_append_left _ (List.mem_map_of_mem (List.getElem_mem lt))

lemma length_boundaries (new : Nat)
    (same : List.Forall₂ (fun e r => Encode.size e.2 = Encode.size r.2) l is) :
    (Encode.boundaries new l).length = (Encode.rowBounds length is).length := by
  have all : ∀ new, (Encode.boundaries new l).length = l.length + 1 := by
    induction l generalizing is with
    | nil => exact fun _ => rfl
    | cons e l ih =>
      obtain ⟨r, is, -, tail, rfl⟩ := List.forall₂_cons_left_iff.1 same
      exact fun new => congrArg (· + 1) (ih tail _)
  rw [all, Encode.rowBounds, List.length_append, List.length_map, same.length_eq]
  rfl

lemma Cut.nodup (h : Cut length start bytes is fields)
    (same : List.Forall₂ (fun e r => Encode.size e.2 = Encode.size r.2) l is) :
    (Encode.rowBounds length is).Nodup := by
  have first : (moves length 0 is l).map Prod.fst = Encode.rowBounds length is :=
    List.map_fst_zip (Nat.le_of_eq (length_boundaries 0 same).symm)
  rw [← first, List.Nodup, List.pairwise_map]
  exact (h.shrinks same).imp fun apart => Nat.ne_of_lt apart.1

end Decode

/-- The marker stands for the position of an offset, which is a boundary of the code. -/
def Code.MarksOffset (d : Code) (bounds : List Nat) (m : Marker) (o : Nat) : Prop :=
  o ∈ bounds ∧ d.resolve? m = some (bounds.idxOf o)

/-- Decoded code, with the instructions as they lie in the bytes. -/
structure Decoded (bytes : List UInt8) (exceptions : List (Handler Nat)) (d : Code)
    (is : List (Nat × Instruction Nat)) : Prop where
  /-- The code is not too long. -/
  small : bytes.length < 0x100000000
  /-- The bytes are cut into the instructions. -/
  cut : Decode.Cut bytes.length 0 bytes is (Decode.numberFields bytes)
  /-- The instructions of the code are these, with markers for offsets. -/
  instrs : List.Forall₂ (fun x r => r.2.opcode = x.2.opcode ∧
    Operands.Rel (d.MarksOffset (Encode.rowBounds bytes.length is)) x.2.operands r.2.operands)
    d.instrs is
  /-- The handlers of the code are the given ones, with markers for offsets. -/
  handlers : List.Forall₂
    (Handler.Rel (d.MarksOffset (Encode.rowBounds bytes.length is))) d.handlers exceptions

lemma Code.decode_eq_ok {bytes : List UInt8} {exceptions : List (Handler Nat)} {d : Code}
    (h : Code.decode bytes exceptions = .ok d) : ∃ is, Decoded bytes exceptions d is := by
  simp only [Code.decode] at h
  split at h
  · cases h
  · rename_i small
    obtain ⟨is, cut, h⟩ := bind_eq_ok.1 h
    obtain ⟨c, added, h⟩ := bind_eq_ok.1 h
    split at h
    · cases h
    · rename_i t prepared
      obtain rfl := Except.ok.inj h
      have cut := Decode.instructions_eq_ok cut (Nat.le_refl _) (Nat.le_refl _)
      rw [Nat.sub_self] at cut
      obtain ⟨c', added', drafted⟩ :=
        (Decode.Drafted.empty.foldl_addInstr cut.targets_le).foldlM_addHandler (fun _ le => le)
          (Decode.inside_of_foldlM_addHandler added)
      obtain rfl := Except.ok.inj (added.symm.trans added')
      rw [List.nil_append, List.nil_append] at drafted
      have bound {m o} (waits : c.markers.Waits m o) : o ∈ Encode.rowBounds bytes.length is :=
        Decode.mem_rowBounds_of_anchorAt? (MarkerTable.known_of_prepare prepared waits)
      have bindings : t.bindings = c.markers.bindings.map
          (MarkerTable.settled (is.mapIdx fun k r => (r.1, k)) bytes.length) := by
        have known : ∀ b ∈ c.markers.bindings, ∀ o, b = .pending o → (MarkerTable.anchorAt?
            (is.mapIdx fun k r => (r.1, k)) bytes.length o).isSome := by
          rintro b mem o rfl
          obtain ⟨m, waits⟩ := List.getElem?_of_mem mem
          exact MarkerTable.known_of_prepare prepared waits
        obtain ⟨t', prepared', bindings⟩ := MarkerTable.bindings_prepare known
        obtain ⟨rfl, -⟩ := Prod.mk.inj (prepared.symm.trans prepared')
        exact bindings
      have same : List.Forall₂ (fun e r => Encode.size e.2 = Encode.size r.2) c.instrs is :=
        drafted.instrs.imp fun x r known => by rw [Encode.size, Encode.size, known.2.operandSize_eq]
      have marks : ∀ m o, c.markers.Waits m o → { c with markers := t }.MarksOffset
          (Encode.rowBounds bytes.length is) m o := fun m o waits =>
        ⟨bound waits, drafted.resolve? (cut.nodup same) (bound waits) bindings waits⟩
      refine ⟨is, Nat.lt_of_not_le small, cut, ?_, ?_⟩
      · exact drafted.instrs.imp fun x r known => ⟨known.1, known.2.mono marks⟩
      · exact drafted.handlers.imp fun x r known => ⟨marks _ _ known.start, marks _ _ known.stop,
          marks _ _ known.target, known.excType, known.varName⟩

namespace Encode

lemma check_of_fits {R : Marker → Nat → Prop} {length start position : Nat}
    {i : Instruction Marker} {j : Instruction Nat} (opcode : j.opcode = i.opcode)
    (rel : Operands.Rel R i.operands j.operands) (layout : j.operands.layout = j.opcode.layout)
    (fits : FitsOperands length start j.operands) : check position i = .ok () := by
  obtain ⟨code, ops⟩ := i
  obtain ⟨code', ops'⟩ := j
  dsimp only at opcode rel layout fits
  subst opcode
  cases rel with
  | none => simp only [check, ← layout, ne_eq, Operands.layout, not_true_eq_false, if_false]
  | byte => simp only [check, ← layout, ne_eq, Operands.layout, not_true_eq_false, if_false]
  | index =>
    simp only [check, ← layout, ne_eq, Operands.layout, not_true_eq_false, if_false]
    exact checkIndex_eq_ok.2 fits
  | pair =>
    simp only [check, ← layout, ne_eq, Operands.layout, not_true_eq_false, if_false]
    exact bind_eq_ok.2 ⟨(), checkIndex_eq_ok.2 fits.1, checkIndex_eq_ok.2 fits.2⟩
  | branch => simp only [check, ← layout, ne_eq, Operands.layout, not_true_eq_false, if_false]
  | @switch a b as bs _ rs =>
    have nonempty : as ≠ [] := by
      rintro rfl
      exact fits.1 (List.forall₂_nil_left_iff.1 rs)
    simp only [check, ← layout, ne_eq, Operands.layout, not_true_eq_false, if_false,
      List.isEmpty_iff, nonempty]
    rw [checkIndex_eq_ok, rs.length_eq]
    exact fits.2.1
  | debug =>
    simp only [check, ← layout, ne_eq, Operands.layout, not_true_eq_false, if_false]
    exact bind_eq_ok.2 ⟨(), checkIndex_eq_ok.2 fits.1, checkIndex_eq_ok.2 fits.2⟩

lemma exists_relocateInstr {c : Code} {off : Marker → Option Nat} {R : Marker → Nat → Prop}
    {length old new : Nat} {i : Instruction Marker} {j : Instruction Nat}
    (rel : Operands.Rel R i.operands j.operands) (fits : FitsOperands length old j.operands)
    (moved : ∀ m o shift, R m o → shift ≤ 4 → fitsS24 ((o : Int) - (old + shift : Nat)) = true →
      ∃ n, off m = some n ∧ fitsS24 ((n : Int) - (new + shift : Nat)) = true) :
    ∃ k, relocateInstr c off new i = .ok k := by
  obtain ⟨code, ops⟩ := i
  obtain ⟨code', ops'⟩ := j
  dsimp only at rel fits
  cases rel with
  | branch r =>
    obtain ⟨n, known, near⟩ := moved _ _ 4 r (Nat.le_refl _) fits.2
    exact ⟨_, bind_eq_ok.2 ⟨n, relocate_eq_ok.2 ⟨known, near⟩, rfl⟩⟩
  | @switch a b as bs r rs =>
    obtain ⟨-, -, near⟩ := fits
    obtain ⟨nearDefault, nearCases⟩ := List.forall_mem_cons.1 near
    obtain ⟨n, known, near⟩ := moved _ _ 0 r (Nat.zero_le _) nearDefault.2
    have all : ∀ e ∈ as.mapIdx fun k m => (new + 4 + Wire.u30Length (as.length - 1) + 3 * k, m),
        ∃ t, relocate c off e.1 new e.2 = .ok t := by
      intro e mem
      obtain ⟨k, lt, rfl⟩ := List.mem_mapIdx.1 mem
      obtain ⟨o, there, rel⟩ := exists_mem_of_mem_left rs (List.getElem_mem lt)
      obtain ⟨n, known, near⟩ := moved _ _ 0 rel (Nat.zero_le _) (nearCases o there).2
      exact ⟨n, relocate_eq_ok.2 ⟨known, near⟩⟩
    obtain ⟨ts, relocated⟩ := exists_mapM_eq_ok all
    exact ⟨_, bind_eq_ok.2 ⟨n, relocate_eq_ok.2 ⟨known, near⟩,
      bind_eq_ok.2 ⟨ts, relocated, rfl⟩⟩⟩
  | _ => exact ⟨_, rfl⟩

end Encode

namespace Decode

variable {length start : Nat} {bytes : List UInt8} {is : List (Nat × Instruction Nat)}
  {fields : List (List UInt8)} {l : List (InstrId × Instruction Marker)}

lemma Cut.fits (h : Cut length start bytes is fields) : ∀ r ∈ is,
    r.2.operands.layout = r.2.opcode.layout ∧ Encode.FitsOperands length r.1 r.2.operands := by
  induction h with
  | nil => simp
  | cons layout fits _ _ _ ih => exact List.forall_mem_cons.2 ⟨⟨layout, fits⟩, ih⟩

lemma exists_old_start {R : InstrId × Instruction Marker → Nat × Instruction Nat → Prop}
    {new : Nat} (rel : List.Forall₂ R l is) {x : (InstrId × Instruction Marker) × InstrId × Nat}
    (mem : x ∈ l.zip (Encode.starts new l)) :
    ∃ r ∈ is, R x.1 r ∧ (r.1, x.2.2) ∈ moves length new is l := by
  induction rel generalizing new with
  | nil => cases mem
  | @cons e r l is head _ ih =>
    rw [Encode.starts, List.zip_cons_cons, List.mem_cons] at mem
    obtain rfl | mem := mem
    · exact ⟨r, List.mem_cons_self, head, List.mem_cons_self⟩
    · obtain ⟨r, there, rel, moved⟩ := ih mem
      exact ⟨r, List.mem_cons_of_mem _ there, rel, List.mem_cons_of_mem _ moved⟩

/-- Instructions that lie without gaps have the boundaries of the code they came from. -/
lemma rowBounds_of_laid (h : Encode.Laid length start is)
    (same : List.Forall₂ (fun e r => Encode.size e.2 = Encode.size r.2) l is) :
    Encode.rowBounds length is = Encode.boundaries start l := by
  induction h generalizing l with
  | nil =>
    rw [List.forall₂_nil_right_iff.1 same]
    rfl
  | cons _ _ _ ih =>
    obtain ⟨e, l, size, tail, rfl⟩ := List.forall₂_cons_right_iff.1 same
    rw [Encode.boundaries, size, ← ih tail]
    rfl

end Decode

lemma Operands.Rel.unique {α β : Type} {R : α → β → Prop} {a : Operands α} {b c : Operands β}
    (functional : Relator.RightUnique R) (hb : Operands.Rel R a b) (hc : Operands.Rel R a c) :
    b = c := by
  cases hb with
  | branch r =>
    cases hc with
    | branch r' => rw [functional r r']
  | switch r rs =>
    cases hc with
    | switch r' rs' => rw [functional r r', functional.forall₂ rs rs']
  | _ => cases hc; rfl

lemma Handler.Rel.unique {α β : Type} {R : α → β → Prop} {a : Handler α} {b c : Handler β}
    (functional : Relator.RightUnique R) (hb : Handler.Rel R a b) (hc : Handler.Rel R a c) :
    b = c := by
  obtain ⟨start, stop, target, excType, varName⟩ := b
  obtain ⟨start', stop', target', excType', varName'⟩ := c
  congr 1
  · exact functional hb.start hc.start
  · exact functional hb.stop hc.stop
  · exact functional hb.target hc.target
  · exact hb.excType.symm.trans hc.excType
  · exact hb.varName.symm.trans hc.varName

namespace Decoded

variable {bytes : List UInt8} {exceptions : List (Handler Nat)} {d : Code}
  {is : List (Nat × Instruction Nat)}

lemma same_size (h : Decoded bytes exceptions d is) :
    List.Forall₂ (fun e r => Encode.size e.2 = Encode.size r.2) d.instrs is :=
  h.instrs.imp fun _ _ known => by rw [Encode.size, Encode.size, known.2.operandSize_eq]

lemma exists_move (h : Decoded bytes exceptions d is) {m : Marker} {o : Nat}
    (marks : d.MarksOffset (Encode.rowBounds bytes.length is) m o) :
    ∃ n, Encode.markerOffset? d m = some n ∧
      (o, n) ∈ Decode.moves bytes.length 0 is d.instrs := by
  obtain ⟨mem, position⟩ := marks
  have old := List.getElem?_idxOf mem
  have lt := List.idxOf_lt_length_of_mem mem
  rw [← Decode.length_boundaries 0 h.same_size] at lt
  have new := List.getElem?_eq_getElem lt
  refine ⟨_, ?_, List.mem_of_getElem? (List.getElem?_zip_eq_some.2 ⟨old, new⟩)⟩
  rw [Encode.markerOffset?_eq, position, Option.bind_some, new]

lemma end_mem_moves (h : Decoded bytes exceptions d is) :
    (bytes.length, Encode.codeLength d) ∈ Decode.moves bytes.length 0 is d.instrs := by
  refine List.mem_of_getElem? (List.getElem?_zip_eq_some.2 ⟨?_, Encode.foldl_size_eq 0 d.instrs⟩)
  rw [Encode.rowBounds, h.same_size.length_eq, List.getElem?_append_right (by simp)]
  simp

lemma exists_encode (h : Decoded bytes exceptions d is) : ∃ e, d.encode = .ok e := by
  have checked : (d.instrs.mapIdx fun position e => (position, e.2)).forM
      (fun e => Encode.check e.1 e.2) = .ok () := by
    refine forM_eq_ok.2 fun e mem => ?_
    obtain ⟨p, lt, rfl⟩ := List.mem_mapIdx.1 mem
    obtain ⟨r, there, opcode, rel⟩ := exists_mem_of_mem_left h.instrs (List.getElem_mem lt)
    obtain ⟨layout, fits⟩ := h.cut.fits r there
    exact Encode.check_of_fits opcode rel layout fits
  have placed : ∀ x ∈ d.instrs.zip (Encode.starts 0 d.instrs), ∃ r,
      (Encode.relocateInstr d (Encode.markerOffset? d) x.2.2 x.1.2 >>= fun i =>
        (pure (x.2.2, i) : Except Fault (Nat × Instruction Nat))) = .ok r := by
    intro x mem
    obtain ⟨r, there, ⟨-, rel⟩, moved⟩ := Decode.exists_old_start h.instrs mem
    obtain ⟨-, fits⟩ := h.cut.fits r there
    -- both ends of a branch are boundaries, so its distance shrinks
    have near : ∀ m o shift, d.MarksOffset (Encode.rowBounds bytes.length is) m o → shift ≤ 4 →
        fitsS24 ((o : Int) - (r.1 + shift : Nat)) = true → ∃ n, Encode.markerOffset? d m = some n ∧
          fitsS24 ((n : Int) - (x.2.2 + shift : Nat)) = true := by
      intro m o shift marks few near
      obtain ⟨n, known, target⟩ := h.exists_move marks
      exact ⟨n, known, h.cut.fitsS24_of_moves h.same_size moved target few near⟩
    obtain ⟨i, relocated⟩ := Encode.exists_relocateInstr rel fits near
    exact ⟨_, bind_eq_ok.2 ⟨i, relocated, rfl⟩⟩
  have handled : ∀ x ∈ d.handlers, ∃ y, Encode.handler d (Encode.markerOffset? d) x = .ok y := by
    intro x mem
    obtain ⟨y, -, rel⟩ := exists_mem_of_mem_left h.handlers mem
    obtain ⟨start, hstart, -⟩ := h.exists_move rel.start
    obtain ⟨stop, hstop, -⟩ := h.exists_move rel.stop
    obtain ⟨target, htarget, -⟩ := h.exists_move rel.target
    exact ⟨_, bind_eq_ok.2 ⟨start, Encode.handlerOffset_eq_ok.2 hstart, bind_eq_ok.2
      ⟨stop, Encode.handlerOffset_eq_ok.2 hstop, bind_eq_ok.2
        ⟨target, Encode.handlerOffset_eq_ok.2 htarget, rfl⟩⟩⟩⟩
  obtain ⟨rs, relocated⟩ := exists_mapM_eq_ok placed
  obtain ⟨handlers, resolved⟩ := exists_mapM_eq_ok handled
  exact ⟨_, bind_eq_ok.2 ⟨(), checked, bind_eq_ok.2 ⟨rs, relocated, bind_eq_ok.2
    ⟨handlers, resolved, rfl⟩⟩⟩⟩

lemma length_le {e : EncodedCode} {rs : List (Nat × Instruction Nat)}
    (h : Decoded bytes exceptions d is) (encoded : Encoded d e rs) :
    e.bytes.length ≤ bytes.length := by
  have total := encoded.laid.length_bytes
  have := h.cut.moves_from h.same_size h.end_mem_moves
  rw [encoded.bytes]
  omega

/-- If all numbers were the shortest ones, no boundary moves, so each marker has its old offset. -/
lemma markerOffset?_of_shortest (h : Decoded bytes exceptions d is)
    (short : ∀ field ∈ Decode.numberFields bytes, Wire.shortest field = true) {m : Marker} {o : Nat}
    (marks : d.MarksOffset (Encode.rowBounds bytes.length is) m o) :
    Encode.markerOffset? d m = some o := by
  obtain ⟨mem, position⟩ := marks
  rw [Encode.markerOffset?_eq, position, Option.bind_some,
    ← Decode.rowBounds_of_laid (h.cut.laid short).1 h.same_size]
  exact List.getElem?_idxOf mem

/-- If all numbers were the shortest ones, the code is encoded to what it was decoded from. -/
lemma eq_of_shortest {e : EncodedCode} {rs : List (Nat × Instruction Nat)}
    (h : Decoded bytes exceptions d is) (encoded : Encoded d e rs)
    (short : ∀ field ∈ Decode.numberFields bytes, Wire.shortest field = true) :
    e = ⟨bytes, exceptions⟩ := by
  obtain ⟨laid, bytes_eq⟩ := h.cut.laid short
  have unmoved : ∀ m o, d.MarksOffset (Encode.rowBounds bytes.length is) m o →
      Encode.markerOffset? d m = some o := fun _ _ => h.markerOffset?_of_shortest short
  have functional : Relator.RightUnique fun m o => Encode.markerOffset? d m = some o :=
    fun _ _ _ first second => Option.some.inj (first.symm.trans second)
  have instrs : rs.map Prod.snd = is.map Prod.snd := by
    have relocated : Relator.RightUnique fun (x : InstrId × Instruction Marker)
        (j : Instruction Nat) => j.opcode = x.2.opcode ∧ Operands.Rel
          (fun m o => Encode.markerOffset? d m = some o) x.2.operands j.operands := by
      rintro x ⟨_, _⟩ ⟨_, _⟩ ⟨rfl, rel⟩ ⟨rfl, rel'⟩
      exact congrArg _ (rel.unique functional rel')
    refine relocated.forall₂ (List.forall₂_map_right_iff.2 encoded.instrs)
      (List.forall₂_map_right_iff.2 (h.instrs.imp fun _ _ known => ?_))
    exact ⟨known.1, known.2.mono unmoved⟩
  have starts : rs.map Prod.fst = is.map Prod.fst := by
    have bounds := encoded.bounds.trans (Decode.rowBounds_of_laid laid h.same_size).symm
    exact List.append_inj_left' bounds rfl
  obtain rfl : rs = is := by
    rw [List.zip_of_prod starts instrs]
    exact (List.zip_of_prod rfl rfl).symm
  have handlers : e.exceptions = exceptions := by
    have resolved : Relator.RightUnique
        (Handler.Rel fun m o => Encode.markerOffset? d m = some o) :=
      fun _ _ _ => Handler.Rel.unique functional
    refine resolved.forall₂ encoded.handlers (h.handlers.imp fun x y rel => ?_)
    exact ⟨unmoved _ _ rel.start, unmoved _ _ rel.stop, unmoved _ _ rel.target, rel.excType,
      rel.varName⟩
  obtain ⟨code, table⟩ := e
  exact congrArg₂ _ (encoded.bytes.trans bytes_eq.symm) handlers

end Decoded

/-- Code that is decoded can be encoded again: to no more bytes than it had, which decode to the same
listing and the same handlers, and to the very same bytes and handlers if all of its numbers are
written in their shortest form. -/
theorem Code.encode_decode (bytes : List UInt8) (exceptions : List (Handler Nat)) (d : Code)
    (decoded : Code.decode bytes exceptions = .ok d) :
    ∃ e, d.encode = .ok e ∧ e.bytes.length ≤ bytes.length ∧
      (∃ d' listing handlers, Code.decode e.bytes e.exceptions = .ok d' ∧
        d.listing = .ok listing ∧ d'.listing = .ok listing ∧
        d.resolvedHandlers = .ok handlers ∧ d'.resolvedHandlers = .ok handlers) ∧
      ((∀ field ∈ Decode.numberFields bytes, Wire.shortest field = true) →
        e = ⟨bytes, exceptions⟩) := by
  obtain ⟨is, h⟩ := Code.decode_eq_ok decoded
  obtain ⟨e, encode⟩ := h.exists_encode
  obtain ⟨rs, encoded⟩ := d.encode_eq_ok encode
  have shorter := h.length_le encoded
  refine ⟨e, encode, shorter, ?_, h.eq_of_shortest encoded⟩
  exact encoded.exists_decode (Nat.lt_of_le_of_lt shorter h.small)

/-- A loop with a number, a way out and a handler. -/
def Code.numberLoop : Code where
  instrs := [(0, ⟨.label, .none⟩), (1, .withIndex .pushShort 5), (2, .branch .ifFalse 0),
    (3, .branch .jump 1), (4, ⟨.returnVoid, .none⟩)]
  markers :=
    { bindings := [.bound (.instr 4), .bound (.instr 0)]
      canonical := [(.instr 0, 1), (.instr 4, 0)] }
  handlers := [⟨1, 0, 0, 7, 0⟩]
  nextId := 5

/-- The bytes of the loop with two bytes too many for its number. -/
def Code.numberLoopLong : EncodedCode where
  bytes := [9, 37, 133, 128, 0, 18, 4, 0, 0, 16, 243, 255, 255, 71]
  exceptions := [⟨0, 13, 13, 7, 0⟩]

/-- The bytes of the loop as they are written. -/
def Code.numberLoopShort : EncodedCode where
  bytes := [9, 37, 5, 18, 4, 0, 0, 16, 245, 255, 255, 71]
  exceptions := [⟨0, 11, 11, 7, 0⟩]

/-- The loop is read from the bytes with a long number, and is written in fewer bytes, which are
reproduced. -/
theorem Code.encode_decode_numberLoop :
    (Code.decode Code.numberLoopLong.bytes Code.numberLoopLong.exceptions = .ok Code.numberLoop ∧
      ∃ e, Code.numberLoop.encode = .ok e ∧ e.bytes.length ≤ Code.numberLoopLong.bytes.length) ∧
    (Code.decode Code.numberLoopShort.bytes Code.numberLoopShort.exceptions = .ok Code.numberLoop ∧
      Code.numberLoop.encode = .ok Code.numberLoopShort) := by
  have long : Code.decode Code.numberLoopLong.bytes Code.numberLoopLong.exceptions =
      .ok Code.numberLoop := by decide +kernel
  have short : Code.decode Code.numberLoopShort.bytes Code.numberLoopShort.exceptions =
      .ok Code.numberLoop := by decide +kernel
  obtain ⟨e, encoded, shorter, -⟩ := Code.encode_decode _ _ _ long
  obtain ⟨e', encoded', -, -, same⟩ := Code.encode_decode _ _ _ short
  obtain rfl := same (by decide +kernel)
  exact ⟨⟨long, e, encoded, shorter⟩, short, encoded'⟩

end Avm
