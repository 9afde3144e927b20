import Avm.Proofs.Code.Reading

/-!
# Decoding undoes encoding

Code that was encoded decodes to code with the same listing and the same handlers.  Both sides are
compared through the instructions as they lie in the bytes, whose targets are offsets: on the way out
each marker of the code stands for the offset at its position (`Encoded`), on the way in each offset
gets a marker that waits for it (`Drafted`) and is then bound to the position of the offset.  The
position of an offset is its place among the boundaries, so both listings are the same function of the
instructions in the bytes (`listing_eq_ok`).
-/

namespace Avm

lemma Code.position?_of_range {c : Code} {n k : Nat} (ids : c.instrs.map (·.1) = List.range n) (inside : k < n) :
    c.position? k = some k := by
  have same : c.instrs.findIdx? (·.1 == k) = (c.instrs.map (·.1)).findIdx? (· == k) := by
    rw [List.findIdx?_map]
    rfl
  rw [Code.position?, same, ids, List.findIdx?_eq_some_iff_getElem]
  refine ⟨by simpa using inside, by simp, fun j less => ?_⟩
  simp only [List.getElem_range, beq_iff_eq]
  omega

namespace Decode

open MarkerTable (Drafting Extends)

variable {P : Nat → Prop}

lemma markTargets_rel {t : MarkerTable} {ops : Operands Nat} (h : Drafting P t)
    (good : ∀ o ∈ ops.targets, P o) :
    Drafting P (markTargets t ops).1 ∧ t.Extends (markTargets t ops).1 ∧
      Operands.Rel (markTargets t ops).1.Waits (markTargets t ops).2 ops := by
  cases ops with
  | none => exact ⟨h, .refl t, .none⟩
  | byte value => exact ⟨h, .refl t, .byte⟩
  | index value => exact ⟨h, .refl t, .index⟩
  | pair first second => exact ⟨h, .refl t, .pair⟩
  | debug kind name register extra => exact ⟨h, .refl t, .debug⟩
  | branch target =>
    obtain ⟨drafting, longer, waits⟩ := h.markOffset (good target (List.mem_singleton_self _))
    exact ⟨drafting, longer, .branch waits⟩
  | switch default cases =>
    obtain ⟨goodDefault, goodCases⟩ := List.forall_mem_cons.1 good
    obtain ⟨drafting, longer, waits⟩ := h.markOffset goodDefault
    obtain ⟨t', ms, eq, drafting', longer', all⟩ := drafting.foldl_markOffset [] goodCases
    rw [List.nil_append] at eq
    simp only [markTargets, eq]
    exact ⟨drafting', longer.trans longer', .switch (longer'.waits waits) all⟩

/-- Code that was read so far: its instructions and handlers are the given ones, with markers that wait
for the offsets. -/
structure Drafted (P : Nat → Prop) (c : Code) (rs : List (Nat × Instruction Nat))
    (hs : List (Handler Nat)) : Prop where
  /-- Instructions are numbered in their order. -/
  ids : c.instrs.map (·.1) = List.range rs.length
  /-- The next number is the number of instructions. -/
  next : c.nextId = rs.length
  /-- All markers wait. -/
  markers : Drafting P c.markers
  /-- The instructions are the given ones. -/
  instrs : List.Forall₂ (fun x r => r.2.opcode = x.2.opcode ∧
    Operands.Rel c.markers.Waits x.2.operands r.2.operands) c.instrs rs
  /-- The handlers are the given ones. -/
  handlers : List.Forall₂ (Handler.Rel c.markers.Waits) c.handlers hs

lemma Drafted.empty : Drafted P {} [] [] := ⟨rfl, rfl, .empty, .nil, .nil⟩

lemma Handler.Rel.extends {t t' : MarkerTable} {h : Handler Marker} {h' : Handler Nat}
    (longer : t.Extends t') (rel : Handler.Rel t.Waits h h') : Handler.Rel t'.Waits h h' :=
  ⟨longer.waits rel.start, longer.waits rel.stop, longer.waits rel.target, rel.excType,
    rel.varName⟩

lemma Drafted.addInstr {c : Code} {rs : List (Nat × Instruction Nat)} {hs : List (Handler Nat)}
    {r : Nat × Instruction Nat} (h : Drafted P c rs hs)
    (good : ∀ o ∈ r.2.operands.targets, P o) :
    Drafted P (Decode.addInstr c r.2) (rs ++ [r]) hs := by
  obtain ⟨drafting, longer, rel⟩ := markTargets_rel h.markers good
  refine ⟨?_, ?_, drafting, ?_, h.handlers.imp fun _ _ => Handler.Rel.extends longer⟩
  · simp only [Decode.addInstr, Code.push, List.map_append, h.ids, List.map_cons, List.map_nil,
      h.next, List.length_append, List.length_singleton, List.range_succ]
  · simp only [Decode.addInstr, Code.push, h.next, List.length_append, List.length_singleton]
  · refine List.rel_append (h.instrs.imp fun _ _ known => ⟨known.1, ?_⟩) (.cons ⟨rfl, rel⟩ .nil)
    exact known.2.mono fun _ _ => longer.waits

lemma Drafted.foldl_addInstr {c : Code} {rs more : List (Nat × Instruction Nat)}
    {hs : List (Handler Nat)} (h : Drafted P c rs hs)
    (good : ∀ r ∈ more, ∀ o ∈ r.2.operands.targets, P o) :
    Drafted P (more.foldl (fun c e => Decode.addInstr c e.2) c) (rs ++ more) hs := by
  induction more generalizing c rs with
  | nil => rwa [List.append_nil]
  | cons r more ih =>
    obtain ⟨first, rest⟩ := List.forall_mem_cons.1 good
    have := ih (h.addInstr first) rest
    rwa [List.append_assoc, List.singleton_append] at this

lemma Drafted.addHandler {length : Nat} {c : Code} {rs : List (Nat × Instruction Nat)}
    {hs : List (Handler Nat)} {x : Handler Nat} (h : Drafted P c rs hs)
    (inside : ∀ o, P o → o ≤ length) (start : P x.start) (stop : P x.stop) (target : P x.target) :
    ∃ c', Decode.addHandler length c x = .ok c' ∧ Drafted P c' rs (hs ++ [x]) := by
  obtain ⟨drafting₁, longer₁, waits₁⟩ := h.markers.markOffset start
  obtain ⟨drafting₂, longer₂, waits₂⟩ := drafting₁.markOffset stop
  obtain ⟨drafting₃, longer₃, waits₃⟩ := drafting₂.markOffset target
  have longer := longer₁.trans (longer₂.trans longer₃)
  have eq : Decode.addHandler length c x = .ok { c with
      markers := (((c.markers.markOffset x.start).1.markOffset x.stop).1.markOffset x.target).1
      handlers := c.handlers ++ [⟨(c.markers.markOffset x.start).2,
        ((c.markers.markOffset x.start).1.markOffset x.stop).2,
        (((c.markers.markOffset x.start).1.markOffset x.stop).1.markOffset x.target).2,
        x.excType, x.varName⟩] } := by
    simp [Decode.addHandler, Nat.not_lt.2 (inside _ start), Nat.not_lt.2 (inside _ stop),
      Nat.not_lt.2 (inside _ target)]
  refine ⟨_, eq, h.ids, h.next, drafting₃, ?_, ?_⟩
  · exact h.instrs.imp fun _ _ known => ⟨known.1, known.2.mono fun _ _ => longer.waits⟩
  · refine List.rel_append (h.handlers.imp fun _ _ => Handler.Rel.extends longer) (.cons ?_ .nil)
    exact ⟨longer₃.waits (longer₂.waits waits₁), longer₃.waits waits₂, waits₃, rfl, rfl⟩

lemma Drafted.foldlM_addHandler {length : Nat} {c : Code} {rs : List (Nat × Instruction Nat)}
    {hs more : List (Handler Nat)} (h : Drafted P c rs hs) (inside : ∀ o, P o → o ≤ length)
    (good : ∀ x ∈ more, P x.start ∧ P x.stop ∧ P x.target) :
    ∃ c', more.foldlM (Decode.addHandler length) c = .ok c' ∧ Drafted P c' rs (hs ++ more) := by
  induction more generalizing c hs with
  | nil => exact ⟨c, rfl, by rwa [List.append_nil]⟩
  | cons x more ih =>
    obtain ⟨⟨start, stop, target⟩, rest⟩ := List.forall_mem_cons.1 good
    obtain ⟨c', hc', drafted⟩ := h.addHandler inside start stop target
    obtain ⟨d, hd, all⟩ := ih drafted rest
    refine ⟨d, by rw [List.foldlM_cons, hc', ok_bind, hd], ?_⟩
    rwa [List.append_assoc, List.singleton_append] at all

lemma lookup_mapIdx {rs : List (Nat × Instruction Nat)} {p o : Nat} (first : Nat)
    (nodup : (rs.map (·.1)).Nodup) (at_p : (rs.map (·.1))[p]? = some o) :
    (rs.mapIdx fun k r => (r.1, k + first)).lookup o = some (p + first) := by
  induction rs generalizing p first with
  | nil => simp at at_p
  | cons r rs ih =>
    rw [List.map_cons, List.nodup_cons] at nodup
    rw [List.mapIdx_cons, List.lookup_cons]
    cases p with
    | zero =>
      simp only [List.map_cons, List.getElem?_cons_zero, Option.some.injEq] at at_p
      simp [at_p]
    | succ p =>
      rw [List.map_cons, List.getElem?_cons_succ] at at_p
      have ne : o ≠ r.1 := by
        rintro rfl
        exact nodup.1 (List.mem_of_getElem? at_p)
      have := ih (first + 1) nodup.2 at_p
      simp only [beq_false_of_ne ne]
      rw [show p + 1 + first = p + (first + 1) from by omega, ← this]
      congr 2
      funext k r
      rw [Nat.add_right_comm, Nat.add_assoc]

lemma anchorAt?_boundary {rs : List (Nat × Instruction Nat)} {length p o : Nat}
    (nodup : (Encode.rowBounds length rs).Nodup)
    (at_p : (Encode.rowBounds length rs)[p]? = some o) :
    MarkerTable.anchorAt? (rs.mapIdx fun k r => (r.1, k)) length o =
      some (if p < rs.length then .instr p else .codeEnd) := by
  rw [Encode.rowBounds] at nodup at_p
  obtain ⟨starts, -, apart⟩ := List.nodup_append.1 nodup
  by_cases lt : p < rs.length
  · rw [List.getElem?_append_left (by simpa using lt)] at at_p
    have ne : o ≠ length := apart _ (List.mem_of_getElem? at_p) _ (List.mem_singleton_self _)
    rw [MarkerTable.anchorAt?, if_neg ne, if_pos lt]
    have := lookup_mapIdx 0 starts at_p
    simp only [Nat.add_zero] at this
    rw [this, Option.map_some]
  · rw [List.getElem?_append_right (by simpa using lt)] at at_p
    have eq : o = length := List.mem_singleton.1 (List.mem_of_getElem? at_p)
    rw [MarkerTable.anchorAt?, if_pos eq, if_neg lt]

lemma Drafted.resolve? {c : Code} {rs : List (Nat × Instruction Nat)} {hs : List (Handler Nat)}
    {length : Nat} {t : MarkerTable} {m o : Nat} (h : Drafted P c rs hs)
    (nodup : (Encode.rowBounds length rs).Nodup) (mem : o ∈ Encode.rowBounds length rs)
    (bindings : t.bindings = c.markers.bindings.map
      (MarkerTable.settled (rs.mapIdx fun k r => (r.1, k)) length))
    (waits : c.markers.Waits m o) :
    { c with markers := t }.resolve? m = some ((Encode.rowBounds length rs).idxOf o) := by
  have at_p := List.getElem?_idxOf mem
  have lt : (Encode.rowBounds length rs).idxOf o < rs.length + 1 := by
    simpa [Encode.rowBounds] using List.idxOf_lt_length_of_mem mem
  have size : c.instrs.length = rs.length := h.instrs.length_eq
  generalize (Encode.rowBounds length rs).idxOf o = p at at_p lt
  have target := MarkerTable.target?_of_waits bindings waits (anchorAt?_boundary nodup at_p)
  rw [Code.resolve?, target]
  by_cases inside : p < rs.length
  · rw [if_pos inside]
    exact Code.position?_of_range h.ids inside
  · rw [if_neg inside]
    simp only [Code.size, size, Option.some.injEq]
    omega

end Decode

/-- If each target of an instruction stands for the position of its offset, the instruction resolves to
the one with positions for offsets. -/
lemma Code.resolveInstr_eq_ok {α : Type} {c : Code} {R : Marker → α → Prop} {pos : α → Nat}
    {x : InstrId × Instruction Marker} {i : Instruction α}
    (known : ∀ m o, R m o → c.resolve? m = some (pos o)) (opcode : i.opcode = x.2.opcode)
    (rel : Operands.Rel R x.2.operands i.operands) : c.resolveInstr x = .ok (i.map pos) := by
  have none_missing : x.2.targets.reverse.find? (fun m => (c.resolve? m).isNone) = none := by
    rw [List.find?_eq_none]
    intro m mem
    obtain ⟨o, -, r⟩ := exists_mem_of_mem_left rel.targets (List.mem_reverse.1 mem)
    simp [known m o r]
  have same : x.2.operands.map (fun m => (c.resolve? m).getD 0) = i.operands.map pos :=
    (rel.mono fun m o r => by rw [known m o r, Option.getD_some]).map_eq_map
  rw [Code.resolveInstr, none_missing, Instruction.map, Instruction.map, opcode, same]

/-- If each marker stands for the position of its offset, the listing is that of the instructions with
positions for offsets. -/
lemma Code.listing_eq_ok {c : Code} {R : Marker → Nat → Prop} {pos : Nat → Nat}
    {rs : List (Nat × Instruction Nat)} (known : ∀ m o, R m o → c.resolve? m = some (pos o))
    (h : List.Forall₂ (fun x r => r.2.opcode = x.2.opcode ∧
      Operands.Rel R x.2.operands r.2.operands) c.instrs rs) :
    c.listing = .ok (rs.map fun r => r.2.map pos) := by
  rw [Code.listing, mapM_eq_ok, List.forall₂_map_right_iff]
  exact h.imp fun x r hr => resolveInstr_eq_ok known hr.1 hr.2

/-- A handler with other places. -/
def Handler.map {α β : Type} (f : α → β) (h : Handler α) : Handler β :=
  ⟨f h.start, f h.stop, f h.target, h.excType, h.varName⟩

lemma Code.resolvedHandlers_eq_ok {α : Type} {c : Code} {R : Marker → α → Prop} {pos : α → Nat}
    {hs : List (Handler α)} (known : ∀ m o, R m o → c.resolve? m = some (pos o))
    (h : List.Forall₂ (Handler.Rel R) c.handlers hs) :
    c.resolvedHandlers = .ok (hs.map (Handler.map pos)) := by
  rw [Code.resolvedHandlers, mapM_eq_ok, List.forall₂_map_right_iff]
  refine h.imp fun x r rel => ?_
  simp only [Code.resolveHandler, Code.resolveHandlerMarker, known _ _ rel.start,
    known _ _ rel.stop, known _ _ rel.target, ok_bind, pure_eq_ok, Handler.map, rel.excType,
    rel.varName]

namespace Encoded

variable {c : Code} {e : EncodedCode} {rs : List (Nat × Instruction Nat)}

lemma nodup (h : Encoded c e rs) : (Encode.rowBounds (Encode.codeLength c) rs).Nodup := by
  rw [h.bounds]
  exact Encode.nodup_boundaries 0 c.instrs

lemma mem_bounds (h : Encoded c e rs) {m o : Nat} (known : Encode.markerOffset? c m = some o) :
    o ∈ Encode.rowBounds (Encode.codeLength c) rs := by
  rw [Encode.markerOffset?_eq, Option.bind_eq_some_iff] at known
  obtain ⟨p, -, at_p⟩ := known
  rw [h.bounds]
  exact List.mem_of_getElem? at_p

lemma resolve? (h : Encoded c e rs) {m o : Nat} (known : Encode.markerOffset? c m = some o) :
    c.resolve? m = some ((Encode.rowBounds (Encode.codeLength c) rs).idxOf o) := by
  rw [Encode.markerOffset?_eq, Option.bind_eq_some_iff, ← h.bounds] at known
  obtain ⟨p, hp, at_p⟩ := known
  obtain ⟨lt, rfl⟩ := List.getElem?_eq_some_iff.1 at_p
  rw [hp, h.nodup.idxOf_getElem p lt]

lemma decode_eq_ok (h : Encoded c e rs) (small : e.bytes.length < 0x100000000) :
    ∃ d t, Code.decode e.bytes e.exceptions = .ok { d with markers := t } ∧
      Decode.Drafted (· ∈ Encode.rowBounds (Encode.codeLength c) rs) d rs e.exceptions ∧
      t.bindings = d.markers.bindings.map
        (MarkerTable.settled (rs.mapIdx fun k r => (r.1, k)) (Encode.codeLength c)) := by
  have total : e.bytes.length = Encode.codeLength c := by
    rw [h.bytes, ← h.laid.length_bytes, Nat.zero_add]
  have read : Decode.instructions (Encode.codeLength c) (Encode.codeLength c) e.bytes = .ok rs := by
    rw [h.bytes]
    exact Decode.instructions_laid h.laid (by simpa using Decode.length_le_of_laid h.laid)
  have targets : ∀ r ∈ rs, ∀ o ∈ r.2.operands.targets,
      o ∈ Encode.rowBounds (Encode.codeLength c) rs := by
    intro r mem o target
    obtain ⟨x, -, -, rel⟩ := exists_mem_of_mem_right h.instrs mem
    obtain ⟨m, -, known⟩ := exists_mem_of_mem_right rel.targets target
    exact h.mem_bounds known
  have places : ∀ x ∈ e.exceptions, x.start ∈ Encode.rowBounds (Encode.codeLength c) rs ∧
      x.stop ∈ Encode.rowBounds (Encode.codeLength c) rs ∧
      x.target ∈ Encode.rowBounds (Encode.codeLength c) rs := by
    intro x mem
    obtain ⟨y, -, rel⟩ := exists_mem_of_mem_right h.handlers mem
    exact ⟨h.mem_bounds rel.start, h.mem_bounds rel.stop, h.mem_bounds rel.target⟩
  have inside : ∀ o, o ∈ Encode.rowBounds (Encode.codeLength c) rs → o ≤ Encode.codeLength c := by
    intro o mem
    rw [h.bounds] at mem
    exact Encode.le_foldl_of_mem_boundaries mem
  obtain ⟨d, hd, drafted⟩ :=
    (Decode.Drafted.empty.foldl_addInstr targets).foldlM_addHandler inside places
  rw [List.nil_append, List.nil_append] at drafted
  have known : ∀ b ∈ d.markers.bindings, ∀ o, b = .pending o →
      (MarkerTable.anchorAt? (rs.mapIdx fun k r => (r.1, k)) (Encode.codeLength c) o).isSome := by
    rintro b mem o rfl
    obtain ⟨o', eq, place⟩ := drafted.markers.pending _ mem
    obtain rfl := Binding.pending.inj eq
    rw [Decode.anchorAt?_boundary h.nodup (List.getElem?_idxOf place)]
    rfl
  obtain ⟨t, ht, bindings⟩ := MarkerTable.bindings_prepare known
  refine ⟨d, t, ?_, drafted, bindings⟩
  have fits : ¬ 0x100000000 ≤ Encode.codeLength c := by omega
  simp only [Code.decode, total, fits, if_false, read, ok_bind, hd, ht, pure_eq_ok]

/-- What is decoded has the listing and the handlers of the code that was encoded. -/
lemma exists_decode (h : Encoded c e rs) (small : e.bytes.length < 0x100000000) :
    ∃ d listing handlers, Code.decode e.bytes e.exceptions = .ok d ∧
      c.listing = .ok listing ∧ d.listing = .ok listing ∧
      c.resolvedHandlers = .ok handlers ∧ d.resolvedHandlers = .ok handlers := by
  obtain ⟨d, t, decoded, drafted, bindings⟩ := h.decode_eq_ok small
  have out : ∀ m o, Encode.markerOffset? c m = some o → c.resolve? m =
      some ((Encode.rowBounds (Encode.codeLength c) rs).idxOf o) := fun _ _ => h.resolve?
  have back : ∀ m o, d.markers.Waits m o → { d with markers := t }.resolve? m =
      some ((Encode.rowBounds (Encode.codeLength c) rs).idxOf o) := by
    intro m o waits
    obtain ⟨_, pending, place⟩ := drafted.markers.pending _ (List.mem_of_getElem? waits)
    obtain rfl := Binding.pending.inj pending
    exact drafted.resolve? h.nodup place bindings waits
  exact ⟨_, _, _, decoded, Code.listing_eq_ok out h.instrs, Code.listing_eq_ok back drafted.instrs,
    Code.resolvedHandlers_eq_ok out h.handlers, Code.resolvedHandlers_eq_ok back drafted.handlers⟩

end Encoded

/-- Whatever code is encoded to is decoded again, and the code that comes out has the same listing and
the same handlers, position by position. -/
theorem Code.decode_encode (c : Code) (e : EncodedCode) (encoded : c.encode = .ok e)
    (small : e.bytes.length < 0x100000000) :
    ∃ d listing handlers, Code.decode e.bytes e.exceptions = .ok d ∧
      c.listing = .ok listing ∧ d.listing = .ok listing ∧
      c.resolvedHandlers = .ok handlers ∧ d.resolvedHandlers = .ok handlers := by
  obtain ⟨rs, h⟩ := c.encode_eq_ok encoded
  exact h.exists_decode small

/-- Code with branches back, ahead and to the end, a switch, long operands and a handler. -/
def Code.branching : Code where
  instrs := [(4, ⟨.label, .none⟩), (9, .withByte .pushByte 200),
    (2, .withPair .callProperty 300 20000), (7, ⟨.debug, .debug 1 1048576 3 5⟩),
    (1, .switch 2 [0, 1, 2]), (3, .branch .ifTrue 2), (5, .branch .jump 0)]
  markers := { bindings := [.bound (.instr 4), .bound (.instr 3), .bound .codeEnd] }
  handlers := [⟨0, 2, 1, 7, 0⟩]
  nextId := 10

/-- The bytes of that code. -/
def Code.branchingBytes : EncodedCode where
  bytes := [9, 36, 200, 70, 172, 2, 160, 156, 1, 239, 1, 128, 128, 64, 3, 5, 27, 22, 0, 0, 2, 240,
    255, 255, 14, 0, 0, 22, 0, 0, 17, 4, 0, 0, 16, 218, 255, 255]
  exceptions := [⟨0, 38, 30, 7, 0⟩]

/-- The code with branches of every kind is one that decodes again. -/
theorem Code.decode_encode_branching :
    Code.branching.encode = .ok Code.branchingBytes ∧
      Code.branchingBytes.bytes.length < 0x100000000 ∧
      ∃ d listing handlers,
        Code.decode Code.branchingBytes.bytes Code.branchingBytes.exceptions = .ok d ∧
        Code.branching.listing = .ok listing ∧ d.listing = .ok listing ∧
        Code.branching.resolvedHandlers = .ok handlers ∧ d.resolvedHandlers = .ok handlers :=
  have encoded : Code.branching.encode = .ok Code.branchingBytes := by decide +kernel
  have small : Code.branchingBytes.bytes.length < 0x100000000 := by decide
  ⟨encoded, small, Code.decode_encode Code.branching Code.branchingBytes encoded small⟩

end Avm
