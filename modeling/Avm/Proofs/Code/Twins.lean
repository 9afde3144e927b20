import Avm.Proofs.Code.Shrinking
import Avm.Proofs.Flow.Blanks

/-!
# Encoding twins

Twins are codes that differ only in the numbers of their constants.  Such a number decides how many bytes
its instruction takes, so the encodings differ as well; but if one twin is encoded, so is the other one,
unless a number is too large for its field or a branch is too long for its field.  Where both are
encoded, the bytes hold the same instructions up to the spelling of constants, and the same handlers.

The main statements are `Code.Twin.exists_encode` and `Code.Twin.spelling`.
-/

namespace Avm

namespace Encode

variable {c : Code} {off : Marker → Option Nat} {f : Fault} {position start : Nat}

/-- The offset from which the targets of an instruction count: a branch counts from its end, and a switch
from its start. -/
def origin (start : Nat) (i : Instruction Marker) : Nat :=
  match i.operands with
  | .branch _ => start + 4
  | _ => start

lemma le_of_check {o : Opcode} {n : Nat} (literal : o.isLiteral = true)
    (failed : check position (.withIndex o n) = .error f) : u30Bound ≤ n := by
  have layout : (Operands.index n : Operands Marker).layout = o.layout := by
    cases o
    all_goals first | rfl | cases literal
  simp only [check, Instruction.withIndex, ne_eq, layout, not_true_eq_false, if_false, checkIndex] at failed
  split at failed
  · assumption
  · cases failed

lemma relocate_eq_error {field base : Nat} {m : Marker} (failed : relocate c off field base m = .error f) :
    off m = none ∨ ∃ t, off m = some t ∧ fitsS24 ((t : Int) - base) = false := by
  rw [relocate] at failed
  split at failed
  · rename_i lost
    exact .inl lost
  · rename_i t known
    dsimp only at failed
    split at failed
    · cases failed
    · rename_i far
      exact .inr ⟨t, known, Bool.eq_false_of_not_eq_true far⟩

/-- An instruction is not relocated only if one of its targets has no offset, or is too far away. -/
lemma relocateInstr_eq_error {i : Instruction Marker} (failed : relocateInstr c off start i = .error f) :
    ∃ m ∈ i.targets, off m = none ∨ ∃ t, off m = some t ∧ fitsS24 ((t : Int) - origin start i) = false := by
  obtain ⟨o, ops⟩ := i
  cases ops with
  | branch m =>
    obtain near | ⟨t, -, failed⟩ := bind_eq_error_iff.1 failed
    · exact ⟨m, List.mem_singleton_self m, relocate_eq_error near⟩
    · cases failed
  | switch default cases =>
    obtain near | ⟨t, -, failed⟩ := bind_eq_error_iff.1 failed
    · exact ⟨default, List.mem_cons_self, relocate_eq_error near⟩
    · obtain all | ⟨ts, -, failed⟩ := bind_eq_error_iff.1 failed
      · obtain ⟨x, mem, near⟩ := exists_of_mapM_eq_error all
        obtain ⟨k, inside, rfl⟩ := List.mem_mapIdx.1 mem
        exact ⟨_, List.mem_cons_of_mem _ (List.getElem_mem inside), relocate_eq_error near⟩
      · cases failed
  | _ => cases failed

lemma handlerOffset_eq_error {m : Marker} (failed : handlerOffset c off m = .error f) : off m = none := by
  rw [handlerOffset] at failed
  split at failed
  · cases failed
  · assumption

lemma handler_eq_error {h : Handler Marker} (failed : handler c off h = .error f) :
    ∃ m ∈ [h.start, h.stop, h.target], off m = none := by
  obtain lost | ⟨s, -, failed⟩ := bind_eq_error_iff.1 failed
  · exact ⟨h.start, by simp, handlerOffset_eq_error lost⟩
  obtain lost | ⟨t, -, failed⟩ := bind_eq_error_iff.1 failed
  · exact ⟨h.stop, by simp, handlerOffset_eq_error lost⟩
  obtain lost | ⟨u, -, failed⟩ := bind_eq_error_iff.1 failed
  · exact ⟨h.target, by simp, handlerOffset_eq_error lost⟩
  · cases failed

lemma length_boundaries {α : Type} (l : List (InstrId × Instruction α)) :
    (boundaries start l).length = l.length + 1 := by
  induction l generalizing start with
  | nil => rfl
  | cons e l ih => exact congrArg (· + 1) ih

end Encode

namespace Code

variable {c c' : Code} {P Q : Pool} {e e' : EncodedCode} {f : Fault}

/-- The places that instructions and handlers refer to. -/
def mentions (c : Code) : List Marker :=
  (c.instrs.flatMap fun x => x.2.targets) ++ c.handlers.flatMap fun h => [h.start, h.stop, h.target]

/-- Every branch is short enough for its field. -/
def Near (c : Code) : Prop := ∀ e ∈ c.instrs.zip (Encode.starts 0 c.instrs), ∀ m ∈ e.1.2.targets,
  (Encode.markerOffset? c m).all (fun t : Nat => fitsS24 ((t : Int) - Encode.origin e.2.2 e.1.2)) = true

instance (c : Code) : Decidable c.Near := inferInstanceAs (Decidable (∀ _ ∈ _, _))

/-- Encoding fails at an instruction that does not pass the check, at a place that has no offset, or at
a branch that is too long. -/
lemma encode_eq_error (failed : c.encode = .error f) :
    (∃ position x, c.instrs[position]? = some x ∧ Encode.check position x.2 = .error f) ∨
      (∃ m ∈ c.mentions, Encode.markerOffset? c m = none) ∨ ¬c.Near := by
  obtain checked | ⟨u, -, failed⟩ := bind_eq_error_iff.1 failed
  · obtain ⟨x, mem, refused⟩ := exists_of_forM_eq_error checked
    obtain ⟨position, inside, rfl⟩ := List.mem_mapIdx.1 mem
    exact .inl ⟨position, _, List.getElem?_eq_getElem inside, refused⟩
  right
  obtain relocated | ⟨is, -, failed⟩ := bind_eq_error_iff.1 failed
  · obtain ⟨⟨x, o⟩, mem, refused⟩ := exists_of_mapM_eq_error relocated
    obtain refused | ⟨i, -, refused⟩ := bind_eq_error_iff.1 refused
    · obtain ⟨m, target, lost | ⟨t, known, far⟩⟩ := Encode.relocateInstr_eq_error refused
      · exact .inl ⟨m, List.mem_append_left _ (List.mem_flatMap.2 ⟨x, (List.of_mem_zip mem).1, target⟩), lost⟩
      · refine .inr fun near => Bool.false_ne_true (far.symm.trans ?_)
        have all := near _ mem m target
        rw [show Encode.markerOffset? c m = some t from known] at all
        exact all
    · cases refused
  obtain handled | ⟨hs, -, failed⟩ := bind_eq_error_iff.1 failed
  · obtain ⟨h, mem, refused⟩ := exists_of_mapM_eq_error handled
    obtain ⟨m, place, lost⟩ := Encode.handler_eq_error refused
    exact .inl ⟨m, List.mem_append_right _ (List.mem_flatMap.2 ⟨h, mem, place⟩), lost⟩
  · cases failed

lemma isSome_of_mem_mentions (encoded : c.encode = .ok e) {m : Marker} (mem : m ∈ c.mentions) :
    (Encode.markerOffset? c m).isSome := by
  obtain ⟨rs, h⟩ := c.encode_eq_ok encoded
  obtain target | place := List.mem_append.1 mem
  · obtain ⟨x, mem, target⟩ := List.mem_flatMap.1 target
    obtain ⟨r, -, -, rel⟩ := exists_mem_of_mem_left h.instrs mem
    obtain ⟨o, -, known⟩ := exists_mem_of_mem_left rel.targets target
    rw [known]
    rfl
  · obtain ⟨x, mem, place⟩ := List.mem_flatMap.1 place
    obtain ⟨y, -, rel⟩ := exists_mem_of_mem_left h.handlers mem
    simp only [List.mem_cons, List.not_mem_nil, or_false] at place
    obtain rfl | rfl | rfl := place
    · exact Option.isSome_of_eq_some rel.start
    · exact Option.isSome_of_eq_some rel.stop
    · exact Option.isSome_of_eq_some rel.target

lemma eq_of_listing {is : List (Instruction Nat)} (listed : c.listing = .ok is) :
    is = c.instrs.map fun x => x.2.map fun m => (c.resolve? m).getD 0 := by
  rw [listing, mapM_eq_ok] at listed
  rw [← List.forall₂_eq_eq_eq, List.forall₂_map_right_iff]
  refine listed.flip.imp fun i x resolved => ?_
  rw [resolveInstr] at resolved
  split at resolved
  · cases resolved
  · exact (Except.ok.inj resolved).symm

namespace Twin

lemma mentions (h : Twin P Q c c') : c.mentions = c'.mentions := by
  have targets : (c.instrs.flatMap fun x => x.2.targets) = c'.instrs.flatMap fun x => x.2.targets := by
    have blank (c : Code) : (c.instrs.flatMap fun x => x.2.targets) =
        c.blank.instrs.flatMap fun x => x.2.targets := by
      simp [Code.blank, List.flatMap_map]
    rw [blank c, h.blank_eq, ← blank c']
  rw [Code.mentions, Code.mentions, targets, h.handlers]

lemma exists_markerOffset? (h : Twin P Q c c') {m : Marker} (known : (Encode.markerOffset? c m).isSome) :
    (Encode.markerOffset? c' m).isSome := by
  rw [Encode.markerOffset?_eq, h.resolve?] at known
  rw [Encode.markerOffset?_eq]
  cases place : c'.resolve? m with
  | none => simp [place] at known
  | some p =>
    rw [place, Option.bind_some, isSome_getElem?, Encode.length_boundaries] at known
    rw [Option.bind_some, isSome_getElem?, Encode.length_boundaries, ← h.instrs.length_eq]
    exact known

/-- If one twin is encoded, so is the other one, if its numbers and its branches fit their fields. -/
lemma exists_encode (h : Twin P Q c c') (encoded : c.encode = .ok e) (fits : Q.Fits) (near : c'.Near) :
    ∃ e', c'.encode = .ok e' := by
  cases failed : c'.encode with
  | ok e' => exact ⟨e', rfl⟩
  | error f =>
    obtain ⟨position, x', here', refused⟩ | ⟨m, mem, lost⟩ | far := encode_eq_error failed
    · obtain ⟨u, checked, -⟩ := bind_eq_ok.1 encoded
      obtain ⟨inside', rfl⟩ := List.getElem?_eq_some_iff.1 here'
      obtain ⟨length, all⟩ := List.forall₂_iff_get.1 h.instrs
      have inside : position < c.instrs.length := length ▸ inside'
      have passed : Encode.check position c.instrs[position].2 = .ok () := by
        refine forM_eq_ok.1 checked (position, c.instrs[position].2) ?_
        exact List.mem_mapIdx.2 ⟨position, inside, rfl⟩
      have alike := (all position inside inside').2
      rw [List.get_eq_getElem, List.get_eq_getElem] at alike
      obtain same | ⟨o, n, m, literal, -, right⟩ := alike.eq_or_literal
      · rw [← same, passed] at refused
        cases refused
      · obtain ⟨s, -, spelt⟩ := alike
        rw [right] at refused spelt
        have small := Instruction.lt_of_spell? fits literal spelt
        exact absurd (Encode.le_of_check literal refused) (Nat.not_le.2 small)
    · rw [← h.mentions] at mem
      have known := h.exists_markerOffset? (isSome_of_mem_mentions encoded mem)
      rw [lost] at known
      cases known
    · exact absurd near far

lemma spelling (h : Twin P Q c c') {is is' : List (Instruction Nat)} (listed : c.listing = .ok is)
    (listed' : c'.listing = .ok is') :
    ∃ ss, is.mapM (Instruction.spell? P) = some ss ∧ is'.mapM (Instruction.spell? Q) = some ss := by
  rw [eq_of_listing listed, eq_of_listing listed', ← funext h.resolve?]
  generalize (fun m => (c.resolve? m).getD 0) = place
  have all := h.instrs
  generalize c.instrs = l at all
  generalize c'.instrs = l' at all
  induction all with
  | nil => exact ⟨[], rfl, rfl⟩
  | cons same _ ih =>
    obtain ⟨s, left, right⟩ := same.2
    obtain ⟨ss, rest, rest'⟩ := ih
    refine ⟨s.map place :: ss, ?_, ?_⟩
    · rw [List.map_cons, List.mapM_cons, Instruction.spell?_map, left, rest]
      rfl
    · rw [List.map_cons, List.mapM_cons, Instruction.spell?_map, right, rest']
      rfl

end Twin

end Code

end Avm
