import Avm.Flow.Sweep
import Avm.Proofs.Code.Anchoring
import Avm.Proofs.Flow.Ways

/-!
# Removing instructions

When an instruction is removed, its markers move to the one behind it.  So whatever instructions go, a marker keeps the
instructions that stay on the side where they were: it stands behind as many of them as before.  That determines its
position.

The main statement is `exists_removeAll`.
-/

namespace Avm.Code

open MarkerTable

variable {c c' c'' : Code} {keep keep' : InstrId → Bool} {id : InstrId} {i : Instruction Marker} {p q : Nat}
  {m : Marker}

/-- The number of instructions that stay before a position. -/
def ahead (c : Code) (keep : InstrId → Bool) (q : Nat) : Nat := ((c.instrs.take q).filter fun e => keep e.1).length

/-- Instructions that are not kept are removed, and markers move to what stays behind them. -/
structure Thins (keep : InstrId → Bool) (c c' : Code) : Prop where
  instrs : c'.instrs = c.instrs.filter fun e => keep e.1
  handlers : c'.handlers = c.handlers
  covers : c'.markers.Covers
  resolve? : ∀ m, c'.resolve? m = (c.resolve? m).map (c.ahead keep)

section Lists

variable {α : Type} {f : α → Bool}

lemma take_filter (l : List α) (q : Nat) : (l.filter f).take ((l.take q).filter f).length = (l.take q).filter f := by
  conv_lhs => rw [← List.take_append_drop q l, List.filter_append]
  rw [List.take_append_drop, List.take_left]

lemma filter_ne_of_getElem? {l : List (InstrId × α)} {a : α} (once : (l.map (·.1)).Nodup)
    (here : l[p]? = some (id, a)) :
    (l.filter fun e => e.1 != id) = l.eraseIdx p := by
  induction l generalizing p with
  | nil => cases here
  | cons e l ih =>
    obtain ⟨new, once⟩ := List.nodup_cons.1 once
    cases p with
    | zero =>
      obtain rfl := Option.some.inj here
      rw [List.filter_cons_of_neg (by simp), List.eraseIdx_cons_zero, List.filter_eq_self]
      intro e mem
      refine bne_iff_ne.2 fun same => new (List.mem_map.2 ⟨e, mem, same⟩)
    | succ p =>
      have other : e.1 ≠ id := by
        rintro rfl
        exact new (List.mem_map.2 ⟨_, List.mem_of_getElem? here, rfl⟩)
      rw [List.filter_cons, if_pos (bne_iff_ne.2 other), List.eraseIdx_cons_succ, ih once here]

end Lists

section Positions

lemma ahead_succ {e : InstrId × Instruction Marker} (here : c.at? p = some e) :
    c.ahead keep (p + 1) = c.ahead keep p + if keep e.1 then 1 else 0 := by
  rw [ahead, ahead, List.take_add_one, List.filter_append, List.length_append, show c.instrs[p]? = some e from here]
  cases kept : keep e.1 <;> simp [kept]

lemma ahead_mono (less : p ≤ q) : c.ahead keep p ≤ c.ahead keep q :=
  ((List.take_sublist_take_left less).filter _).length_le

lemma ahead_size : c.ahead keep c.size = (c.instrs.filter fun e => keep e.1).length := by
  rw [ahead, size, List.take_length]

lemma at?_ahead {e : InstrId × Instruction Marker} (instrs : c'.instrs = c.instrs.filter fun e => keep e.1)
    (here : c.at? p = some e) (kept : keep e.1 = true) : c'.at? (c.ahead keep p) = some e := by
  obtain ⟨inside, rfl⟩ := List.getElem?_eq_some_iff.1 here
  have split : c.instrs = c.instrs.take p ++ c.instrs[p] :: c.instrs.drop (p + 1) := by
    rw [← List.drop_eq_getElem_cons, List.take_append_drop]
  rw [at?, instrs]
  conv_lhs => rw [split, List.filter_append, List.filter_cons, if_pos kept]
  rw [List.getElem?_append_right (by rw [ahead]), ahead, Nat.sub_self]
  rfl

lemma le_of_resolve? (found : c.resolve? m = some q) : q ≤ c.size := by
  rw [Code.resolve?] at found
  split at found
  · obtain ⟨i, here⟩ := at?_of_position? found
    exact (lt_size_of_at? here).le
  · exact (Option.some.inj found).ge
  · cases found

lemma position?_eq_none_of_sublist (sub : c'.instrs.Sublist c.instrs) (absent : c.position? id = none) :
    c'.position? id = none :=
  List.findIdx?_eq_none_iff.2 fun e mem => List.findIdx?_eq_none_iff.1 absent e (sub.subset mem)

lemma ne_anchorAfter (here : c.at? p = some (id, i)) : Anchor.instr id ≠ c.anchorAfter p := by
  rw [anchorAfter]
  split
  · rename_i next j behind
    rintro same
    cases same
    exact absurd (at?_inj here behind) (Nat.ne_of_lt (Nat.lt_succ_self p))
  · nofun

end Positions

namespace Thins

lemma refl (covers : c.markers.Covers) : Thins (fun _ => true) c c where
  instrs := (List.filter_true _).symm
  handlers := rfl
  covers := covers
  resolve? m := by
    cases found : c.resolve? m with
    | none => rfl
    | some q => rw [Option.map_some, ahead, List.filter_true, List.length_take_of_le (le_of_resolve? found)]

lemma trans (thins : Thins keep c c') (thins' : Thins keep' c' c'') : Thins (fun id => keep id && keep' id) c c'' where
  instrs := by
    rw [thins'.instrs, thins.instrs, List.filter_filter]
    simp only [Bool.and_comm]
  handlers := thins'.handlers.trans thins.handlers
  covers := thins'.covers
  resolve? m := by
    rw [thins'.resolve?, thins.resolve?, Option.map_map]
    congr 1
    funext q
    rw [Function.comp_apply, ahead, thins.instrs, ahead, take_filter, List.filter_filter, ahead]
    simp only [Bool.and_comm]

lemma congr (thins : Thins keep c c') (same : ∀ e ∈ c.instrs, keep e.1 = keep' e.1) : Thins keep' c c' where
  instrs := by
    rw [thins.instrs]
    exact List.filter_congr same
  handlers := thins.handlers
  covers := thins.covers
  resolve? m := by
    rw [thins.resolve?]
    congr 1
    funext q
    rw [ahead, ahead, List.filter_congr fun e mem => same e (List.mem_of_mem_take mem)]

end Thins

/-- If an anchor that markers are bound to has a canonical marker, all of them are moved. -/
lemma target?_rebind_of_covers {t : MarkerTable} {source target : Anchor} (covers : t.Covers)
    (other : source ≠ target) :
    (t.rebind source target).target? m = if t.target? m = some source then some target else t.target? m := by
  cases known : t.markerFor? source with
  | some k => exact target?_rebind other known
  | none =>
    rw [rebind_of_unknown known, if_neg]
    intro bound
    have found := covers source m bound
    rw [known] at found
    cases found

lemma resolve?_of_moves (here : c.at? p = some (id, i)) (instrs : c'.instrs = c.instrs.filter fun e => e.1 != id)
    (moved : c'.markers.target? m = if c.markers.target? m = some (.instr id) then some (c.anchorAfter p)
      else c.markers.target? m) : c'.resolve? m = (c.resolve? m).map (c.ahead (· != id)) := by
  have ends : c'.size = c.ahead (· != id) c.size := by rw [ahead_size, size, instrs]
  have behind : c.ahead (· != id) (p + 1) = c.ahead (· != id) p := by
    rw [ahead_succ here]
    simp
  rw [Code.resolve?, Code.resolve?, moved]
  cases bound : c.markers.target? m with
  | none => rfl
  | some a =>
    cases a with
    | codeEnd => exact congrArg some ends
    | instr k =>
      dsimp only
      by_cases same : k = id
      · subst same
        rw [if_pos rfl, position?_of_at? here, Option.map_some, ← behind]
        cases found : c.at? (p + 1) with
        | some e =>
          have other : e.1 ≠ k := by
            rintro rfl
            exact absurd (at?_inj here found) (Nat.ne_of_lt (Nat.lt_succ_self p))
          rw [anchorAfter, found]
          exact position?_of_at? (at?_ahead instrs found (bne_iff_ne.2 other))
        | none =>
          have whole : c.size = p + 1 := Nat.le_antisymm (List.getElem?_eq_none_iff.1 found) (lt_size_of_at? here)
          rw [anchorAfter, found, ← whole]
          exact congrArg some ends
      · rw [if_neg fun eq => same (Anchor.instr.inj (Option.some.inj eq))]
        cases found : c.position? k with
        | none => exact position?_eq_none_of_sublist (instrs ▸ List.filter_sublist) found
        | some r =>
          obtain ⟨j, there⟩ := at?_of_position? found
          exact position?_of_at? (at?_ahead instrs there (show (k != id) = true from bne_iff_ne.2 same))

lemma thins_remove (covers : c.markers.Covers) (here : c.at? p = some (id, i)) :
    ∃ c', c.remove id = .ok (c', i) ∧ Thins (· != id) c c' := by
  rw [remove, position?_of_at? here, get?_of_at? here]
  have instrs := (filter_ne_of_getElem? c.nodup here).symm
  exact ⟨_, rfl, instrs, rfl, covers.rebind, fun m =>
    resolve?_of_moves here instrs (target?_rebind_of_covers covers (ne_anchorAfter here))⟩

lemma exists_removeAll {ids : List InstrId} (covers : c.markers.Covers) (once : ids.Nodup)
    (known : ∀ id ∈ ids, ∃ p i, c.at? p = some (id, i)) :
    ∃ c', c.removeAll ids = .ok c' ∧ Thins (fun id => !ids.contains id) c c' := by
  induction ids generalizing c with
  | nil => exact ⟨c, rfl, .refl covers⟩
  | cons id ids ih =>
    obtain ⟨new, once⟩ := List.nodup_cons.1 once
    obtain ⟨⟨p, i, here⟩, others⟩ := List.forall_mem_cons.1 known
    obtain ⟨c₁, removed, thins⟩ := thins_remove covers here
    have known' : ∀ k ∈ ids, ∃ q j, c₁.at? q = some (k, j) := by
      intro k mem
      obtain ⟨q, j, there⟩ := others k mem
      have other : k ≠ id := by
        rintro rfl
        exact new mem
      have kept : (k != id) = true := bne_iff_ne.2 other
      exact ⟨c.ahead (· != id) q, j, at?_ahead thins.instrs there kept⟩
    obtain ⟨c', more, thins'⟩ := ih thins.covers once known'
    refine ⟨c', ?_, (thins.trans thins').congr fun e _ => ?_⟩
    · rw [removeAll, removed]
      exact more
    · rw [List.contains_cons, Bool.not_or]
      rfl

end Avm.Code
