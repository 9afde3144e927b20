import Avm.Opt.Liveness
import Avm.Proofs.Ir.Reading

/-!
# Live registers come to a fixed point

The registers that are live at the starts of blocks are worked out in rounds.  What is found only grows, as every
start is below what is worked out for it anew, and it never leaves the registers that the graph names.  A round
that changes anything adds a register to some start, so the rounds end before they are stopped, and what they end
with is what every block asks for.

The main statement is `Liveness.atStart_of`.
-/

namespace Avm

namespace Ascending

variable {a b : List Nat} {m : Nat}

lemma mem_merge (fuel : Nat) (a b : List Nat) : m ∈ merge fuel a b ↔ m ∈ a ∨ m ∈ b := by
  induction fuel generalizing a b with
  | zero => exact List.mem_append
  | succ fuel ih =>
    cases a with
    | nil => simp [merge]
    | cons x xs =>
      cases b with
      | nil => simp [merge]
      | cons y ys =>
        rw [merge]
        split_ifs with less more
        · rw [List.mem_cons, ih, List.mem_cons (b := x), or_assoc]
        · rw [List.mem_cons, ih, List.mem_cons (b := y)]
          tauto
        · have same : x = y := by omega
          subst same
          rw [List.mem_cons, ih, List.mem_cons, List.mem_cons]
          tauto

lemma pairwise_merge {fuel : Nat} (enough : a.length + b.length ≤ fuel) (ha : a.Pairwise (· < ·))
    (hb : b.Pairwise (· < ·)) : (merge fuel a b).Pairwise (· < ·) := by
  induction fuel generalizing a b with
  | zero =>
    obtain rfl : a = [] := List.eq_nil_of_length_eq_zero (by omega)
    obtain rfl : b = [] := List.eq_nil_of_length_eq_zero (by omega)
    exact .nil
  | succ fuel ih =>
    cases a with
    | nil => simpa [merge] using hb
    | cons x xs =>
      cases b with
      | nil => simpa [merge] using ha
      | cons y ys =>
        obtain ⟨above, sorted⟩ := List.pairwise_cons.1 ha
        obtain ⟨above', sorted'⟩ := List.pairwise_cons.1 hb
        rw [List.length_cons, List.length_cons] at enough
        rw [merge]
        split_ifs with less more
        · refine List.pairwise_cons.2 ⟨fun z mem => ?_, ih (by rw [List.length_cons]; omega) sorted hb⟩
          rcases (mem_merge _ _ _).1 mem with left | right
          · exact above z left
          · rcases List.mem_cons.1 right with rfl | later
            · exact less
            · exact less.trans (above' z later)
        · refine List.pairwise_cons.2 ⟨fun z mem => ?_, ih (by rw [List.length_cons]; omega) ha sorted'⟩
          rcases (mem_merge _ _ _).1 mem with left | right
          · rcases List.mem_cons.1 left with rfl | later
            · exact more
            · exact more.trans (above z later)
          · exact above' z right
        · have same : x = y := by omega
          refine List.pairwise_cons.2 ⟨fun z mem => ?_, ih (by omega) sorted sorted'⟩
          rcases (mem_merge _ _ _).1 mem with left | right
          · exact above z left
          · exact same ▸ above' z right

lemma mem_union : m ∈ union a b ↔ m ∈ a ∨ m ∈ b := by
  rw [union]
  split_ifs with right left
  · simp [List.isEmpty_iff.1 right]
  · simp [List.isEmpty_iff.1 left]
  · exact mem_merge _ _ _

lemma pairwise_union (ha : a.Pairwise (· < ·)) (hb : b.Pairwise (· < ·)) : (union a b).Pairwise (· < ·) := by
  rw [union]
  split_ifs
  · exact ha
  · exact hb
  · exact pairwise_merge (Nat.le_refl _) ha hb

lemma length_lt_of_subset (ha : a.Pairwise (· < ·)) (hb : b.Pairwise (· < ·)) (sub : a ⊆ b) (other : a ≠ b) :
    a.length < b.length := by
  by_contra longer
  have perm := (List.subperm_of_subset (ha.imp Nat.ne_of_lt) sub).perm_of_length_le (Nat.le_of_not_lt longer)
  exact other (perm.eq_of_pairwise (fun x y _ _ less more => absurd (less.trans more) (Nat.lt_irrefl _)) ha hb)

lemma mem_foldl_union {α : Type} {part : α → List Nat} {l : List α} {acc : List Nat} :
    m ∈ l.foldl (fun acc x => union acc (part x)) acc ↔ m ∈ acc ∨ ∃ x ∈ l, m ∈ part x := by
  induction l generalizing acc with
  | nil => simp
  | cons x l ih =>
    rw [List.foldl_cons, ih, mem_union, or_assoc]
    simp

lemma pairwise_foldl_union {α : Type} {part : α → List Nat} {l : List α} {acc : List Nat}
    (start : acc.Pairwise (· < ·)) (each : ∀ x ∈ l, (part x).Pairwise (· < ·)) :
    (l.foldl (fun acc x => union acc (part x)) acc).Pairwise (· < ·) := by
  induction l generalizing acc with
  | nil => exact start
  | cons x l ih =>
    refine ih (pairwise_union start (each x List.mem_cons_self)) fun y mem => each y (List.mem_cons_of_mem _ mem)

end Ascending

namespace Opt

open Avm.Ir Avm.Ir.Func

variable {f : Func} {b : BlockId} {v : ValueId} {r : Nat} {x : Value}

section Accesses

lemma PhiReads.mem_value : r ∈ PhiReads.value (.of f) x ↔ f.Reads x r := by
  rw [← readsRegister_iff, readsRegister, List.contains_iff_mem]
  cases x with
  | const c => exact Iff.rfl
  | reg r' version => exact Iff.rfl
  | node v =>
    rw [PhiReads.value, PhiReads.of]
    by_cases inside : v < f.nodes.size
    · simp [inside, Ascending.mem_ofList]
    · have none : f.inputs? v = none := by
        by_contra phi
        exact inside (lt_size_of_inputs? (Option.isSome_iff_ne_none.2 phi))
      simp [inside, registersRead, none]

lemma PhiReads.pairwise_value : (PhiReads.value (.of f) x).Pairwise (· < ·) := by
  cases x with
  | const c => exact .nil
  | reg r version => exact List.pairwise_singleton _ _
  | node v =>
    rw [PhiReads.value, PhiReads.of]
    by_cases inside : v < f.nodes.size
    · simp [inside, Ascending.pairwise_ofList]
    · simp [inside]

lemma PhiReads.mem_values {xs : List Value} : r ∈ PhiReads.values (.of f) xs ↔ ∃ x ∈ xs, f.Reads x r := by
  rw [PhiReads.values, Ascending.mem_foldl_union]
  simp [PhiReads.mem_value]

lemma PhiReads.pairwise_values {xs : List Value} : (PhiReads.values (.of f) xs).Pairwise (· < ·) :=
  Ascending.pairwise_foldl_union .nil fun _ _ => PhiReads.pairwise_value

lemma BlockAccess.mem_reads_ofNode {k : NodeKind} : r ∈ (BlockAccess.ofNode (.of f) v k).reads ↔
    (∃ object index, k = .hasNext2 object index ∧ (r = object ∨ r = index)) ∨ ∃ x ∈ k.operands, f.Reads x r := by
  cases k with
  | hasNext2 object index =>
    rw [BlockAccess.ofNode, Ascending.mem_union, PhiReads.mem_values, Ascending.mem_ofList]
    refine or_congr_left ⟨fun mem => ⟨object, index, rfl, by simpa using mem⟩, ?_⟩
    rintro ⟨object', index', same, named⟩
    obtain ⟨rfl, rfl⟩ := NodeKind.hasNext2.inj same
    simpa using named
  | _ => simp [BlockAccess.ofNode, Ascending.mem_union, PhiReads.mem_values]

lemma BlockAccess.pairwise_reads_ofNode (k : NodeKind) : (BlockAccess.ofNode (.of f) v k).reads.Pairwise (· < ·) := by
  unfold BlockAccess.ofNode
  refine Ascending.pairwise_union ?_ PhiReads.pairwise_values
  cases k with
  | hasNext2 object index => exact Ascending.pairwise_ofList _
  | _ => exact .nil

lemma BlockAccess.mem_reads_ofEdge {e : BlockId × EdgeKind} : r ∈ (BlockAccess.ofEdge f (.of f) b e).reads ↔
    ∃ p ∈ f.phis e.1, ∃ is, f.inputs? p = some is ∧ ∃ i ∈ is, (i.source = b ∧ i.kind = e.2) ∧ f.Reads i.value r := by
  rw [BlockAccess.ofEdge]
  dsimp only
  rw [PhiReads.mem_values]
  constructor
  · rintro ⟨x, taken, read⟩
    obtain ⟨i, own, rfl⟩ := List.mem_map.1 taken
    obtain ⟨p, phi, own⟩ := List.mem_flatMap.1 own
    obtain ⟨mem, here⟩ := List.mem_filter.1 own
    rw [Bool.and_eq_true, beq_iff_eq, beq_iff_eq] at here
    cases inputs : f.inputs? p with
    | none => simp [inputs] at mem
    | some is =>
      rw [inputs, Option.getD_some] at mem
      exact ⟨p, phi, is, inputs, i, mem, here, read⟩
  · rintro ⟨p, phi, is, inputs, i, mem, here, read⟩
    refine ⟨i.value, List.mem_map_of_mem (List.mem_flatMap.2 ⟨p, phi, List.mem_filter.2 ⟨?_, ?_⟩⟩), read⟩
    · rwa [inputs, Option.getD_some]
    · rw [Bool.and_eq_true, beq_iff_eq, beq_iff_eq]
      exact here

end Accesses

namespace Liveness

variable {l l' : Liveness} {a : BlockAccess} {edges : List EdgeAccess} {watched live watched' live' : List Nat}
  {n : NodeAccess}

section Transfer

lemma mem_onEdges : r ∈ onEdges l edges ↔ ∃ e ∈ edges, r ∈ atStart l e.target ∨ r ∈ e.reads := by
  rw [onEdges, Ascending.mem_foldl_union]
  simp [Ascending.mem_union]

lemma mem_watched : r ∈ Liveness.watched l a ↔
    ∃ e ∈ a.edges, e.isRaise = true ∧ (r ∈ atStart l e.target ∨ r ∈ e.reads) := by
  rw [Liveness.watched, mem_onEdges]
  simp [and_assoc]

lemma mem_atEnd : r ∈ atEnd l a watched ↔ r ∈ watched ∨
    (∃ e ∈ a.edges, e.isRaise = false ∧ (r ∈ atStart l e.target ∨ r ∈ e.reads)) ∨ r ∈ a.ending := by
  rw [atEnd, Ascending.mem_union, Ascending.mem_union, mem_onEdges, or_assoc]
  simp [and_assoc]

/-- A register is live before a node if the node reads it, or if it is live behind the node, which does not set it
unless handlers may look at it. -/
lemma mem_before : r ∈ before watched live n ↔ (r ∈ live ∧ (r ∈ n.writes → r ∈ watched)) ∨ r ∈ n.reads := by
  rw [before, Ascending.mem_union]
  refine or_congr_left ?_
  split_ifs with none
  · rw [List.isEmpty_iff, List.filter_eq_nil_iff] at none
    refine (and_iff_left fun set => ?_).symm
    simpa using none r set
  · simp only [List.mem_filter, List.contains_eq_mem, Bool.not_eq_true', decide_eq_false_iff_not, not_and, not_not]

lemma before_mono (wider : watched ⊆ watched') (more : live ⊆ live') :
    before watched live n ⊆ before watched' live' n := by
  intro r mem
  rcases mem_before.1 mem with ⟨old, kept⟩ | read
  · exact mem_before.2 (.inl ⟨more old, fun set => wider (kept set)⟩)
  · exact mem_before.2 (.inr read)

lemma foldl_before_mono {ns : List NodeAccess} (wider : watched ⊆ watched') (more : live ⊆ live') :
    ns.foldl (before watched) live ⊆ ns.foldl (before watched') live' := by
  induction ns generalizing live live' with
  | nil => exact more
  | cons n ns ih => exact ih (before_mono wider more)

lemma start_mono (more : ∀ b, atStart l b ⊆ atStart l' b) : start l a ⊆ start l' a := by
  have wider : Liveness.watched l a ⊆ Liveness.watched l' a := by
    intro r mem
    obtain ⟨e, edge, raises, there⟩ := mem_watched.1 mem
    exact mem_watched.2 ⟨e, edge, raises, there.imp_left fun old => more _ old⟩
  refine foldl_before_mono wider fun r mem => mem_atEnd.2 ?_
  rcases mem_atEnd.1 mem with watches | ⟨e, edge, leaves, there⟩ | ends
  · exact .inl (wider watches)
  · exact .inr (.inl ⟨e, edge, leaves, there.imp_left fun old => more _ old⟩)
  · exact .inr (.inr ends)

/-- The registers that a block reads are in ascending order, and among the registers of a list. -/
structure Named (U : List Nat) (a : BlockAccess) : Prop where
  nodes : ∀ n ∈ a.nodes, n.reads.Pairwise (· < ·) ∧ n.reads ⊆ U
  ending : a.ending.Pairwise (· < ·) ∧ a.ending ⊆ U
  edges : ∀ e ∈ a.edges, e.reads.Pairwise (· < ·) ∧ e.reads ⊆ U

variable {U : List Nat}

lemma pairwise_before (sorted : live.Pairwise (· < ·)) (reads : n.reads.Pairwise (· < ·)) :
    (before watched live n).Pairwise (· < ·) := by
  rw [before]
  refine Ascending.pairwise_union ?_ reads
  split
  · exact sorted
  · exact sorted.filter _

lemma pairwise_start (named : Named U a) (sorted : ∀ b, (atStart l b).Pairwise (· < ·)) :
    (start l a).Pairwise (· < ·) := by
  have onEdges (p : EdgeAccess → Bool) : (onEdges l (a.edges.filter p)).Pairwise (· < ·) :=
    Ascending.pairwise_foldl_union .nil fun e mem =>
      Ascending.pairwise_union (sorted _) (named.edges e (List.mem_of_mem_filter mem)).1
  have ending : (atEnd l a (Liveness.watched l a)).Pairwise (· < ·) :=
    Ascending.pairwise_union (Ascending.pairwise_union (onEdges _) (onEdges _)) named.ending.1
  have fold (ns : List NodeAccess) (sub : ns ⊆ a.nodes) (live : List Nat) (sorted : live.Pairwise (· < ·)) :
      (ns.foldl (before (Liveness.watched l a)) live).Pairwise (· < ·) := by
    induction ns generalizing live with
    | nil => exact sorted
    | cons n ns ih =>
      exact ih (fun m mem => sub (List.mem_cons_of_mem _ mem)) _
        (pairwise_before sorted (named.nodes n (sub List.mem_cons_self)).1)
  exact fold a.nodes (fun _ mem => mem) _ ending

lemma start_subset (named : Named U a) (within : ∀ b, atStart l b ⊆ U) : start l a ⊆ U := by
  have edge {r : Nat} {e : EdgeAccess} (mem : e ∈ a.edges) (there : r ∈ atStart l e.target ∨ r ∈ e.reads) : r ∈ U :=
    there.elim (fun old => within _ old) fun read => (named.edges e mem).2 read
  have ending : atEnd l a (Liveness.watched l a) ⊆ U := by
    intro r mem
    rcases mem_atEnd.1 mem with watches | ⟨e, mem, -, there⟩ | ends
    · obtain ⟨e, mem, -, there⟩ := mem_watched.1 watches
      exact edge mem there
    · exact edge mem there
    · exact named.ending.2 ends
  have fold (ns : List NodeAccess) (sub : ns ⊆ a.nodes) (live : List Nat) (inside : live ⊆ U) :
      ns.foldl (before (Liveness.watched l a)) live ⊆ U := by
    induction ns generalizing live with
    | nil => exact inside
    | cons n ns ih =>
      refine ih (fun m mem => sub (List.mem_cons_of_mem _ mem)) _ fun r mem => ?_
      rcases mem_before.1 mem with ⟨old, -⟩ | read
      · exact inside old
      · exact (named.nodes n (sub List.mem_cons_self)).2 read
  exact fold a.nodes (fun _ mem => mem) _ ending

end Transfer

section Rounds

variable {U : List Nat} {blocks ps : List (BlockId × BlockAccess)} {p : BlockId × BlockAccess} {c : Bool}

/-- Blocks that each have a place among the starts, are listed with one access, and name only registers of a list. -/
structure Regular (size : Nat) (U : List Nat) (blocks : List (BlockId × BlockAccess)) : Prop where
  inside : ∀ p ∈ blocks, p.1 < size
  single : ∀ p ∈ blocks, ∀ q ∈ blocks, p.1 = q.1 → p.2 = q.2
  named : ∀ p ∈ blocks, Named U p.2

/-- What rounds keep: starts are ascending lists of registers, each below what is worked out for it anew. -/
structure Growing (U : List Nat) (blocks : List (BlockId × BlockAccess)) (l : Liveness) : Prop where
  sorted : ∀ b, (atStart l b).Pairwise (· < ·)
  within : ∀ b, atStart l b ⊆ U
  below : ∀ p ∈ blocks, atStart l p.1 ⊆ start l p.2

/-- The number of registers at the starts. -/
def load (l : Liveness) : Nat := ∑ b ∈ Finset.range l.size, (atStart l b).length

lemma load_le (sorted : ∀ b, (atStart l b).Pairwise (· < ·)) (within : ∀ b, atStart l b ⊆ U) :
    load l ≤ l.size * U.length := by
  have each : ∀ b ∈ Finset.range l.size, (atStart l b).length ≤ U.length := fun b _ =>
    (List.subperm_of_subset ((sorted b).imp Nat.ne_of_lt) (within b)).length_le
  calc load l ≤ (Finset.range l.size).card • U.length := Finset.sum_le_card_nsmul _ _ _ each
    _ = l.size * U.length := by rw [Finset.card_range, smul_eq_mul]

lemma atStart_set {b c : BlockId} {live : List Nat} (inside : b < l.size) :
    atStart (l.setIfInBounds b live) c = if c = b then live else atStart l c := by
  rw [atStart, Array.getElem?_setIfInBounds]
  by_cases same : c = b
  · subst same
    simp [inside]
  · simp [same, Ne.symm same, atStart]

/-- Working a block out anew either finds what is there, or adds registers to its start. -/
lemma update_growing (regular : Regular l.size U blocks) (growing : Growing U blocks l) (mem : p ∈ blocks) :
    Growing U blocks (update (l, c) p).1 ∧ (update (l, c) p).1.size = l.size ∧
      ((update (l, c) p = (l, c) ∧ atStart l p.1 = start l p.2) ∨
        ((update (l, c) p).2 = true ∧ load l < load (update (l, c) p).1)) := by
  rw [update]
  dsimp only
  split
  · rename_i same
    exact ⟨growing, rfl, .inl ⟨rfl, same⟩⟩
  · rename_i other
    have inside := regular.inside p mem
    have set (c : BlockId) := @atStart_set l p.1 c (start l p.2) inside
    have grows : ∀ c, atStart l c ⊆ atStart (l.setIfInBounds p.1 (start l p.2)) c := by
      intro c
      rw [set]
      split
      · rename_i same
        rw [same]
        exact growing.below p mem
      · exact fun _ mem => mem
    have sorted := pairwise_start (regular.named p mem) growing.sorted
    refine ⟨⟨fun c => ?_, fun c => ?_, fun q there => ?_⟩, Array.size_setIfInBounds, .inr ⟨rfl, ?_⟩⟩
    · rw [set]
      split
      · exact sorted
      · exact growing.sorted c
    · rw [set]
      split
      · exact start_subset (regular.named p mem) growing.within
      · exact growing.within c
    · rw [set]
      split
      · rename_i same
        rw [← regular.single p mem q there same.symm]
        exact start_mono grows
      · exact fun r old => start_mono grows (growing.below q there old)
    · have more : (atStart l p.1).length < (start l p.2).length :=
        Ascending.length_lt_of_subset (growing.sorted _) sorted (growing.below p mem) other
      rw [load, load, Array.size_setIfInBounds]
      refine Finset.sum_lt_sum (fun c _ => ?_) ⟨p.1, Finset.mem_range.2 inside, by rw [set, if_pos rfl]; exact more⟩
      rw [set]
      split
      · rename_i same
        rw [same]
        exact more.le
      · exact Nat.le_refl _

lemma round_growing (regular : Regular l.size U blocks) (growing : Growing U blocks l) (sub : ps ⊆ blocks) :
    Growing U blocks (ps.foldl update (l, c)).1 ∧ (ps.foldl update (l, c)).1.size = l.size ∧
      ((ps.foldl update (l, c) = (l, c) ∧ ∀ p ∈ ps, atStart l p.1 = start l p.2) ∨
        ((ps.foldl update (l, c)).2 = true ∧ load l < load (ps.foldl update (l, c)).1)) := by
  induction ps generalizing l c with
  | nil => exact ⟨growing, rfl, .inl ⟨rfl, nofun⟩⟩
  | cons p ps ih =>
    obtain ⟨next, size, step⟩ := update_growing (c := c) regular growing (sub List.mem_cons_self)
    rw [List.foldl_cons]
    rcases step with ⟨stays, same⟩ | ⟨marked, more⟩
    · rw [stays]
      obtain ⟨after, size, rest⟩ := ih (c := c) regular growing fun q mem => sub (List.mem_cons_of_mem _ mem)
      refine ⟨after, size, rest.imp_left fun ⟨stays, all⟩ => ⟨stays, fun q mem => ?_⟩⟩
      rcases List.mem_cons.1 mem with rfl | later
      · exact same
      · exact all q later
    · generalize update (l, c) p = acc at next size marked more ⊢
      obtain ⟨l₁, changed₁⟩ := acc
      dsimp only at next size marked more
      subst marked
      obtain ⟨after, size', rest⟩ := ih (c := true) (by rwa [size]) next
        fun q mem => sub (List.mem_cons_of_mem _ mem)
      refine ⟨after, size'.trans size, .inr ?_⟩
      rcases rest with ⟨stays, -⟩ | ⟨marked, again⟩
      · rw [stays]
        exact ⟨rfl, more⟩
      · exact ⟨marked, more.trans again⟩

/-- Rounds end with one that finds everything as it is, if there are more of them than registers to add. -/
lemma loop_fixed (fuel : Nat) (regular : Regular l.size U blocks) (growing : Growing U blocks l)
    (enough : l.size * U.length < load l + fuel) :
    ∀ p ∈ blocks, atStart (loop blocks fuel l) p.1 = start (loop blocks fuel l) p.2 := by
  induction fuel generalizing l with
  | zero => exact absurd enough (Nat.not_lt.2 (load_le growing.sorted growing.within))
  | succ fuel ih =>
    obtain ⟨next, size, round⟩ := round_growing (c := false) regular growing fun _ mem => mem
    rw [loop]
    generalize blocks.foldl update (l, false) = acc at next size round ⊢
    obtain ⟨l₁, changed⟩ := acc
    dsimp only at next size round ⊢
    rcases round with ⟨same, all⟩ | ⟨rfl, more⟩
    · obtain ⟨rfl, rfl⟩ := Prod.mk.inj same
      exact all
    · exact ih (by rwa [size]) next (by rw [size]; omega)

end Rounds

section Graphs

lemma lt_of_mem_order (mem : b ∈ order f) : b < f.blocks.size := by
  rw [order] at mem
  rcases List.mem_append.1 mem with reached | other
  · exact Graph.lt_of_mem_reversePostorder (List.mem_reverse.1 reached)
  · exact lt_size_of_block? (mem_blockIds.1 (List.mem_of_mem_filter other))

lemma mem_order (live : (f.block? b).isSome) : b ∈ order f := by
  rw [order, List.mem_append]
  by_cases reached : b ∈ (f.reversePostorder entry).reverse
  · exact .inl reached
  · refine .inr (List.mem_filter.2 ⟨mem_blockIds.2 live, ?_⟩)
    rw [Bool.not_eq_true', ← Bool.not_eq_true, Graph.Marks.has_ofList]
    exact fun marked => reached marked.1

/-- The registers that a graph names. -/
def registers (f : Func) : List Nat := f.allOperands.filterMap Value.register? ++ f.registerWrites

lemma mem_allNodes {n : Node} (here : f.node? v = some n) : n ∈ f.allNodes := by
  refine List.mem_filterMap.2 ⟨some n, ?_, rfl⟩
  have inside := lt_size_of_node? (f := f) (v := v) (by rw [here]; rfl)
  rw [node?, Array.getElem?_eq_getElem inside, Option.join_some] at here
  rw [← here]
  exact Array.getElem_mem_toList inside

lemma mem_nodeOperands {k : NodeKind} (here : f.kind? v = some k) (mem : x ∈ k.operands) : x ∈ f.allOperands := by
  obtain ⟨n, found, rfl⟩ := Option.map_eq_some_iff.1 here
  exact List.mem_append_left _ (List.mem_flatMap.2 ⟨n, mem_allNodes found, mem⟩)

lemma value_mem_allOperands {is : List PhiInput} {i : PhiInput} (inputs : f.inputs? v = some is) (mem : i ∈ is) :
    i.value ∈ f.allOperands := by
  obtain ⟨k, here, phi⟩ := Option.bind_eq_some_iff.1 inputs
  refine mem_nodeOperands here ?_
  cases k with
  | phi is' =>
    obtain rfl := Option.some.inj phi
    exact List.mem_map_of_mem mem
  | _ => cases phi

lemma mem_registers (mem : x ∈ f.allOperands) (read : f.Reads x r) : r ∈ registers f := by
  induction read with
  | reg => exact List.mem_append_left _ (List.mem_filterMap.2 ⟨_, mem, rfl⟩)
  | phi inputs own _ ih => exact ih (value_mem_allOperands inputs own)

lemma mem_registers_of_written {k : NodeKind} (here : f.kind? v = some k) (set : r ∈ k.written) : r ∈ registers f := by
  obtain ⟨n, found, rfl⟩ := Option.map_eq_some_iff.1 here
  exact List.mem_append_right _ (List.mem_flatMap.2 ⟨n, mem_allNodes found, set⟩)

lemma named_of (f : Func) (b : BlockId) : Named (registers f) (.of f (.of f) b) where
  nodes n mem := by
    obtain ⟨v, -, found⟩ := List.mem_filterMap.1 mem
    obtain ⟨k, here, rfl⟩ := Option.map_eq_some_iff.1 found
    refine ⟨BlockAccess.pairwise_reads_ofNode k, fun r read => ?_⟩
    rcases BlockAccess.mem_reads_ofNode.1 read with ⟨object, index, rfl, named⟩ | ⟨x, operand, read⟩
    · exact mem_registers_of_written here (by simpa [NodeKind.written] using named)
    · exact mem_registers (mem_nodeOperands here operand) read
  ending := by
    refine ⟨PhiReads.pairwise_values, fun r read => ?_⟩
    obtain ⟨x, mem, read⟩ := PhiReads.mem_values.1 read
    refine mem_registers (List.mem_append_right _ (List.mem_flatMap.2 ⟨b, ?_, mem⟩)) read
    rw [mem_blockIds]
    by_contra none
    rw [Option.not_isSome_iff_eq_none] at none
    simp [terminator, none, Terminator.operands] at mem
  edges e mem := by
    obtain ⟨e, -, rfl⟩ := List.mem_map.1 mem
    refine ⟨PhiReads.pairwise_values, fun r read => ?_⟩
    obtain ⟨p, -, is, inputs, i, own, -, read⟩ := BlockAccess.mem_reads_ofEdge.1 read
    exact mem_registers (value_mem_allOperands inputs own) read

lemma regular_accesses (f : Func) : Regular f.blocks.size (registers f) (accesses f) where
  inside p mem := by
    obtain ⟨b, listed, rfl⟩ := List.mem_map.1 mem
    exact lt_of_mem_order listed
  single p mem q mem' same := by
    obtain ⟨b, -, rfl⟩ := List.mem_map.1 mem
    obtain ⟨c, -, rfl⟩ := List.mem_map.1 mem'
    dsimp only at same
    rw [same]
  named p mem := by
    obtain ⟨b, -, rfl⟩ := List.mem_map.1 mem
    exact named_of f b

lemma atStart_replicate {size : Nat} : atStart (Array.replicate size []) b = [] := by
  rw [atStart, Array.getElem?_replicate]
  split <;> rfl

/-- The registers that are live at the start of a block are those that the block asks for. -/
lemma atStart_of (live : (f.block? b).isSome) :
    atStart (.of f (accesses f)) b = start (.of f (accesses f)) (.of f (.of f) b) := by
  have growing : Growing (registers f) (accesses f) (Array.replicate f.blocks.size []) := by
    refine ⟨fun b => ?_, fun b => ?_, fun p _ => ?_⟩
    · rw [atStart_replicate]
      exact .nil
    · rw [atStart_replicate]
      exact List.nil_subset _
    · rw [atStart_replicate]
      exact List.nil_subset _
  have bound : (registers f).length = registerBound f := List.length_append
  refine loop_fixed _ (by rw [Array.size_replicate]; exact regular_accesses f) growing ?_ (b, .of f (.of f) b)
    (List.mem_map.2 ⟨b, mem_order live, rfl⟩)
  rw [Array.size_replicate, bound]
  omega

end Graphs

end Liveness

end Opt

end Avm
