import Avm.Graph.Component
import Avm.Proofs.Graph.Search

/-!
# Components hold together

What the search for strongly connected components keeps.  A node waits until its component is complete, and
while it waits there is a way from it to one that waited before (`Search.Visits`).  All nodes that wait reach
the node that is visited next, so the nodes that a visit leaves waiting reach each other, and so do the nodes
of a component.

The main statements are `Search.Looks.visited` and `Search.Looks.leave`: what a node comes to, from what its
successors come to.
-/

namespace Avm.Graph

/-- A node can be reached from another one. -/
def Reaches (succ : Nat → List Nat) : Nat → Nat → Prop := Relation.ReflTransGen fun v w => w ∈ succ v

namespace Search

variable {count : Nat} {succ : Nat → List Nat} {inside : Nat → Prop} {s t t' : Search} {v w x : Nat}
  {low low' : Nat}

/-- What holds of the state of a search between two nodes. -/
structure Orderly (count : Nat) (succ : Nat → List Nat) (inside : Nat → Prop) (s : Search) : Prop where
  index_size : s.index.size = count
  settled_size : s.settled.bits.size = count
  /-- Nodes are counted as they are entered. -/
  counted : ∀ v i, s.index? v = some i → i < s.entered
  /-- Only some nodes are looked at. -/
  inside : ∀ v, (s.index? v).isSome → inside v ∧ v < count
  /-- A node that was entered waits or is settled. -/
  known : ∀ v, (s.index? v).isSome → v ∈ s.waiting ∨ s.settled.has v = true
  /-- Only nodes that were entered wait or are in components. -/
  entered : ∀ v ∈ s.waiting ++ s.components.flatten, (s.index? v).isSome
  /-- No node waits twice, or is in two components. -/
  once : (s.waiting ++ s.components.flatten).Nodup
  /-- The nodes of a component reach each other. -/
  joined : ∀ c ∈ s.components, ∀ v ∈ c, ∀ w ∈ c, Reaches succ v w

lemma index?_enter (small : v < s.index.size) : (s.enter v).index? w =
    if w = v then some s.entered else s.index? w := by
  rw [enter, index?, index?, Array.getElem?_setIfInBounds]
  by_cases same : v = w
  · subst same
    simp [small]
  · rw [if_neg same, if_neg (Ne.symm same)]

lemma complete_eq {new old : List Nat} (waiting : s.waiting = new ++ v :: old) (absent : v ∉ new) :
    s.complete v = { s with
      components := (new ++ [v]) :: s.components
      settled := s.settled.addAll (new ++ [v])
      waiting := old } := by
  have component : s.waiting.takeWhile (· != v) ++ [v] = new ++ [v] := by
    have before : ∀ x ∈ new, (x != v) = true := by
      intro x mem
      refine bne_iff_ne.2 ?_
      rintro rfl
      exact absent mem
    rw [waiting, List.takeWhile_append_of_pos before]
    simp
  have rest : s.waiting.drop (new ++ [v]).length = old := by
    have split : new ++ v :: old = (new ++ [v]) ++ old := by simp
    rw [waiting, split, List.drop_left]
  rw [Search.complete, component, rest]

namespace Orderly

lemma fresh (h : Orderly count succ inside s) (new : s.index? v = none) :
    v ∉ s.waiting ++ s.components.flatten := by
  intro mem
  have there := h.entered v mem
  rw [new] at there
  cases there

lemma enter (h : Orderly count succ inside s) (new : s.index? v = none) (small : v < count)
    (here : inside v) : Orderly count succ inside (s.enter v) := by
  have index (w : Nat) : (s.enter v).index? w = if w = v then some s.entered else s.index? w :=
    index?_enter (h.index_size.symm ▸ small)
  constructor
  case index_size => exact (Array.size_setIfInBounds ..).trans h.index_size
  case settled_size => exact h.settled_size
  case counted =>
    intro w i at_
    show i < s.entered + 1
    rw [index] at at_
    split at at_
    · cases at_
      exact Nat.lt_succ_self _
    · exact (h.counted w i at_).trans (Nat.lt_succ_self _)
  case inside =>
    intro w there
    rw [index] at there
    split at there
    · rename_i same
      exact same ▸ ⟨here, small⟩
    · exact h.inside w there
  case known =>
    intro w there
    rw [index] at there
    split at there
    · rename_i same
      exact .inl (same ▸ List.mem_cons_self)
    · exact (h.known w there).imp (List.mem_cons_of_mem v) id
  case entered =>
    intro w mem
    rw [index]
    split
    · rfl
    · rename_i other
      exact h.entered w ((List.mem_cons.1 mem).resolve_left other)
  case once => exact List.nodup_cons.2 ⟨h.fresh new, h.once⟩
  case joined => exact h.joined

lemma complete {new old : List Nat} (h : Orderly count succ inside s) (waiting : s.waiting = new ++ v :: old)
    (joined : ∀ x ∈ new ++ [v], ∀ y ∈ new ++ [v], Reaches succ x y) :
    Orderly count succ inside (s.complete v) ∧ (s.complete v).waiting = old := by
  have absent : v ∉ new := by
    have once := (List.nodup_append.1 h.once).1
    rw [waiting, List.nodup_append] at once
    exact fun mem => once.2.2 v mem v List.mem_cons_self rfl
  have eq := complete_eq waiting absent
  have perm : (s.waiting ++ s.components.flatten).Perm (old ++ ((new ++ [v]) ++ s.components.flatten)) := by
    rw [waiting, ← List.append_assoc old]
    refine List.Perm.append_right _ ?_
    have split : new ++ v :: old = (new ++ [v]) ++ old := by simp
    rw [split]
    exact List.perm_append_comm
  refine ⟨?_, by rw [eq]⟩
  rw [eq]
  constructor
  case index_size => exact h.index_size
  case settled_size => exact Marks.size_addAll.trans h.settled_size
  case counted => exact h.counted
  case inside => exact h.inside
  case known =>
    intro w there
    rw [Marks.has_addAll]
    obtain mem | settled := h.known w there
    · have split : w ∈ new ++ [v] ∨ w ∈ old := by
        rw [waiting] at mem
        simpa [or_assoc] using mem
      obtain mem | mem := split
      · exact .inr (.inr ⟨mem, h.settled_size.symm ▸ (h.inside w there).2⟩)
      · exact .inl mem
    · exact .inr (.inl settled)
  case entered => exact fun w mem => h.entered w (perm.mem_iff.2 mem)
  case once => exact perm.nodup_iff.1 h.once
  case joined =>
    intro c mem
    obtain rfl | mem := List.mem_cons.1 mem
    · exact joined
    · exact h.joined c mem

end Orderly

/-- The node and the given one reach each other, and it was not entered before the given number of others. -/
def Joined (succ : Nat → List Nat) (s : Search) (v entered w : Nat) : Prop :=
  Reaches succ v w ∧ Reaches succ w v ∧ ∃ i, s.index? w = some i ∧ entered ≤ i

/-- What a search from a node comes to, given the number that it gives back: the nodes that it leaves
waiting are on top, and reach one that waited before and has that number. -/
structure Visits (count : Nat) (succ : Nat → List Nat) (inside : Nat → Prop) (s : Search) (v : Nat)
    (low : Nat) (t : Search) : Prop where
  orderly : Orderly count succ inside t
  kept : ∀ w i, s.index? w = some i → t.index? w = some i
  more : s.entered ≤ t.entered
  waiting : ∃ new, t.waiting = new ++ s.waiting ∧
    (new = [] ∧ low = s.entered ∨ v ∈ new ∧ t.index? v = some s.entered ∧ low < s.entered)
  joined : ∀ x ∈ t.waiting, x ∈ s.waiting ∨ Joined succ t v s.entered x
  back : low < s.entered → ∃ y ∈ s.waiting, t.index? y = some low ∧ Reaches succ v y

/-- What the look at some successors of a node comes to.  The node is on top of those that waited before. -/
structure Looks (count : Nat) (succ : Nat → List Nat) (inside : Nat → Prop) (s : Search) (v : Nat)
    (low : Nat) (t : Search) : Prop where
  orderly : Orderly count succ inside t
  kept : ∀ w i, (s.enter v).index? w = some i → t.index? w = some i
  more : (s.enter v).entered ≤ t.entered
  least : low ≤ s.entered
  waiting : ∃ new, t.waiting = new ++ v :: s.waiting
  joined : ∀ x ∈ t.waiting, x ∈ s.waiting ∨ Joined succ t v s.entered x
  back : low < s.entered → ∃ y ∈ s.waiting, t.index? y = some low ∧ Reaches succ v y

lemma Looks.seen {i : Nat} (h : Looks count succ inside s v low t) (next : w ∈ succ v)
    (at_ : t.index? w = some i) (waits : w ∈ t.waiting) :
    Looks count succ inside s v (min low i) t where
  orderly := h.orderly
  kept := h.kept
  more := h.more
  least := (Nat.min_le_left _ _).trans h.least
  waiting := h.waiting
  joined := h.joined
  back less := by
    obtain below | above := Nat.lt_or_ge i low
    · rw [Nat.min_eq_right below.le] at less ⊢
      obtain old | ⟨-, -, j, at_', late⟩ := h.joined w waits
      · exact ⟨w, old, at_, .single next⟩
      · cases at_.symm.trans at_'
        omega
    · rw [Nat.min_eq_left above] at less ⊢
      exact h.back less

lemma Looks.visited (h : Looks count succ inside s v low t) (next : w ∈ succ v)
    (reach : ∀ y ∈ s.waiting, Reaches succ y v) (visits : Visits count succ inside t w low' t') :
    Looks count succ inside s v (min low low') t' := by
  obtain ⟨new, eq⟩ := h.waiting
  obtain ⟨new', eq', found⟩ := visits.waiting
  have below : s.entered + 1 ≤ t.entered := h.more
  constructor
  case orderly => exact visits.orderly
  case kept => exact fun y i at_ => visits.kept y i (h.kept y i at_)
  case more => exact h.more.trans visits.more
  case least => exact (Nat.min_le_left _ _).trans h.least
  case waiting => exact ⟨new' ++ new, by rw [eq', eq, List.append_assoc]⟩
  case joined =>
    intro x mem
    obtain old | ⟨there, back, i, at_, late⟩ := visits.joined x mem
    · obtain old | ⟨there, back, i, at_, late⟩ := h.joined x old
      · exact .inl old
      · exact .inr ⟨there, back, i, visits.kept x i at_, late⟩
    · -- The successor waits with what it reached, so it reaches what waited before and by that the node.
      have home : x ∈ t.waiting ∨ Reaches succ w v := by
        obtain ⟨rfl, -⟩ | ⟨-, -, less⟩ := found
        · exact .inl (by rwa [eq'] at mem)
        · obtain ⟨y, old, -, path⟩ := visits.back less
          obtain older | ⟨-, back, -⟩ := h.joined y old
          · exact .inr (path.trans (reach y older))
          · exact .inr (path.trans back)
      obtain old | home := home
      · obtain old | ⟨there, back, i, at_, late⟩ := h.joined x old
        · exact .inl old
        · exact .inr ⟨there, back, i, visits.kept x i at_, late⟩
      · exact .inr ⟨.head next there, back.trans home, i, at_, by omega⟩
  case back =>
    intro less
    obtain below | above := Nat.lt_or_ge low' low
    · rw [Nat.min_eq_right below.le] at less ⊢
      obtain ⟨y, old, at_, path⟩ := visits.back (by omega)
      obtain older | ⟨-, -, j, at_', late⟩ := h.joined y old
      · exact ⟨y, older, at_, .head next path⟩
      · cases at_.symm.trans (visits.kept y j at_')
        omega
    · rw [Nat.min_eq_left above] at less ⊢
      obtain ⟨y, old, at_, path⟩ := h.back less
      exact ⟨y, old, visits.kept y low at_, path⟩

lemma Looks.leave (h : Looks count succ inside s v low t) (start : Orderly count succ inside s)
    (new_ : s.index? v = none) (small : v < count) :
    Visits count succ inside s v low (if low = s.entered then t.complete v else t) := by
  obtain ⟨new, eq⟩ := h.waiting
  have index (w i) (at_ : s.index? w = some i) : t.index? w = some i := by
    refine h.kept w i ?_
    rw [index?_enter (start.index_size.symm ▸ small), if_neg, at_]
    rintro rfl
    rw [new_] at at_
    cases at_
  have own : t.index? v = some s.entered := by
    refine h.kept v _ ?_
    rw [index?_enter (start.index_size.symm ▸ small), if_pos rfl]
  split
  · rename_i first
    -- Nothing that waited before was seen, so the node and the new ones reach each other.
    have joined {x : Nat} (mem : x ∈ new ++ [v]) : Reaches succ v x ∧ Reaches succ x v := by
      have split : t.waiting = (new ++ [v]) ++ s.waiting := by rw [eq, List.append_assoc]; rfl
      obtain old | ⟨there, back, -⟩ := h.joined x (by rw [split]; exact List.mem_append_left _ mem)
      · have once := (List.nodup_append.1 h.orderly.once).1
        rw [split, List.nodup_append] at once
        exact absurd rfl (once.2.2 x mem x old)
      · exact ⟨there, back⟩
    obtain ⟨orderly, waiting⟩ :=
      h.orderly.complete eq fun x mem y mem' => (joined mem).2.trans (joined mem').1
    refine ⟨orderly, index, (Nat.le_succ _).trans h.more, ⟨[], waiting, .inl ⟨rfl, first⟩⟩, ?_, ?_⟩
    · exact fun x mem => .inl (waiting ▸ mem)
    · exact fun less => absurd first less.ne
  · rename_i later
    refine ⟨h.orderly, index, (Nat.le_succ _).trans h.more, ⟨new ++ [v], by simp [eq], .inr ?_⟩, h.joined, h.back⟩
    exact ⟨by simp, own, lt_of_le_of_ne h.least later⟩

lemma orderly_start : Orderly count succ inside (start count) := by
  have none_ (v : Nat) : (start count).index? v = none := by
    rw [start, index?, Array.getElem?_replicate]
    split
    · rfl
    · rfl
  constructor
  case index_size => exact Array.size_replicate
  case settled_size => exact Array.size_replicate
  case counted => exact fun v i at_ => by simp [none_] at at_
  case inside => exact fun v there => by simp [none_] at there
  case known => exact fun v there => by simp [none_] at there
  case entered => exact nofun
  case once => exact List.nodup_nil
  case joined => exact nofun

end Search

end Avm.Graph
