import Avm.Proofs.Graph.Components

/-!
# Components are complete

A component is complete when it leads to nothing but itself and components that were complete before.  So the
components of a graph come in an order in which each follows those that it reaches, and two nodes that reach
each other are in the same one.  That nothing is missed hangs on the number that the search from a node gives
back: every successor of a node that the search has left is in a component, or it waits and was not entered
before the nodes of that number (`Search.Past`).

The search may as well keep the nodes it is at in frames (`Descent`): it completes the same components.

The main statements are `condenses_components` and `exists_descent`.
-/

namespace Avm.Graph

/-- The successors of a node that are nodes of the graph. -/
def within (count : Nat) (succ : Nat → List Nat) (v : Nat) : List Nat := (succ v).filter (· < count)

/-- The lists are the strongly connected components of some nodes, each behind those that it leads to, and
those whose nodes lie on a cycle can be told. -/
structure Condenses (nodes : List Nat) (edge : Nat → Nat → Prop) (cyclic : List Nat → Bool)
    (cs : List (List Nat)) : Prop where
  /-- Each node is in one list, once. -/
  once : cs.flatten.Nodup
  all : ∀ v, v ∈ cs.flatten ↔ v ∈ nodes
  full : ∀ c ∈ cs, c ≠ []
  /-- Nodes share a list if they reach each other. -/
  joined : ∀ c ∈ cs, ∀ v ∈ c, ∀ w ∈ nodes,
    w ∈ c ↔ Relation.ReflTransGen edge v w ∧ Relation.ReflTransGen edge w v
  /-- What a list reaches is in the list or in one before it. -/
  ordered : ∀ before c after, cs = before ++ c :: after → ∀ v ∈ c, ∀ w, Relation.ReflTransGen edge v w →
    w ∈ c ∨ w ∈ before.flatten
  cyclic : ∀ c ∈ cs, cyclic c = true ↔ ∀ v ∈ c, Relation.TransGen edge v v

namespace Search

variable {count fuel : Nat} {succ : Nat → List Nat} {inside : Nat → Prop} {s t u : Search} {v w x : Nat}
  {low low' : Nat} {l : List Nat}

lemma foldl_before {α β : Type} {f : β → α → β} {l : List α} {P : List α → β → Prop} {b : β}
    (step : ∀ done a rest b, l = done ++ a :: rest → P done b → P (done ++ [a]) (f b a)) (start : P [] b) :
    P l (l.foldl f b) := by
  suffices all : ∀ rest done b, l = done ++ rest → P done b → P l (rest.foldl f b) from all l [] b rfl start
  intro rest
  induction rest with
  | nil =>
    intro done b split holds
    rwa [split, List.append_nil]
  | cons a rest ih =>
    intro done b split holds
    apply ih (done ++ [a])
    · rw [split, List.append_assoc]
      rfl
    · exact step done a rest b split holds

/-- One search comes after another. -/
structure Later (s t : Search) : Prop where
  settled : ∀ w, s.settled.has w = true → t.settled.has w = true
  waiting : ∀ w ∈ s.waiting, w ∈ t.waiting
  index : ∀ w i, s.index? w = some i → t.index? w = some i

lemma Later.refl (s : Search) : Later s s := ⟨fun _ h => h, fun _ h => h, fun _ _ h => h⟩

lemma Later.trans (h : Later s t) (h' : Later t u) : Later s u where
  settled w there := h'.settled w (h.settled w there)
  waiting w there := h'.waiting w (h.waiting w there)
  index w i there := h'.index w i (h.index w i there)

lemma Later.isSome (h : Later s t) (there : (s.index? w).isSome) : (t.index? w).isSome := by
  obtain ⟨i, at_⟩ := Option.isSome_iff_exists.1 there
  rw [h.index w i at_]
  rfl

lemma Later.enter (h : Later s t) (i : t.index? v = none) (small : v < t.index.size) : Later s (t.enter v) where
  settled := h.settled
  waiting w there := List.mem_cons_of_mem v (h.waiting w there)
  index w j there := by
    rw [index?_enter small, if_neg, h.index w j there]
    rintro rfl
    rw [h.index w j there] at i
    cases i

/-- The node is settled, or it waits and was not entered before the given number of others. -/
def Past (t : Search) (low w : Nat) : Prop :=
  t.settled.has w = true ∨ w ∈ t.waiting ∧ ∃ i, t.index? w = some i ∧ low ≤ i

lemma Past.later (past : Past s low w) (h : Later s t) (less : low' ≤ low) : Past t low' w := by
  rcases past with settled | ⟨waits, i, at_, above⟩
  · exact .inl (h.settled w settled)
  · exact .inr ⟨h.waiting w waits, i, h.index w i at_, less.trans above⟩

/-- Nodes that were entered on the way from one search to another have been left. -/
def Clears (succ : Nat → List Nat) (s : Search) (low : Nat) (t : Search) : Prop :=
  ∀ x, (t.index? x).isSome → s.index? x = none → ∀ w ∈ succ x, Past t low w

/-- Settled nodes are in components, and a component leads to itself and to older ones. -/
structure Layered (succ : Nat → List Nat) (s : Search) : Prop where
  listed : ∀ v, s.settled.has v = true → v ∈ s.components.flatten
  full : ∀ c ∈ s.components, c ≠ []
  sunk : ∀ newer c older, s.components = newer ++ c :: older → ∀ v ∈ c, ∀ w ∈ succ v,
    w ∈ c ∨ w ∈ older.flatten

lemma Layered.complete {new old : List Nat} (h : Layered succ s) (waiting : s.waiting = new ++ v :: old)
    (absent : v ∉ new) (sunk : ∀ x ∈ new ++ [v], ∀ w ∈ succ x, w ∈ new ++ [v] ∨ s.settled.has w = true) :
    Layered succ (s.complete v) := by
  rw [complete_eq waiting absent]
  constructor
  case listed =>
    intro w there
    rw [List.flatten_cons, List.mem_append]
    cases Marks.has_addAll.1 there with
    | inl old => exact .inr (h.listed w old)
    | inr new => exact .inl new.1
  case full =>
    intro c mem
    cases mem with
    | head => simp
    | tail _ mem => exact h.full c mem
  case sunk =>
    intro newer c older split x here w next
    cases newer with
    | nil =>
      obtain ⟨rfl, rfl⟩ := List.cons_eq_cons.1 split
      exact (sunk x here w next).imp id (h.listed w)
    | cons d newer =>
      obtain ⟨-, split⟩ := List.cons_eq_cons.1 split
      exact h.sunk newer c older split x here w next

/-- The nodes that were not entered. -/
def fresh (count : Nat) (s : Search) : Finset Nat := (Finset.range count).filter fun n => s.index? n = none

lemma fresh_subset (kept : ∀ w i, s.index? w = some i → t.index? w = some i) : fresh count t ⊆ fresh count s := by
  intro n mem
  rw [fresh, Finset.mem_filter] at mem ⊢
  refine ⟨mem.1, ?_⟩
  cases at_ : s.index? n with
  | none => rfl
  | some i =>
    rw [kept n i at_] at mem
    cases mem.2

lemma card_fresh_lt : (fresh count s).card < count + 1 :=
  Nat.lt_succ_of_le ((Finset.card_filter_le _ _).trans (Finset.card_range count).le)

lemma card_fresh_enter (new : s.index? v = none) (small : v < count) (size : s.index.size = count) :
    (fresh count (s.enter v)).card < (fresh count s).card := by
  apply Finset.card_lt_card
  rw [Finset.ssubset_iff_of_subset]
  · refine ⟨v, Finset.mem_filter.2 ⟨Finset.mem_range.2 small, new⟩, fun mem => ?_⟩
    have gone := (Finset.mem_filter.1 mem).2
    rw [index?_enter (size.symm ▸ small), if_pos rfl] at gone
    cases gone
  · exact fresh_subset ((Later.refl s).enter new (size.symm ▸ small)).index

/-- What the look at some successors of a node comes to, besides what it leaves waiting. -/
structure Scans (count : Nat) (succ : Nat → List Nat) (inside : Nat → Prop) (s : Search) (v : Nat)
    (l : List Nat) (low : Nat) (t : Search) : Prop extends Looks count succ inside s v low t where
  later : Later (s.enter v) t
  clears : Clears succ (s.enter v) low t
  layered : Layered succ t
  /-- The successors that were looked at are settled or wait. -/
  scanned : ∀ w ∈ l, Past t low w

/-- What the search from a node comes to, besides what it leaves waiting. -/
structure Leaves (count : Nat) (succ : Nat → List Nat) (inside : Nat → Prop) (s : Search) (v : Nat)
    (low : Nat) (t : Search) : Prop extends Visits count succ inside s v low t where
  later : Later s t
  clears : Clears succ s low t
  layered : Layered succ t
  here : (t.index? v).isSome

/-- The node from which the search started is settled, or the number that comes back is below its own. -/
lemma Leaves.past (h : Leaves count succ inside s v low t) (new : s.index? v = none)
    (start : Orderly count succ inside s) : Past t low v := by
  cases h.orderly.known v h.here with
  | inr settled => exact .inl settled
  | inl waits =>
    refine .inr ⟨waits, ?_⟩
    obtain ⟨more, eq, ⟨rfl, -⟩ | ⟨-, at_, less⟩⟩ := h.waiting
    · rw [eq] at waits
      exact absurd (List.mem_append_left _ waits) (start.fresh new)
    · exact ⟨_, at_, less.le⟩

lemma Scans.seen {i : Nat} (h : Scans count succ inside s v l low t) (next : w ∈ succ v)
    (at_ : t.index? w = some i) (waits : w ∈ t.waiting) :
    Scans count succ inside s v (l ++ [w]) (min low i) t where
  toLooks := h.toLooks.seen next at_ waits
  later := h.later
  clears x there new y next := (h.clears x there new y next).later (.refl t) (Nat.min_le_left _ _)
  layered := h.layered
  scanned := by
    intro y mem
    cases List.mem_append.1 mem with
    | inl old => exact (h.scanned y old).later (.refl t) (Nat.min_le_left _ _)
    | inr here =>
      rw [List.mem_singleton.1 here]
      exact .inr ⟨waits, i, at_, Nat.min_le_right _ _⟩

lemma Scans.settled (h : Scans count succ inside s v l low t) (settled : t.settled.has w = true) :
    Scans count succ inside s v (l ++ [w]) low t where
  toLooks := h.toLooks
  later := h.later
  clears := h.clears
  layered := h.layered
  scanned := by
    intro y mem
    cases List.mem_append.1 mem with
    | inl old => exact h.scanned y old
    | inr here => exact .inl (List.mem_singleton.1 here ▸ settled)

lemma Scans.visited (h : Scans count succ inside s v l low t) (next : w ∈ succ v)
    (reach : ∀ y ∈ s.waiting, Reaches succ y v) (new : t.index? w = none)
    (leaves : Leaves count succ inside t w low' u) :
    Scans count succ inside s v (l ++ [w]) (min low low') u where
  toLooks := h.toLooks.visited next reach leaves.toVisits
  later := h.later.trans leaves.later
  clears := by
    intro x there unseen y next
    cases at_ : t.index? x with
    | none => exact (leaves.clears x there at_ y next).later (.refl u) (Nat.min_le_right _ _)
    | some i =>
      have past := h.clears x (by rw [at_]; rfl) unseen y next
      exact past.later leaves.later (Nat.min_le_left _ _)
  layered := leaves.layered
  scanned := by
    intro y mem
    cases List.mem_append.1 mem with
    | inl old => exact (h.scanned y old).later leaves.later (Nat.min_le_left _ _)
    | inr here =>
      rw [List.mem_singleton.1 here]
      exact (leaves.past new h.orderly).later (.refl u) (Nat.min_le_right _ _)

lemma Scans.past (h : Scans count succ inside s v l low t) (all : ∀ w ∈ succ v, w ∈ l)
    (start : Orderly count succ inside s) (small : v < count) (there : (t.index? x).isSome)
    (unseen : s.index? x = none) (next : w ∈ succ x) : Past t low w := by
  by_cases same : x = v
  · subst same
    exact h.scanned w (all w next)
  · refine h.clears x there ?_ w next
    rw [index?_enter (start.index_size.symm ▸ small), if_neg same, unseen]

/-- If nothing that waited before is reached, the node is settled with all that was entered since. -/
lemma Scans.complete (h : Scans count succ inside s v l s.entered t) (all : ∀ w ∈ succ v, w ∈ l)
    (start : Orderly count succ inside s) (small : v < count) (first : Later s (s.enter v))
    (here : (t.index? v).isSome) (visits : Visits count succ inside s v s.entered (t.complete v)) :
    Leaves count succ inside s v s.entered (t.complete v) := by
  obtain ⟨new, eq⟩ := h.waiting
  have split : t.waiting = (new ++ [v]) ++ s.waiting := by rw [eq, List.append_assoc]; rfl
  obtain ⟨once, -, apart⟩ := List.nodup_append.1 h.orderly.once
  have absent : v ∉ new := by
    rw [eq, List.nodup_append] at once
    exact fun mem => once.2.2 v mem v List.mem_cons_self rfl
  -- What waits and was not entered before the node is on top of those that waited before.
  have shut (w) (beyond : Past t s.entered w) : w ∈ new ++ [v] ∨ t.settled.has w = true := by
    rcases beyond with settled | ⟨waits, i, at_, above⟩
    · exact .inr settled
    · rw [split, List.mem_append] at waits
      refine .inl (waits.resolve_right fun old => ?_)
      obtain ⟨j, at_old⟩ := Option.isSome_iff_exists.1 (start.entered w (List.mem_append_left _ old))
      have below := start.counted w j at_old
      cases (h.later.index w j (first.index w j at_old)).symm.trans at_
      omega
  have unseen (x) (mem : x ∈ new ++ [v]) : s.index? x = none := by
    have waits : x ∈ t.waiting := by rw [split]; exact List.mem_append_left _ mem
    by_contra some_
    cases start.known x (Option.isSome_iff_ne_none.2 some_) with
    | inl old =>
      rw [split, List.nodup_append] at once
      exact once.2.2 x mem x old rfl
    | inr settled =>
      exact apart x waits x (h.layered.listed x (h.later.settled x settled)) rfl
  have sunk (x) (mem : x ∈ new ++ [v]) (w) (next : w ∈ succ x) :
      w ∈ new ++ [v] ∨ t.settled.has w = true := by
    have waits : x ∈ t.waiting := by rw [split]; exact List.mem_append_left _ mem
    have there := h.orderly.entered x (List.mem_append_left _ waits)
    exact shut w (h.past all start small there (unseen x mem) next)
  have settled (w) (done : w ∈ new ++ [v] ∨ t.settled.has w = true) : (t.complete v).settled.has w = true := by
    rw [complete_eq eq absent]
    apply Marks.has_addAll.2
    cases done with
    | inl new_ =>
      refine .inr ⟨new_, h.orderly.settled_size.symm ▸ (h.orderly.inside w ?_).2⟩
      apply h.orderly.entered
      rw [split]
      exact List.mem_append_left _ (List.mem_append_left _ new_)
    | inr old => exact .inl old
  refine ⟨visits, ⟨fun w there => ?_, fun w there => ?_, visits.kept⟩, fun x there fresh w next => ?_,
    h.layered.complete eq absent sunk, here⟩
  · exact settled w (.inr (h.later.settled w there))
  · rw [complete_eq eq absent]
    exact there
  · exact .inl (settled w (shut w (h.past all start small there fresh next)))

lemma Scans.leave (h : Scans count succ inside s v l low t) (all : ∀ w ∈ succ v, w ∈ l)
    (start : Orderly count succ inside s) (new : s.index? v = none) (small : v < count) :
    Leaves count succ inside s v low (if low = s.entered then t.complete v else t) := by
  have visits := h.toLooks.leave start new small
  have first : Later s (s.enter v) := (Later.refl s).enter new (start.index_size.symm ▸ small)
  have here : (t.index? v).isSome := by
    apply h.later.isSome
    rw [index?_enter (start.index_size.symm ▸ small), if_pos rfl]
    rfl
  split
  · rename_i least
    subst least
    rw [if_pos rfl] at visits
    exact h.complete all start small first here visits
  · rename_i more
    rw [if_neg more] at visits
    exact ⟨visits, first.trans h.later, fun x there fresh w next => h.past all start small there fresh next,
      h.layered, here⟩

/-- With fuel for all nodes that were not entered, the search leaves the node from which it starts and all
that it enters on the way. -/
lemma leaves_visit (closed : ∀ v, inside v → ∀ w ∈ succ v, inside w ∧ w < count)
    (enough : (fresh count s).card < fuel) (start : Orderly count succ inside s) (layered : Layered succ s)
    (new : s.index? v = none) (small : v < count) (here : inside v) (reach : ∀ y ∈ s.waiting, Reaches succ y v) :
    Leaves count succ inside s v (visit count succ fuel s v).1 (visit count succ fuel s v).2 := by
  induction fuel generalizing s v with
  | zero => exact absurd enough (Nat.not_lt_zero _)
  | succ fuel ih =>
    rw [visit]
    have own : (s.enter v).index? v = some s.entered := by
      rw [index?_enter (start.index_size.symm ▸ small), if_pos rfl]
    have fewer : (fresh count (s.enter v)).card < fuel :=
      (card_fresh_enter new small start.index_size).trans_le (Nat.le_of_lt_succ enough)
    have first : Scans count succ inside s v [] s.entered (s.enter v) := by
      refine ⟨⟨start.enter new small here, fun _ _ at_ => at_, Nat.le_refl _, Nat.le_refl _,
        ⟨[], rfl⟩, fun x mem => ?_, fun less => absurd rfl less.ne⟩,
        .refl _, fun x there fresh => ?_, ⟨layered.listed, layered.full, layered.sunk⟩, List.forall_mem_nil _⟩
      · cases mem with
        | head => exact .inr ⟨.refl, .refl, _, own, Nat.le_refl _⟩
        | tail _ old => exact .inl old
      · rw [fresh] at there
        cases there
    generalize eq : List.foldl _ _ (succ v).reverse = acc
    have all : Scans count succ inside s v (succ v).reverse acc.1 acc.2 := by
      rw [← eq]
      refine foldl_before (P := fun done (acc : Nat × Search) => Scans count succ inside s v done acc.1 acc.2)
        (fun done w rest acc split scans => ?_) first
      have mem : w ∈ succ v := by
        rw [← List.mem_reverse, split]
        simp
      obtain ⟨inner, below⟩ := closed v here w mem
      rw [look, if_neg (Nat.not_le.2 below)]
      split
      · rename_i unseen
        refine scans.visited mem reach unseen (ih ?_ scans.orderly scans.layered unseen below inner fun y old => ?_)
        · exact (Finset.card_le_card (fresh_subset scans.later.index)).trans_lt fewer
        · obtain older | ⟨-, back, -⟩ := scans.joined y old
          · exact (reach y older).tail mem
          · exact back.tail mem
      · rename_i i at_
        split
        · rename_i settled
          exact scans.settled settled
        · rename_i unsettled
          have known := scans.orderly.known w (by rw [at_]; rfl)
          exact scans.seen mem at_ (known.resolve_right unsettled)
    have left := all.leave (fun w mem => List.mem_reverse.2 mem) start new small
    split
    · rename_i same
      rw [if_pos same] at left
      rwa [same] at left
    · rename_i other
      rwa [if_neg other] at left

lemma layered_start : Layered succ (start count) where
  listed v there := by
    rw [start, Marks.not_has_none] at there
    cases there
  full := List.forall_mem_nil _
  sunk newer c older split := by cases newer <;> cases split

lemma Layered.reaches {newer c older} (h : Layered succ s) (split : s.components = newer ++ c :: older)
    (here : v ∈ c) (path : Reaches succ v w) : w ∈ c ∨ w ∈ older.flatten := by
  induction path with
  | refl => exact .inl here
  | tail _ next ih =>
    cases ih with
    | inl inside => exact h.sunk newer c older split _ inside _ next
    | inr below =>
      obtain ⟨d, mem, there⟩ := List.mem_flatten.1 below
      obtain ⟨above, beneath, rfl⟩ := List.append_of_mem mem
      have deeper : s.components = (newer ++ c :: above) ++ d :: beneath := by rw [split]; simp
      right
      rw [List.flatten_append, List.flatten_cons, List.mem_append, List.mem_append]
      exact .inr (h.sunk _ d beneath deeper _ there _ next)

end Search

variable {count : Nat} {succ : Nat → List Nat} {nodes : List Nat} {v w : Nat}

lemma exists_layered (closed : ∀ v ∈ nodes, ∀ w ∈ succ v, w ∈ nodes) (small : ∀ v ∈ nodes, v < count) :
    ∃ s, Search.Orderly count succ (· ∈ nodes) s ∧ Search.Layered succ s ∧
      (∀ v ∈ nodes, v ∈ s.components.flatten) ∧ components nodes count succ = s.components.reverse := by
  -- Between two searches nothing waits, so what was entered is settled.
  let Rests (done : List Nat) (s : Search) : Prop := (Search.Orderly count succ (· ∈ nodes) s ∧ s.waiting = []) ∧
    Search.Layered succ s ∧ ∀ v ∈ done, (s.index? v).isSome
  suffices found : ∃ s, Rests nodes s ∧ components nodes count succ = s.components.reverse by
    obtain ⟨s, ⟨⟨orderly, none⟩, layered, entered⟩, eq⟩ := found
    refine ⟨s, orderly, layered, fun v mem => ?_, eq⟩
    cases orderly.known v (entered v mem) with
    | inl waits =>
      rw [none] at waits
      cases waits
    | inr settled => exact layered.listed v settled
  refine ⟨_, ?_, rfl⟩
  refine Search.foldl_before (P := Rests) (fun done v rest s split => ?_)
    ⟨⟨Search.orderly_start, rfl⟩, Search.layered_start, List.forall_mem_nil _⟩
  have mem : v ∈ nodes := by rw [split]; simp
  rintro ⟨⟨orderly, none⟩, layered, entered⟩
  have grow {t : Search} (later : Search.Later s t) (here : (t.index? v).isSome) :
      ∀ w ∈ done ++ [v], (t.index? w).isSome := by
    intro w there
    cases List.mem_append.1 there with
    | inl old => exact later.isSome (entered w old)
    | inr last => exact List.mem_singleton.1 last ▸ here
  split
  · rename_i new
    have leaves := Search.leaves_visit (fun v here w next => ⟨closed v here w next, small w (closed v here w next)⟩)
      Search.card_fresh_lt orderly layered new (small v mem) mem (by simp [none])
    refine ⟨⟨leaves.orderly, ?_⟩, leaves.layered, grow leaves.later leaves.here⟩
    obtain ⟨new, eq, ⟨rfl, -⟩ | ⟨-, -, less⟩⟩ := leaves.waiting
    · exact eq.trans none
    · obtain ⟨y, old, -⟩ := leaves.back less
      rw [none] at old
      cases old
  · rename_i i at_
    exact ⟨⟨orderly, none⟩, layered, grow (.refl s) (by rw [at_]; rfl)⟩

/-- A component lies on a cycle if it has two nodes, or an edge from its only node to itself. -/
lemma isCyclic_iff {c : List Nat} (full : c ≠ []) (once : c.Nodup)
    (joined : ∀ v ∈ c, ∀ w, w ∈ c ↔ Reaches succ v w ∧ Reaches succ w v) :
    isCyclic succ c = true ↔ ∀ v ∈ c, Relation.TransGen (fun v w => w ∈ succ v) v v := by
  match c with
  | [] => exact absurd rfl full
  | [v] =>
    rw [isCyclic, List.contains_iff_mem, List.forall_mem_singleton]
    constructor
    · intro next
      exact .single next
    · intro cycle
      obtain ⟨w, next, back⟩ := Relation.TransGen.head'_iff.1 cycle
      have here : w ∈ [v] := (joined v (List.mem_singleton_self v) w).2 ⟨.single next, back⟩
      rwa [List.mem_singleton.1 here] at next
  | v :: w :: rest =>
    refine iff_of_true rfl fun x here => ?_
    have other : ∃ y ∈ v :: w :: rest, y ≠ x := by
      by_cases same : v = x
      · refine ⟨w, by simp, ?_⟩
        rintro rfl
        exact (List.nodup_cons.1 once).1 (by simp [same])
      · exact ⟨v, by simp, same⟩
    obtain ⟨y, there, apart⟩ := other
    obtain ⟨path, back⟩ := (joined x here y).1 there
    cases Relation.reflTransGen_iff_eq_or_transGen.1 path with
    | inl same => exact absurd same apart
    | inr path => exact path.trans_left back

lemma condenses_of_closed (closed : ∀ v ∈ nodes, ∀ w ∈ succ v, w ∈ nodes) (small : ∀ v ∈ nodes, v < count) :
    Condenses nodes (fun v w => w ∈ succ v) (isCyclic succ) (components nodes count succ) := by
  obtain ⟨s, orderly, layered, found, eq⟩ := exists_layered closed small
  have once : (components nodes count succ).flatten.Nodup := by
    rw [eq]
    exact (List.reverse_perm s.components).flatten.nodup_iff.2 (List.nodup_append.1 orderly.once).2.1
  have ordered (before : List (List Nat)) (c after) (split : components nodes count succ = before ++ c :: after) (v)
      (here : v ∈ c) (w) (path : Reaches succ v w) : w ∈ c ∨ w ∈ before.flatten := by
    have split' : s.components = after.reverse ++ c :: before.reverse := by
      rw [← List.reverse_reverse s.components, ← eq, split]
      simp
    refine (layered.reaches split' here path).imp id fun below => ?_
    exact (List.reverse_perm before).flatten.mem_iff.1 below
  have full (c) (mem : c ∈ components nodes count succ) : c ≠ [] := by
    rw [eq, List.mem_reverse] at mem
    exact layered.full c mem
  -- If a node of an earlier component led back, it would be in that one or in a still earlier one.
  have joined (c) (mem : c ∈ components nodes count succ) (v) (here : v ∈ c) (w) :
      w ∈ c ↔ Reaches succ v w ∧ Reaches succ w v := by
    constructor
    · intro there
      rw [eq, List.mem_reverse] at mem
      exact ⟨orderly.joined c mem v here w there, orderly.joined c mem w there v here⟩
    · rintro ⟨path, back⟩
      obtain ⟨before, after, split⟩ := List.append_of_mem mem
      apply (ordered before c after split v here w path).resolve_right
      intro earlier
      obtain ⟨d, among, there⟩ := List.mem_flatten.1 earlier
      obtain ⟨first, second, rfl⟩ := List.append_of_mem among
      have split' : components nodes count succ = first ++ d :: (second ++ c :: after) := by rw [split]; simp
      rw [split'] at once
      simp only [List.flatten_append, List.flatten_cons, List.nodup_append, List.mem_append] at once
      obtain ⟨-, ⟨-, -, apart⟩, apart'⟩ := once
      cases ordered first d _ split' w there v back with
      | inl inside => exact apart v inside v (.inr (.inl here)) rfl
      | inr older => exact apart' v older v (.inr (.inr (.inl here))) rfl
  constructor
  case once => exact once
  case all =>
    intro v
    constructor
    · intro mem
      rw [eq, (List.reverse_perm s.components).flatten.mem_iff] at mem
      exact (orderly.inside v (orderly.entered v (List.mem_append_right _ mem))).1
    · intro mem
      rw [eq]
      exact (List.reverse_perm s.components).flatten.mem_iff.2 (found v mem)
  case full => exact full
  case joined => exact fun c mem v here w _ => joined c mem v here w
  case ordered => exact ordered
  case cyclic =>
    intro c mem
    exact isCyclic_iff (full c mem) ((List.nodup_flatten.1 once).1 c mem) (joined c mem)

/-- No node of a component with a cycle leads only out of it. -/
lemma Condenses.exists_succ {cyclic : List Nat → Bool} {cs : List (List Nat)} {c : List Nat}
    (h : Condenses nodes (fun v w => w ∈ succ v) cyclic cs)
    (closed : ∀ v ∈ nodes, ∀ w ∈ succ v, w ∈ nodes) (mem : c ∈ cs)
    (cycle : cyclic c = true) (here : v ∈ c) : ∃ w ∈ c, w ∈ succ v := by
  obtain ⟨w, next, back⟩ := Relation.TransGen.head'_iff.1 ((h.cyclic c mem).1 cycle v here)
  have inside : v ∈ nodes := (h.all v).1 (List.mem_flatten_of_mem mem here)
  exact ⟨w, (h.joined c mem v here w (closed v inside w next)).2 ⟨.single next, back⟩, next⟩

namespace Search

variable {fuel : Nat}

lemma foldl_look_within {search : Search → Nat → Nat × Search} {acc : Nat × Search} :
    (within count succ v).reverse.foldl (look count search) acc = (succ v).reverse.foldl (look count search) acc := by
  rw [within, ← List.filter_reverse, List.foldl_filter]
  congr 1
  funext acc w
  by_cases below : w < count
  · rw [if_pos (decide_eq_true below)]
  · rw [if_neg (by simpa using below), look, if_pos (Nat.not_lt.1 below)]

lemma visit_within : visit count (within count succ) fuel = visit count succ fuel := by
  induction fuel with
  | zero => rfl
  | succ fuel ih =>
    funext s v
    rw [visit, visit, ih, foldl_look_within]

end Search

lemma components_within : components nodes count (within count succ) = components nodes count succ := by
  simp only [components, Search.visit_within]

lemma isCyclic_within {c : List Nat} (small : ∀ v ∈ c, v < count) :
    isCyclic (within count succ) c = isCyclic succ c := by
  match c with
  | [] => rfl
  | [v] =>
    rw [isCyclic, isCyclic, Bool.eq_iff_iff, List.contains_iff_mem, List.contains_iff_mem, within, List.mem_filter]
    exact and_iff_left (decide_eq_true (small v (List.mem_singleton_self v)))
  | _ :: _ :: _ => rfl

/-- The components of nodes that no edge of the graph leaves.  An edge leads to a node of the graph. -/
lemma condenses_components (closed : ∀ v ∈ nodes, ∀ w ∈ succ v, w < count → w ∈ nodes)
    (small : ∀ v ∈ nodes, v < count) :
    Condenses nodes (fun v w => w ∈ succ v ∧ w < count) (isCyclic succ) (components nodes count succ) := by
  have next (v w) : w ∈ within count succ v ↔ w ∈ succ v ∧ w < count := by
    rw [within, List.mem_filter, decide_eq_true_eq]
  have condenses : Condenses nodes (fun v w => w ∈ within count succ v) (isCyclic (within count succ))
      (components nodes count (within count succ)) := by
    refine condenses_of_closed (fun v mem w there => ?_) small
    obtain ⟨there, below⟩ := (next v w).1 there
    exact closed v mem w there below
  simp only [next, components_within] at condenses
  refine { condenses with cyclic := fun c mem => ?_ }
  have inside : ∀ v ∈ c, v < count := fun v here => small v ((condenses.all v).1 (List.mem_flatten_of_mem mem here))
  rw [← isCyclic_within inside]
  exact condenses.cyclic c mem

/-! ## The same search with frames -/

/-- A node that the search is at: the least index of a waiting node that was seen, and the successors to look at. -/
structure Frame where
  node : Nat
  low : Nat
  pending : List Nat

/-- A search that keeps the nodes it is at in frames. -/
structure Descent where
  search : Search
  /-- The nodes from one to the next, the last one first. -/
  frames : List Frame := []
  /-- The nodes to start from. -/
  nodes : List Nat

namespace Descent

/-- Enters a node. -/
def enter (succ : Nat → List Nat) (s : Search) (v : Nat) (frames : List Frame) (nodes : List Nat) : Descent :=
  ⟨s.enter v, ⟨v, s.entered, (succ v).reverse⟩ :: frames, nodes⟩

/-- Looks at the next successor of the last node, or leaves the node.  What was seen from it was
seen from the node before it.  Without frames, the search starts from the next node. -/
def step (count : Nat) (succ : Nat → List Nat) (d : Descent) : Option Descent :=
  match d.frames, d.nodes with
  | [], [] => none
  | [], v :: nodes => some (if (d.search.index? v).isNone then enter succ d.search v [] nodes else ⟨d.search, [],
    nodes⟩)
  | ⟨v, low, w :: pending⟩ :: frames, nodes => some <|
    if count ≤ w then ⟨d.search, ⟨v, low, pending⟩ :: frames, nodes⟩
    else match d.search.index? w with
      | none => enter succ d.search w (⟨v, low, pending⟩ :: frames) nodes
      | some i => ⟨d.search, ⟨v, if d.search.settled.has w then low else min low i, pending⟩ :: frames, nodes⟩
  | ⟨v, low, []⟩ :: frames, nodes =>
    some ⟨if d.search.index? v = some low then d.search.complete v else d.search,
      frames.modifyHead fun f => { f with low := min f.low low }, nodes⟩

/-- Some steps lead from a state to another. -/
def Leads (count : Nat) (succ : Nat → List Nat) : Descent → Descent → Prop :=
  Relation.ReflTransGen fun d d' => d.step count succ = some d'

end Descent

namespace Search

/-- Nodes that were entered keep their numbers. -/
structure Keeps (s t : Search) : Prop where
  size : t.index.size = s.index.size
  index : ∀ w i, s.index? w = some i → t.index? w = some i

lemma Keeps.trans {s t u : Search} (h : Keeps s t) (h' : Keeps t u) : Keeps s u :=
  ⟨h'.size.trans h.size, fun w i at_ => h'.index w i (h.index w i at_)⟩

variable {fuel : Nat} {s : Search}

lemma keeps_enter (new : s.index? v = none) : Keeps s (s.enter v) where
  size := Array.size_setIfInBounds ..
  index w i at_ := by
    have other : v ≠ w := by
      rintro rfl
      rw [new] at at_
      cases at_
    rw [enter, index?, Array.getElem?_setIfInBounds_ne other]
    exact at_

lemma keeps_look {search : Search → Nat → Nat × Search} {low w : Nat}
    (visit : ∀ s v, s.index? v = none → Keeps s (search s v).2) : Keeps s (look count search (low, s) w).2 := by
  rw [look]
  split
  · exact ⟨rfl, fun _ _ => id⟩
  · split
    · rename_i new
      exact visit _ _ new
    · split <;> exact ⟨rfl, fun _ _ => id⟩

lemma keeps_foldl {search : Search → Nat → Nat × Search} {low : Nat} {l : List Nat}
    (visit : ∀ s v, s.index? v = none → Keeps s (search s v).2) : Keeps s (l.foldl (look count search) (low, s)).2 := by
  induction l generalizing s low with
  | nil => exact ⟨rfl, fun _ _ => id⟩
  | cons w l ih => exact (keeps_look visit).trans ih

lemma keeps_visit (new : s.index? v = none) : Keeps s (visit count succ fuel s v).2 := by
  induction fuel generalizing s v with
  | zero => exact ⟨rfl, fun _ _ => id⟩
  | succ fuel ih =>
    rw [visit]
    have inner : Keeps s ((succ v).reverse.foldl (look count (visit count succ fuel)) (s.entered, s.enter v)).2 :=
      (keeps_enter new).trans (keeps_foldl fun _ _ => ih)
    split
    · exact inner.trans ⟨rfl, fun _ _ => id⟩
    · exact inner

end Search

namespace Descent

variable {fuel low : Nat} {s : Search} {frames : List Frame} {l : List Nat}

/-- What is to be looked at, given what the search from a node comes to. -/
lemma leads_foldl (size : s.index.size = count) (enough : (Search.fresh count s).card < fuel)
    (visit : ∀ s w frames, s.index.size = count → (Search.fresh count s).card < fuel → s.index? w = none → w < count →
      Leads count succ (enter succ s w frames nodes) ⟨(s.visit count succ fuel w).2,
        frames.modifyHead fun f => { f with low := min f.low (s.visit count succ fuel w).1 }, nodes⟩) :
    Leads count succ ⟨s, ⟨v, low, l⟩ :: frames, nodes⟩
      ⟨(l.foldl (Search.look count (Search.visit count succ fuel)) (low, s)).2,
        ⟨v, (l.foldl (Search.look count (Search.visit count succ fuel)) (low, s)).1, []⟩ :: frames, nodes⟩ := by
  induction l generalizing s low with
  | nil => exact .refl
  | cons w l ih =>
    rw [List.foldl_cons, Search.look]
    split
    · rename_i outside
      exact .head (congrArg some (if_pos outside)) (ih size enough)
    · rename_i inside
      rw [Nat.not_le] at inside
      split
      · rename_i new
        have keeps : Search.Keeps s (s.visit count succ fuel w).2 := Search.keeps_visit new
        have entered := visit s w (⟨v, low, l⟩ :: frames) size enough new inside
        refine .head ?_ (entered.trans (ih (keeps.size.trans size) ?_))
        · simp [step, Nat.not_le.2 inside, new]
        · exact (Finset.card_le_card (Search.fresh_subset keeps.index)).trans_lt enough
      · rename_i i old
        refine .head (b := ⟨s, ⟨v, if s.settled.has w then low else min low i, l⟩ :: frames, nodes⟩) ?_ ?_
        · simp [step, Nat.not_le.2 inside, old]
        · split
          · exact ih size enough
          · exact ih size enough

lemma leads_visit (size : s.index.size = count) (enough : (Search.fresh count s).card < fuel)
    (new : s.index? v = none) (inside : v < count) :
    Leads count succ (enter succ s v frames nodes) ⟨(s.visit count succ fuel v).2,
      frames.modifyHead fun f => { f with low := min f.low (s.visit count succ fuel v).1 }, nodes⟩ := by
  induction fuel generalizing s v frames with
  | zero => exact absurd enough (Nat.not_lt_zero _)
  | succ fuel ih =>
    have keeps := Search.keeps_enter new
    have fewer := Search.card_fresh_enter new inside size
    have looked : Leads count succ (enter succ s v frames nodes) ⟨_, ⟨v, _, []⟩ :: frames, nodes⟩ :=
      leads_foldl (keeps.size.trans size) (by omega) fun s w frames size enough new inside => ih size enough new inside
    have own : ((succ v).reverse.foldl (Search.look count (Search.visit count succ fuel)) (s.entered,
      s.enter v)).2.index? v =
        some s.entered := by
      refine (Search.keeps_foldl fun _ _ => Search.keeps_visit).index v _ ?_
      rw [Search.index?_enter (size.symm ▸ inside), if_pos rfl]
    refine looked.tail ?_
    rw [Search.visit, step]
    dsimp only
    rw [own]
    generalize (succ v).reverse.foldl _ _ = acc
    by_cases same : acc.1 = s.entered
    · rw [if_pos (congrArg some same.symm), if_pos same, same]
    · rw [if_neg fun here => same (Option.some.inj here).symm, if_neg same]

end Descent

/-- The search with frames comes to its end, with the same components. -/
lemma exists_descent (small : ∀ v ∈ nodes, v < count) : ∃ d, Descent.Leads count succ ⟨.start count, [], nodes⟩ d ∧
    d.step count succ = none ∧ d.search.components.reverse = components nodes count succ := by
  have size : (Search.start count).index.size = count := Array.size_replicate
  rw [components]
  generalize Search.start count = s at size
  induction nodes generalizing s with
  | nil => exact ⟨_, .refl, rfl, rfl⟩
  | cons v nodes ih =>
    obtain ⟨inside, small⟩ := List.forall_mem_cons.1 small
    rw [List.foldl_cons]
    split
    · rename_i new
      have keeps : Search.Keeps s (s.visit count succ (count + 1) v).2 := Search.keeps_visit new
      obtain ⟨d, leads, stop, found⟩ := ih small _ (keeps.size.trans size)
      have entered : Descent.Leads count succ (.enter succ s v [] nodes) ⟨_, [], nodes⟩ :=
        Descent.leads_visit size Search.card_fresh_lt new inside
      refine ⟨d, .head ?_ (entered.trans leads), stop, found⟩
      simp [Descent.step, new]
    · rename_i i old
      obtain ⟨d, leads, stop, found⟩ := ih small s size
      refine ⟨d, .head ?_ leads, stop, found⟩
      simp [Descent.step, old]

end Avm.Graph
