import Avm.Proofs.Graph.Search

/-!
# Depth-first orders

A depth-first search leaves a node behind everything that it found below the node.  So of an edge it leaves the end
before the start, unless the edge leads back to a node that it has not left yet; and all of those reach the node where
the search is.  The order in which it leaves nodes, turned around, begins with the start, and every other node has a
node that leads to it before it.  So there is a way to each node through nodes before it, and what is on every way to
the node is before it too.

The search may as well keep a stack of requests to enter nodes and to leave them (`Errand`), on which a node may be
asked for more than once: it leaves the nodes in the same order.

The main statement is `descends_postorder`.
-/

namespace Avm.Graph

variable {E : Nat → Nat → Prop} {R R' : Nat → Prop} {start v w : Nat} {l front back : List Nat}

section Orders

/-- Each node of a list is a root, or a node before it leads to it. -/
def Led (E : Nat → Nat → Prop) : (Nat → Prop) → List Nat → Prop
  | _, [] => True
  | R, v :: l => R v ∧ Led E (fun w => R w ∨ E v w) l

/-- Each edge out of a node of a list leads to a node behind it, or to one that reaches it. -/
def Closed (E : Nat → Nat → Prop) : List Nat → Prop
  | [] => True
  | v :: l => (∀ w, E v w → w ∈ l ∨ Relation.ReflTransGen E w v) ∧ Closed E l

/-- The nodes of a way that begins at a node and goes along edges. -/
def IsWay (E : Nat → Nat → Prop) (start v : Nat) (way : List Nat) : Prop :=
  (start :: way).IsChain E ∧ (start :: way).getLast? = some v

/-- The node is on every way from the start to another one. -/
def StrictlyDominates (E : Nat → Nat → Prop) (start v w : Nat) : Prop :=
  v ≠ w ∧ ∀ way, IsWay E start w way → v ∈ start :: way

lemma Led.mono (led : Led E R l) (roots : ∀ v, R v → R' v) : Led E R' l := by
  induction l generalizing R R' with
  | nil => trivial
  | cons v l ih => exact ⟨roots v led.1, ih led.2 fun w => Or.imp_left (roots w)⟩

lemma Led.append (led : Led E R front) (led' : Led E R back) : Led E R (front ++ back) := by
  induction front generalizing R with
  | nil => exact led'
  | cons v l ih => exact ⟨led.1, ih led.2 (led'.mono fun w => .inl)⟩

lemma IsWay.step {way : List Nat} (h : IsWay E start v way) (edge : E v w) : IsWay E start w (way ++ [w]) := by
  rw [IsWay, ← List.cons_append, List.getLast?_append]
  refine ⟨List.isChain_append.2 ⟨h.1, List.isChain_singleton w, fun x last y first => ?_⟩, rfl⟩
  rw [h.2] at last
  obtain rfl := Option.some.inj last
  obtain rfl := Option.some.inj first
  exact edge

lemma Led.way {before : List Nat} (led : Led E R (front ++ v :: back))
    (roots : ∀ w, R w → ∃ way, IsWay E start w way ∧ ∀ x ∈ start :: way, x = w ∨ x ∈ before) :
    ∃ way, IsWay E start v way ∧ ∀ x ∈ start :: way, x = v ∨ x ∈ before ++ front := by
  induction front generalizing R before with
  | nil =>
    rw [List.append_nil]
    exact roots v led.1
  | cons u front ih =>
    rw [List.append_cons]
    refine ih led.2 ?_
    rintro w (root | edge)
    · obtain ⟨way, goes, through⟩ := roots w root
      exact ⟨way, goes, fun x mem => (through x mem).imp_right (List.mem_append_left _)⟩
    · obtain ⟨way, goes, through⟩ := roots u led.1
      refine ⟨way ++ [w], goes.step edge, fun x mem => ?_⟩
      rw [← List.cons_append, List.mem_append, List.mem_singleton] at mem
      obtain mem | rfl := mem
      · obtain rfl | mem := through x mem
        · exact .inr (List.mem_append_right _ (List.mem_singleton_self x))
        · exact .inr (List.mem_append_left _ mem)
      · exact .inl rfl

lemma Closed.of_append (closed : Closed E (front ++ v :: back)) :
    ∀ w, E v w → w ∈ back ∨ Relation.ReflTransGen E w v := by
  induction front with
  | nil => exact closed.1
  | cons u front ih => exact ih closed.2

lemma IsWay.reaches {way : List Nat} (h : IsWay E start v way) : Relation.ReflTransGen E start v := by
  apply List.relationReflTransGen_of_exists_isChain_cons way h.1
  have last := h.2
  rw [List.getLast?_eq_getLast_of_ne_nil (List.cons_ne_nil _ _)] at last
  exact Option.some.inj last

end Orders

variable {count fuel : Nat} {succ : Nat → List Nat}

/-- An edge leads to a node of the graph. -/
def Goes (count : Nat) (succ : Nat → List Nat) (v w : Nat) : Prop := w ∈ succ v ∧ w < count

namespace Walk

variable {s t : Walk}

/-- The nodes that were entered and not left yet. -/
def Open (s : Walk) (v : Nat) : Prop := s.seen.has v = true ∧ v ∉ s.finished

/-- What a search adds to what was left: nodes that are roots or are led to, with edges that lead on or back. -/
structure Adds (count : Nat) (succ : Nat → List Nat) (R : Nat → Prop) (s t : Walk) : Prop where
  added : ∃ new, t.finished = new ++ s.finished ∧ Led (Goes count succ) R new
  closed : Closed (Goes count succ) s.finished → Closed (Goes count succ) t.finished

lemma Adds.refl (s : Walk) : Adds count succ R s s := ⟨⟨[], rfl, trivial⟩, id⟩

lemma Adds.trans {u : Walk} (h : Adds count succ R s t) (h' : Adds count succ R t u) : Adds count succ R s u := by
  obtain ⟨new, eq, led⟩ := h.added
  obtain ⟨new', eq', led'⟩ := h'.added
  refine ⟨⟨new' ++ new, ?_, led'.append led⟩, h'.closed ∘ h.closed⟩
  rw [eq', eq, List.append_assoc]

lemma Explores.open_iff (h : Explores count succ s t) : t.Open v ↔ s.Open v := by
  rw [Open, Open, h.finished]
  have grows := h.grows v
  generalize s.seen.has v = x, t.seen.has v = y at grows ⊢
  cases x <;> cases y <;> simp_all

lemma visit_of_stop (stop : s.seen.has v = true ∨ count ≤ v) : visit count succ fuel s v = s := by
  cases fuel with
  | zero => rfl
  | succ fuel => rw [visit, if_pos stop]

lemma adds_foldl (size : s.seen.bits.size = count) (enough : (unseen count s).card < fuel)
    (opened : ∀ u, s.Open u → Relation.ReflTransGen (Goes count succ) u v) (next : ∀ w ∈ l, w ∈ succ v)
    (visit : ∀ s w, s.seen.bits.size = count → (unseen count s).card < fuel →
      (∀ u, s.Open u → Relation.ReflTransGen (Goes count succ) u w) →
      Adds count succ (· = w) s (visit count succ fuel s w)) :
    Adds count succ (Goes count succ v) s (l.foldl (Walk.visit count succ fuel) s) := by
  induction l generalizing s with
  | nil => exact .refl s
  | cons w l ih =>
    rw [List.foldl_cons]
    have explores : Explores count succ s (Walk.visit count succ fuel s w) := (explores_visit size enough).1
    have rest := ih (explores.size.trans size) ((Finset.card_le_card explores.unseen_subset).trans_lt enough)
      (fun u here => opened u (explores.open_iff.1 here)) fun x mem => next x (List.mem_cons_of_mem w mem)
    refine Adds.trans ?_ rest
    by_cases inside : w < count
    · have edge : Goes count succ v w := ⟨next w List.mem_cons_self, inside⟩
      have first := visit s w size enough fun u here => (opened u here).tail edge
      obtain ⟨new, eq, led⟩ := first.added
      exact ⟨⟨new, eq, led.mono fun x same => same ▸ edge⟩, first.closed⟩
    · rw [visit_of_stop (.inr (Nat.le_of_not_lt inside))]
      exact .refl s

/-- All nodes that are open when a node is entered reach it.  What is found below it is left before it. -/
lemma adds_visit (size : s.seen.bits.size = count) (enough : (unseen count s).card < fuel)
    (opened : ∀ u, s.Open u → Relation.ReflTransGen (Goes count succ) u v) :
    Adds count succ (· = v) s (visit count succ fuel s v) := by
  induction fuel generalizing s v with
  | zero => exact absurd enough (Nat.not_lt_zero _)
  | succ fuel ih =>
    rw [visit]
    split
    · exact .refl s
    · rename_i go
      rw [not_or, Bool.not_eq_true, Nat.not_le] at go
      obtain ⟨new, inside⟩ := go
      have only (u) : (s.seen.add v).has u = true ↔ s.seen.has u = true ∨ u = v := by
        rw [Marks.has_add, size]
        simp [inside]
      set entered : Walk := { s with seen := s.seen.add v } with entered_eq
      have size' : entered.seen.bits.size = count := (Marks.size_add).trans size
      have enough' : (unseen count entered).card < fuel := by
        have fewer : (unseen count entered).card < (unseen count s).card := card_unseen_add size new inside
        omega
      have opened' (u) (here : entered.Open u) : Relation.ReflTransGen (Goes count succ) u v := by
        obtain old | rfl := (only u).1 here.1
        · exact opened u ⟨old, here.2⟩
        · exact .refl
      have inner := adds_foldl size' enough' opened' (fun _ mem => mem) fun s w => ih
      obtain ⟨explores, all⟩ := explores_foldl (l := succ v) size' enough' fun s w => explores_visit
      obtain ⟨more, eq, led⟩ := inner.added
      refine ⟨⟨v :: more, congrArg (v :: ·) eq, rfl, led.mono fun w => .inr⟩, fun closed =>
        ⟨fun w edge => ?_, inner.closed closed⟩⟩
      by_cases left : w ∈ ((succ v).foldl (visit count succ fuel) entered).finished
      · exact .inl left
      · exact .inr (opened' w (explores.open_iff.1 ⟨all w edge.1 edge.2, left⟩))

end Walk

/-- What is asked of a search. -/
inductive Request where
  /-- To enter a node, unless it was entered. -/
  | enter (v : Nat)
  /-- To leave a node. -/
  | leave (v : Nat)
deriving DecidableEq, Repr

/-- A search that keeps what is asked of it on a stack. -/
structure Errand where
  /-- The nodes that were entered. -/
  seen : Marks
  /-- What is asked for, the latest first. -/
  requests : List Request
  /-- The nodes that were left, the first one first. -/
  order : List Nat := []
deriving DecidableEq, Repr

namespace Errand

/-- Does what was asked for last; nothing if there is nothing to do.  Whoever enters a node asks to leave it, and before
that to enter those of its successors that were not entered so far. -/
def step (count : Nat) (succ : Nat → List Nat) (e : Errand) : Option Errand :=
  match e.requests with
  | [] => none
  | .enter v :: rest =>
    if e.seen.has v then some { e with requests := rest }
    else
      let seen := e.seen.add v
      let next := (succ v).filter fun w => decide (w < count) && !seen.has w
      some { e with seen := seen, requests := next.map .enter ++ .leave v :: rest }
  | .leave v :: rest => some { e with requests := rest, order := e.order ++ [v] }

/-- Some steps lead from a state to another. -/
def Leads (count : Nat) (succ : Nat → List Nat) : Errand → Errand → Prop :=
  Relation.ReflTransGen fun e e' => e.step count succ = some e'

/-- The state of a search that goes on with the given requests. -/
def of (s : Walk) (requests : List Request) : Errand := ⟨s.seen, requests, s.finished.reverse⟩

variable {s : Walk} {first : Marks} {requests : List Request}

/-- Requests to enter several nodes, given what one of them comes to.  Nodes that were entered before the requests were
made are not among them. -/
lemma leads_foldl (size : s.seen.bits.size = count) (enough : (Walk.unseen count s).card < fuel)
    (before : ∀ w, first.has w = true → s.seen.has w = true)
    (visit : ∀ s w requests, s.seen.bits.size = count → (Walk.unseen count s).card < fuel → w < count →
      Leads count succ (of s (.enter w :: requests)) (of (Walk.visit count succ fuel s w) requests)) :
    Leads count succ (of s ((l.filter fun w => decide (w < count) && !first.has w).map .enter ++ requests))
      (of (l.foldl (Walk.visit count succ fuel) s) requests) := by
  induction l generalizing s with
  | nil => exact .refl
  | cons w l ih =>
    rw [List.filter_cons, List.foldl_cons]
    have explores : Walk.Explores count succ s (Walk.visit count succ fuel s w) := (Walk.explores_visit size enough).1
    have rest := ih (explores.size.trans size) ((Finset.card_le_card explores.unseen_subset).trans_lt enough)
      fun x old => explores.grows x (before x old)
    split
    · rename_i asked
      rw [Bool.and_eq_true, decide_eq_true_eq] at asked
      exact (visit s w _ size enough asked.1).trans rest
    · rename_i passed
      have stop : s.seen.has w = true ∨ count ≤ w := by
        by_contra go
        rw [not_or, Nat.not_le] at go
        apply passed
        rw [Bool.and_eq_true, decide_eq_true_eq, Bool.not_eq_true', Bool.eq_false_iff]
        exact ⟨go.2, fun old => go.1 (before w old)⟩
      rwa [Walk.visit_of_stop stop] at rest ⊢

lemma leads_visit (size : s.seen.bits.size = count) (enough : (Walk.unseen count s).card < fuel) (inside : v < count) :
    Leads count succ (of s (.enter v :: requests)) (of (Walk.visit count succ fuel s v) requests) := by
  induction fuel generalizing s v requests with
  | zero => exact absurd enough (Nat.not_lt_zero _)
  | succ fuel ih =>
    rw [Walk.visit]
    split
    · rename_i stop
      refine .single ?_
      rw [step, of]
      dsimp only
      rw [if_pos (stop.resolve_right (Nat.not_le.2 inside))]
      rfl
    · rename_i go
      rw [not_or, Bool.not_eq_true] at go
      have fewer := Walk.card_unseen_add size go.1 inside
      have inner : Leads count succ
          (of { s with seen := s.seen.add v }
            (((succ v).filter fun w => decide (w < count) && !(s.seen.add v).has w).map .enter ++ .leave v :: requests))
          (of ((succ v).foldl (Walk.visit count succ fuel) { s with seen := s.seen.add v }) (.leave v :: requests)) :=
        leads_foldl (Marks.size_add.trans size) (by omega) (fun _ => id) fun s w requests size enough inside =>
          ih size enough inside
      refine .head ?_ (inner.tail ?_)
      · rw [step, of]
        dsimp only
        rw [if_neg (by rw [go.1]; decide)]
        rfl
      · rw [step, of, of]
        dsimp only
        rw [List.reverse_cons]

end Errand

/-- A list of the nodes that can be reached from a start, as they are left. -/
structure Descends (E : Nat → Nat → Prop) (start : Nat) (order : List Nat) : Prop where
  /-- The list has the nodes that can be reached. -/
  all : ∀ v, v ∈ order ↔ Relation.ReflTransGen E start v
  /-- No node is in it twice. -/
  once : order.Nodup
  /-- The start is left last. -/
  last : order.getLast? = some start
  /-- The end of an edge is left before its start, or leads back to it. -/
  below : ∀ v ∈ order, ∀ w, E v w → order.idxOf w < order.idxOf v ∨ Relation.ReflTransGen E w v
  /-- From the last one to the first, a node stands before those that it strictly dominates. -/
  ahead : ∀ v w, w ∈ order → StrictlyDominates E start v w → order.reverse.idxOf v < order.reverse.idxOf w

lemma idxOf_lt_idxOf (once : (front ++ v :: back).Nodup) (mem : w ∈ front) :
    (front ++ v :: back).idxOf w < (front ++ v :: back).idxOf v := by
  have absent : v ∉ front := fun here => (List.nodup_append.1 once).2.2 v here v List.mem_cons_self rfl
  rw [List.idxOf_append_of_mem mem, List.idxOf_append_of_notMem absent, List.idxOf_cons_self]
  exact (List.idxOf_lt_length_of_mem mem).trans_le (Nat.le_add_right _ _)

lemma postorder_of_outside (outside : count ≤ start) : postorder count succ start = [] := by
  rw [postorder, reversePostorder, Walk.visit_of_stop (.inr outside)]
  rfl

lemma exists_reversePostorder_eq (inside : start < count) : ∃ l, reversePostorder count succ start = start :: l := by
  rw [reversePostorder, Walk.visit, if_neg (by simp [inside])]
  exact ⟨_, rfl⟩

lemma led_and_closed (count : Nat) (succ : Nat → List Nat) (start : Nat) :
    Led (Goes count succ) (· = start) (reversePostorder count succ start) ∧
      Closed (Goes count succ) (reversePostorder count succ start) := by
  have adds : Walk.Adds count succ (· = start) { seen := .none count }
      (Walk.visit count succ (count + 1) { seen := .none count } start) := by
    refine Walk.adds_visit (by simp [Marks.none]) (Nat.lt_succ_of_le ?_) fun u here => ?_
    · exact (Finset.card_filter_le _ _).trans (by rw [Finset.card_range])
    · exact absurd here.1 (by simp)
  obtain ⟨new, eq, led⟩ := adds.added
  rw [List.append_nil] at eq
  exact ⟨by rwa [reversePostorder, eq], adds.closed trivial⟩

/-- There is a way to each node that is found, through nodes that were left behind it. -/
lemma exists_way (found : reversePostorder count succ start = front ++ v :: back) :
    ∃ way, IsWay (Goes count succ) start v way ∧ ∀ x ∈ start :: way, x = v ∨ x ∈ front := by
  have led := (led_and_closed count succ start).1
  rw [found] at led
  have roots (w) (same : w = start) :
      ∃ way, IsWay (Goes count succ) start w way ∧ ∀ x ∈ start :: way, x = w ∨ x ∈ ([] : List Nat) := by
    subst same
    exact ⟨[], ⟨List.isChain_singleton w, rfl⟩, fun x mem => .inl (List.mem_singleton.1 mem)⟩
  exact led.way roots

lemma mem_reversePostorder_iff (inside : start < count) :
    v ∈ reversePostorder count succ start ↔ Relation.ReflTransGen (Goes count succ) start v := by
  constructor
  · intro mem
    obtain ⟨front, back, split⟩ := List.append_of_mem mem
    obtain ⟨way, goes, -⟩ := exists_way split
    exact goes.reaches
  · intro path
    induction path with
    | refl => exact start_mem_reversePostorder inside
    | tail _ edge ih => exact mem_reversePostorder_of_mem ih edge.1 edge.2

lemma descends_of_inside (inside : start < count) : Descends (Goes count succ) start (postorder count succ start) := by
  have turned : (postorder count succ start).reverse = reversePostorder count succ start := List.reverse_reverse _
  have once : (reversePostorder count succ start).Nodup := nodup_reversePostorder
  constructor
  case all =>
    intro v
    rw [postorder, List.mem_reverse, mem_reversePostorder_iff inside]
  case once => exact List.nodup_reverse.2 once
  case last =>
    obtain ⟨l, eq⟩ : ∃ l, reversePostorder count succ start = start :: l := exists_reversePostorder_eq inside
    rw [postorder, List.getLast?_reverse, eq]
    rfl
  case below =>
    intro v mem w edge
    obtain ⟨front, back, split⟩ := List.append_of_mem (List.mem_reverse.1 mem)
    have closed := (led_and_closed count succ start).2
    rw [split] at closed once
    refine (closed.of_append w edge).imp_left fun behind => ?_
    have split' : postorder count succ start = back.reverse ++ v :: front.reverse := by
      rw [postorder, split]
      simp
    rw [split']
    refine idxOf_lt_idxOf ?_ (List.mem_reverse.2 behind)
    rw [← split', postorder, split]
    exact List.nodup_reverse.2 once
  case ahead =>
    intro v w mem ⟨other, dominates⟩
    obtain ⟨front, back, split⟩ := List.append_of_mem (List.mem_reverse.1 mem)
    obtain ⟨way, goes, through⟩ := exists_way split
    rw [turned, split]
    rw [split] at once
    exact idxOf_lt_idxOf once ((through v (dominates way goes)).resolve_left other)

/-- From a node of a graph, a depth-first search finds the nodes that can be reached, each once and the start last: the
end of an edge before its start unless it reaches it, and, turned around, each node behind those that strictly dominate
it.  A search that keeps requests on a stack comes to its end, with the same order.  From anywhere else nothing is
found. -/
theorem descends_postorder (count : Nat) (succ : Nat → List Nat) (start : Nat) :
    (start < count → Descends (Goes count succ) start (postorder count succ start) ∧
      ∃ e, Errand.Leads count succ ⟨.none count, [.enter start], []⟩ e ∧ e.step count succ = none ∧
        e.order = postorder count succ start) ∧
    (count ≤ start → postorder count succ start = []) := by
  refine ⟨fun inside => ⟨descends_of_inside inside, ?_⟩, postorder_of_outside⟩
  have enough : (Walk.unseen count { seen := .none count }).card < count + 1 :=
    Nat.lt_succ_of_le ((Finset.card_filter_le _ _).trans (by rw [Finset.card_range]))
  have leads : Errand.Leads count succ (.of { seen := .none count } [.enter start])
      (.of (Walk.visit count succ (count + 1) { seen := .none count } start) []) :=
    Errand.leads_visit (by simp [Marks.none]) enough inside
  exact ⟨_, leads, rfl, rfl⟩

/-- A graph with a node that two edges lead to, a way back to the start, and an edge that leads out of the graph. -/
def crossed (v : Nat) : List Nat := [[1, 2], [3], [3], [1, 9], [0]].getD v []

/-- The node that is asked for twice is left once, and before both that lead to it. -/
theorem descends_postorder_crossed : 0 < 5 ∧ postorder 5 crossed 0 = [3, 1, 2, 0] ∧
    Descends (Goes 5 crossed) 0 (postorder 5 crossed 0) ∧ postorder 5 crossed 9 = [] := by
  refine ⟨by decide, by decide, ?_, (descends_postorder 5 crossed 9).2 (by decide)⟩
  exact ((descends_postorder 5 crossed 0).1 (by decide)).1

end Avm.Graph
