import Avm.Proofs.Graph.Components
import Avm.Proofs.Ir.Sound

/-!
# What values read

A value reads a register if it is a reading of it, or a phi with an input that reads it.  `Reads` says so by
rules, which leave open in what order phis are looked at and how often.  The search that the program makes
finds just these registers, however the phis refer to each other.

Whoever asks what registers a value reads may look at its phis one after another, with a list of the values still to be
looked at and of the nodes that were.  A tour that looks for one register ends when it comes to it; one that looks for
all of them ends when nothing is left.  A node is looked at once, and one that is no phi, or not there, leads to
nothing, so a tour ends however phis refer to each other.  Both kinds of tour find what the search through phis finds,
which is what can be reached through the inputs of phis.

The main statements are `readsRegister_iff` and `tours_agree`.
-/

namespace Avm.Graph

variable {count start n : Nat} {succ : Nat → List Nat}

/-- A search enters only what can be reached from its start. -/
lemma Walk.reaches_visit (fuel : Nat) (w : Walk) (node : Nat)
    (found : (Walk.visit count succ fuel w node).seen.has n = true) :
    w.seen.has n = true ∨ Reaches succ node n := by
  induction fuel generalizing w node with
  | zero => exact .inl found
  | succ fuel ih =>
    rw [visit] at found
    split at found
    · exact .inl found
    · dsimp only at found
      -- The successors are entered one after another, each from what was entered before.
      have each (ms : List Nat) (later : ∀ m ∈ ms, m ∈ succ node) (w' : Walk)
          (found : (ms.foldl (Walk.visit count succ fuel) w').seen.has n = true) :
          w'.seen.has n = true ∨ Reaches succ node n := by
        induction ms generalizing w' with
        | nil => exact .inl found
        | cons m ms ih' =>
          cases ih' (fun m' mem => later m' (List.mem_cons_of_mem m mem)) _ found with
          | inr reached => exact .inr reached
          | inl earlier =>
            cases ih w' m earlier with
            | inl old => exact .inl old
            | inr reached => exact .inr (.head (later m List.mem_cons_self) reached)
      cases each (succ node) (fun _ mem => mem) _ found with
      | inr reached => exact .inr reached
      | inl entered =>
        cases Marks.has_add.1 entered with
        | inl old => exact .inl old
        | inr here =>
          rw [here.1]
          exact .inr .refl

lemma reaches_of_mem_reversePostorder (found : n ∈ reversePostorder count succ start) :
    Reaches succ start n := by
  cases Walk.reaches_visit (count + 1) _ start (mem_reversePostorder.1 found) with
  | inl old => exact absurd old (by simp)
  | inr reached => exact reached

end Avm.Graph

namespace Avm.Ir.Func

open Avm.Graph

variable {f g : Func} {v w : ValueId} {x : Value} {r : Nat}

/-- A value reads a register directly or through phis. -/
inductive Reads (f : Func) : Value → Nat → Prop
  | reg {r version : Nat} : Reads f (.reg r version) r
  | phi {v : ValueId} {is : List PhiInput} {i : PhiInput} {r : Nat} :
    f.inputs? v = some is → i ∈ is → Reads f i.value r → Reads f (.node v) r

lemma mem_merged : x ∈ f.merged v ↔ ∃ is, f.inputs? v = some is ∧ ∃ i ∈ is, i.value = x := by
  rw [merged]
  cases f.inputs? v <;> simp

lemma lt_size_of_inputs? (phi : (f.inputs? v).isSome) : v < f.nodes.size := by
  refine lt_size_of_node? ?_
  rw [inputs?_eq] at phi
  cases here : f.node? v with
  | none => simp [here] at phi
  | some n => rfl

/-- Whatever is read by a phi that the search comes to is read where the search starts. -/
lemma reads_of_mem_throughPhis (found : w ∈ f.throughPhis v) (read : f.Reads (.node w) r) : f.Reads (.node v) r := by
  have path := reaches_of_mem_reversePostorder found
  clear found
  induction path using Relation.ReflTransGen.head_induction_on with
  | refl => exact read
  | head step _ ih =>
    obtain ⟨x, merged, named⟩ := List.mem_filterMap.1 step
    obtain ⟨is, inputs, i, mem, rfl⟩ := mem_merged.1 merged
    refine .phi inputs mem ?_
    cases value : i.value with
    | node u =>
      rw [value] at named
      cases named
      exact ih
    | _ => simp [value, Value.node?] at named

/-- From a phi that was found, the search goes on to a phi that merges a reading of the register. -/
lemma exists_of_reads (read : f.Reads x r) (value : x = .node w) (found : w ∈ f.throughPhis v) :
    ∃ p ∈ f.throughPhis v, r ∈ (f.merged p).filterMap Value.register? := by
  induction read generalizing w with
  | reg => cases value
  | @phi u is i r inputs mem read ih =>
    obtain rfl := Value.node.inj value
    have merged : i.value ∈ f.merged u := mem_merged.2 ⟨is, inputs, i, mem, rfl⟩
    cases next : i.value with
    | const c =>
      rw [next] at read
      cases read
    | reg r' version =>
      rw [next] at read
      cases read
      exact ⟨u, found, List.mem_filterMap.2 ⟨_, merged, by rw [next]; rfl⟩⟩
    | node t =>
      have phi : (f.inputs? t).isSome := by
        rw [next] at read
        cases read with
        | phi inputs' _ _ => rw [inputs']; rfl
      refine ih next (mem_reversePostorder_of_mem found ?_ (lt_size_of_inputs? phi))
      exact List.mem_filterMap.2 ⟨i.value, merged, by rw [next]; rfl⟩

/-- The search finds every register that is read, as it comes by all phis on the way. -/
lemma mem_registersRead_of_reads (read : f.Reads x r) : r ∈ f.registersRead x := by
  cases read with
  | reg => exact List.mem_singleton_self _
  | @phi v is i r inputs mem read =>
    have phi : (f.inputs? v).isSome := by rw [inputs]; rfl
    have start : v ∈ f.throughPhis v := start_mem_reversePostorder (lt_size_of_inputs? phi)
    obtain ⟨p, found, named⟩ := exists_of_reads (.phi inputs mem read) rfl start
    rw [registersRead, if_neg (by simp [inputs])]
    exact List.mem_flatMap.2 ⟨p, found, named⟩

/-- What is found when a value is searched for readings of registers. -/
theorem readsRegister_iff : f.readsRegister x r = true ↔ f.Reads x r := by
  rw [readsRegister, List.contains_iff_mem]
  constructor
  · intro found
    cases x with
    | const c => cases found
    | reg r' version =>
      rw [registersRead, List.mem_singleton] at found
      subst found
      exact .reg
    | node v =>
      rw [registersRead] at found
      split at found
      · cases found
      · obtain ⟨p, path, named⟩ := List.mem_flatMap.1 found
        obtain ⟨y, merged, named⟩ := List.mem_filterMap.1 named
        obtain ⟨is, inputs, i, mem, rfl⟩ := mem_merged.1 merged
        refine reads_of_mem_throughPhis path (.phi inputs mem ?_)
        cases value : i.value with
        | reg r' version =>
          rw [value] at named
          cases named
          exact .reg
        | _ => simp [value, Value.register?] at named
  · exact mem_registersRead_of_reads

lemma Reads.mono (keeps : ∀ v is, f.inputs? v = some is → ∀ i ∈ is, ∃ is', g.inputs? v = some is' ∧
    ∃ i' ∈ is', i'.value = i.value) (read : f.Reads x r) : g.Reads x r := by
  induction read with
  | reg => exact .reg
  | @phi v is i r inputs mem _ ih =>
    obtain ⟨is', inputs', i', mem', same⟩ := keeps v is inputs i mem
    exact .phi inputs' mem' (same ▸ ih)

variable {y z : Value} {sought : Nat → Bool}

/-- A value is a phi that merges another value. -/
def Merges (f : Func) (y z : Value) : Prop := ∃ v, y = .node v ∧ z ∈ f.merged v

lemma reads_iff_merges : f.Reads x r ↔ ∃ version, Relation.ReflTransGen f.Merges x (.reg r version) := by
  constructor
  · intro read
    induction read with
    | reg => exact ⟨_, .refl⟩
    | phi inputs mem _ ih =>
      obtain ⟨version, way⟩ := ih
      exact ⟨version, .head ⟨_, rfl, mem_merged.2 ⟨_, inputs, _, mem, rfl⟩⟩ way⟩
  · rintro ⟨version, way⟩
    induction way using Relation.ReflTransGen.head_induction_on with
    | refl => exact .reg
    | head step _ ih =>
      obtain ⟨v, rfl, merged⟩ := step
      obtain ⟨is, inputs, i, mem, rfl⟩ := mem_merged.1 merged
      exact .phi inputs mem ih

lemma lt_size_of_mem_merged (mem : y ∈ f.merged v) : v < f.nodes.size := by
  obtain ⟨is, inputs, -⟩ := mem_merged.1 mem
  exact lt_size_of_inputs? (by rw [inputs]; rfl)

/-- A tour of the values behind a value. -/
structure Tour where
  /-- The values that are to be looked at, the next one first. -/
  pending : List Value
  /-- The nodes that were looked at. -/
  seen : List ValueId := []
  /-- The registers that were come by. -/
  found : List Nat := []
deriving DecidableEq, Repr

namespace Tour

variable {t t' : Tour}

/-- Looks at the next value, if there is one and no register that is looked for was found. -/
def step (f : Func) (sought : Nat → Bool) (t : Tour) : Option Tour :=
  if t.found.any sought then none
  else
    match t.pending with
    | [] => none
    | .const _ :: rest => some { t with pending := rest }
    | .reg r _ :: rest => some { t with pending := rest, found := r :: t.found }
    | .node v :: rest =>
      if v ∈ t.seen then some { t with pending := rest }
      else some { t with pending := (f.merged v).reverse ++ rest, seen := v :: t.seen }

/-- Some steps lead from a tour to another. -/
def Leads (f : Func) (sought : Nat → Bool) : Tour → Tour → Prop :=
  Relation.ReflTransGen fun t t' => t.step f sought = some t'

/-- The value need not be looked at any more. -/
def Done (t : Tour) : Value → Prop
  | .const _ => True
  | .reg r _ => r ∈ t.found
  | .node v => v ∈ t.seen

/-- A step passes over a value that is done, or notes a register, or looks through a node. -/
lemma step_cases (next : t.step f sought = some t') : ∃ y rest, t.pending = y :: rest ∧
    (t.Done y ∧ t' = { t with pending := rest } ∨
      (∃ r version, y = .reg r version ∧ t' = { t with pending := rest, found := r :: t.found }) ∨
      ∃ v, y = .node v ∧ v ∉ t.seen ∧
        t' = { t with pending := (f.merged v).reverse ++ rest, seen := v :: t.seen }) := by
  rw [step] at next
  split at next
  · cases next
  · split at next
    · cases next
    · rename_i c rest eq
      exact ⟨_, rest, eq, .inl ⟨trivial, (Option.some.inj next).symm⟩⟩
    · rename_i r version rest eq
      exact ⟨_, rest, eq, .inr (.inl ⟨r, version, rfl, (Option.some.inj next).symm⟩)⟩
    · rename_i v rest eq
      split at next
      · rename_i old
        exact ⟨_, rest, eq, .inl ⟨old, (Option.some.inj next).symm⟩⟩
      · rename_i new
        exact ⟨_, rest, eq, .inr (.inr ⟨v, rfl, new, (Option.some.inj next).symm⟩)⟩

lemma step_eq_none : t.step f sought = none ↔ t.found.any sought = true ∨ t.pending = [] := by
  rw [step]
  split
  · rename_i found
    simp [found]
  · rename_i more
    split
    · rename_i eq
      simp [eq]
    · rename_i eq
      simp [eq, more]
    · rename_i eq
      simp [eq, more]
    · rename_i eq
      split <;> simp [eq, more]

section Ending

/-- The number of nodes that were not looked at. -/
def unseen (f : Func) (t : Tour) : Nat := ((Finset.range f.nodes.size).filter (· ∉ t.seen)).card

lemma decreases (next : t.step f sought = some t') :
    t'.unseen f < t.unseen f ∨ t'.unseen f = t.unseen f ∧ t'.pending.length < t.pending.length := by
  obtain ⟨y, rest, eq, ⟨-, rfl⟩ | ⟨r, version, -, rfl⟩ | ⟨v, -, new, rfl⟩⟩ := step_cases next
  · exact .inr ⟨rfl, by simp [eq]⟩
  · exact .inr ⟨rfl, by simp [eq]⟩
  · by_cases inside : v < f.nodes.size
    · refine .inl (Finset.card_lt_card ?_)
      refine (Finset.ssubset_iff_of_subset fun w mem => ?_).2 ⟨v, ?_, by simp⟩
      · rw [Finset.mem_filter] at mem ⊢
        exact ⟨mem.1, fun old => mem.2 (List.mem_cons_of_mem v old)⟩
      · exact Finset.mem_filter.2 ⟨Finset.mem_range.2 inside, new⟩
    · have nothing : f.merged v = [] := List.eq_nil_iff_forall_not_mem.2 fun y mem => inside (lt_size_of_mem_merged mem)
      refine .inr ⟨congrArg Finset.card (Finset.filter_congr fun w mem => ?_), by simp [eq, nothing]⟩
      rw [List.mem_cons, not_or, and_iff_right]
      rintro rfl
      exact inside (Finset.mem_range.1 mem)

lemma exists_end (f : Func) (sought : Nat → Bool) (t : Tour) : ∃ t', Leads f sought t t' ∧ t'.step f sought = none := by
  cases next : t.step f sought with
  | none => exact ⟨t, .refl, next⟩
  | some t₁ =>
    have less := decreases next
    obtain ⟨t', way, ended⟩ := exists_end f sought t₁
    exact ⟨t', .head next way, ended⟩
termination_by (t.unseen f, t.pending.length)
decreasing_by
  rw [Prod.lex_def]
  exact less

end Ending

/-- Whatever is found or to be looked at can be reached. -/
structure Honest (f : Func) (x : Value) (t : Tour) : Prop where
  pending : ∀ y ∈ t.pending, Relation.ReflTransGen f.Merges x y
  found : ∀ r ∈ t.found, ∃ version, Relation.ReflTransGen f.Merges x (.reg r version)

/-- The value where the tour starts, and what is merged by the phis that were looked at, is done or to be looked at. -/
structure Thorough (f : Func) (x : Value) (t : Tour) : Prop where
  start : t.Done x ∨ x ∈ t.pending
  inner : ∀ v ∈ t.seen, ∀ y ∈ f.merged v, t.Done y ∨ y ∈ t.pending

lemma Done.mono (done : t.Done y) (seen : t.seen ⊆ t'.seen) (found : t.found ⊆ t'.found) : t'.Done y := by
  cases y with
  | const c => trivial
  | reg r version => exact found done
  | node v => exact seen done

lemma Honest.step (honest : t.Honest f x) (next : t.step f sought = some t') : t'.Honest f x := by
  obtain ⟨y, rest, eq, cases⟩ := step_cases next
  have here : Relation.ReflTransGen f.Merges x y := honest.pending y (by rw [eq]; exact List.mem_cons_self)
  have others : ∀ z ∈ rest, Relation.ReflTransGen f.Merges x z :=
    fun z mem => honest.pending z (by rw [eq]; exact List.mem_cons_of_mem y mem)
  obtain ⟨-, rfl⟩ | ⟨r, version, rfl, rfl⟩ | ⟨v, rfl, -, rfl⟩ := cases
  · exact ⟨others, honest.found⟩
  · exact ⟨others, List.forall_mem_cons.2 ⟨⟨version, here⟩, honest.found⟩⟩
  · refine ⟨fun z mem => ?_, honest.found⟩
    obtain new | old := List.mem_append.1 mem
    · exact here.tail ⟨v, rfl, List.mem_reverse.1 new⟩
    · exact others z old

lemma Thorough.step (thorough : t.Thorough f x) (next : t.step f sought = some t') : t'.Thorough f x := by
  obtain ⟨y, rest, eq, cases⟩ := step_cases next
  -- What was taken off the list is done now.
  have keep (kept : ∀ z, t.Done z → t'.Done z) (done : t'.Done y) (left : rest ⊆ t'.pending) (z : Value)
      (known : t.Done z ∨ z ∈ t.pending) : t'.Done z ∨ z ∈ t'.pending := by
    rw [eq, List.mem_cons] at known
    obtain before | rfl | mem := known
    · exact .inl (kept z before)
    · exact .inl done
    · exact .inr (left mem)
  obtain ⟨done, rfl⟩ | ⟨r, version, rfl, rfl⟩ | ⟨v, rfl, -, rfl⟩ := cases
  · have known := keep (fun z before => before.mono (List.Subset.refl _) (List.Subset.refl _))
      (done.mono (List.Subset.refl _) (List.Subset.refl _)) (List.Subset.refl _)
    exact ⟨known x thorough.start, fun v mem y merged => known y (thorough.inner v mem y merged)⟩
  · have known := keep (fun z before => before.mono (List.Subset.refl _) (List.subset_cons_self r _)) List.mem_cons_self
      (List.Subset.refl _)
    exact ⟨known x thorough.start, fun v mem y merged => known y (thorough.inner v mem y merged)⟩
  · have known := keep (fun z before => before.mono (List.subset_cons_self v _) (List.Subset.refl _)) List.mem_cons_self
      (List.subset_append_right _ _)
    refine ⟨known x thorough.start, List.forall_mem_cons.2 ⟨fun y merged => ?_, fun w mem y merged => ?_⟩⟩
    · exact .inr (List.mem_append_left _ (List.mem_reverse.2 merged))
    · exact known y (thorough.inner w mem y merged)

lemma Thorough.done (thorough : t.Thorough f x) (none : t.pending = []) (way : Relation.ReflTransGen f.Merges x y) :
    t.Done y := by
  have only {z} (known : t.Done z ∨ z ∈ t.pending) : t.Done z := by
    rw [none] at known
    exact known.resolve_right List.not_mem_nil
  induction way with
  | refl => exact only thorough.start
  | tail _ step ih =>
    obtain ⟨v, rfl, merged⟩ := step
    exact only (thorough.inner v ih _ merged)

lemma Leads.keeps (leads : Leads f sought t t') (honest : t.Honest f x) (thorough : t.Thorough f x) :
    t'.Honest f x ∧ t'.Thorough f x := by
  induction leads with
  | refl => exact ⟨honest, thorough⟩
  | tail _ next ih => exact ⟨ih.1.step next, ih.2.step next⟩

/-- A tour ends with registers that can be reached: with one that it looks for, or with all of them. -/
lemma exists_tour (f : Func) (sought : Nat → Bool) (x : Value) : ∃ t, Leads f sought ⟨[x], [], []⟩ t ∧
    t.step f sought = none ∧ (∀ r ∈ t.found, f.Reads x r) ∧
    (t.found.any sought = true ∨ ∀ r, f.Reads x r → r ∈ t.found) := by
  obtain ⟨t, leads, ended⟩ := exists_end f sought ⟨[x], [], []⟩
  obtain ⟨honest, thorough⟩ := leads.keeps (x := x) ⟨by simp [Relation.ReflTransGen.refl], by simp⟩
    ⟨.inr (List.mem_singleton_self x), by simp⟩
  refine ⟨t, leads, ended, fun r mem => reads_iff_merges.2 (honest.found r mem), ?_⟩
  refine (step_eq_none.1 ended).imp_right fun none r read => ?_
  obtain ⟨version, way⟩ := reads_iff_merges.1 read
  exact thorough.done none way

end Tour

lemma mem_registersRead_iff : r ∈ f.registersRead x ↔ f.Reads x r := by
  rw [← readsRegister_iff, readsRegister, List.contains_iff_mem]

/-- A value reads a register if that is among those that it reads, which is if a reading of it can be reached through
the inputs of phis.  A tour that looks for the register ends and finds it just then, and one that looks for none ends
with all registers that are read. -/
theorem tours_agree (f : Func) (x : Value) (r : Nat) :
    (f.readsRegister x r = true ↔ r ∈ f.registersRead x) ∧
    (r ∈ f.registersRead x ↔ ∃ version, Relation.ReflTransGen f.Merges x (.reg r version)) ∧
    (∃ t, Tour.Leads f (· == r) ⟨[x], [], []⟩ t ∧ t.step f (· == r) = none ∧
      t.found.any (· == r) = f.readsRegister x r) ∧
    ∃ t, Tour.Leads f (fun _ => false) ⟨[x], [], []⟩ t ∧ t.step f (fun _ => false) = none ∧
      ∀ q, q ∈ t.found ↔ q ∈ f.registersRead x := by
  refine ⟨?_, mem_registersRead_iff.trans reads_iff_merges, ?_, ?_⟩
  · rw [readsRegister_iff, mem_registersRead_iff]
  · obtain ⟨t, leads, ended, honest, thorough⟩ := Tour.exists_tour f (· == r) x
    refine ⟨t, leads, ended, ?_⟩
    have seeks : t.found.any (· == r) = true ↔ r ∈ t.found := by simp
    rw [Bool.eq_iff_iff, readsRegister_iff, seeks]
    exact ⟨honest r, fun read => thorough.elim seeks.1 fun all => all r read⟩
  · obtain ⟨t, leads, ended, honest, thorough⟩ := Tour.exists_tour f (fun _ => false) x
    refine ⟨t, leads, ended, fun q => ?_⟩
    rw [mem_registersRead_iff]
    exact ⟨honest q, thorough.resolve_left (by simp) q⟩

end Avm.Ir.Func
