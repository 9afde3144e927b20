import Avm.Proofs.Opt.Exhausting

/-!
# Loops are drained

Hoisting goes through the loops of a graph from the outside in.  When it has hoisted operators out
of a loop, none of those that are left is ready, and hoisting out of the loops inside, or out of
loops that are apart, makes none ready.  Since it makes no loops either, the graph behind has no
loop, at whatever depth, that a second run would hoist anything out of (`Spent`).  The fuel is for
as many loops one inside the other as there are blocks: a loop inside another one lacks the block
at which that one is entered.

The main statement is `pass_drains`.
-/

namespace Avm.Opt.Hoisting

open Avm.Graph Avm.Ir Avm.Ir.Func Avm.Ir.Edit

variable {f g h : Func} {m : MethodId} {S L members l l' : List BlockId} {cut : Option BlockId} {b c t : BlockId}
  {v : ValueId} {e e' : Entrance} {φ ψ : List BlockId → List BlockId} {D E : BlockId → Prop}

/-! ## One loop -/

lemma ne_leave_of_mem_targets {term : Terminator} {kind : EdgeKind} (mem : (b, kind) ∈ term.targets) :
    kind ≠ .leave := by
  rintro rfl
  cases term <;> simp [Terminator.targets] at mem

section Hoist

variable (work : Workable f) (knit : Knit f l)
include work

lemma Sole.unique (small : ∀ b ∈ l, b < f.blocks.size) (once : l.Nodup) (sole : Sole f l e) (sole' : Sole f l e') :
    e' = e := by
  have found := (entrance?_eq_some_iff_sole work small once).2 sole
  rw [(entrance?_eq_some_iff_sole work small once).2 sole'] at found
  exact Option.some.inj found

include knit

/-- A loop is entered by no edge out of the method: where exceptions at the exit lead, those at the
start of such an edge would lead as well. -/
lemma ne_leave (sole : Sole f l e) (covered : f.handlersOf e.header = f.handlersOf e.source) : e.kind ≠ .leave := by
  intro leaves
  have edge := sole.edge
  rw [leaves, work.wired.wired _ id, edgesOf_eq] at edge
  have last : e.header = exit := by
    rcases mem_edgesFrom.1 edge with goes | leaves | ⟨_, _, _, _, same⟩
    · exact absurd rfl (ne_leave_of_mem_targets goes)
    · exact Terminator.eq_exit_of_mem_leaving leaves
    · cases (Prod.mk.inj same).2
  obtain ⟨u, there, next⟩ := knit _ sole.inside
  obtain ⟨⟨u, k⟩, out, rfl⟩ := List.mem_map.1 next
  rw [work.wired.wired _ id, edgesOf_eq, covered, last, work.ended] at out
  obtain ⟨-, -, same⟩ := sole.only _ sole.outside u there k (work.wired.mem_succs_of_caught out)
  exact sole.normal (same ▸ eq_raise_of_caught out)

omit knit work in
/-- When all that was found is out of a loop, none of the operators that are left is ready. -/
lemma done_of_moved (mirrors : Mirrors f l [] g l) (moved : Moved g (invariants f l) t h) (away : t ∉ l)
    (from_ : ∀ v ∈ invariants f l, ∃ c ∈ l, v ∈ g.body c) : Done h l := by
  intro e _ _ v ready
  have plain : ∀ v ∈ invariants f l, ∀ k, g.kind? v = some k → k.written = [] := by
    intro v mem k does
    obtain ⟨c, here, listed⟩ := from_ v mem
    rw [(mirrors.listed c here v listed).1] at does
    have operator := (List.mem_filter.1 (listing_invariants.among v mem)).2
    rw [does] at operator
    cases k with
    | unary | binary => rfl
    | _ => cases operator
  obtain ⟨mem, holds⟩ :=
    (moved.mirrors_left plain away).holds (fun _ none => absurd none List.not_mem_nil) ready.1 ready.2
  obtain ⟨mem, holds⟩ :=
    (mirrors.mono fun _ none => absurd none List.not_mem_nil).holds (fun _ found => found) mem holds
  exact moved.notMem ready.1 away (mem_invariants_of_all mem holds)

lemma hoist_drains (small : ∀ b ∈ l, b < f.blocks.size) (once : l.Nodup) : (hoist m l).Meets f
    (fun _ g => Done g l ∧ (g = f ∨ ∃ φ, Step l f φ g ∧ φ l = l)) fun _ => True := by
  refine meets_hoist (fun none => ⟨fun e sole covered v ready => ?_, .inl rfl⟩) fun e found covered _ => ?_
  · have none := none e ((entrance?_eq_some_iff_sole work small once).2 sole) covered
    have found := mem_invariants_of_all ready.1 (by rw [none]; exact ready.2)
    rw [none] at found
    cases found
  have sole := (entrance?_eq_some_iff_sole work small once).1 found
  have from_ : ∀ v ∈ invariants f l, ∃ c ∈ l, v ∈ f.body c := by
    intro v mem
    exact List.mem_flatMap.1 (List.mem_filter.1 (listing_invariants.among v mem)).1
  have live : (f.block? e.source).isSome := isSome_of_mem_succs sole.edge
  refine meets_preheader_bind (fun _ alone => ?_) ?_
  · refine (moveAll_moved work live listing_invariants.once fun v mem => ?_).imp (fun r g rest => ?_) fun _ _ => trivial
    · obtain ⟨c, here, mem⟩ := from_ v mem
      exact ⟨c, fun same => sole.outside (same ▸ here), mem⟩
    · obtain ⟨moved, work'⟩ := rest
      refine ⟨done_of_moved (.refl f l) moved sole.outside from_, .inr ⟨id, .reuse sole ?_ from_ moved work', rfl⟩⟩
      intro t next
      obtain ⟨d, only⟩ := List.length_eq_one_iff.1 alone
      obtain ⟨a, mem, rfl⟩ := List.mem_map.1 next
      have edge := sole.edge
      rw [only, List.mem_singleton] at mem edge
      rw [mem, ← edge]
  · have on := ne_leave work knit sole covered
    refine meets_ok_bind (work.run_splitEdge sole.edge sole.normal) ?_
    have mirrors := mirrors_onEdge (l := l) work sole.edge sole.normal on (f.scopeDepth e.source)
    have same : grown f.blocks.size e.source e.header l = l := if_neg fun both => sole.outside both.1
    rw [same] at mirrors
    have away : f.blocks.size ∉ l := fun here => (small _ here).false
    refine (moveAll_moved (work.onEdge sole.edge sole.normal on _) ?_ listing_invariants.once fun v mem => ?_).imp
      (fun r g rest => ?_) fun _ _ => trivial
    · rw [isSome_onEdge, decide_eq_true rfl, Bool.true_or]
    · obtain ⟨c, here, mem⟩ := from_ v mem
      refine ⟨c, fun same => away (same ▸ here), ?_⟩
      rwa [body_onEdge]
    · obtain ⟨moved, work'⟩ := rest
      refine ⟨done_of_moved mirrors moved away fun v mem => ?_,
        .inr ⟨_, .split sole on covered from_ moved work', same⟩⟩
      obtain ⟨c, here, mem⟩ := from_ v mem
      exact ⟨c, here, by rwa [body_onEdge]⟩

end Hoist

/-! ## Loop after loop -/

/-- Operators are hoisted out of one loop after another, all of them among some blocks. -/
inductive Steps (D : BlockId → Prop) (f : Func) : (List BlockId → List BlockId) → Func → Prop
  | refl : Steps D f id f
  | tail {φ ψ : List BlockId → List BlockId} {g h : Func} {S : List BlockId} (steps : Steps D f φ g)
    (step : Step S g ψ h)
      (among : ∀ b ∈ S, D b) : Steps D f (fun l => ψ (φ l)) h

namespace Steps

lemma mono (steps : Steps D f φ g) (more : ∀ b, D b → E b) : Steps E f φ g := by
  induction steps with
  | refl => exact .refl
  | tail _ step among ih => exact ih.tail step fun b mem => more b (among b mem)

lemma trans (first : Steps D f φ g) (second : Steps D g ψ h) : Steps D f (fun l => ψ (φ l)) h := by
  induction second with
  | refl => exact first
  | tail _ step among ih => exact ih.tail step among

lemma size (steps : Steps D f φ g) : f.blocks.size ≤ g.blocks.size := by
  induction steps with
  | refl => exact Nat.le_refl _
  | tail _ step _ ih => exact ih.trans step.size

lemma mem_iff (steps : Steps D f φ g) (old : b < f.blocks.size) : b ∈ φ l ↔ b ∈ l := by
  induction steps with
  | refl => exact Iff.rfl
  | tail steps step _ ih => exact (step.mem_iff (old.trans_le steps.size)).trans ih

lemma small (steps : Steps D f φ g) (small : ∀ b ∈ l, b < f.blocks.size) : ∀ b ∈ φ l, b < g.blocks.size := by
  induction steps with
  | refl => exact small
  | tail _ step _ ih => exact step.small ih

lemma work (steps : Steps D f φ g) (work : Workable f) : Workable g := by
  cases steps with
  | refl => exact work
  | tail _ step _ => exact step.work

lemma apart (steps : Steps D f φ g) (old : ∀ b, D b → b < f.blocks.size) (apart : ∀ b, D b → b ∉ l) :
    ∀ b, D b → b ∉ φ l := fun b mem here => apart b mem ((steps.mem_iff (old b mem)).1 here)

lemma eq_of_apart (steps : Steps D f φ g) (apart : ∀ b, D b → b ∉ l) : φ l = l := by
  induction steps with
  | refl => rfl
  | @tail φ ψ _ _ _ _ step among ih =>
    change ψ (φ l) = l
    rw [ih]
    exact step.eq_of_apart fun b mem => apart b (among b mem)

variable (steps : Steps D f φ g) (old : ∀ b, D b → b < f.blocks.size) (work : Workable f)
include steps old work

lemma exists_of_mem_loops (small : ∀ b ∈ members, b < f.blocks.size) (clear : ∀ b, D b → b ∈ members → some b ≠ cut)
    (young : ∀ c, cut = some c → c < f.blocks.size) (mem : l' ∈ loops g (φ members) cut) :
    ∃ l ∈ loops f members cut, l' = φ l := by
  induction steps generalizing l' with
  | refl => exact ⟨l', mem, rfl⟩
  | tail steps step among ih =>
    obtain ⟨l₁, mem₁, rfl⟩ := step.exists_of_mem_loops (steps.work work) (steps.small small)
      (fun b mem here => clear b (among b mem) ((steps.mem_iff (old b (among b mem))).1 here))
      (fun c same => (young c same).trans_le steps.size) mem
    obtain ⟨l₀, mem₀, rfl⟩ := ih mem₁
    exact ⟨l₀, mem₀, rfl⟩

omit old in
lemma exists_sole (small : ∀ b ∈ l, b < f.blocks.size) (sole' : Sole g (φ l) e') :
    ∃ e, Sole f l e ∧ e.header = e'.header := by
  induction steps generalizing e' with
  | refl => exact ⟨e', sole', rfl⟩
  | tail steps step _ ih =>
    obtain ⟨e₁, sole₁, header, -⟩ := step.exists_sole (steps.work work) (steps.small small) sole'
    obtain ⟨e, sole, header'⟩ := ih sole₁
    exact ⟨e, sole, header'.trans header⟩

omit old in
lemma knit (knit : Knit f l) : Knit g (φ l) := by
  induction steps with
  | refl => exact knit
  | tail steps step _ ih => exact step.knit (steps.work work) ih

lemma done (small : ∀ b ∈ l, b < f.blocks.size) (knit : Knit f l)
    (clear : (∀ b, D b → b ∉ l) ∨ ∀ e, Sole f l e → ∀ b, D b → b ∈ l ∧ b ≠ e.header) (done : Done f l) :
      Done g (φ l) := by
  induction steps with
  | refl => exact done
  | tail steps step among ih =>
    apply step.done (steps.work work) (steps.small small) (steps.knit work knit) _ ih
    refine clear.imp (fun apart b mem => steps.apart old apart b (among b mem)) fun within e' sole' b mem => ?_
    obtain ⟨e, sole, header⟩ := steps.exists_sole work small sole'
    obtain ⟨here, other⟩ := within e sole b (among b mem)
    rw [← header, steps.mem_iff (old b (among b mem))]
    exact ⟨here, other⟩

end Steps

/-! ## All loops -/

/-- The loops of a region, and the loops of such a loop without the edges to the block at which it is entered. -/
inductive Below (f : Func) : List BlockId → Option BlockId → List BlockId → Prop
  | here {members : List BlockId} {cut : Option BlockId} {l : List BlockId} (loop : l ∈ loops f members cut) :
      Below f members cut l
  | deeper {members : List BlockId} {cut : Option BlockId} {outer l : List BlockId} {e : Entrance}
      (loop : outer ∈ loops f members cut) (sole : Sole f outer e) (below : Below f outer (some e.header) l) :
      Below f members cut l

/-- Nothing is left to hoist out of the loops of a region, at whatever depth. -/
def Spent (f : Func) (members : List BlockId) (cut : Option BlockId) : Prop := ∀ l, Below f members cut l → Done f l

/-- Nothing is left to hoist out of a loop, nor out of the loops inside. -/
def Drained (f : Func) (l : List BlockId) : Prop := Done f l ∧ ∀ e, Sole f l e → Spent f l (some e.header)

lemma spent_iff : Spent f members cut ↔ ∀ l ∈ loops f members cut, Drained f l := by
  constructor
  · exact fun spent l loop => ⟨spent l (.here loop), fun e sole l' below => spent l' (.deeper loop sole below)⟩
  · intro all l below
    cases below with
    | here loop => exact (all l loop).1
    | deeper loop sole below => exact (all _ loop).2 _ sole l below

lemma ne_cut_of_mem_loops (small : ∀ b ∈ members, b < f.blocks.size) (mem : l ∈ loops f members cut) (here : t ∈ l) :
    some t ≠ cut := by
  obtain ⟨-, b, -, cycle, same⟩ := (mem_loops_iff small).1 mem
  obtain ⟨c, -, next⟩ := Relation.TransGen.tail'_iff.1 (cycle.trans_left ((same t).1 here).2.1)
  exact next.2.2

section Apart

variable (steps : Steps D f φ g) (old : ∀ b, D b → b < f.blocks.size) (work : Workable f)
  (apart : ∀ b, D b → b ∉ members) (small : ∀ b ∈ members, b < f.blocks.size)
include steps old work apart small

/-- A loop of a region apart from those out of which operators are hoisted was there. -/
lemma Steps.mem_loops (young : ∀ c, cut = some c → c < f.blocks.size) (mem : l ∈ loops g members cut) :
    l ∈ loops f members cut := by
  rw [← steps.eq_of_apart apart] at mem
  obtain ⟨l₀, loop, rfl⟩ := steps.exists_of_mem_loops old work small (fun b here inside => absurd inside (apart b here))
    young mem
  rwa [steps.eq_of_apart fun b here inside => apart b here (mem_of_mem_loops small loop inside)]

lemma Spent.kept (young : ∀ c, cut = some c → c < f.blocks.size) (spent : Spent f members cut) :
    Spent g members cut := by
  suffices back : ∀ l, Below g members cut l → Below f members cut l ∧ (∀ b ∈ l, b ∈ members) ∧ Knit f l by
    intro l below
    obtain ⟨before, inside, knit⟩ := back l below
    have away : ∀ b, D b → b ∉ l := fun b here there => apart b here (inside b there)
    rw [← steps.eq_of_apart away]
    exact steps.done old work (fun b here => small b (inside b here)) knit (.inl away) (spent l before)
  intro l below
  clear spent
  induction below with
  | here loop =>
    have loop := steps.mem_loops old work apart small young loop
    exact ⟨.here loop, fun b => mem_of_mem_loops small loop, fun b => exists_succ_of_mem_loops small loop⟩
  | @deeper members cut outer l e loop sole _ ih =>
    have loop := steps.mem_loops old work apart small young loop
    have inside : ∀ b ∈ outer, b ∈ members := fun b => mem_of_mem_loops small loop
    have small' : ∀ b ∈ outer, b < f.blocks.size := fun b here => small b (inside b here)
    have away : ∀ b, D b → b ∉ outer := fun b here there => apart b here (inside b there)
    rw [← steps.eq_of_apart away] at sole
    obtain ⟨e₀, sole₀, header⟩ := steps.exists_sole work small' sole
    rw [← header] at ih
    obtain ⟨below, inside', knit⟩ := ih away small' fun c same => Option.some.inj same ▸ small' _ sole₀.inside
    exact ⟨.deeper loop sole₀ below, fun b here => inside b (inside' b here), knit⟩

end Apart

/-- Nothing comes back to a loop when operators are hoisted out of others that are apart. -/
lemma Drained.kept (steps : Steps D f φ g) (old : ∀ b, D b → b < f.blocks.size) (work : Workable f)
    (apart : ∀ b, D b → b ∉ l) (small : ∀ b ∈ l, b < f.blocks.size) (knit : Knit f l) (drained : Drained f l) :
    Drained g (φ l) := by
  refine ⟨steps.done old work small knit (.inl apart) drained.1, fun e' sole' => ?_⟩
  obtain ⟨e, sole, header⟩ := steps.exists_sole work small sole'
  rw [← header, steps.eq_of_apart apart]
  exact (drained.2 e sole).kept steps old work apart small fun c same => Option.some.inj same ▸ small _ sole.inside

/-- What is done with one of the loops of a region. -/
def visit (m : MethodId) (fuel : Nat) (report : Report) (l : List BlockId) : Edit Report := do
  let outer ← hoist m l
  match entrance? (← get) l with
  | none => return report.andThen outer
  | some e =>
    let inner ← hoistAll m fuel l (some e.header)
    return report.andThen (outer.andThen inner)

lemma hoistAll_succ (fuel : Nat) : hoistAll m (fuel + 1) members cut =
    get >>= fun f => (loops f members cut).foldlM (visit m fuel) {} := rfl

lemma nodup_of_mem_loops (mem : l ∈ loops f members cut) : l.Nodup := by
  obtain ⟨c, -, -, rfl⟩ := mem_loops.1 mem
  exact (Ascending.pairwise_ofList c).nodup

/-- The blocks at which edges of a region are not cut. -/
abbrev uncut (members : List BlockId) (cut : Option BlockId) : List BlockId := members.filter fun b => some b != cut

/-- A loop of a region has more such blocks inside it than it has without the one at which it is entered. -/
lemma length_uncut_lt (small : ∀ b ∈ members, b < f.blocks.size) (mem : l ∈ loops f members cut) (here : b ∈ l) :
    (uncut l (some b)).length < (uncut members cut).length := by
  have fewer : (uncut l (some b)).length < l.length :=
    List.length_filter_lt_length_iff_exists.2 ⟨b, here, by simp⟩
  refine fewer.trans_le (List.subperm_of_subset (nodup_of_mem_loops mem) fun t there => ?_).length_le
  exact List.mem_filter.2 ⟨mem_of_mem_loops small mem there, bne_iff_ne.2 (ne_cut_of_mem_loops small mem there)⟩

section Spends

variable {fuel : Nat} {report : Report}

/-- Once operators are hoisted out of a loop and out of those inside, nothing is left. -/
lemma visit_drains (work : Workable f) (knit : Knit f l) (small : ∀ b ∈ l, b < f.blocks.size) (once : l.Nodup)
    (inner : ∀ g, Workable g → (∀ b ∈ l, b < g.blocks.size) → ∀ e, Sole g l e →
      (hoistAll m fuel l (some e.header)).Meets g
      (fun _ h => ∃ φ, Steps (fun b => b ∈ l ∧ some b ≠ some e.header) g φ h ∧ Spent h (φ l) (some e.header)) fun _ =>
        True) :
    (visit m fuel report l).Meets f (fun _ h => ∃ φ, Steps (· ∈ l) f φ h ∧ Drained h (φ l)) fun _ => True := by
  refine (hoist_drains work knit small once).bind fun outer g first => meets_get ?_
  obtain ⟨done, first⟩ := first
  obtain ⟨ψ, steps, same⟩ : ∃ ψ, Steps (· ∈ l) f ψ g ∧ ψ l = l := by
    rcases first with rfl | ⟨ψ, step, same⟩
    · exact ⟨id, .refl, rfl⟩
    · exact ⟨ψ, .tail .refl step fun b mem => mem, same⟩
  have work' : Workable g := steps.work work
  have small' : ∀ b ∈ l, b < g.blocks.size := fun b here => (small b here).trans_le steps.size
  have knit' : Knit g l := same ▸ steps.knit work knit
  split
  · rename_i none
    refine meets_pure ⟨ψ, steps, same.symm ▸ done, fun e sole => ?_⟩
    rw [same, ← entrance?_eq_some_iff_sole work' small' once, none] at sole
    cases sole
  · rename_i e found
    have sole := (entrance?_eq_some_iff_sole work' small' once).1 found
    refine (inner g work' small' e sole).bind fun _ h rest => meets_pure ?_
    obtain ⟨χ, deeper, spent⟩ := rest
    refine ⟨_, steps.trans (deeper.mono fun b both => both.1), ?_⟩
    rw [same]
    refine ⟨?_, fun e' sole' => ?_⟩
    · refine deeper.done (fun b both => small' b both.1) work' small' knit' (.inr fun e' sole' b both => ?_) done
      rw [sole.unique work' small' once sole']
      exact ⟨both.1, fun same => both.2 (congrArg some same)⟩
    · obtain ⟨e₀, sole₀, header⟩ := deeper.exists_sole work' small' sole'
      rw [sole.unique work' small' once sole₀] at header
      rw [← header]
      exact spent

/-- Some loops were visited: nothing is left in them, and operators were hoisted out of no others. -/
def Drains (f : Func) (ls : List (List BlockId)) (g : Func) : Prop :=
  ∃ φ, Steps (· ∈ ls.flatten) f φ g ∧ ∀ l ∈ ls, Drained g (φ l)

/-- The loops of a region are apart, so that visiting one of them brings nothing back to those before it. -/
lemma Drains.visit {before after : List (List BlockId)} (work : Workable f) (small : ∀ b ∈ members, b < f.blocks.size)
    (split : loops f members cut = before ++ l :: after) (done : Drains f before g)
    (inner : ∀ g, Workable g → (∀ b ∈ l, b < g.blocks.size) → ∀ e, Sole g l e →
      (hoistAll m fuel l (some e.header)).Meets g
      (fun _ h => ∃ φ, Steps (fun b => b ∈ l ∧ some b ≠ some e.header) g φ h ∧ Spent h (φ l) (some e.header)) fun _ =>
        True) :
    (visit m fuel report l).Meets g (fun _ h => Drains f (before ++ [l]) h) fun _ => True := by
  have all : ∀ l' ∈ before ++ [l], l' ∈ loops f members cut := by
    intro l' mem
    rw [split, List.append_cons]
    exact List.mem_append_left _ mem
  have loop : l ∈ loops f members cut := all l (by simp)
  have inside {l'} (mem : l' ∈ before ++ [l]) : ∀ b ∈ l', b < f.blocks.size :=
    fun b here => small b (mem_of_mem_loops small (all l' mem) here)
  have disjoint : ∀ l' ∈ before, List.Disjoint l' l := by
    have disjoint : (loops f members cut).Pairwise List.Disjoint := pairwise_loops small
    rw [split] at disjoint
    exact fun l' mem => (List.pairwise_append.1 disjoint).2.2 l' mem l List.mem_cons_self
  obtain ⟨φ, steps, drained⟩ := done
  have away : ∀ b ∈ before.flatten, b ∉ l := by
    intro b mem there
    obtain ⟨l', mem, here⟩ := List.mem_flatten.1 mem
    exact disjoint l' mem here there
  have same : φ l = l := steps.eq_of_apart away
  have work' : Workable g := steps.work work
  have small' : ∀ b ∈ l, b < g.blocks.size := fun b here => (inside (by simp) b here).trans_le steps.size
  have knit : Knit g l := same ▸ steps.knit work fun b => exists_succ_of_mem_loops small loop
  refine (visit_drains work' knit small' (nodup_of_mem_loops loop) inner).imp (fun _ h rest => ?_) fun _ _ => trivial
  obtain ⟨ψ, more, last⟩ := rest
  refine ⟨_, (steps.mono fun b mem => ?_).trans (more.mono fun b mem => ?_), fun l' mem => ?_⟩
  · rw [List.flatten_append]
    exact List.mem_append_left _ mem
  · rw [List.flatten_append]
    exact List.mem_append_right _ (by simpa using mem)
  · rcases List.mem_append.1 mem with mem' | mem'
    · refine (drained l' mem').kept more small' work' ?_ ?_ ?_
      · exact fun b here there => disjoint l' mem' ((steps.mem_iff (inside (by simp) b here)).1 there) here
      · exact steps.small (inside mem)
      · exact steps.knit work fun b => exists_succ_of_mem_loops small (all l' mem)
    · rw [List.mem_singleton.1 mem', same]
      exact last

lemma Drains.spent (work : Workable f) (small : ∀ b ∈ members, b < f.blocks.size)
    (young : ∀ c, cut = some c → c < f.blocks.size) (done : Drains f (loops f members cut) g) :
    ∃ φ, Steps (fun b => b ∈ members ∧ some b ≠ cut) f φ g ∧ Spent g (φ members) cut := by
  obtain ⟨φ, steps, drained⟩ := done
  have among : ∀ b ∈ (loops f members cut).flatten, b ∈ members ∧ some b ≠ cut := by
    intro b mem
    obtain ⟨l, loop, here⟩ := List.mem_flatten.1 mem
    exact ⟨mem_of_mem_loops small loop here, ne_cut_of_mem_loops small loop here⟩
  refine ⟨φ, steps.mono among, spent_iff.2 fun l' mem => ?_⟩
  obtain ⟨l, loop, rfl⟩ := steps.exists_of_mem_loops (fun b mem => small b (among b mem).1) work small
    (fun b mem _ => (among b mem).2) young mem
  exact drained l loop

/-- With fuel for the blocks at which no edges are cut, nothing is left to hoist out of the loops of a region. -/
lemma hoistAll_spends (work : Workable f) (small : ∀ b ∈ members, b < f.blocks.size)
    (young : ∀ c, cut = some c → c < f.blocks.size) (enough : (uncut members cut).length < fuel) :
    (hoistAll m fuel members cut).Meets f (fun _ g => ∃ φ, Steps (fun b => b ∈ members ∧ some b ≠ cut) f φ g ∧
      Spent g (φ members) cut) fun _ => True := by
  induction fuel generalizing f members cut with
  | zero => exact absurd enough (Nat.not_lt_zero _)
  | succ fuel ih =>
    rw [hoistAll_succ]
    refine meets_get ?_
    have start : Drains f [] f := ⟨id, .refl, List.forall_mem_nil _⟩
    refine (meets_foldlM (P := fun before _ g => Drains f before g) (fun before l after report g split done =>
      ?_) start).imp
      (fun _ g done => done.spent work small young) fun _ (_ : True) => trivial
    have loop : l ∈ loops f members cut := by
      rw [split]
      exact List.mem_append_right _ List.mem_cons_self
    refine done.visit work small split fun g₁ work₁ small₁ e sole => ?_
    refine ih work₁ small₁ (fun c same => Option.some.inj same ▸ small₁ _ sole.inside) ?_
    exact Nat.lt_of_lt_of_le (length_uncut_lt small loop sole.inside) (Nat.le_of_lt_succ enough)

end Spends

section Again

variable {fuel : Nat} {report : Report}

lemma hoist_of_done (work : Workable f) (small : ∀ b ∈ l, b < f.blocks.size) (once : l.Nodup) (done : Done f l) :
    (hoist m l).run f = .ok {} f := by
  refine Edit.bind_eq_ok.2 ⟨f, f, rfl, ?_⟩
  cases found : entrance? f l with
  | none => rfl
  | some e =>
    have sole := (entrance?_eq_some_iff_sole work small once).1 found
    dsimp only
    split
    · rfl
    · rename_i covered
      rw [ne_eq, not_not] at covered
      have none : invariants f l = [] := by
        by_contra some_
        obtain ⟨v, ready⟩ := exists_ready some_
        exact done e sole covered v ready
      rw [none]
      rfl

lemma hoistAll_of_spent (work : Workable f) (small : ∀ b ∈ members, b < f.blocks.size) (spent : Spent f members cut) :
    (hoistAll m fuel members cut).run f = .ok {} f := by
  induction fuel generalizing members cut with
  | zero => rfl
  | succ fuel ih =>
    refine Edit.bind_eq_ok.2 ⟨f, f, rfl, run_foldlM_still fun l loop => ?_⟩
    obtain ⟨done, inner⟩ := spent_iff.1 spent l loop
    have small' : ∀ b ∈ l, b < f.blocks.size := fun b here => small b (mem_of_mem_loops small loop here)
    have once := nodup_of_mem_loops loop
    refine Edit.bind_eq_ok.2 ⟨{}, f, hoist_of_done work small' once done, Edit.bind_eq_ok.2 ⟨f, f, rfl, ?_⟩⟩
    cases found : entrance? f l with
    | none => rfl
    | some e =>
      have sole := (entrance?_eq_some_iff_sole work small' once).1 found
      exact Edit.bind_eq_ok.2 ⟨{}, f, ih small' (inner e sole), rfl⟩

lemma visit_grows {count : Nat} (small : ∀ b ∈ l, b < count) :
    (visit m fuel report l).Retains fun g => count ≤ g.blocks.size := by
  intro f start
  have small' : ∀ b ∈ l, b < f.blocks.size := fun b here => (small b here).trans_le start
  refine (hoist_hoists small').bind fun outer g first => meets_get ?_
  have grown : count ≤ g.blocks.size := start.trans first.ages.blocks
  split
  · exact meets_pure grown
  · refine (hoistAll_hoists fuel l _ fun b here => (small b here).trans_le grown).bind fun _ h more => ?_
    exact meets_pure (grown.trans more.ages.blocks)

lemma hoistAll_fuel (small : ∀ b ∈ members, b < f.blocks.size) (enough : (uncut members cut).length < fuel) :
    (hoistAll m (fuel + 1) members cut).run f = (hoistAll m fuel members cut).run f := by
  induction fuel generalizing f members cut with
  | zero => exact absurd enough (Nat.not_lt_zero _)
  | succ fuel ih =>
    rw [hoistAll_succ, hoistAll_succ]
    refine run_bind_congr rfl fun a f' got => ?_
    obtain ⟨rfl, rfl⟩ := get_eq_ok.1 got
    have inside {l} (loop : l ∈ loops f' members cut) : ∀ b ∈ l, b < f'.blocks.size :=
      fun b here => small b (mem_of_mem_loops small loop here)
    refine run_foldlM_congr (P := fun g => f'.blocks.size ≤ g.blocks.size) (fun report l loop =>
      visit_grows (inside loop))
      (fun report l loop g grown => ?_) (Nat.le_refl _)
    refine run_bind_congr rfl fun outer g₁ run => run_bind_congr rfl fun a g₂ got => ?_
    obtain ⟨rfl, rfl⟩ := get_eq_ok.1 got
    have grown' : f'.blocks.size ≤ g₂.blocks.size := by
      have first := (hoist_hoists fun b here => (inside loop b here).trans_le grown).of_ok run
      exact grown.trans first.ages.blocks
    cases found : entrance? g₂ l with
    | none => rfl
    | some e =>
      have here : e.header ∈ l := (mem_entrances.1 (mem_entrances_of_entrance? found)).1
      refine run_bind_congr (ih (fun b here => (inside loop b here).trans_le grown') ?_) fun _ _ _ => rfl
      exact Nat.lt_of_lt_of_le (length_uncut_lt small loop here) (Nat.le_of_lt_succ enough)

end Again

/-! ## The whole graph -/

lemma Step.blockIds (step : Step S f φ g) (work : Workable f) : φ f.blockIds = g.blockIds := by
  cases step with
  | reuse _ _ _ moved =>
    rw [id, Func.blockIds, Func.blockIds, moved.flow.size]
    exact List.filter_congr fun b _ => (moved.flow.isSome b).symm
  | split sole _ _ _ moved =>
    have both : _ ∈ f.blockIds ∧ _ ∈ f.blockIds :=
      ⟨mem_blockIds.2 (isSome_of_mem_succs sole.edge), mem_blockIds.2 (work.wired.live _ _ sole.edge)⟩
    rw [grown, if_pos both, Func.blockIds, Func.blockIds, moved.flow.size, size_onEdge, List.range_succ,
      List.filter_append]
    congr 1
    · refine List.filter_congr fun b mem => ?_
      rw [moved.flow.isSome, isSome_onEdge, decide_eq_false (List.mem_range.1 mem).ne, Bool.false_or]
    · rw [List.filter_singleton, moved.flow.isSome, isSome_onEdge, decide_eq_true rfl]
      rfl

lemma Steps.blockIds (steps : Steps D f φ g) (work : Workable f) : φ f.blockIds = g.blockIds := by
  induction steps with
  | refl => rfl
  | @tail φ ψ _ _ _ steps step _ ih =>
    change ψ (φ f.blockIds) = _
    rw [ih, step.blockIds (steps.work work)]

lemma small_of_mem_blockIds : ∀ b ∈ f.blockIds, b < f.blocks.size := fun _ mem => lt_size_of_block? (mem_blockIds.1 mem)

lemma length_uncut_blockIds : (uncut f.blockIds cut).length < f.blockIds.length + 1 :=
  Nat.lt_succ_of_le (List.length_filter_le _ _)

lemma run_pass (ctx : Context) :
    (pass.run ctx).run f = (hoistAll ctx.method (f.blockIds.length + 1) f.blockIds none).run f := by
  have same : pass.run ctx = get >>= fun g => hoistAll ctx.method (g.blockIds.length + 1) g.blockIds none := rfl
  rw [same, run_get_bind]

lemma pass_drains {ctx : Context} {r : Report} (work : Workable f) (run : (pass.run ctx).run f = .ok r g) :
    (pass.run ctx).run g = .ok {} g := by
  rw [run_pass] at run ⊢
  have young (c : BlockId) (same : none = some c) : c < f.blocks.size := by cases same
  obtain ⟨φ, steps, spent⟩ := (hoistAll_spends work small_of_mem_blockIds young length_uncut_blockIds).of_ok run
  rw [steps.blockIds work] at spent
  exact hoistAll_of_spent (steps.work work) small_of_mem_blockIds spent

lemma pass_fuel {ctx : Context} {fuel : Nat} (enough : f.blockIds.length < fuel) :
    (hoistAll ctx.method fuel f.blockIds none).run f = (pass.run ctx).run f := by
  rw [run_pass]
  induction fuel, enough using Nat.le_induction with
  | base => rfl
  | succ fuel more ih =>
    rw [← ih]
    exact hoistAll_fuel small_of_mem_blockIds ((List.length_filter_le _ _).trans_lt more)

/-- Hoisting goes through all loops, each of which has fewer blocks where edges are not cut than
what it is in, and looks for invariant operators till none is found, however much fuel there is. -/
structure Ends (ctx : Context) (f : Func) : Prop where
  fuel : ∀ fuel, f.blockIds.length < fuel → (hoistAll ctx.method fuel f.blockIds none).run f = (pass.run ctx).run f
  deeper : ∀ (g : Func) members cut, (∀ b ∈ members, b < g.blocks.size) → ∀ l ∈ loops g members cut, ∀ b ∈ l,
    (uncut l (some b)).length < (uncut members cut).length
  search : ∀ (g : Func) l fuel, (operators g l).length < fuel →
    invariantLoop g l (writtenIn g l) (operators g l) fuel [] = invariants g l

lemma pass_ends (ctx : Context) (f : Func) : Ends ctx f where
  fuel _ enough := pass_fuel enough
  deeper _ _ _ small _ loop _ here := length_uncut_lt small loop here
  search _ _ _ enough := invariants_fuel enough

end Avm.Opt.Hoisting
