import Avm.Proofs.Graph.Condensation
import Avm.Proofs.Opt.Accounting

/-!
# What is hoisted stays out

Hoisting tells of each node that it moves, so its report is to be trusted only if no node comes back to
where it was.  If an edge is split on the way there is one more block for good.  Otherwise no edge changes,
and every node moves at most once: it goes to a block that leads to its loop only (`Leads`), and such a
block is in no loop that is looked at later.  It is not in the loop itself or in one inside, which it
enters, and it is not in one that is apart, since a block of a loop leads on to a block of the loop.

A region is a number of blocks, with the edges between them but for those into a block that is cut.  Its loops are the
components of it that lie on a cycle: the largest sets of blocks that reach each other without leaving the region.

The main statements are `pass_accounts` and `condenses_graphs_and_regions`.
-/

namespace Avm.Ir.Func

variable {f g h : Func} {b t : BlockId} {v w : ValueId}

/-- The block that a node names. -/
def home (f : Func) (v : ValueId) : Option BlockId := (f.node? v).map (·.block)

/-- The nodes of a block name it, and edges that enter a block leave another one. -/
structure Placed (f : Func) : Prop where
  owned : ∀ b, ∀ v ∈ f.body b, f.home v = some b
  entered : ∀ s t kind, (s, kind) ∈ f.preds t → (t, kind) ∈ f.succs s

lemma home_moveTo {source : BlockId} {index : Nat} (there : (f.node? v).isSome) :
    (f.moveTo v source b index).home w = if w = v then some b else f.home w := by
  rw [home, node?_moveTo]
  split
  · rename_i same
    subst same
    obtain ⟨n, found⟩ := Option.isSome_iff_exists.1 there
    rw [found, if_pos rfl]
    rfl
  · rename_i other
    exact (if_neg (Ne.symm other)).symm

lemma mem_body_moveTo {source : BlockId} {index : Nat} (mem : w ∈ (f.moveTo v source b index).body t) :
    (w = v ∧ t = b) ∨ (w ∈ f.body t ∧ (w = v → t ≠ source)) := by
  cases here : f.block? t with
  | none =>
    have gone : (f.moveTo v source b index).block? t = none := by
      rw [← Option.not_isSome_iff_eq_none, sameFlow_moveTo.isSome, here]
      exact Bool.false_ne_true
    rw [(parts_of_isNone gone).2.1] at mem
    cases mem
  | some x =>
    rw [body_of_block? here]
    simp only [moveTo, body, block?_modifyNode, block?_modifyBlock, here] at mem
    by_cases source_ : source = t <;> by_cases target_ : b = t
    · subst source_ target_
      simp only [if_true, Option.map_some, Option.getD_some] at mem
      obtain rfl | mem := List.eq_or_mem_of_mem_insertIdx mem
      · exact .inl ⟨rfl, rfl⟩
      · obtain ⟨mem, other⟩ := List.mem_filter.1 mem
        exact .inr ⟨mem, fun same => absurd same (bne_iff_ne.1 other)⟩
    · subst source_
      simp only [if_true, if_neg target_, Option.map_some, Option.getD_some] at mem
      obtain ⟨mem, other⟩ := List.mem_filter.1 mem
      exact .inr ⟨mem, fun same => absurd same (bne_iff_ne.1 other)⟩
    · subst target_
      simp only [if_true, if_neg source_, Option.map_some, Option.getD_some] at mem
      obtain rfl | mem := List.eq_or_mem_of_mem_insertIdx mem
      · exact .inl ⟨rfl, rfl⟩
      · exact .inr ⟨mem, fun _ same => source_ same.symm⟩
    · simp only [if_neg source_, if_neg target_, Option.map_some, Option.getD_some] at mem
      exact .inr ⟨mem, fun _ same => source_ same.symm⟩

lemma Placed.moveTo {n : Node} {index : Nat} (placed : Placed f) (found : f.node? v = some n) :
    Placed (f.moveTo v n.block b index) where
  owned t w mem := by
    rw [home_moveTo (by rw [found]; rfl)]
    obtain ⟨rfl, rfl⟩ | ⟨listed, away⟩ := mem_body_moveTo mem
    · exact if_pos rfl
    · rw [if_neg]
      · exact placed.owned t w listed
      · rintro rfl
        have home := placed.owned t w listed
        rw [Func.home, found] at home
        exact away rfl (Option.some.inj home).symm
  entered s t kind := by
    rw [sameFlow_moveTo.preds, sameFlow_moveTo.succs]
    exact placed.entered s t kind

end Avm.Ir.Func

namespace Avm.Opt.Hoisting

open Avm.Graph Avm.Ir Avm.Ir.Func Avm.Ir.Edit

variable {f g h : Func} {m : MethodId} {members l : List BlockId} {cut : Option BlockId} {b t : BlockId}
  {S S' T D D' E : BlockId → Prop} {n n' : Nat}

section Loops

lemma mem_innerSuccs : t ∈ innerSuccs f (.ofList f.blocks.size members) cut b ↔
    t ∈ f.succIds b ∧ (t ∈ members ∧ t < f.blocks.size) ∧ some t ≠ cut := by
  rw [innerSuccs, List.mem_filter, Bool.and_eq_true, Marks.has_ofList, bne_iff_ne]

lemma mem_loops : l ∈ loops f members cut ↔ ∃ c ∈ components members f.blocks.size
    (innerSuccs f (.ofList f.blocks.size members) cut),
      isCyclic (innerSuccs f (.ofList f.blocks.size members) cut) c = true ∧ l = Ascending.ofList c := by
  rw [loops, List.mem_map]
  simp only [List.mem_filter, and_assoc, eq_comm]

lemma mem_of_mem_innerSuccs : ∀ b ∈ members, ∀ t ∈ innerSuccs f (.ofList f.blocks.size members) cut b, t ∈ members :=
  fun _ _ _ next => (mem_innerSuccs.1 next).2.1.1

variable (small : ∀ b ∈ members, b < f.blocks.size)
include small

lemma condenses_innerSuccs (cut : Option BlockId) :
    Condenses members (fun b t => t ∈ innerSuccs f (.ofList f.blocks.size members) cut b)
      (isCyclic (innerSuccs f (.ofList f.blocks.size members) cut))
      (components members f.blocks.size (innerSuccs f (.ofList f.blocks.size members) cut)) :=
  condenses_of_closed mem_of_mem_innerSuccs small

lemma mem_of_mem_loops (mem : l ∈ loops f members cut) (here : b ∈ l) : b ∈ members := by
  obtain ⟨c, comp, -, rfl⟩ := mem_loops.1 mem
  exact ((condenses_innerSuccs small cut).all b).1 (List.mem_flatten_of_mem comp (Ascending.mem_ofList.1 here))

lemma exists_succ_of_mem_loops (mem : l ∈ loops f members cut) (here : b ∈ l) : ∃ t ∈ l, t ∈ f.succIds b := by
  obtain ⟨c, comp, cyclic, rfl⟩ := mem_loops.1 mem
  obtain ⟨t, there, next⟩ :=
    (condenses_innerSuccs small cut).exists_succ mem_of_mem_innerSuccs comp cyclic (Ascending.mem_ofList.1 here)
  exact ⟨t, Ascending.mem_ofList.2 there, (mem_innerSuccs.1 next).1⟩

lemma pairwise_loops : (loops f members cut).Pairwise List.Disjoint := by
  have apart := (List.nodup_flatten.1 (condenses_innerSuccs small cut).once).2
  rw [loops, List.pairwise_map]
  refine (apart.filter _).imp fun disjoint b mem mem' => ?_
  exact disjoint (Ascending.mem_ofList.1 mem) (Ascending.mem_ofList.1 mem')

end Loops

/-- The block leads to one of the given blocks only. -/
def Enters (f : Func) (S : BlockId → Prop) (t : BlockId) : Prop := ∃ b, S b ∧ f.succIds t = [b]

lemma Enters.congr (same : SameFlow f g) : Enters g S t ↔ Enters f S t := by
  rw [Enters, Enters, succIds, succIds, same.succs]

/-- Nodes go from some blocks to others, if they go anywhere. -/
def Shifts (S D : BlockId → Prop) (f g : Func) : Prop :=
  ∀ v, g.home v = f.home v ∨ ∃ b t, f.home v = some b ∧ S b ∧ g.home v = some t ∧ D t ∧ t ≠ b

/-- What a number of reported moves come to: none and the graph stays; or some and a block is added, or
else some and nodes go from some blocks to others, which is seen where every node starts in its block. -/
inductive Hoists (S D : BlockId → Prop) (f : Func) : Nat → Func → Prop
  | stay : Hoists S D f 0 f
  | grow {n : Nat} {g : Func} (pos : 0 < n) (ages : Ages f g) (more : ¬Ages g f) : Hoists S D f n g
  | shift {n : Nat} {g : Func} (pos : 0 < n) (ages : Ages f g) (flow : SameFlow f g)
    (shifts : Placed f → Placed g ∧ Shifts S D f g ∧ ∃ v, g.home v ≠ f.home v) : Hoists S D f n g

namespace Hoists

lemma ages (hoists : Hoists S D f n g) : Ages f g := by
  cases hoists with
  | stay => exact .refl f
  | grow _ ages _ => exact ages
  | shift _ ages _ _ => exact ages

lemma mono (hoists : Hoists S D f n g) (sources : ∀ b, S b → T b) (targets : ∀ t, D t → E t) :
    Hoists T E f n g := by
  cases hoists with
  | stay => exact .stay
  | grow pos ages more => exact .grow pos ages more
  | shift pos ages flow shifts =>
    refine .shift pos ages flow fun placed => ?_
    obtain ⟨placed', moves, some_⟩ := shifts placed
    refine ⟨placed', fun v => (moves v).imp id ?_, some_⟩
    rintro ⟨b, t, was, source, now, target, other⟩
    exact ⟨b, t, was, sources b source, now, targets t target, other⟩

lemma trans (first : Hoists S D f n g) (second : Hoists S' D' g n' h) (sources : ∀ b, S b → T b)
    (sources' : ∀ b, S' b → T b) (targets : ∀ t, D t → E t) (targets' : SameFlow f g → ∀ t, D' t → E t)
    (apart : SameFlow f g → ∀ t, D t → ¬S' t) : Hoists T E f (n + n') h := by
  cases first with
  | stay =>
    rw [Nat.zero_add]
    exact second.mono sources' (targets' (.refl f))
  | grow pos ages more =>
    exact .grow (Nat.add_pos_left pos _) (ages.trans second.ages) fun back => more (second.ages.trans back)
  | shift pos ages flow shifts =>
    cases second with
    | stay => exact (Hoists.shift pos ages flow shifts).mono sources targets
    | grow pos' ages' more =>
      exact .grow (Nat.add_pos_left pos _) (ages.trans ages') fun back => more (back.trans ages)
    | shift pos' ages' flow' shifts' =>
      refine .shift (Nat.add_pos_left pos _) (ages.trans ages') (flow.trans flow') fun placed => ?_
      obtain ⟨placed₁, moves, v, moved⟩ := shifts placed
      obtain ⟨placed₂, moves', -⟩ := shifts' placed₁
      refine ⟨placed₂, fun w => ?_, v, fun back => ?_⟩
      · obtain same | ⟨b, t, was, source, now, target, other⟩ := moves w
        · obtain same' | ⟨b, t, was, source, now, target, other⟩ := moves' w
          · exact .inl (same'.trans same)
          · exact .inr ⟨b, t, same ▸ was, sources' b source, now, targets' flow t target, other⟩
        · obtain same' | ⟨b', -, was', source', -, -, -⟩ := moves' w
          · exact .inr ⟨b, t, was, sources b source, same'.trans now, targets t target, other⟩
          · rw [now] at was'
            cases was'
            exact absurd source' (apart flow t target)
      · -- A node that was moved stays, and was not where it is now.
        obtain same | ⟨b, t, was, source, now, target, other⟩ := moves v
        · exact moved same
        · obtain same' | ⟨b', -, was', source', -, -, -⟩ := moves' v
          · exact moved (same'.symm.trans back)
          · rw [now] at was'
            cases was'
            exact absurd source' (apart flow t target)

end Hoists

lemma moveAll_shifts {header target : BlockId} (vs : List ValueId) (report : Report) :
    (moveAll m header target vs report).Meets f (fun r g => r.changes = report.changes + vs.length ∧
      Ages f g ∧ SameFlow f g ∧ (Placed f → Placed g) ∧
        ∀ v, g.home v = if v ∈ vs then some target else f.home v) fun _ => True := by
  induction vs generalizing f report with
  | nil => exact meets_pure ⟨rfl, .refl f, .refl f, id, fun v => rfl⟩
  | cons v vs ih =>
    refine meets_get (Meets.bind (P := fun _ g => ∃ n index, f.node? v = some n ∧
      g = f.moveTo v n.block target index) ?_ ?_)
    · refine meets_of_forall (fun _ g run => ?_) fun _ _ _ => trivial
      obtain ⟨n, found, -, -, -, rfl⟩ := moveNode_eq_ok.1 run
      exact ⟨n, _, found, rfl⟩
    · rintro _ f₁ ⟨n, index, found, rfl⟩
      refine (ih _).imp (fun r g rest => ?_) fun _ _ => trivial
      obtain ⟨changes, ages, flow, placed, homes⟩ := rest
      refine ⟨?_, (ages_moveTo f v n.block target index).trans ages, sameFlow_moveTo.trans flow,
        fun start => placed (start.moveTo found), fun w => ?_⟩
      · rw [changes, Report.changes_andThen, Report.changes_event rfl, List.length_cons]
        omega
      · rw [homes, home_moveTo (by rw [found]; rfl)]
        by_cases mem : w ∈ vs
        · rw [if_pos mem, if_pos (List.mem_cons_of_mem v mem)]
        · simp only [if_neg mem, List.mem_cons, or_iff_left mem]

lemma enters_of_entrance? {e : Entrance} (placed : Placed f) (small : ∀ b ∈ l, b < f.blocks.size)
    (found : entrance? f l = some e) (alone : (f.succs e.source).length = 1) :
    e.source ∉ l ∧ Enters f (· ∈ l) e.source := by
  obtain ⟨here, enters, outside⟩ := mem_entrances.1 (mem_entrances_of_entrance? found)
  refine ⟨fun inside => ?_, e.header, here, ?_⟩
  · rw [Marks.has_ofList.2 ⟨inside, small _ inside⟩] at outside
    cases outside
  · have next := placed.entered e.source e.header e.kind enters
    obtain ⟨d, eq⟩ := List.length_eq_one_iff.1 alone
    rw [eq, List.mem_singleton] at next
    rw [succIds, eq, ← next]
    rfl

lemma exists_home_of_mem_invariants {v : ValueId} (placed : Placed f) (mem : v ∈ invariants f l) :
    ∃ b ∈ l, f.home v = some b := by
  have candidate : v ∈ operators f l := mem_invariantLoop (fun _ none => by cases none) mem
  obtain ⟨b, here, mem⟩ := List.mem_flatMap.1 (List.mem_of_mem_filter candidate)
  exact ⟨b, here, placed.owned b v mem⟩

lemma hoist_hoists (small : ∀ b ∈ l, b < f.blocks.size) : (hoist m l).Meets f (fun r g =>
    Hoists (· ∈ l) (fun t => t ∉ l ∧ Enters f (· ∈ l) t) f r.changes g) fun _ => True := by
  refine meets_hoist (fun _ => .stay) fun e found _ some_ => meets_preheader_bind (fun _ alone => ?_) ?_
  · refine (moveAll_shifts _ {}).imp (fun r g rest => ?_) fun _ _ => trivial
    obtain ⟨changes, ages, flow, kept, homes⟩ := rest
    obtain ⟨v, first⟩ := List.exists_mem_of_ne_nil _ some_
    refine .shift (by rw [changes]; exact Nat.add_pos_right _ (List.length_pos_iff.2 some_)) ages flow fun placed => ?_
    obtain ⟨outside, enters⟩ := enters_of_entrance? placed small found alone
    have moved (w) (mem : w ∈ invariants f l) : ∃ b ∈ l, f.home w = some b ∧ g.home w = some e.source := by
      obtain ⟨b, here, home⟩ := exists_home_of_mem_invariants placed mem
      exact ⟨b, here, home, by rw [homes, if_pos mem]⟩
    refine ⟨kept placed, fun w => ?_, v, fun back => ?_⟩
    · by_cases mem : w ∈ invariants f l
      · obtain ⟨b, here, home, home'⟩ := moved w mem
        exact .inr ⟨b, _, home, here, home', ⟨outside, enters⟩, fun same => outside (same ▸ here)⟩
      · exact .inl (by rw [homes, if_neg mem])
    · obtain ⟨b, here, home, home'⟩ := moved v first
      rw [home, home', Option.some.injEq] at back
      exact outside (back ▸ here)
  · refine (splitEdge_grows f).bind fun target f₁ grown => ?_
    refine (moveAll_shifts _ {}).imp (fun r g rest => ?_) fun _ _ => trivial
    have longer := grown.trans rest.2.1
    exact .grow (by rw [rest.1]; exact Nat.add_pos_right _ (List.length_pos_iff.2 some_))
      ((ages_pushBlock f).trans longer)
      (not_ages_of_pushBlock longer)

/-- Whatever is moved starts in a block that was to be looked at, and goes to one that leads to such a block
only. -/
lemma hoistAll_hoists (fuel : Nat) (members : List BlockId) (cut : Option BlockId)
    (small : ∀ b ∈ members, b < f.blocks.size) : (hoistAll m fuel members cut).Meets f
      (fun r g => Hoists (· ∈ members) (Enters f (· ∈ members)) f r.changes g) fun _ => True := by
  induction fuel generalizing f members cut with
  | zero => exact meets_pure .stay
  | succ fuel ih =>
    rw [hoistAll]
    refine meets_get ?_
    -- The loops that are done are apart from the next one, so nothing comes back through it.
    let Done (before : List (List BlockId)) (r : Report) (g : Func) : Prop :=
      Hoists (· ∈ before.flatten) (Enters f (· ∈ before.flatten)) f r.changes g
    refine (meets_foldlM (P := Done) (fun before l after report g split done => ?_) Hoists.stay).imp
      (fun r g done => ?_) fun _ (_ : True) => trivial
    · have loop : l ∈ loops f members cut := by rw [split]; simp
      have inside : ∀ b ∈ l, b < f.blocks.size := fun b here => small b (mem_of_mem_loops small loop here)
      have apart (same : SameFlow f g) (t : BlockId) (enters : Enters f (· ∈ before.flatten) t) : t ∉ l := by
        obtain ⟨b, here, only⟩ := enters
        intro there
        obtain ⟨b', here', next⟩ := exists_succ_of_mem_loops small loop there
        rw [only, List.mem_singleton] at next
        obtain ⟨l', mem, here⟩ := List.mem_flatten.1 here
        have disjoint : (loops f members cut).Pairwise List.Disjoint := pairwise_loops small
        rw [split] at disjoint
        exact (List.pairwise_append.1 disjoint).2.2 l' mem l List.mem_cons_self here (next ▸ here')
      have all {r : Report} {h : Func} (next : Hoists (· ∈ l) (Enters g (· ∈ l)) g r.changes h) :
          Done (before ++ [l]) (report.andThen r) h := by
        show Hoists _ _ f (report.andThen r).changes h
        rw [Report.changes_andThen]
        have grow (b) (mem : b ∈ before.flatten ∨ b ∈ l) : b ∈ (before ++ [l]).flatten := by simpa using mem
        refine done.trans next (fun b mem => grow b (.inl mem)) (fun b mem => grow b (.inr mem)) ?_ ?_ apart
        · rintro t ⟨b, mem, only⟩
          exact ⟨b, grow b (.inl mem), only⟩
        · intro same t enters
          obtain ⟨b, mem, only⟩ := (Enters.congr same).1 enters
          exact ⟨b, grow b (.inr mem), only⟩
      have room : ∀ b ∈ l, b < g.blocks.size := fun b here => (inside b here).trans_le done.ages.blocks
      refine (hoist_hoists room).bind fun outer g₁ first => meets_get ?_
      split
      · exact meets_pure (all (first.mono (fun _ here => here) fun _ enters => enters.2))
      · refine (ih l _ fun b here => (room b here).trans_le first.ages.blocks).bind fun inner g₂ second => ?_
        refine meets_pure (all ?_)
        rw [Report.changes_andThen]
        exact first.trans second (fun _ here => here) (fun _ here => here) (fun _ enters => enters.2)
          (fun same _ enters => (Enters.congr same).1 enters) fun _ _ enters => enters.1
    · have within (b) (here : b ∈ (loops f members cut).flatten) : b ∈ members := by
        obtain ⟨l, loop, here⟩ := List.mem_flatten.1 here
        exact mem_of_mem_loops small loop here
      refine Hoists.mono done within ?_
      rintro t ⟨b, here, only⟩
      exact ⟨b, within b here, only⟩

/-- A node is not where it was, or there is one more block, if nodes are where blocks list them. -/
def Relocates (f g : Func) : Prop := Placed f → ¬Ages g f ∨ ∃ v, g.home v ≠ f.home v

lemma pass_accounts : pass.Accounts Relocates := by
  refine fun ctx f => meets_get ((hoistAll_hoists _ _ none ?_).imp (fun r g hoists => ?_) fun _ _ => trivial)
  · exact fun b mem => lt_size_of_block? (mem_blockIds.1 mem)
  · generalize r.changes = n at hoists
    cases hoists with
    | stay => exact .stay
    | grow pos _ more => exact .move pos fun _ => .inl more
    | shift pos _ _ shifts => exact .move pos fun placed => .inr (shifts placed).2.2

/-- An edge of a region. -/
def Inner (f : Func) (members : List BlockId) (cut : Option BlockId) (b t : BlockId) : Prop :=
  t ∈ f.succIds b ∧ t ∈ members ∧ some t ≠ cut

lemma condenses_region (small : ∀ b ∈ members, b < f.blocks.size) :
    Condenses members (Inner f members cut) (isCyclic (innerSuccs f (.ofList f.blocks.size members) cut))
      (components members f.blocks.size (innerSuccs f (.ofList f.blocks.size members) cut)) := by
  have edges (b t) : t ∈ innerSuccs f (.ofList f.blocks.size members) cut b ↔ Inner f members cut b t := by
    rw [mem_innerSuccs, Inner]
    constructor
    · rintro ⟨next, ⟨inside, -⟩, kept⟩
      exact ⟨next, inside, kept⟩
    · rintro ⟨next, inside, kept⟩
      exact ⟨next, ⟨inside, small t inside⟩, kept⟩
  have condenses := condenses_innerSuccs small cut
  simp only [edges] at condenses
  exact condenses

/-- The search finds the strongly connected components of every graph and of every region of a function: each
node is in one of them, two nodes share one if they reach each other, each follows those that it reaches, and
those that lie on a cycle are told from the others.  A search that keeps the nodes it is at in frames comes to
its end, with the same components in the same order. -/
theorem condenses_graphs_and_regions :
    (∀ count succ, Condenses (List.range count) (fun v w => w ∈ succ v ∧ w < count) (isCyclic succ)
      (components (List.range count) count succ)) ∧
    (∀ (f : Func) (members : List BlockId) (cut : Option BlockId), (∀ b ∈ members, b < f.blocks.size) →
      Condenses members (Inner f members cut) (isCyclic (innerSuccs f (.ofList f.blocks.size members) cut))
        (components members f.blocks.size (innerSuccs f (.ofList f.blocks.size members) cut))) ∧
    ∀ (nodes : List Nat) (count : Nat) (succ : Nat → List Nat), (∀ v ∈ nodes, v < count) →
      ∃ d, Descent.Leads count succ ⟨.start count, [], nodes⟩ d ∧ d.step count succ = none ∧
        d.search.components.reverse = components nodes count succ := by
  refine ⟨fun count succ => ?_, fun f members cut small => condenses_region small, fun _ _ _ => exists_descent⟩
  apply condenses_components
  · exact fun _ _ _ _ below => List.mem_range.2 below
  · exact fun _ => List.mem_range.1

/-- A loop around a block that loops by itself. -/
def nestedLoop : Func where
  method := 0
  params := 0
  flags := default
  locals := 1
  blocks := #[some { succs := [(2, .fallthrough)] }, some {},
    some { succs := [(3, .whenTrue), (1, .whenFalse)] }, some { succs := [(3, .whenTrue), (4, .whenFalse)] },
    some { succs := [(2, .jump)] }]

/-- Without the edges to its first block the outer loop falls apart, and the inner one is left. -/
theorem condenses_graphs_and_regions_nestedLoop :
    (∀ b ∈ [2, 3, 4], b < nestedLoop.blocks.size) ∧ loops nestedLoop [0, 1, 2, 3, 4] none = [[2, 3, 4]] ∧
      Condenses [2, 3, 4] (Inner nestedLoop [2, 3, 4] (some 2))
        (isCyclic (innerSuccs nestedLoop (.ofList 5 [2, 3, 4]) (some 2))) [[4], [3], [2]] ∧
      loops nestedLoop [2, 3, 4] (some 2) = [[3]] := by
  have small : ∀ b ∈ [2, 3, 4], b < nestedLoop.blocks.size := by decide
  refine ⟨small, by decide, ?_, by decide⟩
  exact condenses_graphs_and_regions.2.1 nestedLoop [2, 3, 4] (some 2) small

end Avm.Opt.Hoisting
