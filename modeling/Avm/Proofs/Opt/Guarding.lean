import Avm.Proofs.Emit.Placing
import Avm.Proofs.Opt.Relocating

/-!
# Handlers around what is hoisted

Hoisting asks that the header of a loop and the block before it are covered by the same handlers, and asks
nothing of the other blocks of the loop.  So what is moved ends under the handlers of some block of its loop,
which need not be the block that it was in: a protected operator of a loop that is not protected as a whole
loses its handlers.

Splitting an edge changes no handlers and adds no edges between blocks that were there (`Divides`), so the
blocks that are looked at form loops of the graph at the start, however many blocks were made before.

The main statement is `handlersOf_of_run`.  `not_keepsHandlers` is that the handlers need not be those of the
block that a node was in.
-/

namespace Avm.Ir.Func

variable {f g h : Func} {b s t source target : BlockId} {v : ValueId} {kind : EdgeKind} {depth : Nat}

lemma home_onEdge : (f.onEdge source target kind depth).home v = f.home v := frame_onEdge.1

/-- The graph with some edges split.  A block that was there is covered as it was, leads to no other such
block that it did not lead to, and leads to one alone only if it did before. -/
structure Divides (f g : Func) : Prop where
  size : f.blocks.size ≤ g.blocks.size
  handlers : ∀ b < f.blocks.size, g.handlersOf b = f.handlersOf b
  edges : ∀ b < f.blocks.size, ∀ t < f.blocks.size, t ∈ g.succIds b → t ∈ f.succIds b
  only : ∀ b < f.blocks.size, ∀ t < f.blocks.size, g.succIds b = [t] → f.succIds b = [t]

namespace Divides

lemma refl (f : Func) : Divides f f :=
  ⟨Nat.le_refl _, fun _ _ => rfl, fun _ _ _ _ mem => mem, fun _ _ _ _ eq => eq⟩

lemma trans (first : Divides f g) (second : Divides g h) : Divides f h where
  size := first.size.trans second.size
  handlers b old := (second.handlers b (old.trans_le first.size)).trans (first.handlers b old)
  edges b old t old' mem :=
    first.edges b old t old' (second.edges b (old.trans_le first.size) t (old'.trans_le first.size) mem)
  only b old t old' eq :=
    first.only b old t old' (second.only b (old.trans_le first.size) t (old'.trans_le first.size) eq)

lemma of_sameFlow (same : SameFlow f g) : Divides f g where
  size := same.size.ge
  handlers b _ := same.handlersOf b
  edges b _ t _ mem := by rwa [succIds, same.succs] at mem
  only b _ t _ eq := by rwa [succIds, same.succs] at eq

lemma onEdge (linked : Linked (fun _ => False) f) (edge : (target, kind) ∈ f.succs source) :
    Divides f (f.onEdge source target kind depth) := by
  have live : (f.block? source).isSome := isSome_of_mem_succs edge
  have wired : f.succs source = edgesFrom f.handlers (f.terminator source) (f.handlersOf source) := by
    rw [linked.wired source id, edgesOf_eq]
  have other {b} (old : b < f.blocks.size) (away : b ≠ source) :
      (f.onEdge source target kind depth).succIds b = f.succIds b := by
    rw [succIds, succs_onEdge live, if_neg away, if_neg old.ne, succIds]
  have own : (f.onEdge source target kind depth).succs source =
      edgesFrom f.handlers (f.retargeted source kind f.blocks.size) (f.handlersOf source) := by
    rw [succs_onEdge live, if_pos rfl]
  constructor
  case size =>
    rw [size_onEdge]
    exact Nat.le_succ _
  case handlers => exact fun b old => (handlersOf_onEdge live).trans (if_neg old.ne)
  case edges =>
    intro b old t old' mem
    by_cases here : b = source
    · subst here
      obtain ⟨e, next, rfl⟩ := List.mem_map.1 mem
      rw [own] at next
      rw [succIds, wired]
      refine List.mem_map_of_mem (mem_edgesFrom.2 ?_)
      obtain goes | leaves | caught := mem_edgesFrom.1 next
      · obtain rfl | ⟨goes, -⟩ := Terminator.mem_targets_retarget goes
        · exact absurd old' (Nat.lt_irrefl _)
        · exact .inl goes
      · rw [retargeted, Terminator.leaving_retarget] at leaves
        exact .inr (.inl leaves)
      · exact .inr (.inr caught)
    · rwa [other old here] at mem
  case only =>
    intro b old t old' eq
    by_cases here : b = source
    · subst here
      -- If no edge goes to the new block, the terminator is what it was.
      have unchanged : (f.retargeted b kind f.blocks.size).targets = (f.terminator b).targets := by
        rw [retargeted, Terminator.targets_retarget]
        refine (List.map_congr_left fun e mem => ?_).trans (List.map_id _)
        refine if_neg fun same => ?_
        have new : (f.blocks.size, kind) ∈ (f.onEdge b target kind depth).succs b := by
          rw [own, mem_edgesFrom, retargeted, Terminator.targets_retarget]
          exact .inl (List.mem_map.2 ⟨e, mem, if_pos same⟩)
        have led : f.blocks.size ∈ (f.onEdge b target kind depth).succIds b :=
          List.mem_map.2 ⟨_, new, rfl⟩
        rw [eq, List.mem_singleton] at led
        exact old'.ne led.symm
      have same : (f.onEdge b target kind depth).succs b = f.succs b := by
        rw [own, wired, edgesFrom, unchanged, retargeted, Terminator.leaving_retarget, edgesFrom]
      rw [← eq, succIds, succIds, same]
    · rwa [other old here] at eq

end Divides

/-- Edges are known at both ends, and the nodes of a block name it. -/
structure Whole (f : Func) : Prop where
  linked : Linked (fun _ => False) f
  owned : ∀ b, ∀ v ∈ f.body b, f.home v = some b

namespace Whole

lemma of_verify (linked : Linked (fun _ => False) f) (verified : f.verify = .ok ()) : Whole f where
  linked := linked
  owned b v mem := by
    obtain ⟨x, here⟩ := Option.isSome_iff_exists.1 (isSome_of_mem_nodesOf (List.mem_append_right _ mem))
    rw [body_of_block? here] at mem
    exact (verifyBlock_eq_ok.1 (verify_eq_ok.1 verified b x here)).2.2.1 v (List.mem_append_right _ mem)

lemma mem_succs (h : Whole f) (enters : (s, kind) ∈ f.preds t) : (t, kind) ∈ f.succs s := by
  rw [← List.count_pos_iff] at enters ⊢
  rwa [← h.linked.linked t (isSome_of_mem_preds (List.count_pos_iff.1 enters))]

lemma linked_of_intact (h : Intact f) (caught : ∀ c ∈ f.handlers, c.target < f.blocks.size) :
    Linked (fun _ => False) f where
  wired := h.wired
  linked := h.linked
  ends b e mem := h.live b e (h.mem_succs_of_mem_targets mem)
  exit := h.exit.1
  covered := h.lt_of_mem_handlersOf
  caught := caught

lemma placed (h : Whole f) : Placed f := ⟨h.owned, fun _ _ _ => h.mem_succs⟩

lemma onEdge (h : Whole f) (live : (f.block? source).isSome) (there : (f.block? target).isSome) :
    Whole (f.onEdge source target kind depth) where
  linked := h.linked.onEdge live there
  owned b v mem := by
    rw [body_onEdge] at mem
    rw [home_onEdge]
    exact h.owned b v mem

end Whole

end Avm.Ir.Func

namespace Avm.Opt.Hoisting

open Avm.Graph Avm.Ir Avm.Ir.Func Avm.Ir.Edit

variable {f₀ f g h : Func} {m : MethodId} {members l : List BlockId} {cut : Option BlockId} {b t : BlockId}
  {v : ValueId} {S S' T D D' E : BlockId → Prop}

lemma entrance?_eq_some {e : Entrance} (whole : Whole f) (found : entrance? f l = some e) :
    e.header ∈ l ∧ (e.header, e.kind) ∈ f.succs e.source ∧ (f.block? e.header).isSome ∧ e.kind ≠ .raise := by
  obtain ⟨here, enters, -⟩ := mem_entrances.1 (mem_entrances_of_entrance? found)
  exact ⟨here, whole.mem_succs enters, isSome_of_mem_preds enters, (entrance?_eq_some_iff.1 found).2⟩

/-- Blocks of a loop reach each other by edges that were there before others were split. -/
lemma leads_of_mem_loops (divides : Divides f₀ f) (small : ∀ b ∈ members, b < f₀.blocks.size)
    (mem : l ∈ loops f members cut) (here : b ∈ l) (there : t ∈ l) : f₀.Leads b t := by
  have small' : ∀ b ∈ members, b < f.blocks.size := fun b mem => (small b mem).trans_le divides.size
  obtain ⟨c, comp, -, rfl⟩ := mem_loops.1 mem
  have start := mem_of_mem_loops small' mem here
  have path := (((condenses_innerSuccs small' cut).joined c comp b (Ascending.mem_ofList.1 here) t
    (mem_of_mem_loops small' mem there)).1
    (Ascending.mem_ofList.1 there)).1
  suffices all : f₀.Leads b t ∧ t ∈ members from all.1
  clear there
  induction path with
  | refl => exact ⟨.refl, start⟩
  | tail _ step ih =>
    obtain ⟨path, inside⟩ := ih
    obtain ⟨next, ⟨inside', -⟩, -⟩ := mem_innerSuccs.1 step
    exact ⟨path.tail (divides.edges _ (small _ inside) _ (small _ inside') next), inside'⟩

/-- Nodes go from some blocks to others, if they go anywhere, and end under the handlers of a block on a cycle
with the one that they were in. -/
structure Raises (f₀ : Func) (S D : BlockId → Prop) (f g : Func) : Prop where
  divides : Divides f g
  whole : Whole g
  moves : ∀ v, g.home v = f.home v ∨ ∃ b t s, (f.home v = some b ∧ S b) ∧
    (g.home v = some t ∧ D t ∧ t < g.blocks.size) ∧ (f₀.Leads b s ∧ f₀.Leads s b) ∧
      s < f₀.blocks.size ∧ g.handlersOf t = f₀.handlersOf s

namespace Raises

lemma refl (whole : Whole f) : Raises f₀ S D f f := ⟨.refl f, whole, fun _ => .inl rfl⟩

lemma mono (raises : Raises f₀ S D f g) (sources : ∀ b, S b → T b) (targets : ∀ t, D t → E t) :
    Raises f₀ T E f g where
  divides := raises.divides
  whole := raises.whole
  moves v := by
    obtain same | ⟨b, t, s, ⟨was, source⟩, ⟨now, target, inside⟩, rest⟩ := raises.moves v
    · exact .inl same
    · exact .inr ⟨b, t, s, ⟨was, sources b source⟩, ⟨now, targets t target, inside⟩, rest⟩

lemma trans (first : Raises f₀ S D f g) (second : Raises f₀ S' D' g h) (sources : ∀ b, S b ∨ S' b → T b)
    (targets : ∀ t, D t ∨ D' t → E t) (apart : ∀ t, D t → ¬S' t) : Raises f₀ T E f h where
  divides := first.divides.trans second.divides
  whole := second.whole
  moves v := by
    obtain same | ⟨b, t, s, ⟨was, source⟩, ⟨now, target, inside⟩, around, old, handlers⟩ := first.moves v
    · obtain same' | ⟨b, t, s, ⟨was, source⟩, ⟨now, target, inside⟩, rest⟩ := second.moves v
      · exact .inl (same'.trans same)
      · exact .inr ⟨b, t, s, ⟨same ▸ was, sources b (.inr source)⟩, ⟨now, targets t (.inr target), inside⟩, rest⟩
    · obtain same' | ⟨b', -, -, ⟨was', source'⟩, -⟩ := second.moves v
      · refine .inr ⟨b, t, s, ⟨was, sources b (.inl source)⟩, ⟨same'.trans now, targets t (.inl target), ?_⟩,
          around, old, ?_⟩
        · exact inside.trans_le second.divides.size
        · exact (second.divides.handlers t inside).trans handlers
      · rw [now] at was'
        cases was'
        exact absurd source' (apart t target)

end Raises

/-- A block that was made, or one that leads to one of the given blocks only. -/
def Before (f₀ : Func) (S : BlockId → Prop) (t : BlockId) : Prop := f₀.blocks.size ≤ t ∨ Enters f₀ S t

lemma Before.mono (before : Before f₀ S t) (more : ∀ b, S b → T b) : Before f₀ T t := by
  obtain new | ⟨b, here, only⟩ := before
  · exact .inl new
  · exact .inr ⟨b, more b here, only⟩

lemma before_of_enters (divides : Divides f₀ f) (old : ∀ b, S b → b < f₀.blocks.size) (enters : Enters f S t) :
    Before f₀ S t := by
  obtain ⟨b, here, only⟩ := enters
  obtain inside | new := Nat.lt_or_ge t f₀.blocks.size
  · exact .inr ⟨b, here, divides.only t inside b (old b here) only⟩
  · exact .inl new

section Hoist

variable (divides : Divides f₀ f) (whole : Whole f)
include divides whole

/-- Invariant nodes are moved to a block that is covered as the header of their loop. -/
lemma moveAll_raises {header target : BlockId} {vs : List ValueId}
    (small : ∀ b ∈ l, b < f₀.blocks.size) (around : ∀ b ∈ l, ∀ t ∈ l, f₀.Leads b t)
    (invariant : ∀ v ∈ vs, ∃ b ∈ l, f.home v = some b) (first : header ∈ l)
    (covered : f.handlersOf target = f.handlersOf header) (there : target < f.blocks.size) (outside : D target) :
    (moveAll m header target vs {}).Meets f (fun _ g => Raises f₀ (· ∈ l) D f g) fun _ => True := by
  refine (moveAll_shifts vs {}).imp (fun r g rest => ?_) fun _ _ => trivial
  obtain ⟨-, -, flow, kept, homes⟩ := rest
  refine ⟨.of_sameFlow flow, ⟨whole.linked.sameFlow flow, (kept whole.placed).owned⟩, fun v => ?_⟩
  by_cases mem : v ∈ vs
  · obtain ⟨b, here, home⟩ := invariant v mem
    refine .inr ⟨b, target, header, ⟨home, here⟩, ⟨by rw [homes, if_pos mem], outside, flow.size ▸ there⟩,
      ⟨around b here header first, around header first b here⟩, small header first, ?_⟩
    rw [flow.handlersOf, covered, divides.handlers header (small header first)]
  · exact .inl (by rw [homes, if_neg mem])

lemma hoist_raises (small : ∀ b ∈ l, b < f₀.blocks.size) (around : ∀ b ∈ l, ∀ t ∈ l, f₀.Leads b t) :
    (hoist m l).Meets f (fun _ g => Raises f₀ (· ∈ l) (fun t => t ∉ l ∧ Before f₀ (· ∈ l) t) f g)
      fun _ => True := by
  have small' : ∀ b ∈ l, b < f.blocks.size := fun b mem => (small b mem).trans_le divides.size
  refine meets_hoist (fun _ => .refl whole) fun e found covered _ => ?_
  obtain ⟨first, edge, there, normal⟩ := entrance?_eq_some whole found
  have live : (f.block? e.source).isSome := isSome_of_mem_succs edge
  have invariant (w) (mem : w ∈ invariants f l) : ∃ b ∈ l, f.home w = some b :=
    exists_home_of_mem_invariants whole.placed mem
  refine meets_preheader_bind (fun _ alone => ?_) ?_
  · obtain ⟨outside, enters⟩ := enters_of_entrance? whole.placed small' found alone
    exact moveAll_raises divides whole small around invariant first covered.symm
      (lt_size_of_block? live) ⟨outside, before_of_enters divides small enters⟩
  · refine meets_ok_bind (run_splitEdge edge normal (whole.linked.covered _) there (whole.linked.ends _)) ?_
    have split : Divides f (f.onEdge e.source e.header e.kind (f.scopeDepth e.source)) :=
      .onEdge whole.linked edge
    have first' : e.header ≠ f.blocks.size := (small' e.header first).ne
    have outside : f.blocks.size ∉ l ∧ Before f₀ (· ∈ l) f.blocks.size :=
      ⟨fun inside => (small' _ inside).false, .inl divides.size⟩
    refine (moveAll_raises (D := fun t => t ∉ l ∧ Before f₀ (· ∈ l) t) (divides.trans split)
      (whole.onEdge live there) small around ?_ first ?_ ?_ outside).imp (fun r g raises => ?_) fun _ _ => trivial
    · intro w mem
      rw [home_onEdge]
      exact invariant w mem
    · rw [handlersOf_onEdge live, handlersOf_onEdge live, if_pos rfl, if_neg first', covered]
    · rw [size_onEdge]
      exact Nat.lt_succ_self _
    · refine ⟨split.trans raises.divides, raises.whole, fun w => ?_⟩
      have kept : (f.onEdge e.source e.header e.kind (f.scopeDepth e.source)).home w = f.home w :=
        home_onEdge
      rw [← kept]
      exact raises.moves w

end Hoist

/-- Whatever is moved ends under the handlers of a block that is on a cycle with the one that it was in. -/
lemma hoistAll_raises (fuel : Nat) (divides : Divides f₀ f) (whole : Whole f)
    (small : ∀ b ∈ members, b < f₀.blocks.size) : (hoistAll m fuel members cut).Meets f
      (fun _ g => Raises f₀ (· ∈ members) (Before f₀ (· ∈ members)) f g) fun _ => True := by
  induction fuel generalizing f members cut with
  | zero => exact meets_pure (.refl whole)
  | succ fuel ih =>
    rw [hoistAll]
    refine meets_get ?_
    -- The loops that are done are apart from the next one, so nothing comes back through it.
    let Done (before : List (List BlockId)) (_ : Report) (g : Func) : Prop :=
      Raises f₀ (· ∈ before.flatten) (Before f₀ (· ∈ before.flatten)) f g
    have small' : ∀ b ∈ members, b < f.blocks.size := fun b mem => (small b mem).trans_le divides.size
    have within {l} (loop : l ∈ loops f members cut) {b} (here : b ∈ l) : b ∈ members :=
      mem_of_mem_loops small' loop here
    refine (meets_foldlM (P := Done) (fun before l after report g split done => ?_) (.refl whole)).imp
      (fun r g done => ?_) fun _ (_ : True) => trivial
    · have loop : l ∈ loops f members cut := by rw [split]; simp
      have inside : ∀ b ∈ l, b < f₀.blocks.size := fun b here => small b (within loop here)
      have around : ∀ b ∈ l, ∀ t ∈ l, f₀.Leads b t := fun b here t there =>
        leads_of_mem_loops divides small loop here there
      have apart (t : BlockId) (enters : Before f₀ (· ∈ before.flatten) t) : t ∉ l := by
        intro there
        obtain new | ⟨b, here, only⟩ := enters
        · exact absurd (inside t there) (Nat.not_lt.2 new)
        · obtain ⟨b', here', next⟩ := exists_succ_of_mem_loops small' loop there
          have next' := divides.edges t (inside t there) b' (inside b' here') next
          rw [only, List.mem_singleton] at next'
          obtain ⟨l', mem, here⟩ := List.mem_flatten.1 here
          have disjoint : (loops f members cut).Pairwise List.Disjoint := pairwise_loops small'
          rw [split] at disjoint
          exact (List.pairwise_append.1 disjoint).2.2 l' mem l List.mem_cons_self here (next' ▸ here')
      have grow (b) (mem : b ∈ before.flatten ∨ b ∈ l) : b ∈ (before ++ [l]).flatten := by simpa using mem
      have all {h : Func} (next : Raises f₀ (· ∈ l) (Before f₀ (· ∈ l)) g h) :
          Raises f₀ (· ∈ (before ++ [l]).flatten) (Before f₀ (· ∈ (before ++ [l]).flatten)) f h := by
        refine done.trans next grow ?_ apart
        rintro t (old | new)
        · exact old.mono fun b mem => grow b (.inl mem)
        · exact new.mono fun b mem => grow b (.inr mem)
      have divides₁ : Divides f₀ g := divides.trans done.divides
      refine (hoist_raises divides₁ done.whole inside around).bind fun outer g₁ first => meets_get ?_
      split
      · exact meets_pure (all (first.mono (fun _ here => here) fun _ before => before.2))
      · refine (ih (divides₁.trans first.divides) first.whole inside).bind fun inner g₂ second => ?_
        refine meets_pure (all (first.trans second ?_ ?_ fun _ before => before.1))
        · rintro b (here | here)
          · exact here
          · exact here
        · rintro t (before | before)
          · exact before.2
          · exact before
    · have inside (b) (here : b ∈ (loops f members cut).flatten) : b ∈ members := by
        obtain ⟨l, loop, here⟩ := List.mem_flatten.1 here
        exact within loop here
      exact Raises.mono done inside fun t before => before.mono inside

/-- What a run hoists ends under the handlers of a block of its loop: one that it reaches and that reaches it.
Blocks that were there are covered as they were. -/
theorem handlersOf_of_run {ctx : Context} {r : Report} (linked : Linked (fun _ => False) f)
    (verified : f.verify = .ok ()) (ran : (pass.run ctx).run f = .ok r g) :
    (∀ b, (f.block? b).isSome → g.handlersOf b = f.handlersOf b) ∧
      ∀ v b t, f.home v = some b → g.home v = some t → t ≠ b →
        ∃ s, f.Leads b s ∧ f.Leads s b ∧ g.handlersOf t = f.handlersOf s := by
  have small : ∀ b ∈ f.blockIds, b < f.blocks.size := fun b mem => lt_size_of_block? (mem_blockIds.1 mem)
  have raises := (meets_get (hoistAll_raises _ (.refl f) (.of_verify linked verified) small)).of_ok ran
  refine ⟨fun b live => raises.divides.handlers b (lt_size_of_block? live), fun v b t was now other => ?_⟩
  obtain same | ⟨b', t', s, ⟨was', -⟩, ⟨now', -⟩, ⟨there, back⟩, -, handlers⟩ := raises.moves v
  · rw [was, now, Option.some.injEq] at same
    exact absurd same other
  · cases was.symm.trans was'
    cases now.symm.trans now'
    exact ⟨s, there, back, handlers⟩

/-- A loop that squares its second argument again and again, under a handler that covers nothing else. -/
def guardedSquare : MethodBody where
  params := 3
  locals := 4
  code := [0xd1, 0x12, 0x0a, 0x00, 0x00, 0xd2, 0xd2, 0xa2, 0xd7, 0x10, 0xf3, 0xff, 0xff, 0x29, 0x47, 0x47]
  exceptions := [⟨5, 9, 13, 0, 0⟩]

/-- What hoisting is asked to do it with. -/
def guardedContext : Context := ⟨guardedSquare.method, {}, .unknown, {}⟩

/-- The product goes from the block in the handler's range to one that is made before the loop. -/
lemma run_guardedSquare : ∃ f r g, guardedSquare.lift {} {} = .ok f ∧
    (pass.run guardedContext).run f = .ok r g ∧ (∀ c ∈ f.handlers, c.target < f.blocks.size) ∧
      (f.home 4 = some 3 ∧ f.handlersOf 3 = [0]) ∧ g.home 4 = some 7 ∧ g.handlersOf 7 = [] := by
  have facts : (guardedSquare.lift {} {}).toOption.any (fun f => (pass.run guardedContext).succeedsWith f fun _ g =>
      decide ((∀ c ∈ f.handlers, c.target < f.blocks.size) ∧ (f.home 4 = some 3 ∧ f.handlersOf 3 = [0]) ∧
        g.home 4 = some 7 ∧ g.handlersOf 7 = [])) = true := by
    decide +kernel
  obtain ⟨f, lifted, facts⟩ := exists_of_toOption facts
  obtain ⟨r, g, ran, facts⟩ := Edit.exists_of_succeedsWith facts
  exact ⟨f, r, g, lifted, ran, of_decide_eq_true facts⟩

/-- The new block before the loop is covered as the header is, by no handler. -/
theorem handlersOf_of_run_guardedSquare : ∃ f r g, guardedSquare.lift {} {} = .ok f ∧
    (pass.run guardedContext).run f = .ok r g ∧
      (∀ b, (f.block? b).isSome → g.handlersOf b = f.handlersOf b) ∧
      (∀ v b t, f.home v = some b → g.home v = some t → t ≠ b →
        ∃ s, f.Leads b s ∧ f.Leads s b ∧ g.handlersOf t = f.handlersOf s) ∧
      f.home 4 = some 3 ∧ g.home 4 = some 7 := by
  obtain ⟨f, r, g, lifted, ran, caught, ⟨was, -⟩, now, -⟩ := run_guardedSquare
  have intact := intact_of_lift lifted
  obtain ⟨covered, moved⟩ := handlersOf_of_run (Whole.linked_of_intact intact caught)
    (verify_of_intact intact) ran
  exact ⟨f, r, g, lifted, ran, covered, moved, was, now⟩

/-- The handlers around a node that is moved need not be those that were around it. -/
theorem not_keepsHandlers : ¬∀ (f g : Func) (ctx : Context) (r : Report), Linked (fun _ => False) f →
    f.verify = .ok () → (pass.run ctx).run f = .ok r g → ∀ v b t, f.home v = some b → g.home v = some t →
      t ≠ b → g.handlersOf t = f.handlersOf b := by
  intro all
  obtain ⟨f, r, g, lifted, ran, caught, ⟨was, inside⟩, now, outside⟩ := run_guardedSquare
  have intact := intact_of_lift lifted
  have same := all f g guardedContext r (Whole.linked_of_intact intact caught) (verify_of_intact intact) ran
    4 3 7 was now (by decide)
  rw [inside, outside] at same
  cases same

end Avm.Opt.Hoisting
