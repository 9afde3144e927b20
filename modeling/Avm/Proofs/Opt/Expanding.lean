import Avm.Proofs.Ir.Halving
import Avm.Proofs.Lift.Growing
import Avm.Proofs.Opt.Transplant

/-!
# Callees in place of calls

Inlining succeeds on every graph in order and leaves it in order.  When the nodes of the callee are in
place, its edges are due (`Transplant`); each block of the callee gets its handlers, which lead to blocks
without phis, and then its end, by which the edges that were due are there.  Blocks at which the callee
returns are left open until the second half of the block of the call has its phi.

The main statement is `pass_keeps`.
-/

namespace Avm.Opt.Inlining

open Avm.Ir Avm.Ir.Func Avm.Ir.Edit

variable {f f' callee : Func} {p : Placement} {b n t tail : BlockId}
  {due : BlockId → List (BlockId × EdgeKind)}

section Places

/-- Blocks are added: old blocks stay, and the new ones are empty. -/
structure Added (f : Func) (bs : List BlockId) (ps : List (BlockId × BlockId)) (f' : Func) :
    Prop where
  intact : f'.Intact
  phis : ∀ t, f'.phis t = f.phis t
  handlersOf : ∀ t, f'.handlersOf t = f.handlersOf t
  terminator : ∀ t, f'.terminator t = f.terminator t
  succs : ∀ t, f'.succs t = f.succs t
  catches : f'.handlers = f.handlers
  kept : ∀ t, (f.block? t).isSome → (f'.block? t).isSome
  sources : ps.map (·.1) = bs
  images : (ps.map (·.2)).Nodup
  new : ∀ e ∈ ps, f.blocks.size ≤ e.2 ∧ (f'.block? e.2).isSome

lemma addBlocks_yields (bs : List BlockId) (h : f.Intact) :
    (addBlocks bs).Yields f fun ps f' => Added f bs ps f' := by
  induction bs generalizing f with
  | nil =>
    exact yields_pure ⟨h, fun _ => rfl, fun _ => rfl, fun _ => rfl, fun _ => rfl, rfl, fun _ live => live,
      rfl, List.nodup_nil, fun _ none => by cases none⟩
  | cons b bs ih =>
    have same : (f.pushBlock {}).succs = f.succs := funext fun _ => succs_pushBlock
    have next : (f.pushBlock {}).Intact := by
      rw [Intact, same]
      exact Sound.pushBlock h
    rw [addBlocks]
    refine yields_bind (addBlock_eq_ok.2 ⟨rfl, rfl⟩) ((ih next).bind fun ps f' added => yields_pure ?_)
    have above {e : BlockId × BlockId} (mem : e ∈ ps) : f.blocks.size < e.2 := by
      have le := (added.new e mem).1
      rw [size_pushBlock] at le
      exact le
    refine ⟨added.intact, fun t => ?_, fun t => ?_, fun t => ?_, fun t => ?_, added.catches,
      fun t live => added.kept t ?_, ?_, ?_, fun e mem => ?_⟩
    · rw [added.phis, phis_pushBlock]
    · rw [added.handlersOf, handlersOf_pushBlock]
    · rw [added.terminator, terminator_pushBlock]
    · rw [added.succs, succs_pushBlock]
    · rw [isSome_pushBlock, live, Bool.or_true]
    · rw [List.map_cons, added.sources]
    · rw [List.map_cons, List.nodup_cons]
      refine ⟨fun mem => ?_, added.images⟩
      obtain ⟨e, there, eq⟩ := List.mem_map.1 mem
      exact Nat.ne_of_gt (above there) eq
    · obtain rfl | old := List.mem_cons.1 mem
      · exact ⟨Nat.le_refl _, added.kept _ (by rw [isSome_pushBlock, decide_eq_true rfl, Bool.true_or])⟩
      · exact ⟨Nat.le_of_lt (above old), (added.new e old).2⟩

/-- The blocks of a callee other than its entry and its exit. -/
abbrev innerBlocks (callee : Func) : List BlockId :=
  callee.blockIds.filter fun b => b != Func.entry && b != Func.exit

variable {ps : List (BlockId × BlockId)} {head : BlockId}

lemma plan_of_added (intact : callee.Intact) (added : Added f (innerBlocks callee) ps f')
    (live : (f.block? head).isSome) (blocks : p.blocks = (Func.entry, head) :: ps)
    (first : p.head = head) : Plan callee p where
  sources := by
    rw [blocks, List.map_cons, added.sources, List.nodup_cons]
    refine ⟨fun mem => ?_, callee.nodup_blockIds.filter _⟩
    simpa using (List.mem_filter.1 mem).2
  images := by
    rw [blocks, List.map_cons, List.nodup_cons]
    refine ⟨fun mem => ?_, added.images⟩
    obtain ⟨e, there, eq⟩ := List.mem_map.1 mem
    have below : head < f.blocks.size := lt_size_of_block? live
    exact Nat.ne_of_gt (Nat.lt_of_lt_of_le below (added.new e there).1) eq
  first := by
    rw [blocks, first]
    exact List.mem_cons_self
  mem b := by
    have inner : (∃ n, (b, n) ∈ ps) ↔ b ∈ innerBlocks callee := by
      rw [← added.sources, List.mem_map]
      exact ⟨fun ⟨n, mem⟩ => ⟨_, mem, rfl⟩, fun ⟨e, mem, eq⟩ => ⟨e.2, eq ▸ mem⟩⟩
    rw [List.mem_filter, mem_blockIds, Bool.and_eq_true, bne_iff_ne, bne_iff_ne] at inner
    simp only [blocks, List.mem_cons, Prod.mk.injEq, exists_or, exists_and_left, exists_eq, and_true,
      inner]
    constructor
    · rintro (rfl | ⟨live, -, inside⟩)
      · exact ⟨intact.entry.1, by decide⟩
      · exact ⟨live, inside⟩
    · rintro ⟨live, inside⟩
      by_cases entry : b = Func.entry
      · exact .inl entry
      · exact .inr ⟨live, entry, inside⟩

lemma room_of_added (h : f.Intact) (added : Added f (innerBlocks callee) ps f')
    (live : (f.block? head).isSome) (inner : head ≠ Func.entry ∧ head ≠ Func.exit)
    (leads : ∀ x ∈ f.succs head, f.phis x.1 = []) (blocks : p.blocks = (Func.entry, head) :: ps)
    (first : p.head = head) : Room p f' := by
  have gone {e : BlockId × BlockId} (mem : e ∈ ps) : f.block? e.2 = none := by
    cases found : f.block? e.2 with
    | none => rfl
    | some x =>
      have below : e.2 < f.blocks.size := lt_size_of_block? (by rw [found]; rfl)
      exact absurd below (Nat.not_lt.2 (added.new e mem).1)
  have cases_ {e : BlockId × BlockId} (mem : e ∈ p.blocks) : e.2 = head ∨ e ∈ ps := by
    rw [blocks] at mem
    obtain rfl | mem := List.mem_cons.1 mem
    · exact .inl rfl
    · exact .inr mem
  refine ⟨added.intact, fun e mem => ?_, fun e mem => ?_, fun e mem other => ?_, fun e mem other => ?_,
    fun e mem x edge => ?_⟩
  · obtain same | new := cases_ mem
    · rw [same]
      exact added.kept _ live
    · exact (added.new e new).2
  · obtain same | new := cases_ mem
    · rw [same]
      exact inner
    · refine ⟨fun same => ?_, fun same => ?_⟩
      · have there := h.entry.1
        rw [← same, gone new] at there
        cases there
      · have there := h.exit.1
        rw [← same, gone new] at there
        cases there
  · obtain same | new := cases_ mem
    · exact absurd (same.trans first.symm) other
    · rw [added.phis, (parts_of_isNone (gone new)).1]
      refine ⟨rfl, fun s k edge => ?_⟩
      rw [added.succs] at edge
      have there := h.live s _ edge
      rw [gone new] at there
      cases there
  · obtain same | new := cases_ mem
    · exact absurd (same.trans first.symm) other
    · rw [added.terminator, (parts_of_isNone (gone new)).2.2.2.1]
  · rw [added.succs] at edge
    rw [added.phis]
    obtain same | new := cases_ mem
    · rw [same] at edge
      exact leads x edge
    · rw [(parts_of_isNone (gone new)).2.2.2.2.1] at edge
      cases edge

end Places

/-- The caller can take the edges of the callee: they lead to blocks that are there, and to phis only
where the callee's do. -/
def Hosts (callee : Func) (p : Placement) (tail : BlockId) (f : Func) : Prop :=
  ∀ x, (callee.block? x).isSome → x ≠ Func.entry → (f.block? (p.target x)).isSome ∧
    p.target x ≠ Func.entry ∧ p.target x ≠ tail ∧ (callee.phis x = [] → f.phis (p.target x) = [])

lemma Hosts.of_same (h : Hosts callee p tail f)
    (isSome : ∀ t, (f'.block? t).isSome = (f.block? t).isSome) (phis : ∀ t, f'.phis t = f.phis t) :
    Hosts callee p tail f' := by
  intro x live inner
  rw [isSome, phis]
  exact h x live inner

lemma hosts_renameAll {values : List (ValueId × ValueId)} {f₀ : Func} (plan : Plan callee p)
    (room : Room p f₀) (copied : Copied callee p.blocks f₀ values f)
    (apart : ∀ e ∈ p.blocks, e.2 ≠ tail) (out : tail ≠ Func.exit) :
    Hosts callee p tail (renameAll p values f) := by
  intro x live inner
  have flow := copied.flow.trans (same_renameAll (p := p) (f := f) copied.nodup).2
  rw [flow.isSome]
  obtain ⟨-, exit⟩ | ⟨place, new⟩ := plan.target_cases live inner
  · rw [exit]
    refine ⟨room.intact.exit.1, by decide, out.symm, fun _ => ?_⟩
    refine copied.phis_renameAll room.intact.exit.2.1 fun b mem => ?_
    exact absurd rfl (room.inner _ mem).2
  · refine ⟨room.live _ place, (room.inner _ place).1, apart _ place, fun none => ?_⟩
    refine copied.phis_renameAll (room.fresh _ place new).1 fun b mem => ?_
    rw [plan.inj mem place, none]

section Covering

/-- A handler leads to a block without phis, other than the entry and the second half of the block of
the call. -/
def Leads (tail : BlockId) (f : Func) (k : Nat) : Prop :=
  ∃ c, f.handlers[k]? = some c ∧ (f.block? c.target).isSome ∧ c.target ≠ Func.entry ∧
    c.target ≠ tail ∧ f.phis c.target = []

lemma Leads.of_same {k : Nat} (h : Leads tail f k) (catches : f'.handlers = f.handlers)
    (isSome : ∀ t, (f'.block? t).isSome = (f.block? t).isSome) (phis : ∀ t, f'.phis t = f.phis t) :
    Leads tail f' k := by
  obtain ⟨c, found, live, inner, apart, none⟩ := h
  exact ⟨c, by rw [catches, found], by rw [isSome, live], inner, apart, by rw [phis, none]⟩

lemma cover_block {hs : List Nat} (sound : Sound (fun _ => False) due f) (live : (f.block? n).isSome)
    (inner : n ≠ Func.entry ∧ n ≠ Func.exit) (open_ : f.terminator n = .none)
    (leads : ∀ k ∈ hs, Leads tail f k) : Sound (fun _ => False) due (f.reend n .none hs) := by
  have caught {e : BlockId × EdgeKind} (mem : e ∈ edgesFrom f.handlers .none hs) :
      (f.block? e.1).isSome ∧ f.phis e.1 = [] := by
    obtain goes | leaves | ⟨k, covers, c, found, rfl⟩ := mem_edgesFrom.1 mem
    · cases goes
    · cases leaves
    · obtain ⟨c', found', there, -, -, none⟩ := leads k covers
      rw [found, Option.some.injEq] at found'
      rw [found']
      exact ⟨there, none⟩
  refine (sound.reend_of_forall live inner.2 (fun same => absurd same inner.1) (fun k mem => ?_)
    (fun e none => by cases none) (fun e mem => (caught mem).1) fun e mem => ?_).mono
      (fun c none => none.1) fun _ _ _ _ => rfl
  · obtain ⟨c, found, -, inside, -, none⟩ := leads k mem
    exact ⟨c, found, inside, none⟩
  · obtain old | new := mem
    · rw [sound.wired n id, edgesOf_eq, open_] at old
      exact (sound.caught_of_mem id old).2
    · exact (caught new).2

/-- A block that has no end yet can be given handlers. -/
structure Coverable (tail : BlockId) (hs : List Nat) (f : Func) (n : BlockId) : Prop where
  live : (f.block? n).isSome
  inner : n ≠ Func.entry ∧ n ≠ Func.exit
  unended : f.terminator n = .none
  leads : ∀ k ∈ hs, Leads tail f k

lemma Coverable.of_same {hs : List Nat} (h : Coverable tail hs f n) (nodes : SameNodes f f')
    (ends : ∀ t, f'.terminator t = f.terminator t) : Coverable tail hs f' n where
  live := by rw [nodes.isSome, h.live]
  inner := h.inner
  unended := by rw [ends, h.unended]
  leads k mem := (h.leads k mem).of_same nodes.catches nodes.isSome nodes.phis

/-- Copied blocks have got their handlers, and nothing but handlers leads elsewhere. -/
structure Covered (head tail : BlockId) (due : BlockId → List (BlockId × EdgeKind))
    (l : List (BlockId × BlockId)) (f f' : Func) : Prop where
  sound : Sound (fun _ => False) due f'
  nodes : SameNodes f f'
  ends : ∀ t, f'.terminator t = f.terminator t
  apart : ¬f'.Caught tail
  away : ∀ s k, (tail, k) ∈ f'.succs s → s = head
  others : ∀ c, c ∉ l.map (·.2) → f'.succs c = f.succs c

variable {head : BlockId} {first depth : Nat} {outer : List Nat}

lemma Covered.cons {e : BlockId × BlockId} {l : List (BlockId × BlockId)} {f₁ : Func}
    (step : Covered head tail due [e] f f₁) (rest : Covered head tail due l f₁ f') :
    Covered head tail due (e :: l) f f' where
  sound := rest.sound
  nodes := step.nodes.trans rest.nodes
  ends t := (rest.ends t).trans (step.ends t)
  apart := rest.apart
  away := rest.away
  others c absent := by
    rw [List.map_cons, List.mem_cons, not_or] at absent
    rw [rest.others c absent.2, step.others c (by simp [absent.1])]

lemma covered_block (b : BlockId) (depth : Nat) {hs : List Nat} (sound : Sound (fun _ => False) due f)
    (place : Coverable tail hs f n) (apart : ¬f.Caught tail)
    (away : ∀ s k, (tail, k) ∈ f.succs s → s = head) :
    ∃ f', (setHandlers n hs).run (f.modifyBlock n fun x => { x with scopeDepth := depth }) = .ok () f' ∧
      Covered head tail due [(b, n)] f f' := by
  let g := f.modifyBlock n fun x => { x with scopeDepth := depth }
  have alike : Alike f g := alike_scopeDepth fun _ => depth
  have ends (t) : g.terminator t = f.terminator t := by
    rw [terminator_modifyBlock]
    exact fun _ => rfl
  have ready : Coverable tail hs g n := place.of_same alike.toSameNodes ends
  -- No handler of the block is the second half of the block of the call.
  have other {k : Nat} {c : Catch} (mem : k ∈ hs) (found : f.handlers[k]? = some c) : c.target ≠ tail := by
    obtain ⟨c', found', -, -, other, -⟩ := place.leads k mem
    obtain rfl := Option.some.inj (found.symm.trans found')
    exact other
  refine ⟨g.reend n .none hs, setHandlers_eq_ok.2 ⟨fun k mem => ?_, ready.live, by rw [ready.unended]⟩,
    cover_block (sound.alike alike) ready.live ready.inner ready.unended ready.leads,
    alike.toSameNodes.trans sameNodes_reend, fun t => ?_, ?_, fun s k edge => ?_, fun c absent => ?_⟩
  · obtain ⟨c, found, -⟩ := ready.leads k mem
    exact (List.getElem?_eq_some_iff.1 found).1
  · rw [terminator_reend ready.live]
    split
    · rename_i here
      rw [here, place.unended]
    · exact ends t
  · rintro ⟨s, k, mem, c, found, rfl⟩
    rw [handlersOf_reend ready.live, alike.handlersOf] at mem
    rw [sameNodes_reend.catches, alike.catches] at found
    split at mem
    · exact other mem found rfl
    · exact apart ⟨s, k, mem, c, found, rfl⟩
  · rw [succs_reend ready.live] at edge
    split at edge
    · obtain goes | leaves | ⟨i, covers, c, found, eq⟩ := mem_edgesFrom.1 edge
      · cases goes
      · cases leaves
      · rw [alike.catches] at found
        exact absurd (congrArg Prod.fst eq).symm (other covers found)
    · rw [alike.succs] at edge
      exact away s k edge
  · rw [succs_reend ready.live, if_neg fun same => absent (by simp [same]), alike.succs]

lemma coverBlocks_yields (l : List (BlockId × BlockId)) (sound : Sound (fun _ => False) due f)
    (places : ∀ e ∈ l, e.2 ≠ head →
      Coverable tail ((callee.handlersOf e.1).map (first + ·) ++ outer) f e.2)
    (apart : ¬f.Caught tail) (away : ∀ s k, (tail, k) ∈ f.succs s → s = head) :
    (coverBlocks callee head first depth outer l).Yields f fun _ f' =>
      Covered head tail due l f f' := by
  induction l generalizing f with
  | nil => exact yields_pure ⟨sound, SameNodes.refl f, fun _ => rfl, apart, away, fun _ _ => rfl⟩
  | cons e l ih =>
    obtain ⟨b, n⟩ := e
    rw [coverBlocks]
    by_cases same : n = head
    · rw [if_neg (by simp [same])]
      refine (ih sound (fun e mem => places e (List.mem_cons_of_mem _ mem)) apart away).imp ?_
      intro _ f' done
      exact { done with others := fun c absent => done.others c fun mem => absent (.tail n mem) }
    · rw [if_pos (bne_iff_ne.2 same)]
      have place := places (b, n) List.mem_cons_self same
      obtain ⟨f₁, run, step⟩ :=
        covered_block b (callee.scopeDepth b + depth) sound place apart away
      refine yields_modifyBlock place.live (yields_bind run ?_)
      refine (ih step.sound (fun e mem other => ?_) step.apart step.away).imp fun _ _ rest => step.cons rest
      exact (places e (List.mem_cons_of_mem _ mem) other).of_same step.nodes step.ends

end Covering

section Ending

/-- The edges that are due from a block are those that are there, where there are phis. -/
def Settled (due : BlockId → List (BlockId × EdgeKind)) (f : Func) (c : BlockId) : Prop :=
  ∀ t, f.phis t ≠ [] → ∀ kind, (due c).count (t, kind) = (f.succs c).count (t, kind)

/-- The place of a block of the callee that has no end of its own yet. -/
structure Pending (callee : Func) (p : Placement) (due : BlockId → List (BlockId × EdgeKind))
    (f : Func) (e : BlockId × BlockId) : Prop where
  live : (f.block? e.2).isSome
  inner : e.2 ≠ Func.entry ∧ e.2 ≠ Func.exit
  original : (callee.block? e.1).isSome
  unended : e.1 ≠ Func.entry → f.terminator e.2 = .none
  asked : due e.2 = (callee.succs e.1).map fun s => (p.target s.1, s.2)

/-- Blocks of the callee get their ends: those of the list are still to come. -/
structure Ending (callee : Func) (p : Placement) (tail : BlockId)
    (due : BlockId → List (BlockId × EdgeKind)) (l : List (BlockId × BlockId)) (f : Func) : Prop where
  /-- The graph is in order, but for what is due. -/
  sound : Sound (fun _ => False) due f
  /-- It can take the edges of the callee. -/
  hosts : Hosts callee p tail f
  /-- The second half of the block of the call handles no exceptions. -/
  apart : ¬f.Caught tail
  /-- Every block is ended once. -/
  nodup : (l.map (·.2)).Nodup
  /-- The blocks to come. -/
  pending : ∀ e ∈ l, Pending callee p due f e
  /-- From other blocks nothing more is due. -/
  settled : ∀ c, c ∉ l.map (·.2) → Settled due f c
  /-- Only blocks to come lead to the second half. -/
  away : ∀ s k, (tail, k) ∈ f.succs s → s ∈ l.map (·.2)

namespace Ending

variable {l : List (BlockId × BlockId)}

lemma intact (h : Ending callee p tail due [] f) : f.Intact :=
  h.sound.mono (fun _ none => none) fun t phi c kind => h.settled c List.not_mem_nil t phi kind

lemma mem_due (h : Ending callee p tail due ((b, n) :: l) f) (intact : callee.Intact)
    {e : BlockId × EdgeKind} (mem : e ∈ due n) :
    e ∈ (p.terminator (callee.terminator b)).targets ∨ f.phis e.1 = [] := by
  rw [(h.pending _ List.mem_cons_self).asked] at mem
  obtain ⟨⟨x, k⟩, edge, rfl⟩ := List.mem_map.1 mem
  have host := h.hosts x (intact.live _ _ edge) (intact.ne_entry edge)
  rw [intact.wired b id, edgesOf_eq] at edge
  obtain goes | ⟨-, none⟩ := Sound.mem_targets_or intact id edge
  · rw [Placement.targets_terminator]
    exact .inl (List.mem_map.2 ⟨_, goes, rfl⟩)
  · exact .inr (host.2.2.2 none)

lemma mem_targets (h : Ending callee p tail due ((b, n) :: l) f) (intact : callee.Intact)
    {e : BlockId × EdgeKind} (mem : e ∈ (p.terminator (callee.terminator b)).targets) :
    e ∈ due n ∧ (f.block? e.1).isSome ∧ e.1 ≠ Func.entry ∧ e.1 ≠ tail := by
  rw [Placement.targets_terminator] at mem
  obtain ⟨⟨x, k⟩, goes, rfl⟩ := List.mem_map.1 mem
  have edge : (x, k) ∈ callee.succs b := intact.mem_succs_of_mem_targets goes
  obtain ⟨live, inner, other, -⟩ := h.hosts x (intact.live _ _ edge) (intact.ne_entry edge)
  refine ⟨?_, live, inner, other⟩
  rw [(h.pending _ List.mem_cons_self).asked]
  exact List.mem_map.2 ⟨_, edge, rfl⟩

/-- A block at which the callee returns is left open, since neither it nor the callee leads to phis. -/
lemma returns (h : Ending callee p tail due ((b, n) :: l) f) (intact : callee.Intact)
    (none : (callee.terminator b).targets = []) (sound : Sound (fun _ => False) due f')
    (flow : SameFlow f f') (phis : ∀ t, f'.phis t = f.phis t) : Ending callee p tail due l f' := by
  have inner : b ≠ Func.entry := by
    rintro rfl
    obtain ⟨t, goes⟩ := intact.start
    rw [goes] at none
    cases none
  have here := h.pending _ List.mem_cons_self
  have noTargets : (p.terminator (callee.terminator b)).targets = [] := by
    rw [Placement.targets_terminator, none, List.map_nil]
  have left {e : BlockId × EdgeKind} (mem : e ∈ f.succs n) :
      e ∈ edgesFrom f.handlers .none (f.handlersOf n) := by
    rwa [h.sound.wired n id, edgesOf_eq, here.unended inner] at mem
  have bare : Settled due f n := by
    intro t phi kind
    rw [List.count_eq_zero.2, List.count_eq_zero.2]
    · exact fun mem => phi (h.sound.caught_of_mem id (left mem)).2
    · intro mem
      obtain goes | none := h.mem_due intact mem
      · rw [noTargets] at goes
        cases goes
      · exact phi none
  refine ⟨sound, h.hosts.of_same flow.isSome phis, by rw [flow.caught]; exact h.apart,
    (List.nodup_cons.1 h.nodup).2, fun e mem => ?_, fun c absent => ?_, fun s k edge => ?_⟩
  · have old := h.pending e (List.mem_cons_of_mem _ mem)
    refine ⟨by rw [flow.isSome]; exact old.live, old.inner, old.original, fun inner => ?_, old.asked⟩
    obtain ⟨g, operands⟩ := flow.terminator e.2
    rw [operands, old.unended inner]
    rfl
  · intro t phi kind
    rw [phis] at phi
    rw [flow.succs]
    by_cases same : c = n
    · rw [same]
      exact bare t phi kind
    · refine h.settled c (fun mem => ?_) t phi kind
      obtain same' | mem := List.mem_cons.1 mem
      · exact same same'
      · exact absent mem
  · rw [flow.succs] at edge
    obtain rfl | mem := List.mem_cons.1 (h.away s k edge)
    · obtain goes | leaves | ⟨i, covers, c, found, eq⟩ := mem_edgesFrom.1 (left edge)
      · cases goes
      · cases leaves
      · exact absurd ⟨s, i, covers, c, found, (Prod.mk.inj eq).1.symm⟩ h.apart
    · exact mem

lemma goes (h : Ending callee p tail due ((b, n) :: l) f) (intact : callee.Intact)
    (out : tail ≠ Func.exit) :
    Ending callee p tail (Function.update due n
        (edgesFrom f.handlers (p.terminator (callee.terminator b)) (f.handlersOf n))) l
      (f.reend n (p.terminator (callee.terminator b)) (f.handlersOf n)) := by
  have here := h.pending _ List.mem_cons_self
  have live : (f.block? n).isSome := here.live
  obtain ⟨once, nodup⟩ := List.nodup_cons.1 h.nodup
  have leads {e : BlockId × EdgeKind} (mem : e ∈ edgesFrom f.handlers
      (p.terminator (callee.terminator b)) (f.handlersOf n)) :
      e ∈ (p.terminator (callee.terminator b)).targets ∨ (f.block? e.1).isSome ∧ f.phis e.1 = [] :=
    h.sound.mem_targets_or id mem
  have ended := h.sound.reend live here.inner.2 (fun same => absurd same here.inner.1)
    (h.sound.covered n) (fun e mem => (h.mem_targets intact mem).2.2.1) (fun e mem => ?_)
    (fun t phi new => ?_) fun t phi old => ?_
  rotate_left
  · obtain goes | ⟨there, -⟩ := leads mem
    · exact (h.mem_targets intact goes).2.1
    · exact there
  · obtain ⟨k, mem⟩ := new
    obtain goes | ⟨-, none⟩ := leads mem
    · exact ⟨k, (h.mem_targets intact goes).1⟩
    · exact absurd none phi
  · obtain ⟨k, mem⟩ := old
    obtain goes | none := h.mem_due intact mem
    · exact ⟨k, .inr (mem_edgesFrom.2 (.inl goes))⟩
    · exact absurd none phi
  have other {e : BlockId × BlockId} (mem : e ∈ l) : e.2 ≠ n := by
    intro same
    exact once (List.mem_map.2 ⟨e, mem, same⟩)
  refine ⟨ended.mono (fun c none => none.1) fun _ _ _ _ => rfl,
    h.hosts.of_same sameNodes_reend.isSome sameNodes_reend.phis, ?_, nodup, fun e mem => ?_,
    fun c absent => ?_, fun s k edge => ?_⟩
  · rintro ⟨s, k, mem, c, found, same⟩
    rw [handlersOf_reend live] at mem
    rw [sameNodes_reend.catches] at found
    split at mem
    · exact h.apart ⟨n, k, mem, c, found, same⟩
    · exact h.apart ⟨s, k, mem, c, found, same⟩
  · have old := h.pending e (List.mem_cons_of_mem _ mem)
    refine ⟨by rw [sameNodes_reend.isSome]; exact old.live, old.inner, old.original, fun inner => ?_, ?_⟩
    · rw [terminator_reend live, if_neg (other mem)]
      exact old.unended inner
    · rw [Function.update_of_ne (other mem), old.asked]
  · intro t phi kind
    rw [sameNodes_reend.phis] at phi
    rw [succs_reend live, Function.update_apply]
    split
    · rfl
    · rename_i same
      refine h.settled c (fun mem => ?_) t phi kind
      obtain same' | mem := List.mem_cons.1 mem
      · exact same same'
      · exact absent mem
  · rw [succs_reend live] at edge
    split at edge
    · obtain goes | leaves | ⟨i, covers, c, found, eq⟩ := mem_edgesFrom.1 edge
      · exact absurd rfl (h.mem_targets intact goes).2.2.2
      · exact absurd (Terminator.eq_exit_of_mem_leaving leaves) out
      · exact absurd ⟨n, i, covers, c, found, (Prod.mk.inj eq).1.symm⟩ h.apart
    · rename_i same
      obtain same' | mem := List.mem_cons.1 (h.away s k edge)
      · exact absurd same' same
      · exact mem

end Ending

lemma targets_of_leave {term : Terminator} {value : Option Value} (h : p.terminator term = .leave value) :
    term.targets = [] := by
  have same := Placement.targets_terminator (p := p) term
  rw [h] at same
  exact List.map_eq_nil_iff.1 same.symm

/-- When all blocks of the callee have their ends the graph is in order, and nothing leads to the second
half of the block of the call. -/
lemma endBlocks_yields {depth : Nat} (l : List (BlockId × BlockId)) (h : Ending callee p tail due l f)
    (intact : callee.Intact) (out : tail ≠ Func.exit) :
    (endBlocks callee p depth l).Yields f fun results f' => f'.Intact ∧
      (∀ s k, (tail, k) ∉ f'.succs s) ∧ (∀ t, (f'.block? t).isSome = (f.block? t).isSome) ∧
        (∀ t, f'.phis t = f.phis t) ∧ (results.map (·.1)).Sublist (l.map (·.2)) := by
  induction l generalizing f due with
  | nil =>
    exact yields_pure ⟨h.intact, fun s k edge => by simpa using h.away s k edge, fun _ => rfl,
      fun _ => rfl, List.Sublist.refl _⟩
  | cons e l ih =>
    obtain ⟨b, n⟩ := e
    have here := h.pending _ List.mem_cons_self
    obtain ⟨x, found⟩ := Option.isSome_iff_exists.1 here.original
    have term : callee.terminator b = x.terminator := terminator_of_block? found
    rw [endBlocks, found]
    dsimp only [Option.map_some]
    split
    · rename_i absent
      cases absent
    · rename_i value eq
      have none : (callee.terminator b).targets = [] := by
        rw [term]
        exact targets_of_leave (Option.some.inj eq)
      refine (TailCall.popScopes_yields _ here.live).bind fun _ f₁ pads => ?_
      have live₁ : (f₁.block? n).isSome := by
        rw [pads.sameFlow.isSome]
        exact here.live
      refine yields_modifyBlock live₁ ?_
      have alike : Alike f₁ (f₁.modifyBlock n fun t => { t with scopeDepth := depth }) :=
        alike_scopeDepth fun _ => depth
      have next := h.returns intact none ((pads.sound here.live here.inner h.sound).alike alike)
        (pads.sameFlow.trans alike.toSameFlow) fun t => (alike.phis t).trans (pads.phis t)
      refine (ih next).bind ?_
      rintro results f' ⟨intact', away, isSome, phis, sub⟩
      refine yields_pure ⟨intact', away, fun t => ?_, fun t => ?_, sub.cons_cons n⟩
      · rw [isSome, alike.isSome, pads.sameFlow.isSome]
      · rw [phis, alike.phis, pads.phis]
    · rename_i eq
      have same := Option.some.inj eq
      rw [← term] at same
      subst same
      refine yields_bind (a := ()) (setTerminator_eq_ok.2 ⟨fun e mem => ?_, here.live, rfl⟩) ?_
      · exact (h.mem_targets intact mem).2.1
      refine (ih (h.goes intact out)).imp ?_
      rintro results f' ⟨intact', away, isSome, phis, sub⟩
      refine ⟨intact', away, fun t => ?_, fun t => ?_, sub.cons n⟩
      · rw [isSome, sameNodes_reend.isSome]
      · rw [phis, sameNodes_reend.phis]

end Ending

section Joining

/-- The edges that are due when blocks are about to jump to a block. -/
def joining (tail : BlockId) (rs : List BlockId) (f : Func) (c : BlockId) : List (BlockId × EdgeKind) :=
  if c ∈ rs then f.succs c ++ [(tail, .jump)] else f.succs c

lemma count_joining {rs : List BlockId} {c : BlockId} {kind : EdgeKind} (other : t ≠ tail) :
    (joining tail rs f c).count (t, kind) = (f.succs c).count (t, kind) := by
  have apart : (t, kind) ∉ [(tail, EdgeKind.jump)] := by simp [other]
  rw [joining]
  split
  · rw [List.count_append, List.count_eq_zero.2 apart, Nat.add_zero]
  · rfl

lemma mergeResults_yields {call : ValueId} {results : List (BlockId × Value)} (h : f.Intact)
    (live : (f.block? tail).isSome) (inner : tail ≠ Func.entry ∧ tail ≠ Func.exit)
    (none : f.phis tail = []) (away : ∀ s k, (tail, k) ∉ f.succs s)
    (nodup : (results.map (·.1)).Nodup) :
    (mergeResults call tail results).Yields f fun _ f' =>
      Sound (fun _ => False) (joining tail (results.map (·.1)) f) f' ∧ SameFlow f f' := by
  rw [mergeResults]
  refine yields_get ?_
  split
  · let inputs : List PhiInput := results.map fun r => { value := r.2, source := r.1, kind := .jump }
    let g := f.putNode tail (f.place tail (.phi inputs)) (.phi inputs)
    have shaped : g.Shaped := h.toShaped.putNode live fits_place inner fun _ => h.not_caught away
    have sound : Sound (fun _ => False) (joining tail (results.map (·.1)) f) g := by
      refine h.sameFlow sameFlow_putNode shaped fun t w mem s kind => ?_
      obtain ⟨rfl, -, rfl⟩ | old := (mem_phis_putNode live fits_place).1 mem
      · have keys : g.keys f.nodes.size = (results.map (·.1)).map fun b => (b, EdgeKind.jump) := by
          rw [keys_eq, node?_putNode, if_pos rfl]
          simp [NodeKind.keys, NodeKind.inputs?, inputs, Function.comp_def]
        have gone : (f.succs s).count (t, kind) = 0 := List.count_eq_zero.2 (away s kind)
        rw [keys, joining]
        by_cases jump : kind = .jump
        · subst jump
          rw [count_map_of_forall (x := s) fun b _ => by simp, nodup.count]
          split
          · rw [List.count_append, gone, List.count_singleton_self, Nat.zero_add]
          · exact gone.symm
        · have apart : (s, kind) ∉ (results.map (·.1)).map fun b => (b, EdgeKind.jump) := by
            intro mem
            obtain ⟨b, -, eq⟩ := List.mem_map.1 mem
            exact jump (Prod.mk.inj eq).2.symm
          have apart' : (t, kind) ∉ [(t, EdgeKind.jump)] := by simp [jump]
          rw [List.count_eq_zero.2 apart]
          split
          · rw [List.count_append, gone, List.count_eq_zero.2 apart']
          · exact gone.symm
      · have other : t ≠ tail := by
          rintro rfl
          rw [none] at old
          cases old
        rw [keys_putNode_of_mem h.toListed old, h.synced t w old, count_joining other]
    refine yields_bind (appendNode_eq_ok.2 ⟨live, rfl, rfl⟩) ⟨⟨⟩, _, modify_eq_ok.2 rfl, ?_, ?_⟩
    · exact sound.alike (alike_replaceUses call _)
    · exact (sameFlow_putNode (f := f) (b := tail)).trans (alike_replaceUses call _).toSameFlow
  · refine yields_pure ⟨h.mono (fun _ none => none) fun t phi s kind => ?_, SameFlow.refl f⟩
    rw [count_joining]
    rintro rfl
    exact phi none

lemma jumpAll_yields (rs : List BlockId) (sound : Sound (fun _ => False) (joining tail rs f) f)
    (live : (f.block? tail).isSome) (inner : tail ≠ Func.entry)
    (places : ∀ r ∈ rs, (f.block? r).isSome ∧ r ≠ Func.entry ∧ r ≠ Func.exit) (nodup : rs.Nodup) :
    (jumpAll tail rs).Yields f fun _ f' => f'.Intact := by
  induction rs generalizing f with
  | nil => exact yields_pure (sound.mono (fun _ none => none) fun _ _ _ _ => rfl)
  | cons r rs ih =>
    obtain ⟨here, inside⟩ := places r List.mem_cons_self
    obtain ⟨once, nodup⟩ := List.nodup_cons.1 nodup
    have due : joining tail (r :: rs) f r = f.succs r ++ [(tail, .jump)] := by
      rw [joining, if_pos List.mem_cons_self]
    have goes {e : BlockId × EdgeKind} (mem : e ∈ (Terminator.jump tail).targets) :
        e = (tail, .jump) := List.mem_singleton.1 mem
    rw [jumpAll]
    refine yields_bind (a := ()) (setTerminator_eq_ok.2 ⟨fun e mem => ?_, here, rfl⟩) ?_
    · rw [goes mem]
      exact live
    have ended : Sound (fun c => False ∧ c ≠ r) (Function.update (joining tail (r :: rs) f) r
        (edgesFrom f.handlers (.jump tail) (f.handlersOf r)))
          (f.reend r (.jump tail) (f.handlersOf r)) := by
      refine sound.reend here inside.2 (fun same => absurd same inside.1) (sound.covered r)
        (fun e mem => by rw [goes mem]; exact inner) (fun e mem => ?_) (fun t phi new => ?_)
        fun t phi old => ?_
      · obtain mem | ⟨there, -⟩ := sound.mem_targets_or id mem
        · rw [goes mem]
          exact live
        · exact there
      · obtain ⟨k, mem⟩ := new
        obtain mem | ⟨-, none⟩ := sound.mem_targets_or id mem
        · refine ⟨k, ?_⟩
          rw [due, goes mem]
          exact List.mem_append_right _ (List.mem_singleton_self _)
        · exact absurd none phi
      · obtain ⟨k, mem⟩ := old
        rw [due] at mem
        obtain mem | mem := List.mem_append.1 mem
        · exact ⟨k, .inl mem⟩
        · exact ⟨k, .inr (mem_edgesFrom.2 (.inl mem))⟩
    have next : Function.update (joining tail (r :: rs) f) r
        (edgesFrom f.handlers (.jump tail) (f.handlersOf r)) =
          joining tail rs (f.reend r (.jump tail) (f.handlersOf r)) := by
      funext c
      rw [Function.update_apply, joining, joining, succs_reend here]
      by_cases same : c = r
      · rw [if_pos same, same, if_neg once, if_pos rfl]
      · simp only [if_neg same, List.mem_cons, or_iff_right same]
    rw [next] at ended
    refine ih (ended.mono (fun c none => none.1) fun _ _ _ _ => rfl) ?_ (fun r' mem => ?_) nodup
    · rwa [sameNodes_reend.isSome]
    · rw [sameNodes_reend.isSome]
      exact places r' (List.mem_cons_of_mem _ mem)

/-- What the copied blocks return is merged in the second half of the block of the call, and they jump to it in
place of the call. -/
lemma joinResults_yields {call : ValueId} {results : List (BlockId × Value)} (h : f.Intact)
    (live : (f.block? tail).isSome) (inner : tail ≠ Func.entry ∧ tail ≠ Func.exit)
    (none : f.phis tail = []) (away : ∀ s k, (tail, k) ∉ f.succs s)
    (places : ∀ r ∈ results.map (·.1), (f.block? r).isSome ∧ r ≠ Func.entry ∧ r ≠ Func.exit)
    (nodup : (results.map (·.1)).Nodup) :
    (do
      mergeResults call tail results
      jumpAll tail (results.map (·.1))
      let _ ← removeNode call
      modify fun f => f.removeTrivialPhis.1
      return tail : Edit BlockId).Yields f fun _ f' => f'.Intact := by
  refine (mergeResults_yields h live inner none away nodup).bind ?_
  rintro _ f₁ ⟨sound, flow⟩
  have due : joining tail (results.map (·.1)) f = joining tail (results.map (·.1)) f₁ := by
    funext c
    rw [joining, joining, flow.succs]
  rw [due] at sound
  refine (jumpAll_yields _ sound (by rw [flow.isSome, live]) inner.1
    (fun r mem => by rw [flow.isSome]; exact places r mem) nodup).bind fun _ f₂ intact => ?_
  refine yields_bind (removeNode_eq_ok.2 ⟨rfl, rfl⟩) (yields_modify (yields_pure ?_))
  exact (trims_removeTrivialPhis _).intact ((Trims.refl.drop call).intact intact)

end Joining

section Expanding

lemma addHandlers_run (cs : List Catch) (f : Func) :
    (addHandlers cs).run f = .ok () (f.withCatches cs) := by
  induction cs generalizing f with
  | nil => exact Edit.pure_eq_ok.2 ⟨rfl, by simp [withCatches]⟩
  | cons c cs ih =>
    refine Edit.bind_eq_ok.2 ⟨_, _, addHandler_eq_ok.2 ⟨rfl, rfl⟩, ?_⟩
    simpa [withCatches] using ih (f.withCatches [c])

/-- More handlers do not make a block handle exceptions, as long as they cover nothing. -/
lemma caught_withCatches {cs : List Catch} (h : f.Shaped) : (f.withCatches cs).Caught t ↔ f.Caught t := by
  constructor
  · rintro ⟨s, k, mem, c, found, same⟩
    rw [h.getElem?_withCatches mem] at found
    exact ⟨s, k, mem, c, found, same⟩
  · rintro ⟨s, k, mem, c, found, same⟩
    exact ⟨s, k, mem, c, by rwa [h.getElem?_withCatches mem], same⟩

lemma leads_of_callee {k : Nat} (hosts : Hosts callee p tail f) (intact : callee.Intact)
    (mem : k ∈ callee.handlersOf b) : Leads tail
      (f.withCatches (callee.handlers.map p.handler)) (f.handlers.length + k) := by
  obtain ⟨c, found, inner, none⟩ := intact.covered b k mem
  obtain ⟨live, inner', apart, bare⟩ := hosts c.target (intact.caught_live id mem found) inner
  refine ⟨p.handler c, ?_, live, inner', apart, bare none⟩
  rw [withCatches, List.getElem?_append_right (Nat.le_add_right _ _), Nat.add_sub_cancel_left,
    List.getElem?_map, found]
  rfl

/-- What is known of the caller when the block of the call is split and the arguments are stored. -/
structure Split (head tail : BlockId) (f : Func) : Prop where
  intact : f.Intact
  live : (f.block? head).isSome
  inner : head ≠ Func.entry ∧ head ≠ Func.exit
  there : (f.block? tail).isSome
  outer : tail ≠ Func.entry ∧ tail ≠ Func.exit
  halves : head ≠ tail
  bare : f.phis tail = []
  /-- The first half leads to the second half and to handlers. -/
  leads : ∀ x ∈ f.succs head, f.phis x.1 = []
  /-- Nothing else leads to the second half. -/
  only : ∀ s k, (tail, k) ∈ f.succs s → s = head
  apart : ¬f.Caught tail

lemma split_cut {head : BlockId} {index depth depth' : Nat} (h : f.Intact)
    (live : (f.block? head).isSome) (inner : head ≠ Func.entry ∧ head ≠ Func.exit) :
    Split head f.blocks.size (f.cut head index depth depth') := by
  have intact : (f.cut head index depth depth').Intact := h.cut live inner
  have bare : f.phis f.blocks.size = [] := (parts_of_isNone block?_size).1
  refine ⟨intact, by rw [isSome_cut, live, Bool.or_true], inner,
    by rw [isSome_cut, decide_eq_true rfl, Bool.true_or], h.size_ne, size_ne_of_isSome live,
    by rw [phis_cut, bare],
    fun x edge => ?_, fun s k edge => h.eq_of_mem_succs_cut live edge, h.not_caught_cut live⟩
  rw [intact.wired head id, edgesOf_eq, terminator_cut live] at edge
  obtain goes | ⟨-, none⟩ := intact.mem_targets_or id edge
  · rw [List.mem_singleton.1 goes, phis_cut, bare]
  · exact none

lemma Split.of_same {head : BlockId} (h : Split head tail f) (intact : f'.Intact) (flow : SameFlow f f')
    (phis : ∀ t, f'.phis t = f.phis t) : Split head tail f' where
  intact := intact
  live := by rw [flow.isSome, h.live]
  inner := h.inner
  there := by rw [flow.isSome, h.there]
  outer := h.outer
  halves := h.halves
  bare := by rw [phis, h.bare]
  leads x edge := by
    rw [flow.succs] at edge
    rw [phis, h.leads x edge]
  only s k edge := by
    rw [flow.succs] at edge
    exact h.only s k edge
  apart := by
    rw [flow.caught]
    exact h.apart

lemma Split.added {head : BlockId} {bs : List BlockId} {ps : List (BlockId × BlockId)} (h : Split head tail f)
    (added : Added f bs ps f') : Split head tail f' where
  intact := added.intact
  live := added.kept _ h.live
  inner := h.inner
  there := added.kept _ h.there
  outer := h.outer
  halves := h.halves
  bare := by rw [added.phis, h.bare]
  leads x edge := by
    rw [added.succs] at edge
    rw [added.phis, h.leads x edge]
  only s k edge := by
    rw [added.succs] at edge
    exact h.only s k edge
  apart := by
    simp only [Caught, added.handlersOf, added.catches]
    exact h.apart

/-- Handlers that cover a block lead away from the second half of the block of the call. -/
lemma leads_of_covered {k : Nat} {cs : List Catch} (sound : Sound (fun _ => False) due f)
    (apart : ¬f.Caught tail) (mem : k ∈ f.handlersOf b) : Leads tail (f.withCatches cs) k := by
  obtain ⟨c, found, inner, none⟩ := sound.covered b k mem
  refine ⟨c, by rw [sound.getElem?_withCatches mem, found], sound.caught_live id mem found, inner, ?_, none⟩
  rintro rfl
  exact apart ⟨b, k, mem, c, found, rfl⟩

lemma Room.not_caught (room : Room p f) (plan : Plan callee p) {e : BlockId × BlockId}
    (mem : e ∈ p.blocks) (other : e.1 ≠ Func.entry) : ¬f.Caught e.2 := by
  exact room.intact.not_caught (room.fresh e mem fun same => other ((plan.eq_head_iff mem).1 same)).2

/-- The nodes of the callee are copied to their blocks, behind the first half of the block of the call. -/
structure Housed (callee : Func) (p : Placement) (tail : BlockId) (f₀ f : Func) : Prop where
  plan : Plan callee p
  room : Room p f₀
  split : Split p.head tail f₀
  elsewhere : ∀ e ∈ p.blocks, e.2 ≠ tail
  copied : Copied callee p.blocks f₀ p.values f

namespace Housed

variable {f₀ : Func} (h : Housed callee p tail f₀ f)
include h

lemma flow : SameFlow f₀ (renameAll p p.values f) :=
  h.copied.flow.trans (same_renameAll h.copied.nodup).2

lemma hosts : Hosts callee p tail (renameAll p p.values f) :=
  hosts_renameAll h.plan h.room h.copied h.elsewhere h.split.outer.2

lemma apart : ¬(renameAll p p.values f).Caught tail := by
  rw [h.flow.caught]
  exact h.split.apart

variable (intact : callee.Intact)
include intact

lemma coverable {e : BlockId × BlockId} (mem : e ∈ p.blocks) (new : e.2 ≠ p.head) :
    Coverable tail ((callee.handlersOf e.1).map ((renameAll p p.values f).handlers.length + ·) ++
        (renameAll p p.values f).handlersOf p.head)
      ((renameAll p p.values f).withCatches (callee.handlers.map p.handler)) e.2 := by
  refine ⟨(h.flow.isSome e.2).trans (h.room.live e mem), h.room.inner e mem, ?_, fun k there => ?_⟩
  · obtain ⟨g, operands⟩ := h.flow.terminator e.2
    rw [h.room.unended e mem new] at operands
    exact operands
  · obtain old | covers := List.mem_append.1 there
    · obtain ⟨i, covers, rfl⟩ := List.mem_map.1 old
      exact leads_of_callee h.hosts intact covers
    · exact leads_of_covered (h.copied.sound_renameAll h.plan h.room intact) h.apart covers

lemma ending (covered : Covered p.head tail (dueOf callee p f₀) p.blocks
    ((renameAll p p.values f).withCatches (callee.handlers.map p.handler)) f') :
    Ending callee p tail (dueOf callee p f₀) p.blocks f' where
  sound := covered.sound
  hosts := h.hosts.of_same covered.nodes.isSome covered.nodes.phis
  apart := covered.apart
  nodup := h.plan.images
  pending e mem := by
    refine ⟨by rw [covered.nodes.isSome]; exact (h.flow.isSome e.2).trans (h.room.live e mem),
      h.room.inner e mem, ((h.plan.mem e.1).1 ⟨e.2, mem⟩).1, fun inner => ?_, dueOf_of_mem h.plan mem⟩
    rw [covered.ends]
    exact (h.coverable intact mem fun same => inner ((h.plan.eq_head_iff mem).1 same)).unended
  settled c absent t phi kind := by
    have apart : ∀ b, (b, c) ∉ p.blocks := fun b mem => absent (List.mem_map.2 ⟨_, mem, rfl⟩)
    rw [dueOf_of_forall apart, covered.others c absent]
    exact congrArg (List.count (t, kind)) (h.flow.succs c).symm
  away s k edge := by
    rw [covered.away s k edge]
    exact List.mem_map.2 ⟨_, h.plan.first, rfl⟩

lemma yields {call : ValueId} {depth : Nat} : (do
      addHandlers (callee.handlers.map p.handler)
      coverBlocks callee p.head (renameAll p p.values f).handlers.length depth
        ((renameAll p p.values f).handlersOf p.head) p.blocks
      let results ← endBlocks callee p depth p.blocks
      mergeResults call tail results
      jumpAll tail (results.map (·.1))
      let _ ← removeNode call
      modify fun f => f.removeTrivialPhis.1
      return tail : Edit BlockId).Yields (renameAll p p.values f) fun _ f' => f'.Intact := by
  have sound := h.copied.sound_renameAll h.plan h.room intact
  refine yields_bind (addHandlers_run _ _) ?_
  refine (coverBlocks_yields p.blocks sound.withCatches (fun e mem new => h.coverable intact mem new)
    (mt (caught_withCatches sound.toShaped).1 h.apart) (fun s k edge => ?_)).bind fun _ f₁ covered => ?_
  · change (tail, k) ∈ (renameAll p p.values f).succs s at edge
    rw [h.flow.succs] at edge
    exact h.split.only s k edge
  refine (endBlocks_yields p.blocks (h.ending intact covered) intact h.split.outer.2).bind ?_
  rintro results f₂ ⟨intact₂, away, isSome, phis, sub⟩
  have kept (t) : (f₂.block? t).isSome = (f₀.block? t).isSome :=
    (isSome t).trans ((covered.nodes.isSome t).trans (h.flow.isSome t))
  refine joinResults_yields intact₂ (by rw [kept, h.split.there]) h.split.outer ?_ away (fun r mem => ?_)
    (h.plan.images.sublist sub)
  · rw [phis, covered.nodes.phis]
    exact h.copied.phis_renameAll h.split.bare fun b mem => absurd rfl (h.elsewhere _ mem)
  · obtain ⟨e, place, rfl⟩ := List.mem_map.1 (sub.subset mem)
    rw [kept, h.room.live e place]
    exact ⟨rfl, h.room.inner e place⟩

end Housed

lemma expand_yields {call : ReceiverCall} (h : f.Intact) (intact : callee.Intact)
    (live : (f.block? call.block).isSome) (place : call.position < (f.body call.block).length) :
    (expand call callee).Yields f fun _ f' => f'.Intact := by
  obtain ⟨depth, depth', cutting⟩ : ∃ depth depth', (splitBlock call.block call.position).run f =
      .ok f.blocks.size (f.cut call.block call.position depth depth') :=
    ⟨_, _, splitBlock_eq_ok h live place.le⟩
  have cut : Split call.block f.blocks.size (f.cut call.block call.position depth depth') :=
    split_cut h live (TailCall.call_inner h.toShaped place)
  generalize f.cut call.block call.position depth depth' = f₁ at cutting cut
  generalize f.blocks.size = tail at cutting cut
  rw [expand]
  refine yields_bind cutting (yields_get (yields_get ?_))
  -- the registers and the arguments
  refine yields_bind (reserveRegisters_eq_ok.2 ⟨rfl, rfl⟩) ?_
  have reserved : Alike f₁ { f₁ with locals := f₁.locals + callee.locals } := alike_of_blocks rfl rfl rfl
  have cut' := cut.of_same ((Trims.refl.alike reserved).intact cut.intact) reserved.toSameFlow
    reserved.phis
  refine (TailCall.storeAll_yields _ cut'.live).bind fun _ f₂ stored => ?_
  have split := cut'.of_same (stored.intact cut'.live cut'.inner cut'.intact) stored.sameFlow stored.phis
  -- the blocks and the nodes of the callee
  refine (addBlocks_yields _ split.intact).bind fun ps f₃ added => ?_
  dsimp only
  have plan (values) : Plan callee ⟨call.block, f₁.locals, (Func.entry, call.block) :: ps, values⟩ :=
    plan_of_added intact added split.live rfl rfl
  have room (values) : Room ⟨call.block, f₁.locals, (Func.entry, call.block) :: ps, values⟩ f₃ :=
    room_of_added split.intact added split.live split.inner split.leads rfl rfl
  have elsewhere : ∀ e ∈ (Func.entry, call.block) :: ps, e.2 ≠ tail := by
    intro e mem same
    obtain rfl | new := List.mem_cons.1 mem
    · exact split.halves same
    · have below : e.2 < f₂.blocks.size := lt_size_of_block? (by rw [same]; exact split.there)
      exact absurd below (Nat.not_lt.2 (added.new e new).1)
  have copying : (copyBodies callee ((Func.entry, call.block) :: ps)).Yields f₃ fun values f' =>
      Copied callee ((Func.entry, call.block) :: ps) f₃ values f' :=
    copyBodies_yields added.intact.toShaped intact.toShaped (fun _ mem => mem) (room []).live
      (room []).inner fun e mem other => (room []).not_caught (plan []) mem other
  refine copying.bind fun values f₄ copied => yields_modify (yields_get ?_)
  have housed : Housed callee ⟨call.block, f₁.locals, (Func.entry, call.block) :: ps, values⟩ tail f₃ f₄ :=
    ⟨plan values, room values, split.added added, elsewhere, copied⟩
  -- What was around the call when its block was split is around it still.
  have outer := housed.flow.handlersOf call.block
  rw [added.handlersOf, stored.sameFlow.handlersOf, reserved.handlersOf] at outer
  rw [← outer]
  exact housed.yields intact

lemma lift_of_candidate {ctx : Context} {call : ReceiverCall}
    (found : (candidate ctx f call).1 = some callee) :
    (∃ body : MethodBody, body.lift ctx.pool ctx.config = .ok callee) ∧
      fits ctx f call callee = true := by
  rw [candidate] at found
  split at found
  · cases found
  · split at found
    · cases found
    · dsimp only at found
      split at found
      · cases found
      · rename_i g lifted
        obtain ⟨rfl, fit⟩ : g = callee ∧ fits ctx f call g = true := by
          split at found
          · cases found
          · rename_i fit
            split at found
            · cases found
            · exact ⟨Option.some.inj found, by simpa using fit⟩
        refine ⟨?_, fit⟩
        obtain ⟨body, -, ok⟩ := Option.bind_eq_some_iff.1 lifted
        refine ⟨body, ?_⟩
        cases result : body.lift ctx.pool ctx.config with
        | error e =>
          rw [result] at ok
          cases ok
        | ok g' =>
          rw [result] at ok
          cases ok
          rfl

lemma intact_of_candidate {ctx : Context} {call : ReceiverCall}
    (found : (candidate ctx f call).1 = some callee) : callee.Intact := by
  obtain ⟨⟨body, lifted⟩, -⟩ := lift_of_candidate found
  exact intact_of_lift lifted

lemma pass_keeps : pass.Keeps := by
  refine fun ctx f h => yields_get (Yields.bind (P := fun _ f' => f'.Intact) ?_ fun _ _ h' => yields_pure h')
  refine yields_iff_meets.2 (meets_expandAll (fun f v call callee start found chosen => ?_) h)
  obtain ⟨live, place⟩ := TailCall.call_block found
  exact yields_iff_meets.1 (expand_yields start (intact_of_candidate chosen) live place)

end Expanding

end Avm.Opt.Inlining
