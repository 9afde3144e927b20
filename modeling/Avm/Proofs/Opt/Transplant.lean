import Avm.Proofs.Opt.Looping

/-!
# The nodes of a callee in its caller

What the nodes of a callee become when they are copied into a caller.  Every block of the callee but the
exit goes to a block of its own (`Plan`), and every node to a new node there (`Copied`).  The phis that
are copied name the blocks that they came from by their new names, and so have the inputs for the edges
that the callee has, under their new names (`dueOf`).  Nothing leads along these edges yet.

The main statement is `Copied.sound_renameAll`.
-/

namespace Avm.Ir.Func

variable {f f' : Func} {t : BlockId}

lemma SameFlow.caught (h : SameFlow f f') : f'.Caught t ↔ f.Caught t := by
  simp only [Caught, h.handlersOf, h.catches]

lemma Intact.not_caught (h : Intact f) (apart : ∀ s k, (t, k) ∉ f.succs s) : ¬f.Caught t := by
  rintro ⟨s, k, mem, c, found, rfl⟩
  refine apart s .raise ?_
  rw [h.wired s id, edgesOf_eq, mem_edgesFrom]
  exact .inr (.inr ⟨k, mem, c, found, rfl⟩)

lemma Intact.ne_entry (h : Intact f) {s : BlockId} {kind : EdgeKind} (edge : (t, kind) ∈ f.succs s) :
    t ≠ Func.entry := by
  rw [h.wired s id, edgesOf_eq] at edge
  obtain goes | leaves | ⟨k, covers, c, found, same⟩ := mem_edgesFrom.1 edge
  · exact h.enters s _ goes
  · have out : t = Func.exit := Terminator.eq_exit_of_mem_leaving leaves
    rw [out]
    decide
  · obtain ⟨c', found', inside, -⟩ := h.covered s k covers
    rw [found, Option.some.injEq] at found'
    rw [(Prod.mk.inj same).1, found']
    exact inside

lemma Intact.source_inner (h : Intact f) {s : BlockId} {kind : EdgeKind} (edge : (t, kind) ∈ f.succs s) :
    (f.block? s).isSome ∧ s ≠ Func.exit := by
  refine ⟨isSome_of_mem_succs edge, ?_⟩
  rintro rfl
  rw [h.succs_exit] at edge
  cases edge

end Avm.Ir.Func

namespace Avm.Opt.Inlining

open Avm.Ir Avm.Ir.Func Avm.Ir.Edit

variable {f f' f'' callee : Func} {p : Placement} {b n t : BlockId} {v w : ValueId}

section Names

lemma count_map_of_forall {α β : Type} [BEq α] [LawfulBEq α] [BEq β] [LawfulBEq β] {g : α → β}
    {l : List α} {x : α} {y : β} (apart : ∀ a ∈ l, g a = y ↔ a = x) :
    (l.map g).count y = l.count x := by
  rw [List.count, List.count, List.countP_map]
  refine List.countP_congr fun a mem => ?_
  simp [apart a mem]

/-- The new name of a block in the inputs of phis. -/
def Placement.source (p : Placement) (b : BlockId) : BlockId := (p.blocks.lookup b).getD p.head

/-- The new name of a block in terminators and handlers. -/
def Placement.target (p : Placement) (b : BlockId) : BlockId := (p.blocks.lookup b).getD b

lemma Placement.keys_kind (k : NodeKind) :
    (p.kind k).keys = k.keys.map (List.map fun e => (p.source e.1, e.2)) := by
  have renumbered : (k.remapRegisters (· + p.base)).keys = k.keys := by
    cases k with
    | phi inputs => exact NodeKind.keys_mapOperands (k := .phi inputs)
    | _ => rfl
  rw [Placement.kind, ← renumbered, ← NodeKind.keys_mapOperands (k := k.remapRegisters (· + p.base))
    (g := Value.mapNode fun id => (p.values.lookup id).getD id)]
  generalize (k.remapRegisters (· + p.base)).mapOperands _ = k'
  cases k' with
  | phi inputs =>
    simp only [NodeKind.keys, NodeKind.inputs?, Option.map_some, List.map_map]
    rfl
  | _ => rfl

lemma Placement.targets_terminator (t : Terminator) :
    (p.terminator t).targets = t.targets.map fun e => (p.target e.1, e.2) := by
  cases t with
  | switch index default cases =>
    have each : (cases.map p.target).mapIdx (fun i c => (c, EdgeKind.switchCase i)) =
        (cases.mapIdx fun i c => (c, EdgeKind.switchCase i)).map fun e => (p.target e.1, e.2) := by
      refine List.ext_getElem? fun i => ?_
      simp only [List.getElem?_mapIdx, List.getElem?_map, Option.map_map]
      rfl
    exact congrArg ((p.target default, EdgeKind.switchDefault) :: ·) each
  | _ => rfl

/-- Every block of the callee but the exit goes to a block of its own, the entry to the first half of
the block of the call. -/
structure Plan (callee : Func) (p : Placement) : Prop where
  /-- Every block goes to one place. -/
  sources : (p.blocks.map (·.1)).Nodup
  /-- No two blocks go to the same place. -/
  images : (p.blocks.map (·.2)).Nodup
  /-- The entry. -/
  first : (Func.entry, p.head) ∈ p.blocks
  /-- Which blocks. -/
  mem : ∀ b, (∃ n, (b, n) ∈ p.blocks) ↔ (callee.block? b).isSome ∧ b ≠ Func.exit

namespace Plan

variable (h : Plan callee p)
include h

lemma source_eq (mem : (b, n) ∈ p.blocks) : p.source b = n := by
  rw [Placement.source, lookup_of_mem h.sources mem]
  rfl

lemma target_eq (mem : (b, n) ∈ p.blocks) : p.target b = n := by
  rw [Placement.target, lookup_of_mem h.sources mem]
  rfl

lemma mem_source (live : (callee.block? b).isSome) (inside : b ≠ Func.exit) :
    (b, p.source b) ∈ p.blocks := by
  obtain ⟨n, mem⟩ := (h.mem b).2 ⟨live, inside⟩
  rwa [h.source_eq mem]

lemma inj {c : BlockId} (mem : (b, n) ∈ p.blocks) (mem' : (c, n) ∈ p.blocks) : b = c :=
  congrArg Prod.fst (List.inj_on_of_nodup_map h.images mem mem' rfl)

lemma eq_head_iff (mem : (b, n) ∈ p.blocks) : n = p.head ↔ b = Func.entry := by
  constructor
  · rintro rfl
    exact h.inj mem h.first
  · rintro rfl
    rw [← h.target_eq mem, h.target_eq h.first]

lemma target_exit : p.target Func.exit = Func.exit := by
  rw [Placement.target]
  cases found : p.blocks.lookup Func.exit with
  | none => rfl
  | some n =>
    obtain ⟨l₁, l₂, eq, -⟩ := List.lookup_eq_some_iff.1 found
    have mem : (Func.exit, n) ∈ p.blocks := by simp [eq]
    exact absurd rfl ((h.mem Func.exit).1 ⟨n, mem⟩).2

/-- Where edges of the callee lead: out, or to the place of a block other than the entry. -/
lemma target_cases (live : (callee.block? b).isSome) (inner : b ≠ Func.entry) :
    (b = Func.exit ∧ p.target b = Func.exit) ∨ ((b, p.target b) ∈ p.blocks ∧ p.target b ≠ p.head) := by
  by_cases out : b = Func.exit
  · exact .inl ⟨out, by rw [out, h.target_exit]⟩
  · obtain ⟨n, mem⟩ := (h.mem b).2 ⟨live, out⟩
    rw [h.target_eq mem]
    refine .inr ⟨mem, ?_⟩
    rintro rfl
    exact inner (h.inj mem h.first)

end Plan

/-- The edges that are due once the phis of a callee are in place: its own, under new names. -/
def dueOf (callee : Func) (p : Placement) (f : Func) (c : BlockId) : List (BlockId × EdgeKind) :=
  match p.blocks.find? (·.2 == c) with
  | some e => (callee.succs e.1).map fun s => (p.target s.1, s.2)
  | none => f.succs c

lemma dueOf_of_mem (h : Plan callee p) (mem : (b, n) ∈ p.blocks) :
    dueOf callee p f n = (callee.succs b).map fun s => (p.target s.1, s.2) := by
  rw [dueOf]
  cases found : p.blocks.find? (·.2 == n) with
  | none => simpa using List.find?_eq_none.1 found _ mem
  | some e =>
    obtain ⟨c, m⟩ := e
    have same : m = n := by simpa using List.find?_some found
    subst same
    rw [h.inj mem (List.mem_of_find?_eq_some found)]

lemma dueOf_of_forall (apart : ∀ b, (b, n) ∉ p.blocks) : dueOf callee p f n = f.succs n := by
  rw [dueOf]
  cases found : p.blocks.find? (·.2 == n) with
  | none => rfl
  | some e =>
    obtain ⟨c, m⟩ := e
    have same : m = n := by simpa using List.find?_some found
    subst same
    exact absurd (List.mem_of_find?_eq_some found) (apart c)

end Names

/-- The places for the blocks of a callee are there: blocks that nothing leads to, and the first half of
the block of the call. -/
structure Room (p : Placement) (f : Func) : Prop where
  /-- The graph is in order. -/
  intact : f.Intact
  /-- The places are there. -/
  live : ∀ e ∈ p.blocks, (f.block? e.2).isSome
  /-- They are neither the entry nor the exit. -/
  inner : ∀ e ∈ p.blocks, e.2 ≠ Func.entry ∧ e.2 ≠ Func.exit
  /-- New places have no phis, and nothing leads there. -/
  fresh : ∀ e ∈ p.blocks, e.2 ≠ p.head → f.phis e.2 = [] ∧ ∀ s k, (e.2, k) ∉ f.succs s
  /-- New places have no end yet. -/
  unended : ∀ e ∈ p.blocks, e.2 ≠ p.head → f.terminator e.2 = .none
  /-- No place leads to phis. -/
  leads : ∀ e ∈ p.blocks, ∀ x ∈ f.succs e.2, f.phis x.1 = []

/-- Nodes of a callee are copied: old nodes stay, and new phis are copies of phis. -/
structure Copied (callee : Func) (blocks : List (BlockId × BlockId)) (f : Func)
    (values : List (ValueId × ValueId)) (f' : Func) : Prop where
  /-- No edge changes. -/
  flow : SameFlow f f'
  /-- The graph keeps its shape. -/
  shaped : f'.Shaped
  /-- Nodes are added. -/
  size : f.nodes.size ≤ f'.nodes.size
  /-- Nodes that were there stay. -/
  nodes : ∀ w, (f.node? w).isSome → f'.node? w = f.node? w
  /-- Copies are new and do what their originals do. -/
  copies : ∀ e ∈ values, f.nodes.size ≤ e.2 ∧
    ∃ k, callee.kind? e.1 = some k ∧ f'.kind? e.2 = some k
  /-- Every copy is a node of its own. -/
  nodup : (values.map (·.2)).Nodup
  /-- New phis are copies of phis. -/
  phis : ∀ t, ∀ w ∈ f'.phis t, w ∈ f.phis t ∨
    ∃ b v, (b, t) ∈ blocks ∧ v ∈ callee.phis b ∧ (v, w) ∈ values

namespace Copied

variable {blocks : List (BlockId × BlockId)} {values more : List (ValueId × ValueId)}

lemma refl (h : f.Shaped) : Copied callee blocks f [] f where
  flow := SameFlow.refl f
  shaped := h
  size := Nat.le_refl _
  nodes _ _ := rfl
  copies _ none := by cases none
  nodup := List.nodup_nil
  phis _ _ mem := .inl mem

lemma lt_size (h : Copied callee blocks f values f') {e : ValueId × ValueId} (mem : e ∈ values) :
    (f'.node? e.2).isSome := by
  obtain ⟨k, -, found⟩ := (h.copies e mem).2
  rw [← Option.isSome_map (f := (·.kind)), ← kind?, found]
  rfl

lemma trans (h : Copied callee blocks f values f') (h' : Copied callee blocks f' more f'') :
    Copied callee blocks f (values ++ more) f'' where
  flow := h.flow.trans h'.flow
  shaped := h'.shaped
  size := h.size.trans h'.size
  nodes w there := by
    have kept := h.nodes w there
    rw [h'.nodes w (by rwa [kept]), kept]
  copies e mem := by
    obtain old | new := List.mem_append.1 mem
    · obtain ⟨above, k, original, copy⟩ := h.copies e old
      refine ⟨above, k, original, ?_⟩
      rw [kind?, h'.nodes _ (h.lt_size old), ← kind?, copy]
    · obtain ⟨above, copy⟩ := h'.copies e new
      exact ⟨h.size.trans above, copy⟩
  nodup := by
    rw [List.map_append, List.nodup_append]
    refine ⟨h.nodup, h'.nodup, fun x old y new same => ?_⟩
    obtain ⟨e, mem, rfl⟩ := List.mem_map.1 old
    obtain ⟨e', mem', rfl⟩ := List.mem_map.1 new
    have below : e.2 < f'.nodes.size := lt_size_of_node? (h.lt_size mem)
    have above := (h'.copies e' mem').1
    rw [← same] at above
    exact absurd below (Nat.not_lt.2 above)
  phis t w mem := by
    obtain old | ⟨b, v, place, phi, copy⟩ := h'.phis t w mem
    · obtain old | ⟨b, v, place, phi, copy⟩ := h.phis t w old
      · exact .inl old
      · exact .inr ⟨b, v, place, phi, List.mem_append_left _ copy⟩
    · exact .inr ⟨b, v, place, phi, List.mem_append_right _ copy⟩

lemma one {kind : NodeKind} (h : f.Shaped) (listed : callee.Listed) (original : callee.kind? v = some kind)
    (mem : v ∈ callee.nodesOf b) (place : (b, n) ∈ blocks) (live : (f.block? n).isSome)
    (inner : n ≠ Func.entry ∧ n ≠ Func.exit) (apart : ¬f.Caught n) :
    Copied callee blocks f [(v, f.nodes.size)] (f.putNode n (f.place n kind) kind) where
  flow := sameFlow_putNode
  shaped := h.putNode live fits_place inner fun _ => apart
  size := by
    rw [putNode, nodes_modifyBlock, Array.size_push]
    exact Nat.le_succ _
  nodes _ there := node?_putNode_of_isSome there
  copies e mem := by
    rw [List.mem_singleton.1 mem]
    refine ⟨Nat.le_refl _, kind, original, ?_⟩
    rw [kind?, node?_putNode, if_pos rfl]
    rfl
  nodup := List.nodup_singleton _
  phis t w there := by
    obtain ⟨rfl, phi, rfl⟩ | old := (mem_phis_putNode live fits_place).1 there
    · obtain isPhi | plain := List.mem_append.1 mem
      · exact .inr ⟨b, v, place, isPhi, List.mem_singleton_self _⟩
      · have none := listed.plain b v plain
        rw [inputs?, original, Option.bind_some] at none
        cases kind with
        | phi inputs => cases none
        | _ => cases phi
    · exact .inl old

end Copied

/-- The nodes of a block of the callee go to its place, as long as no handler leads there. -/
lemma copyNodes_yields {blocks : List (BlockId × BlockId)} {vs : List ValueId} (h : f.Shaped) (listed : callee.Listed)
    (mem : ∀ v ∈ vs, v ∈ callee.nodesOf b) (place : (b, n) ∈ blocks) (live : (f.block? n).isSome)
    (inner : n ≠ Func.entry ∧ n ≠ Func.exit) (apart : ¬f.Caught n) :
    (copyNodes callee n vs).Yields f fun values f' => Copied callee blocks f values f' := by
  induction vs generalizing f with
  | nil => exact yields_pure (.refl h)
  | cons v vs ih =>
    have rest : ∀ w ∈ vs, w ∈ callee.nodesOf b := fun w there => mem w (List.mem_cons_of_mem _ there)
    rw [copyNodes]
    split
    · exact ih h rest live apart
    · exact ih h rest live apart
    · rename_i kind _ original
      have one := Copied.one h listed original (mem v List.mem_cons_self) place live inner apart
      refine yields_bind (appendNode_eq_ok.2 ⟨live, rfl, rfl⟩) ?_
      refine (ih one.shaped rest ?_ ?_).bind fun values f' more => yields_pure (one.trans more)
      · rwa [one.flow.isSome]
      · rwa [one.flow.caught]

lemma copyBodies_yields {blocks l : List (BlockId × BlockId)} (h : f.Shaped) (shaped : callee.Shaped)
    (sub : ∀ e ∈ l, e ∈ blocks) (live : ∀ e ∈ blocks, (f.block? e.2).isSome)
    (inner : ∀ e ∈ blocks, e.2 ≠ Func.entry ∧ e.2 ≠ Func.exit)
    (apart : ∀ e ∈ blocks, e.1 ≠ Func.entry → ¬f.Caught e.2) :
    (copyBodies callee l).Yields f fun values f' => Copied callee blocks f values f' := by
  induction l generalizing f with
  | nil => exact yields_pure (.refl h)
  | cons e l ih =>
    obtain ⟨b, n⟩ := e
    have place : (b, n) ∈ blocks := sub _ List.mem_cons_self
    have listing : ((callee.block? b).map Block.nodeIds).getD [] = callee.nodesOf b := by
      rw [nodesOf, phis, body]
      cases callee.block? b with
      | none => rfl
      | some x => rfl
    have first : (copyNodes callee n (callee.nodesOf b)).Yields f fun values f' =>
        Copied callee blocks f values f' := by
      by_cases entry : b = Func.entry
      · rw [entry, nodesOf, shaped.entry.2.1, shaped.entry.2.2.1]
        exact yields_pure (.refl h)
      · exact copyNodes_yields h shaped.toListed (fun _ mem => mem) place (live _ place) (inner _ place)
          (apart _ place entry)
    rw [copyBodies, listing]
    refine first.bind fun values f₁ copied => ?_
    refine (ih copied.shaped (fun e mem => sub e (List.mem_cons_of_mem _ mem)) (fun e mem => ?_)
      fun e mem other => ?_).bind fun more f₂ rest => yields_pure (copied.trans rest)
    · rw [copied.flow.isSome]
      exact live e mem
    · rw [copied.flow.caught]
      exact apart e mem other

/-- The graph with copied nodes renamed. -/
def renameAll (p : Placement) (values : List (ValueId × ValueId)) (f : Func) : Func :=
  values.foldl (fun f e => f.modifyKind e.2 p.kind) f

lemma blocks_renameAll (values : List (ValueId × ValueId)) (f : Func) :
    (renameAll p values f).blocks = f.blocks ∧ (renameAll p values f).handlers = f.handlers := by
  induction values generalizing f with
  | nil => exact ⟨rfl, rfl⟩
  | cons e values ih => exact ih (f.modifyKind e.2 p.kind)

lemma node?_renameAll {values : List (ValueId × ValueId)} (nodup : (values.map (·.2)).Nodup) :
    (renameAll p values f).node? w = if w ∈ values.map (·.2) then
      (f.node? w).map fun n => { n with kind := p.kind n.kind } else f.node? w := by
  induction values generalizing f with
  | nil => rfl
  | cons e values ih =>
    rw [List.map_cons, List.nodup_cons] at nodup
    rw [renameAll, List.foldl_cons, ← renameAll, ih nodup.2, modifyKind, node?_modifyNode]
    by_cases same : e.2 = w
    · rw [if_pos same, if_neg (same ▸ nodup.1), if_pos (by rw [← same]; exact List.mem_cons_self)]
    · simp only [if_neg same, List.map_cons, List.mem_cons, or_iff_right (Ne.symm same)]

lemma same_renameAll {values : List (ValueId × ValueId)} (nodup : (values.map (·.2)).Nodup) :
    SameNodes f (renameAll p values f) ∧ SameFlow f (renameAll p values f) := by
  obtain ⟨blocks, catches⟩ := blocks_renameAll (p := p) values f
  have block (t) := block?_congr (b := t) blocks
  refine ⟨⟨by rw [blocks], fun t => by rw [block], fun t => by rw [phis, block, ← phis],
    fun t => by rw [body, block, ← body], catches, fun w => ?_, fun w => ?_⟩,
    sameFlow_of_map (by rw [blocks]) catches fun _ t => by rw [block]⟩
  · rw [node?_renameAll nodup]
    split
    · rw [Option.map_map]
      rfl
    · rfl
  · rw [isSome_inputs?_eq, isSome_inputs?_eq, node?_renameAll nodup]
    split
    · cases f.node? w with
      | none => rfl
      | some n => simp [Placement.keys_kind]
    · rfl

namespace Copied

variable {values : List (ValueId × ValueId)}

lemma keys_renameAll_of_isSome (h : Copied callee p.blocks f values f') (there : (f.node? w).isSome) :
    (renameAll p values f').keys w = f.keys w := by
  rw [keys_eq, node?_renameAll h.nodup, if_neg, h.nodes w there, ← keys_eq]
  intro mem
  obtain ⟨e, copy, rfl⟩ := List.mem_map.1 mem
  have below : e.2 < f.nodes.size := lt_size_of_node? there
  exact absurd below (Nat.not_lt.2 (h.copies e copy).1)

lemma keys_renameAll (h : Copied callee p.blocks f values f') (mem : (v, w) ∈ values) :
    (renameAll p values f').keys w = (callee.keys v).map fun e => (p.source e.1, e.2) := by
  obtain ⟨-, k, original, copy⟩ := h.copies _ mem
  obtain ⟨n, found, rfl⟩ := Option.map_eq_some_iff.1 copy
  obtain ⟨n', found', same⟩ := Option.map_eq_some_iff.1 original
  rw [keys_eq, node?_renameAll h.nodup, if_pos (List.mem_map.2 ⟨_, mem, rfl⟩), found, keys_eq, found']
  simp only [Option.map_some, Option.bind_some, Placement.keys_kind, same]
  cases n.kind.keys with
  | none => rfl
  | some es => rfl

lemma phis_renameAll (h : Copied callee p.blocks f values f') (none : f.phis t = [])
    (bare : ∀ b, (b, t) ∈ p.blocks → callee.phis b = []) : (renameAll p values f').phis t = [] := by
  rw [(same_renameAll h.nodup).1.phis, List.eq_nil_iff_forall_not_mem]
  intro w mem
  obtain old | ⟨b, v, place, phi, -⟩ := h.phis t w mem
  · rw [none] at old
    cases old
  · rw [bare b place] at phi
    cases phi

lemma count_keys (h : Copied callee p.blocks f values f') (plan : Plan callee p) (room : Room p f)
    (intact : callee.Intact) (place : (b, t) ∈ p.blocks) (phi : v ∈ callee.phis b)
    (copy : (v, w) ∈ values) (s : BlockId) (kind : EdgeKind) :
    ((renameAll p values f').keys w).count (s, kind) = (dueOf callee p f s).count (t, kind) := by
  have new : t ≠ p.head := by
    intro same
    rw [(plan.eq_head_iff place).1 same, intact.entry.2.1] at phi
    cases phi
  have known {e : BlockId × EdgeKind} (mem : e ∈ callee.keys v) : (e.1, p.source e.1) ∈ p.blocks := by
    rw [← List.count_pos_iff, intact.synced b v phi, List.count_pos_iff] at mem
    obtain ⟨live, inside⟩ := intact.source_inner mem
    exact plan.mem_source live inside
  rw [h.keys_renameAll copy]
  by_cases image : ∃ c, (c, s) ∈ p.blocks
  · obtain ⟨c, mem⟩ := image
    rw [dueOf_of_mem plan mem, count_map_of_forall (x := (c, kind)), intact.synced b v phi,
      count_map_of_forall (x := (b, kind))]
    · rintro ⟨x, k⟩ edge
      rw [Prod.mk.injEq, Prod.mk.injEq]
      refine and_congr_left fun _ => ⟨fun same => ?_, fun same => by rw [same, plan.target_eq place]⟩
      obtain ⟨-, out⟩ | ⟨there, -⟩ := plan.target_cases (intact.live _ _ edge) (intact.ne_entry edge)
      · exact absurd (same.symm.trans out) (room.inner _ place).2
      · rw [same] at there
        exact plan.inj there place
    · rintro ⟨x, k⟩ edge
      rw [Prod.mk.injEq, Prod.mk.injEq]
      refine and_congr_left fun _ => ⟨fun same => ?_, fun same => by rw [same, plan.source_eq mem]⟩
      have there := known edge
      rw [same] at there
      exact plan.inj there mem
  · have absent : ∀ c, (c, s) ∉ p.blocks := fun c mem => image ⟨c, mem⟩
    rw [dueOf_of_forall absent, List.count_eq_zero.2 ((room.fresh _ place new).2 s kind),
      List.count_eq_zero]
    intro mem
    obtain ⟨e, edge, same⟩ := List.mem_map.1 mem
    have there := known edge
    rw [(Prod.mk.inj same).1] at there
    exact absent _ there

lemma count_succs (plan : Plan callee p) (room : Room p f) (intact : callee.Intact)
    (phi : f.phis t ≠ []) (s : BlockId) (kind : EdgeKind) :
    (f.succs s).count (t, kind) = (dueOf callee p f s).count (t, kind) := by
  by_cases image : ∃ c, (c, s) ∈ p.blocks
  · obtain ⟨c, mem⟩ := image
    have left : (t, kind) ∉ f.succs s := fun edge => phi (room.leads _ mem _ edge)
    rw [dueOf_of_mem plan mem, List.count_eq_zero.2 left, eq_comm, List.count_eq_zero]
    intro there
    obtain ⟨⟨x, k⟩, edge, same⟩ := List.mem_map.1 there
    obtain ⟨-, out⟩ | ⟨place, new⟩ := plan.target_cases (intact.live _ _ edge) (intact.ne_entry edge)
    · rw [← (Prod.mk.inj same).1, out] at phi
      exact phi room.intact.exit.2.1
    · rw [← (Prod.mk.inj same).1] at phi
      exact phi (room.fresh _ place new).1
  · rw [dueOf_of_forall fun c mem => image ⟨c, mem⟩]

/-- With the nodes of a callee in place the graph is in order, but for the edges of the callee, which
are due. -/
lemma sound_renameAll (h : Copied callee p.blocks f values f') (plan : Plan callee p) (room : Room p f)
    (intact : callee.Intact) :
    Sound (fun _ => False) (dueOf callee p f) (renameAll p values f') := by
  obtain ⟨nodes, flow⟩ := same_renameAll (p := p) (f := f') h.nodup
  refine room.intact.sameFlow (h.flow.trans flow) (h.shaped.same nodes flow) fun t w mem s kind => ?_
  rw [nodes.phis] at mem
  obtain old | ⟨b, v, place, phi, copy⟩ := h.phis t w mem
  · have there : (f.node? w).isSome := room.intact.isSome_node? (List.mem_append_left _ old)
    rw [h.keys_renameAll_of_isSome there, room.intact.synced t w old,
      count_succs plan room intact (List.ne_nil_of_mem old)]
  · exact h.count_keys plan room intact place phi copy s kind

end Copied

end Avm.Opt.Inlining
