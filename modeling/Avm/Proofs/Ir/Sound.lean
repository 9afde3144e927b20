import Avm.Proofs.Ir.Views

/-!
# Sound function graphs

The invariant of function graphs.  `Func.Shaped` is about what blocks list and how their edges are
linked, and holds from the first step of lifting on.  `Func.Sound` adds what `Func.verify` checks: that
edges are those that the terminator and the handlers call for, and that phis have one input for each
edge.  While a graph is edited both fail for a while, so `Sound` leaves out blocks whose edges are
stale, and asks for inputs that belong to the edges that are due, which may differ from those that are
there.  `Func.Intact` is `Sound` with nothing left out and nothing due.

An invariant that is checked at the end only would not do: blocks that handle exceptions have no phis,
nothing leads to the entry, and the entry goes on to one block; edits rely on each of these.

The main statement is `verify_of_intact`, with `intact_of_verify` for the way back.
-/

namespace Avm

namespace EdgeKind

lemma rank_injective : Function.Injective rank := by
  intro a b eq
  cases a <;> cases b <;> simp_all [rank]

end EdgeKind

end Avm

namespace Avm.Ir

namespace Terminator

variable {t : Terminator} {g g' : Value → Value}

@[simp] lemma targets_mapOperands : (t.mapOperands g).targets = t.targets := by
  cases t <;> rfl

lemma mapOperands_mapOperands : (t.mapOperands g).mapOperands g' = t.mapOperands (g' ∘ g) := by
  cases t <;> simp [mapOperands]

lemma mapOperands_id : t.mapOperands (fun v => v) = t := by
  cases t <;> simp [mapOperands]

/-- The edges by which control leaves the method at a terminator, given the handlers. -/
def leaving (t : Terminator) (handlers : List Nat) : List (BlockId × EdgeKind) :=
  match t with
  | .leave _ => [(Func.exit, .leave)]
  | .raise _ => if handlers.isEmpty then [(Func.exit, .raise)] else []
  | _ => []

@[simp] lemma leaving_mapOperands {hs : List Nat} : (t.mapOperands g).leaving hs = t.leaving hs := by
  cases t <;> rfl

lemma eq_exit_of_mem_leaving {hs : List Nat} {e : BlockId × EdgeKind} (h : e ∈ t.leaving hs) :
    e.1 = Func.exit := by
  cases t with
  | leave value => rw [List.mem_singleton.1 h]
  | raise value =>
    rw [leaving] at h
    split at h
    · rw [List.mem_singleton.1 h]
    · cases h
  | _ => cases h

end Terminator

namespace Func

variable {f f' : Func} {b s t : BlockId} {v : ValueId}

/-- The edges that a terminator and handlers call for. -/
def edgesFrom (catches : List Catch) (t : Terminator) (handlers : List Nat) :
    List (BlockId × EdgeKind) :=
  (handlers.filterMap fun h => catches[h]?.map fun c => (c.target, EdgeKind.raise)).foldl
    (fun es e => if es.contains e then es else es ++ [e]) (t.targets ++ t.leaving handlers)

lemma edgesOf_eq : f.edgesOf b = edgesFrom f.handlers (f.terminator b) (f.handlersOf b) := by
  rw [edgesOf]
  cases here : f.block? b with
  | none => simp [parts_of_isNone here, edgesFrom, Terminator.targets, Terminator.leaving]
  | some x =>
    rw [terminator_of_block? here, handlersOf_of_block? here]
    cases h : x.terminator <;> simp [edgesFrom, Terminator.leaving, h]

lemma mem_foldl_unless {α : Type} [BEq α] [LawfulBEq α] {e : α} {l es : List α} :
    e ∈ l.foldl (fun es e => if es.contains e then es else es ++ [e]) es ↔ e ∈ es ∨ e ∈ l := by
  induction l generalizing es with
  | nil => simp
  | cons x l ih =>
    rw [List.foldl_cons, ih]
    split
    · rename_i there
      rw [List.contains_iff_mem] at there
      constructor
      · rintro (mem | mem)
        · exact .inl mem
        · exact .inr (List.mem_cons_of_mem _ mem)
      · rintro (mem | mem)
        · exact .inl mem
        · obtain rfl | mem := List.mem_cons.1 mem
          · exact .inl there
          · exact .inr mem
    · rw [List.mem_append, List.mem_singleton, List.mem_cons, or_assoc]

lemma mem_edgesFrom {catches : List Catch} {t : Terminator} {handlers : List Nat}
    {e : BlockId × EdgeKind} : e ∈ edgesFrom catches t handlers ↔
      e ∈ t.targets ∨ e ∈ t.leaving handlers ∨
        ∃ h ∈ handlers, ∃ c, catches[h]? = some c ∧ e = (c.target, .raise) := by
  rw [edgesFrom, mem_foldl_unless, List.mem_append, or_assoc]
  refine or_congr_right (or_congr_right ?_)
  simp only [List.mem_filterMap, Option.map_eq_some_iff]
  constructor
  · rintro ⟨h, mem, c, found, rfl⟩
    exact ⟨h, mem, c, found, rfl⟩
  · rintro ⟨h, mem, c, found, rfl⟩
    exact ⟨h, mem, c, found, rfl⟩

@[simp] lemma edgesFrom_mapOperands {catches : List Catch} {t : Terminator} {handlers : List Nat}
    {g : Value → Value} : edgesFrom catches (t.mapOperands g) handlers =
      edgesFrom catches t handlers := by
  simp only [edgesFrom, Terminator.targets_mapOperands, Terminator.leaving_mapOperands]

/-- The edges that the inputs of a phi name. -/
def keys (f : Func) (v : ValueId) : List (BlockId × EdgeKind) :=
  ((f.inputs? v).getD []).map fun i => (i.source, i.kind)

/-- Blocks and nodes agree about which node is where. -/
structure Listed (f : Func) : Prop where
  /-- A node that a block lists names the block. -/
  owned : ∀ b, ∀ v ∈ f.nodesOf b, (f.node? v).map (·.block) = some b
  /-- Phis are phis. -/
  phi : ∀ b, ∀ v ∈ f.phis b, (f.inputs? v).isSome
  /-- Other nodes are not. -/
  plain : ∀ b, ∀ v ∈ f.body b, f.inputs? v = none
  /-- No node is listed twice. -/
  nodup : ∀ b, (f.nodesOf b).Nodup

/-- What holds of a graph apart from what its phis and terminators say. -/
structure Shaped (f : Func) : Prop extends Listed f where
  /-- The entry exists, is empty and is not protected. -/
  entry : (f.block? Func.entry).isSome ∧ f.phis Func.entry = [] ∧ f.body Func.entry = [] ∧
    f.handlersOf Func.entry = []
  /-- The exit exists, is empty, is not protected and leads nowhere. -/
  exit : (f.block? Func.exit).isSome ∧ f.phis Func.exit = [] ∧ f.body Func.exit = [] ∧
    f.handlersOf Func.exit = [] ∧ f.terminator Func.exit = .none
  /-- An edge into a block that exists is known at its other end, as often as it is there. -/
  linked : ∀ t, (f.block? t).isSome → ∀ s kind,
    (f.preds t).count (s, kind) = (f.succs s).count (t, kind)
  /-- Handlers that cover a block exist, and lead to blocks without phis other than the entry. -/
  covered : ∀ b, ∀ h ∈ f.handlersOf b, ∃ c, f.handlers[h]? = some c ∧
    c.target ≠ Func.entry ∧ f.phis c.target = []
  /-- No terminator leads to the entry. -/
  enters : ∀ b, ∀ e ∈ (f.terminator b).targets, e.1 ≠ Func.entry

/-- The graph is in order, but for the edges of blocks that are `stale`, with the inputs of phis for the
edges that are `due` to leave each block. -/
structure Sound (stale : BlockId → Prop) (due : BlockId → List (BlockId × EdgeKind)) (f : Func) :
    Prop extends Shaped f where
  /-- The edges that leave a block are those that it calls for. -/
  wired : ∀ b, ¬stale b → f.succs b = f.edgesOf b
  /-- Edges lead to blocks that exist. -/
  live : ∀ b, ∀ e ∈ f.succs b, (f.block? e.1).isSome
  /-- A phi has an input for each edge into its block. -/
  synced : ∀ t, ∀ v ∈ f.phis t, ∀ s kind, (f.keys v).count (s, kind) = (due s).count (t, kind)
  /-- The entry goes on to one block. -/
  start : ∃ t, f.terminator Func.entry = .goto t

/-- The graph is in order. -/
abbrev Intact (f : Func) : Prop := Sound (fun _ => False) f.succs f

/-- Graphs that list the same nodes in the same blocks. -/
structure SameNodes (f f' : Func) : Prop where
  size : f'.blocks.size = f.blocks.size
  isSome : ∀ b, (f'.block? b).isSome = (f.block? b).isSome
  phis : ∀ b, f'.phis b = f.phis b
  body : ∀ b, f'.body b = f.body b
  catches : f'.handlers = f.handlers
  owner : ∀ v, (f'.node? v).map (·.block) = (f.node? v).map (·.block)
  isPhi : ∀ v, (f'.inputs? v).isSome = (f.inputs? v).isSome

namespace SameNodes

lemma refl (f : Func) : SameNodes f f :=
  ⟨rfl, fun _ => rfl, fun _ => rfl, fun _ => rfl, rfl, fun _ => rfl, fun _ => rfl⟩

lemma trans {f₁ f₂ f₃ : Func} (h : SameNodes f₁ f₂) (h' : SameNodes f₂ f₃) : SameNodes f₁ f₃ where
  size := h'.size.trans h.size
  isSome b := (h'.isSome b).trans (h.isSome b)
  phis b := (h'.phis b).trans (h.phis b)
  body b := (h'.body b).trans (h.body b)
  catches := h'.catches.trans h.catches
  owner v := (h'.owner v).trans (h.owner v)
  isPhi v := (h'.isPhi v).trans (h.isPhi v)

lemma nodesOf (h : SameNodes f f') : f'.nodesOf b = f.nodesOf b := by
  rw [Func.nodesOf, Func.nodesOf, h.phis, h.body]

lemma blockIds (h : SameNodes f f') : f'.blockIds = f.blockIds := by
  rw [Func.blockIds, Func.blockIds, h.size]
  exact List.filter_congr fun b _ => h.isSome b

lemma nodeIds (h : SameNodes f f') : f'.nodeIds = f.nodeIds := by
  rw [Func.nodeIds, Func.nodeIds, h.blockIds]
  exact List.flatMap_congr fun b _ => h.nodesOf

lemma inputs?_eq_none (h : SameNodes f f') : f'.inputs? v = none ↔ f.inputs? v = none := by
  rw [← Option.isNone_iff_eq_none, ← Option.isNone_iff_eq_none, ← Option.not_isSome,
    ← Option.not_isSome, h.isPhi]

end SameNodes

/-- Graphs with the same edges, which may differ in nodes and operands. -/
structure SameFlow (f f' : Func) : Prop where
  size : f'.blocks.size = f.blocks.size
  isSome : ∀ b, (f'.block? b).isSome = (f.block? b).isSome
  catches : f'.handlers = f.handlers
  handlersOf : ∀ b, f'.handlersOf b = f.handlersOf b
  terminator : ∀ b, ∃ g, f'.terminator b = (f.terminator b).mapOperands g
  succs : ∀ b, f'.succs b = f.succs b
  preds : ∀ b, f'.preds b = f.preds b

namespace SameFlow

lemma refl (f : Func) : SameFlow f f :=
  ⟨rfl, fun _ => rfl, rfl, fun _ => rfl, fun _ => ⟨_, Terminator.mapOperands_id.symm⟩, fun _ => rfl,
    fun _ => rfl⟩

lemma trans {f₁ f₂ f₃ : Func} (h : SameFlow f₁ f₂) (h' : SameFlow f₂ f₃) : SameFlow f₁ f₃ where
  size := h'.size.trans h.size
  isSome b := (h'.isSome b).trans (h.isSome b)
  catches := h'.catches.trans h.catches
  handlersOf b := (h'.handlersOf b).trans (h.handlersOf b)
  terminator b := by
    obtain ⟨g, first⟩ := h.terminator b
    obtain ⟨g', second⟩ := h'.terminator b
    exact ⟨g' ∘ g, by rw [second, first, Terminator.mapOperands_mapOperands]⟩
  succs b := (h'.succs b).trans (h.succs b)
  preds b := (h'.preds b).trans (h.preds b)

lemma targets (h : SameFlow f f') (b : BlockId) :
    (f'.terminator b).targets = (f.terminator b).targets := by
  obtain ⟨g, same⟩ := h.terminator b
  rw [same, Terminator.targets_mapOperands]

lemma edgesOf (h : SameFlow f f') (b : BlockId) : f'.edgesOf b = f.edgesOf b := by
  obtain ⟨g, same⟩ := h.terminator b
  rw [edgesOf_eq, edgesOf_eq, h.catches, h.handlersOf, same, edgesFrom_mapOperands]

end SameFlow

/-- Graphs that differ in operands, and in what no edge depends on. -/
structure Alike (f f' : Func) : Prop extends SameNodes f f', SameFlow f f' where
  keys : ∀ v, f'.keys v = f.keys v

lemma Listed.sameNodes (h : Listed f) (same : SameNodes f f') : Listed f' where
  owned b v mem := by
    rw [same.nodesOf] at mem
    rw [same.owner]
    exact h.owned b v mem
  phi b v mem := by
    rw [same.phis] at mem
    rw [same.isPhi]
    exact h.phi b v mem
  plain b v mem := by
    rw [same.body] at mem
    rw [same.inputs?_eq_none]
    exact h.plain b v mem
  nodup b := by
    rw [same.nodesOf]
    exact h.nodup b

lemma Listed.eq_of_mem_nodesOf (h : Listed f) (hb : v ∈ f.nodesOf b) (ht : v ∈ f.nodesOf t) : b = t :=
  Option.some.inj ((h.owned b v hb).symm.trans (h.owned t v ht))

lemma Listed.eq_of_mem_phis (h : Listed f) (hb : v ∈ f.phis b) (ht : v ∈ f.phis t) : b = t :=
  h.eq_of_mem_nodesOf (List.mem_append_left _ hb) (List.mem_append_left _ ht)

lemma Listed.eq_of_mem_body (h : Listed f) (hb : v ∈ f.body b) (ht : v ∈ f.body t) : b = t :=
  h.eq_of_mem_nodesOf (List.mem_append_right _ hb) (List.mem_append_right _ ht)

lemma Listed.nodup_phis (h : Listed f) (b : BlockId) : (f.phis b).Nodup :=
  (List.nodup_append.1 (h.nodup b)).1

/-- Whatever keeps the nodes and the protection of blocks keeps the shape, if it keeps edges linked and
away from the entry. -/
lemma Shaped.sameNodes (h : Shaped f) (same : SameNodes f f')
    (entry : f'.handlersOf Func.entry = [])
    (exit : f'.handlersOf Func.exit = [] ∧ f'.terminator Func.exit = .none)
    (covered : ∀ b, ∀ k ∈ f'.handlersOf b, ∃ c, f.handlers[k]? = some c ∧
      c.target ≠ Func.entry ∧ f.phis c.target = [])
    (linked : ∀ t, (f.block? t).isSome → ∀ s kind,
      (f'.preds t).count (s, kind) = (f'.succs s).count (t, kind))
    (enters : ∀ b, ∀ e ∈ (f'.terminator b).targets, e.1 ≠ Func.entry) : Shaped f' :=
  { h.toListed.sameNodes same with
    entry := by
      rw [same.isSome, same.phis, same.body]
      obtain ⟨live, phis, body, -⟩ := h.entry
      exact ⟨live, phis, body, entry⟩
    exit := by
      rw [same.isSome, same.phis, same.body]
      obtain ⟨live, phis, body, -⟩ := h.exit
      exact ⟨live, phis, body, exit⟩
    linked := fun t live => linked t (same.isSome t ▸ live)
    covered := fun b k mem => by
      obtain ⟨c, found, inside, none⟩ := covered b k mem
      exact ⟨c, by rw [same.catches, found], inside, by rw [same.phis, none]⟩
    enters := enters }

/-- A block handles exceptions of some block. -/
def Caught (f : Func) (t : BlockId) : Prop :=
  ∃ b, ∃ k ∈ f.handlersOf b, ∃ c, f.handlers[k]? = some c ∧ c.target = t

lemma Shaped.phis_of_caught (h : Shaped f) (caught : f.Caught t) : f.phis t = [] := by
  obtain ⟨b, k, mem, c, found, rfl⟩ := caught
  obtain ⟨c', found', -, none⟩ := h.covered b k mem
  rw [found, Option.some.injEq] at found'
  rw [found', none]

lemma Shaped.sameFlow (h : Shaped f) (same : SameFlow f f') (listed : Listed f')
    (entry : f'.phis Func.entry = [] ∧ f'.body Func.entry = [])
    (exit : f'.phis Func.exit = [] ∧ f'.body Func.exit = [])
    (caught : ∀ t, f.Caught t → f'.phis t = []) : Shaped f' :=
  { listed with
    entry := by
      rw [same.isSome, same.handlersOf]
      exact ⟨h.entry.1, entry.1, entry.2, h.entry.2.2.2⟩
    exit := by
      obtain ⟨g, operands⟩ := same.terminator Func.exit
      rw [same.isSome, same.handlersOf, operands, h.exit.2.2.2.2]
      exact ⟨h.exit.1, exit.1, exit.2, h.exit.2.2.2.1, rfl⟩
    linked := fun t live s kind => by
      rw [same.isSome] at live
      rw [same.preds, same.succs]
      exact h.linked t live s kind
    covered := fun b k mem => by
      rw [same.handlersOf] at mem
      obtain ⟨c, found, inside, -⟩ := h.covered b k mem
      exact ⟨c, by rw [same.catches, found], inside, caught _ ⟨b, k, mem, c, found, rfl⟩⟩
    enters := fun b e mem => by
      rw [same.targets] at mem
      exact h.enters b e mem }

/-- Whatever keeps the edges keeps a graph in order, if it keeps the shape and phis have the right
inputs. -/
lemma Sound.sameFlow {stale : BlockId → Prop} {due due' : BlockId → List (BlockId × EdgeKind)}
    (h : Sound stale due f) (same : SameFlow f f') (shaped : Shaped f')
    (synced : ∀ t, ∀ v ∈ f'.phis t, ∀ s kind,
      (f'.keys v).count (s, kind) = (due' s).count (t, kind)) : Sound stale due' f' :=
  { shaped with
    wired := fun b fresh => by
      rw [same.succs, same.edgesOf]
      exact h.wired b fresh
    live := fun b e mem => by
      rw [same.succs] at mem
      rw [same.isSome]
      exact h.live b e mem
    synced := synced
    start := by
      obtain ⟨t, here⟩ := h.start
      obtain ⟨g, operands⟩ := same.terminator Func.entry
      exact ⟨t, by rw [operands, here]; rfl⟩ }

lemma Shaped.same (h : Shaped f) (nodes : SameNodes f f') (flow : SameFlow f f') : Shaped f' := by
  refine h.sameFlow flow (h.toListed.sameNodes nodes) ?_ ?_ ?_
  · rw [nodes.phis, nodes.body]
    exact ⟨h.entry.2.1, h.entry.2.2.1⟩
  · rw [nodes.phis, nodes.body]
    exact ⟨h.exit.2.1, h.exit.2.2.1⟩
  · intro t caught
    rw [nodes.phis, h.phis_of_caught caught]

lemma Shaped.alike (h : Shaped f) (alike : Alike f f') : Shaped f' :=
  h.same alike.toSameNodes alike.toSameFlow

lemma Sound.alike {stale : BlockId → Prop} {due : BlockId → List (BlockId × EdgeKind)}
    (h : Sound stale due f) (alike : Alike f f') : Sound stale due f' := by
  refine h.sameFlow alike.toSameFlow (h.toShaped.alike alike) fun t v mem s kind => ?_
  rw [alike.phis] at mem
  rw [alike.keys]
  exact h.synced t v mem s kind

/-- Only what is due to blocks with phis matters, and less is asked of more stale blocks. -/
lemma Sound.mono {stale stale' : BlockId → Prop} {due due' : BlockId → List (BlockId × EdgeKind)}
    (h : Sound stale due f) (more : ∀ b, stale b → stale' b)
    (same : ∀ t, f.phis t ≠ [] → ∀ s kind, (due s).count (t, kind) = (due' s).count (t, kind)) :
    Sound stale' due' f :=
  { h with
    wired := fun b fresh => h.wired b fun old => fresh (more b old)
    synced := fun t v mem s kind => by
      rw [← same t (List.ne_nil_of_mem mem)]
      exact h.synced t v mem s kind }

section Verify

/-- The numbers that an edge is ordered by. -/
def edgeRank (e : BlockId × EdgeKind) : Nat × Nat × Nat := (e.1, e.2.rank)

lemma edgeLe_iff {a b : BlockId × EdgeKind} : edgeLe a b = true ↔
    (edgeRank a).1 < (edgeRank b).1 ∨ (edgeRank a).1 = (edgeRank b).1 ∧
      ((edgeRank a).2.1 < (edgeRank b).2.1 ∨ (edgeRank a).2.1 = (edgeRank b).2.1 ∧
        (edgeRank a).2.2 ≤ (edgeRank b).2.2) := by
  simp only [edgeLe, EdgeKind.ble, Bool.or_eq_true, Bool.and_eq_true, decide_eq_true_eq, beq_iff_eq,
    edgeRank]

lemma edgeLe_antisymm {a b : BlockId × EdgeKind} (h : edgeLe a b = true) (h' : edgeLe b a = true) :
    a = b := by
  rw [edgeLe_iff] at h h'
  have block : (edgeRank a).1 = (edgeRank b).1 := by omega
  have kind : (edgeRank a).2 = (edgeRank b).2 := Prod.ext (by omega) (by omega)
  exact Prod.ext block (EdgeKind.rank_injective kind)

lemma perm_insertEdge (e : BlockId × EdgeKind) (es : List (BlockId × EdgeKind)) :
    (insertEdge e es).Perm (e :: es) := by
  induction es with
  | nil => exact List.Perm.refl _
  | cons x es ih =>
    rw [insertEdge]
    split
    · exact List.Perm.refl _
    · exact (ih.cons x).trans (List.Perm.swap e x es)

lemma perm_sortEdges (es : List (BlockId × EdgeKind)) : (sortEdges es).Perm es := by
  induction es with
  | nil => exact List.Perm.refl _
  | cons e es ih => exact (perm_insertEdge e (sortEdges es)).trans (ih.cons e)

lemma pairwise_insertEdge {e : BlockId × EdgeKind} {es : List (BlockId × EdgeKind)}
    (sorted : es.Pairwise fun a b => edgeLe a b = true) :
    (insertEdge e es).Pairwise fun a b => edgeLe a b = true := by
  induction es with
  | nil => exact List.pairwise_singleton _ _
  | cons x es ih =>
    obtain ⟨first, rest⟩ := List.pairwise_cons.1 sorted
    rw [insertEdge]
    split
    · rename_i le
      refine List.pairwise_cons.2 ⟨fun y mem => ?_, sorted⟩
      obtain rfl | mem := List.mem_cons.1 mem
      · exact le
      · have := first y mem
        rw [edgeLe_iff] at *
        omega
    · rename_i gt
      refine List.pairwise_cons.2 ⟨fun y mem => ?_, ih rest⟩
      obtain rfl | mem := List.mem_cons.1 ((perm_insertEdge e es).mem_iff.1 mem)
      · rw [edgeLe_iff] at *
        omega
      · exact first y mem

lemma pairwise_sortEdges (es : List (BlockId × EdgeKind)) :
    (sortEdges es).Pairwise fun a b => edgeLe a b = true := by
  induction es with
  | nil => exact List.Pairwise.nil
  | cons e es ih => exact pairwise_insertEdge ih

lemma sortEdges_eq_iff {a b : List (BlockId × EdgeKind)} : sortEdges a = sortEdges b ↔ a.Perm b := by
  constructor
  · intro same
    exact (perm_sortEdges a).symm.trans (same ▸ perm_sortEdges b)
  · intro perm
    refine List.Perm.eq_of_pairwise (fun x y _ _ => edgeLe_antisymm) (pairwise_sortEdges a)
      (pairwise_sortEdges b) ?_
    exact (perm_sortEdges a).trans (perm.trans (perm_sortEdges b).symm)

lemma verifyPhi_eq_ok {x : Block} : f.verifyPhi b x v = .ok () ↔
    (f.inputs? v).isSome ∧ (f.keys v).Perm x.preds := by
  rw [verifyPhi]
  cases inputs : f.inputs? v with
  | none => simp
  | some is =>
    simp only [Option.isSome_some, true_and, keys, inputs, Option.getD_some, ← sortEdges_eq_iff]
    split
    · rename_i same
      simp [same]
    · rename_i other
      simp [other]

lemma verifyBlock_eq_ok {x : Block} : f.verifyBlock b x = .ok () ↔
    x.succs = f.edgesOf b ∧ (∀ e ∈ x.succs, (b, e.2) ∈ f.preds e.1) ∧
      (∀ v ∈ x.nodeIds, (f.node? v).map (·.block) = some b) ∧
      ∀ v ∈ x.phis, (f.inputs? v).isSome ∧ (f.keys v).Perm x.preds := by
  rw [verifyBlock]
  split
  · rename_i stale
    simp [stale]
  · rename_i wired
    rw [ne_eq, not_not] at wired
    refine Iff.trans ?_ (and_iff_right wired).symm
    cases links : x.succs.find? fun e => !(f.preds e.1).contains (b, e.2) with
    | some e =>
      obtain ⟨absent, mem⟩ := List.find?_eq_some_iff_append.1 links
      simp only [Bool.not_eq_true', List.contains_eq_mem, decide_eq_false_iff_not] at absent
      have there := List.mem_of_find?_eq_some links
      simp only [reduceCtorEq, false_iff, throw_eq_error]
      exact fun all => absent (all.1 e there)
    | none =>
      have linked : ∀ e ∈ x.succs, (b, e.2) ∈ f.preds e.1 := by
        intro e mem
        simpa using List.find?_eq_none.1 links e mem
      refine Iff.trans ?_ (and_iff_right linked).symm
      cases owners : x.nodeIds.find? fun v => (f.node? v).map (·.block) != some b with
      | some v =>
        have foreign := List.find?_some owners
        have there := List.mem_of_find?_eq_some owners
        simp only [bne_iff_ne, ne_eq] at foreign
        simp only [reduceCtorEq, false_iff, throw_eq_error]
        exact fun all => foreign (all.1 v there)
      | none =>
        have owned : ∀ v ∈ x.nodeIds, (f.node? v).map (·.block) = some b := by
          intro v mem
          simpa using List.find?_eq_none.1 owners v mem
        refine Iff.trans ?_ (and_iff_right owned).symm
        simp only [forM_eq_ok, verifyPhi_eq_ok]

lemma verify_eq_ok : f.verify = .ok () ↔
    ∀ b x, f.block? b = some x → f.verifyBlock b x = .ok () := by
  rw [verify, forM_eq_ok]
  constructor
  · intro all b x here
    have := all b (mem_blockIds.2 (here ▸ rfl))
    rwa [here] at this
  · intro all b _
    split
    · rename_i x here
      exact all b x here
    · rfl

lemma wired_of_verify (verified : f.verify = .ok ()) (b : BlockId) : f.succs b = f.edgesOf b := by
  cases here : f.block? b with
  | none =>
    rw [edgesOf, here, succs, here]
    rfl
  | some x =>
    rw [succs_of_block? here]
    exact (verifyBlock_eq_ok.1 (verify_eq_ok.1 verified b x here)).1

lemma verify_of_intact (h : Intact f) : f.verify = .ok () := by
  refine verify_eq_ok.2 fun b x here => verifyBlock_eq_ok.2 ⟨?_, ?_, ?_, ?_⟩
  · rw [← succs_of_block? here]
    exact h.wired b id
  · intro e mem
    rw [← succs_of_block? here] at mem
    rw [← List.count_pos_iff, h.linked e.1 (h.live b e mem), List.count_pos_iff]
    exact mem
  · intro v mem
    refine h.owned b v ?_
    rwa [nodesOf, phis_of_block? here, body_of_block? here]
  · intro v mem
    rw [← phis_of_block? here] at mem
    refine ⟨h.phi b v mem, List.perm_iff_count.2 fun e => ?_⟩
    rw [← preds_of_block? here, h.linked b (here ▸ rfl)]
    exact h.synced b v mem e.1 e.2

lemma intact_of_verify (h : Shaped f) (start : ∃ t, f.terminator Func.entry = .goto t)
    (verified : f.verify = .ok ()) : Intact f := by
  have checked {b x} (here : f.block? b = some x) :=
    verifyBlock_eq_ok.1 (verify_eq_ok.1 verified b x here)
  refine { h with wired := fun b _ => wired_of_verify verified b, live := ?_, synced := ?_, start := start }
  · intro b e mem
    obtain ⟨x, here⟩ := Option.isSome_iff_exists.1 (isSome_of_mem_succs mem)
    rw [succs_of_block? here] at mem
    exact isSome_of_mem_preds ((checked here).2.1 e mem)
  · intro t v mem s kind
    have there : v ∈ f.nodesOf t := List.mem_append_left _ mem
    obtain ⟨x, here⟩ := Option.isSome_iff_exists.1 (isSome_of_mem_nodesOf there)
    rw [phis_of_block? here] at mem
    rw [← h.linked t (here ▸ rfl), preds_of_block? here]
    exact ((checked here).2.2.2 v mem).2.count_eq _

end Verify

end Func

end Avm.Ir
