import Avm.Proofs.Ir.Outcomes
import Avm.Proofs.Ir.Removing

/-!
# Graphs age

Blocks and nodes are numbered, and what is removed leaves a gap that nothing fills: every edit adds at the
end or takes away.  `Func.Ages` says so of two graphs.  It is an order in which no edit goes back, so what
was removed on the way is missing at the end, and what was added makes the graph longer for good.

The main statements are `Edit.ages_setTerminator` and its like, that no edit goes back, and
`Edit.splitEdge_grows` and `Edit.splitBlock_grows`, that a block is split for good.
-/

namespace Avm.Ir

namespace Func

variable {f g h : Func} {b : BlockId} {v : ValueId} {u : Block → Block}

/-- The second graph is the first one after a while: no place is taken away, and no gap is filled. -/
structure Ages (f g : Func) : Prop where
  blocks : f.blocks.size ≤ g.blocks.size
  nodes : f.nodes.size ≤ g.nodes.size
  block_of : ∀ b < f.blocks.size, (g.block? b).isSome → (f.block? b).isSome
  node_of : ∀ v < f.nodes.size, (g.node? v).isSome → (f.node? v).isSome

namespace Ages

lemma refl (f : Func) : Ages f f := ⟨Nat.le_refl _, Nat.le_refl _, fun _ _ there => there, fun _ _ there => there⟩

lemma trans (first : Ages f g) (second : Ages g h) : Ages f h where
  blocks := first.blocks.trans second.blocks
  nodes := first.nodes.trans second.nodes
  block_of b inside there :=
    first.block_of b inside (second.block_of b (inside.trans_le first.blocks) there)
  node_of v inside there := first.node_of v inside (second.node_of v (inside.trans_le first.nodes) there)

instance : IsTrans Func Ages := ⟨fun _ _ _ => trans⟩

lemma of_places (blocks : g.blocks.size = f.blocks.size) (nodes : g.nodes.size = f.nodes.size)
    (block : ∀ b, (g.block? b).isSome = (f.block? b).isSome)
    (node : ∀ v, (g.node? v).isSome = (f.node? v).isSome) : Ages f g where
  blocks := blocks.ge
  nodes := nodes.ge
  block_of b _ there := by rwa [block] at there
  node_of v _ there := by rwa [node] at there

lemma of_eq (blocks : g.blocks = f.blocks) (nodes : g.nodes = f.nodes) : Ages f g :=
  of_places (congrArg _ blocks) (congrArg _ nodes) (fun b => by rw [block?, blocks, block?])
    fun v => by rw [node?, nodes, node?]

lemma foldl {α : Type} {step : Func → α → Func} (each : ∀ f a, Ages f (step f a)) (l : List α) (f : Func) :
    Ages f (l.foldl step f) := by
  induction l generalizing f with
  | nil => exact refl f
  | cons a l ih => exact (each f a).trans (ih _)

end Ages

section Changing

lemma ages_modifyBlock (f : Func) (b : BlockId) (u : Block → Block) : Ages f (f.modifyBlock b u) :=
  .of_places size_modifyBlock rfl (fun _ => isSome_block?_modifyBlock) fun _ => rfl

lemma ages_modifyNode (f : Func) (v : ValueId) (u : Node → Node) : Ages f (f.modifyNode v u) := by
  refine .of_places rfl size_nodes_modifyNode (fun _ => rfl) fun w => ?_
  rw [node?_modifyNode]
  split
  · exact Option.isSome_map
  · rfl

lemma ages_modifyKind (f : Func) (v : ValueId) (u : NodeKind → NodeKind) : Ages f (f.modifyKind v u) :=
  ages_modifyNode f v _

lemma ages_modifyPhis (f : Func) (vs : List ValueId) (u : List PhiInput → List PhiInput) :
    Ages f (f.modifyPhis vs u) := .foldl (fun f v => ages_modifyKind f v _) vs f

lemma ages_reconcilePhis (f : Func) (t s : BlockId) (kinds : List EdgeKind) :
    Ages f (f.reconcilePhis t s kinds) := ages_modifyPhis f _ _

lemma ages_dropLinks (f : Func) (b : BlockId) (es : List (BlockId × EdgeKind)) : Ages f (f.dropLinks b es) := by
  rw [dropLinks]
  exact .foldl (fun f e => ages_modifyBlock f e.1 _) es f

lemma ages_addLinks (f : Func) (b : BlockId) (es : List (BlockId × EdgeKind)) : Ages f (f.addLinks b es) := by
  rw [addLinks]
  exact .foldl (fun f e => ages_modifyBlock f e.1 _) es f

lemma ages_syncPhis (f : Func) (b : BlockId) (es : List (BlockId × EdgeKind)) (ts : List BlockId) :
    Ages f (f.syncPhis b es ts) := .foldl (fun f t => ages_reconcilePhis f t b _) ts f

lemma ages_rewire (f : Func) (b : BlockId) : Ages f (f.rewire b) := by
  rw [rewire_eq]
  have dropped := ages_dropLinks f b (f.succs b)
  have added := dropped.trans (ages_addLinks _ b (f.edgesOf b))
  exact (added.trans (ages_syncPhis _ b _ _)).trans (ages_modifyBlock _ b _)

lemma ages_reend (f : Func) (b : BlockId) (t : Terminator) (hs : List Nat) : Ages f (f.reend b t hs) :=
  (ages_modifyBlock f b _).trans (ages_rewire _ b)

lemma ages_replaceUses (f : Func) (v : ValueId) (new : Value) : Ages f (f.replaceUses v new) := by
  refine .of_places (Array.size_map ..) (Array.size_map ..) (fun b => ?_) fun w => ?_
  · rw [(alike_replaceUses v new).toSameNodes.isSome]
  · have owner := (alike_replaceUses (f := f) v new).owner w
    rw [← Option.isSome_map (f := (·.block)), owner, Option.isSome_map]

lemma ages_dropNode (f : Func) (v : ValueId) : Ages f (f.dropNode v) where
  blocks := sameFlow_dropNode.size.ge
  nodes := by
    rw [dropNode]
    split
    · rfl
    · exact (Array.size_setIfInBounds ..).ge
  block_of b _ there := by rwa [sameFlow_dropNode.isSome] at there
  node_of w _ there := by
    rw [node?_dropNode] at there
    split at there
    · cases there
    · exact there

lemma not_ages_dropNode (live : (f.node? v).isSome) : ¬Ages (f.dropNode v) f := by
  intro back
  have inside := (lt_size_of_node? live).trans_le (ages_dropNode f v).nodes
  have there := back.node_of v inside live
  rw [node?_dropNode, if_pos rfl] at there
  cases there

lemma ages_pushBlock (f : Func) : Ages f (f.pushBlock {}) where
  blocks := by
    rw [size_pushBlock]
    exact Nat.le_succ _
  nodes := Nat.le_refl _
  block_of b inside there := by
    rw [block?_pushBlock, if_neg inside.ne] at there
    exact there
  node_of v _ there := there

lemma ages_putNode (f : Func) (b : BlockId) (index : Nat) (kind : NodeKind) :
    Ages f (f.putNode b index kind) where
  blocks := sameFlow_putNode.size.ge
  nodes := (Nat.le_succ _).trans (Array.size_push ..).ge
  block_of t _ there := by rwa [sameFlow_putNode.isSome] at there
  node_of v inside there := by
    rw [node?_putNode, if_neg inside.ne] at there
    exact there

lemma ages_moveTo (f : Func) (v : ValueId) (source b : BlockId) (index : Nat) :
    Ages f (f.moveTo v source b index) :=
  ((ages_modifyBlock f source _).trans (ages_modifyBlock _ b _)).trans (ages_modifyNode _ v _)

lemma ages_clearBlock (f : Func) (b : BlockId) : Ages f (f.clearBlock b) where
  blocks := (Array.size_setIfInBounds ..).ge
  nodes := Nat.le_refl _
  block_of t _ there := by
    rw [block?_clearBlock] at there
    split at there
    · cases there
    · exact there
  node_of _ _ there := there

lemma ages_unlink (f : Func) (b : BlockId) (es : List (BlockId × EdgeKind)) : Ages f (f.unlink b es) := by
  rw [unlink]
  exact .foldl (fun f e => (ages_modifyBlock f e.1 _).trans (ages_reconcilePhis _ e.1 b [])) es f

lemma ages_forget (f : Func) (b : BlockId) (es : List (BlockId × EdgeKind)) : Ages f (f.forget b es) := by
  rw [forget]
  exact .foldl (fun f e => ages_modifyBlock f e.1 _) es f

lemma ages_eraseNodes (f : Func) (vs : List ValueId) : Ages f (f.eraseNodes vs) where
  blocks := Nat.le_refl _
  nodes := by
    show f.nodes.size ≤ (vs.foldl (fun (ns : Array (Option Node)) v => ns.setIfInBounds v none) f.nodes).size
    refine List.foldlRecOn (motive := fun (ns : Array (Option Node)) => f.nodes.size ≤ ns.size) vs _ (Nat.le_refl _) ?_
    intro ns grown v _
    exact grown.trans (Array.size_setIfInBounds ..).ge
  block_of _ _ there := there
  node_of v _ there := by
    rw [node?_eraseNodes] at there
    split at there
    · cases there
    · exact there

lemma ages_without (f : Func) (b : BlockId) (x : Block) : Ages f (f.without b x) := by
  have cleared := (ages_clearBlock f b).trans (ages_unlink _ b x.succs)
  exact (cleared.trans (ages_forget _ b x.preds)).trans (ages_eraseNodes _ x.nodeIds)

lemma not_ages_of_pushBlock (grown : Ages (f.pushBlock {}) g) : ¬Ages g f := by
  intro back
  have more := grown.blocks.trans back.blocks
  rw [size_pushBlock] at more
  exact Nat.not_succ_le_self _ more

lemma not_ages_without {x : Block} (live : (f.block? b).isSome) : ¬Ages (f.without b x) f := by
  intro back
  have inside := (lt_size_of_block? live).trans_le (ages_without f b x).blocks
  have there := back.block_of b inside live
  rw [isSome_without, decide_eq_false (not_not.2 rfl)] at there
  cases there

end Changing

end Func

namespace Edit

open Func

variable {α β : Type} {f f₀ : Func} {b : BlockId} {v : ValueId} {x : Edit α} {g : α → Edit β}

/-- The edit does not go back: what comes of a graph still comes of it. -/
def Ages (x : Edit α) : Prop := ∀ f₀, x.Retains (Func.Ages f₀)

lemma ages_of_run (h : ∀ f a f', x.run f = .ok a f' → Func.Ages f f') : x.Ages :=
  fun _ => retains_of_run fun f a f' start run => start.trans (h f a f' run)

lemma Ages.of_run {a : α} {f' : Func} (h : x.Ages) (run : x.run f = .ok a f') : Func.Ages f f' :=
  (h f).of_ok (.refl f) run

lemma ages_pure {a : α} : (pure a : Edit α).Ages := fun _ => retains_pure

lemma Ages.bind (first : x.Ages) (next : ∀ a, (g a).Ages) : (x >>= g).Ages :=
  fun f₀ => (first f₀).bind fun a => next a f₀

lemma ages_get {g : Func → Edit α} (next : ∀ f, (g f).Ages) : (get >>= g).Ages :=
  fun f₀ => retains_get fun f start => next f f₀ f start

lemma ages_modify {u : Func → Func} (step : ∀ f, Func.Ages f (u f)) : (modify u : Edit PUnit).Ages :=
  fun _ => retains_modify fun f start => start.trans (step f)

lemma ages_block : (block b).Ages := fun _ => retains_block

lemma ages_modifyBlock {u : Block → Block} : (modifyBlock b u).Ages :=
  ages_block.bind fun _ => ages_modify fun f => Func.ages_modifyBlock f b u

lemma ages_addBlock : addBlock.Ages := by
  refine ages_of_run fun f a f' run => ?_
  obtain ⟨-, rfl⟩ := addBlock_eq_ok.1 run
  exact ages_pushBlock f

lemma ages_addHandler {c : Catch} : (addHandler c).Ages := by
  refine ages_of_run fun f a f' run => ?_
  obtain ⟨-, rfl⟩ := addHandler_eq_ok.1 run
  exact .of_eq rfl rfl

lemma ages_reserveRegisters {n : Nat} : (reserveRegisters n).Ages := by
  refine ages_of_run fun f a f' run => ?_
  obtain ⟨-, rfl⟩ := reserveRegisters_eq_ok.1 run
  exact .of_eq rfl rfl

lemma ages_insertNode {index : Nat} {kind : NodeKind} : (insertNode b index kind).Ages := by
  refine ages_of_run fun f a f' run => ?_
  obtain ⟨-, -, -, rfl⟩ := insertNode_eq_ok.1 run
  exact ages_putNode f b index kind

lemma ages_appendNode {kind : NodeKind} : (appendNode b kind).Ages :=
  ages_block.bind fun _ => ages_insertNode

lemma ages_removeNode : (removeNode v).Ages := by
  refine ages_of_run fun f a f' run => ?_
  obtain ⟨-, rfl⟩ := removeNode_eq_ok.1 run
  exact ages_dropNode f v

lemma ages_setTerminator {t : Terminator} : (setTerminator b t).Ages := by
  refine ages_of_run fun f a f' run => ?_
  obtain ⟨-, -, rfl⟩ := setTerminator_eq_ok.1 run
  exact ages_reend f b t _

lemma ages_setHandlers {hs : List Nat} : (setHandlers b hs).Ages := by
  refine ages_of_run fun f a f' run => ?_
  obtain ⟨-, -, rfl⟩ := setHandlers_eq_ok.1 run
  exact ages_reend f b _ hs

/-- The edit adds a block for good. -/
def Grows (x : Edit α) : Prop := ∀ f, x.Meets f (fun _ f' => Func.Ages (f.pushBlock {}) f') fun _ => True

lemma Grows.ages (h : x.Grows) : x.Ages :=
  ages_of_run fun f _ _ run => (ages_pushBlock f).trans ((h f).of_ok run)

lemma grows_addBlock {g : BlockId → Edit α} (next : ∀ new, (g new).Ages) : (addBlock >>= g).Grows := by
  refine fun f => meets_of_forall (fun a f' run => ?_) fun _ _ _ => trivial
  obtain ⟨new, f₁, first, rest⟩ := bind_eq_ok.1 run
  obtain ⟨-, rfl⟩ := addBlock_eq_ok.1 first
  exact (next new).of_run rest

lemma splitEdge_grows {source target : BlockId} {kind : EdgeKind} : (splitEdge source target kind).Grows := by
  refine fun f => meets_get ?_
  split
  · exact meets_throw_bind trivial
  · refine grows_addBlock (fun middle => ?_) f
    refine ages_block.bind fun x => ages_modifyBlock.bind fun _ => ages_setHandlers.bind fun _ => ?_
    refine (ages_modify fun f => ages_modifyPhis f _ _).bind fun _ => ages_setTerminator.bind fun _ => ?_
    exact ages_block.bind fun y => ages_setTerminator.bind fun _ => ages_pure

lemma splitBlock_grows {index : Nat} : (splitBlock b index).Grows := by
  refine fun f => meets_block trivial fun x _ => ?_
  split
  · exact meets_throw_bind trivial
  · refine grows_addBlock (fun tail => ?_) f
    refine ages_modifyBlock.bind fun _ => ages_setHandlers.bind fun _ => ages_get fun f => ?_
    refine ages_modifyBlock.bind fun _ => ?_
    refine (ages_modify fun f => .foldl (fun f v => ages_modifyNode f v _) _ f).bind fun _ => ?_
    refine ages_modifyBlock.bind fun _ => ages_modifyBlock.bind fun _ => ?_
    refine (ages_modify fun f => .foldl (fun f e => ages_modifyPhis f _ _) _ f).bind fun _ => ?_
    refine ages_block.bind fun y => ages_modifyBlock.bind fun _ => ages_setTerminator.bind fun _ => ?_
    exact ages_setTerminator.bind fun _ => ages_pure

end Edit

end Avm.Ir
