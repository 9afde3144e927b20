import Avm.Proofs.Ir.Sound

/-!
# Replacing operands and dropping nodes

The edits that leave control flow alone: operands are replaced, and nodes are dropped.  Both keep a
graph in order, whatever is replaced and whichever nodes are dropped, so everything that is made of
them does (`Trims`), and with it the three ways to clean a graph up.

The main statements are `Trims.shaped` and `Trims.sound`.
-/

namespace Avm.Ir

namespace NodeKind

variable {k : NodeKind} {g : Value → Value}

/-- The edges that the inputs of a phi name. -/
def keys (k : NodeKind) : Option (List (BlockId × EdgeKind)) :=
  k.inputs?.map fun is => is.map fun i => (i.source, i.kind)

@[simp] lemma keys_mapOperands : (k.mapOperands g).keys = k.keys := by
  cases k with
  | phi inputs => simp [keys, mapOperands, inputs?]
  | _ => rfl

end NodeKind

namespace Func

variable {f f' : Func} {b t : BlockId} {v w : ValueId}

section Operands

lemma keys_eq : f.keys v = (((f.node? v).bind (·.kind.keys))).getD [] := by
  rw [keys, inputs?_eq]
  cases f.node? v with
  | none => rfl
  | some n => cases h : n.kind.inputs? <;> simp [NodeKind.keys, h]

lemma isSome_inputs?_eq : (f.inputs? v).isSome = ((f.node? v).bind (·.kind.keys)).isSome := by
  rw [inputs?_eq]
  cases f.node? v with
  | none => rfl
  | some n => simp [NodeKind.keys]

/-- Graphs with the same blocks but for operands, and nodes that differ in operands, are alike. -/
lemma alike_of_nodes (size : f'.blocks.size = f.blocks.size) (catches : f'.handlers = f.handlers)
    (blocks : ∀ b, ∃ (g : Value → Value) (d : Block → Nat), f'.block? b = (f.block? b).map fun x =>
      { x with terminator := x.terminator.mapOperands g, scopeDepth := d x })
    (nodes : ∀ v, (f'.node? v).map (fun n => (n.block, n.kind.keys)) =
      (f.node? v).map fun n => (n.block, n.kind.keys)) : Alike f f' := by
  have part {γ : Type} (p : Block → γ) (same : ∀ x g d,
      p { x with terminator := x.terminator.mapOperands g, scopeDepth := d } = p x) (b) :
      (f'.block? b).map p = (f.block? b).map p := by
    obtain ⟨g, d, eq⟩ := blocks b
    rw [eq, Option.map_map]
    congr 1
    funext x
    exact same x g (d x)
  have owner (v) : (f'.node? v).map (·.block) = (f.node? v).map (·.block) := by
    have := congrArg (Option.map Prod.fst) (nodes v)
    rwa [Option.map_map, Option.map_map] at this
  have edges (v) : (f'.node? v).bind (·.kind.keys) = (f.node? v).bind (·.kind.keys) := by
    have := congrArg (Option.bind · Prod.snd) (nodes v)
    simpa only [Option.bind_map, Function.comp_def] using this
  have isSome (b) : (f'.block? b).isSome = (f.block? b).isSome := by
    obtain ⟨g, d, eq⟩ := blocks b
    rw [eq, Option.isSome_map]
  have nodes : SameNodes f f' := by
    refine ⟨size, isSome, fun b => ?_, fun b => ?_, catches, owner, fun v => ?_⟩
    · rw [phis, part Block.phis fun _ _ _ => rfl]
      rfl
    · rw [body, part Block.body fun _ _ _ => rfl]
      rfl
    · rw [isSome_inputs?_eq, isSome_inputs?_eq, edges]
  have flow : SameFlow f f' := by
    refine ⟨size, isSome, catches, fun b => ?_, fun b => ?_, fun b => ?_, fun b => ?_⟩
    · rw [handlersOf, part Block.handlers fun _ _ _ => rfl]
      rfl
    · obtain ⟨g, d, eq⟩ := blocks b
      refine ⟨g, ?_⟩
      rw [terminator, terminator, eq]
      cases f.block? b with
      | none => rfl
      | some x => rfl
    · rw [succs, part Block.succs fun _ _ _ => rfl]
      rfl
    · rw [preds, part Block.preds fun _ _ _ => rfl]
      rfl
  refine { nodes, flow with keys := fun v => ?_ }
  rw [keys_eq, keys_eq, edges]

lemma alike_replaceUses (old : ValueId) (new : Value) : Alike f (f.replaceUses old new) := by
  refine alike_of_nodes (by simp [replaceUses]) rfl ?_ ?_
  · intro b
    refine ⟨Value.replaceNode old new, Block.scopeDepth, ?_⟩
    simp only [block?, replaceUses, Array.getElem?_map]
    cases f.blocks[b]? with
    | none => rfl
    | some x => rfl
  · intro v
    simp only [node?, replaceUses, Array.getElem?_map]
    cases f.nodes[v]? with
    | none => rfl
    | some place =>
      cases place with
      | none => rfl
      | some n =>
        simp only [Option.map_some, Option.join_some, replaceInNode]
        split <;> simp

lemma alike_modifyKind {u : NodeKind → NodeKind} (keeps : ∀ k, f.kind? v = some k → (u k).keys = k.keys) :
    Alike f (f.modifyKind v u) := by
  refine alike_of_nodes rfl rfl (fun b => ⟨fun o => o, Block.scopeDepth, ?_⟩) ?_
  · change f.block? b = _
    cases f.block? b with
    | none => rfl
    | some x => simp [Terminator.mapOperands_id]
  · intro w
    rw [modifyKind, node?_modifyNode]
    split
    · rename_i same
      subst same
      cases here : f.node? v with
      | none => rfl
      | some n => simp [keeps n.kind (by simp [kind?, here])]
    · rfl

lemma alike_modifyInputs {g : PhiInput → PhiInput}
    (keeps : ∀ i, (g i).source = i.source ∧ (g i).kind = i.kind) :
    Alike f (f.modifyInputs v (List.map g)) := by
  refine alike_modifyKind fun k _ => ?_
  cases k with
  | phi inputs =>
    simp only [NodeKind.keys, NodeKind.inputs?, Option.map_some, List.map_map, Option.some.injEq]
    refine List.map_congr_left fun i _ => ?_
    rw [Function.comp_apply, (keeps i).1, (keeps i).2]
  | _ => rfl

lemma alike_scopeDepth (d : Block → Nat) :
    Alike f (f.modifyBlock b fun x => { x with scopeDepth := d x }) := by
  refine alike_of_nodes size_modifyBlock rfl (fun t => ?_) fun v => rfl
  by_cases here : b = t
  · refine ⟨fun o => o, d, ?_⟩
    rw [block?_modifyBlock, if_pos here]
    simp only [Terminator.mapOperands_id]
  · refine ⟨fun o => o, Block.scopeDepth, ?_⟩
    rw [block?_modifyBlock, if_neg here]
    cases f.block? t with
    | none => rfl
    | some x => simp [Terminator.mapOperands_id]

end Operands

section Dropping

lemma node?_dropNode : (f.dropNode v).node? w = if w = v then none else f.node? w := by
  rw [dropNode]
  split
  · rename_i here
    split
    · rename_i same
      rw [same, here]
    · rfl
  · rename_i n here
    rw [node?_modifyBlock]
    by_cases same : w = v
    · subst same
      have inside : w < f.nodes.size := lt_size_of_node? (by rw [here]; rfl)
      simp [node?, inside]
    · simp [node?, same, Array.getElem?_setIfInBounds_ne (Ne.symm same)]

lemma map_dropNode {γ : Type} {p : Block → γ}
    (keeps : ∀ x vs ws, p { x with phis := vs, body := ws } = p x) :
    ((f.dropNode v).block? t).map p = (f.block? t).map p := by
  rw [dropNode]
  split
  · rfl
  · exact map_modifyBlock fun x => keeps x _ _

lemma sameFlow_dropNode : SameFlow f (f.dropNode v) where
  size := by
    rw [dropNode]
    split
    · rfl
    · rw [size_modifyBlock]
  isSome t := by
    rw [← Option.isSome_map (f := fun _ => ()), map_dropNode fun _ _ _ => rfl, Option.isSome_map]
  catches := by
    rw [dropNode]
    split
    · rfl
    · rfl
  handlersOf t := by
    rw [handlersOf, map_dropNode (p := Block.handlers) fun _ _ _ => rfl]
    rfl
  terminator t := by
    refine ⟨fun v => v, ?_⟩
    rw [terminator, map_dropNode (p := Block.terminator) fun _ _ _ => rfl, Terminator.mapOperands_id]
    rfl
  succs t := by
    rw [succs, map_dropNode (p := Block.succs) fun _ _ _ => rfl]
    rfl
  preds t := by
    rw [preds, map_dropNode (p := Block.preds) fun _ _ _ => rfl]
    rfl

lemma Listed.lists_dropNode (h : Listed f) (v : ValueId) (t : BlockId) :
    (f.dropNode v).phis t = (f.phis t).filter (· != v) ∧
      (f.dropNode v).body t = (f.body t).filter (· != v) := by
  have elsewhere (n) (owner : (f.node? v).map (·.block) ≠ some t) :
      n ∈ f.nodesOf t → (n != v) = true := by
    intro mem
    rw [bne_iff_ne]
    rintro rfl
    exact owner (h.owned t n mem)
  have untouched (owner : (f.node? v).map (·.block) ≠ some t) :
      (f.phis t).filter (· != v) = f.phis t ∧ (f.body t).filter (· != v) = f.body t :=
    ⟨List.filter_eq_self.2 fun n mem => elsewhere n owner (List.mem_append_left _ mem),
      List.filter_eq_self.2 fun n mem => elsewhere n owner (List.mem_append_right _ mem)⟩
  rw [dropNode]
  cases here : f.node? v with
  | none =>
    rw [here] at untouched
    exact ⟨(untouched (by simp)).1.symm, (untouched (by simp)).2.symm⟩
  | some n =>
    rw [here] at untouched
    simp only [phis, body, block?_modifyBlock]
    split
    · rename_i same
      cases found : f.block? t with
      | none => simp [found]
      | some x => simp [found]
    · rename_i other
      have := untouched (by simpa using other)
      exact ⟨this.1.symm, this.2.symm⟩

lemma Listed.dropNode (h : Listed f) (v : ValueId) : Listed (f.dropNode v) := by
  have nodes (t) : (f.dropNode v).nodesOf t = (f.nodesOf t).filter (· != v) := by
    rw [nodesOf, nodesOf, (h.lists_dropNode v t).1, (h.lists_dropNode v t).2, List.filter_append]
  have other {w} (ne : (w != v) = true) : (f.dropNode v).node? w = f.node? w := by
    rw [node?_dropNode, if_neg (bne_iff_ne.1 ne)]
  refine ⟨fun b w mem => ?_, fun b w mem => ?_, fun b w mem => ?_, fun b => ?_⟩
  · rw [nodes, List.mem_filter] at mem
    rw [other mem.2]
    exact h.owned b w mem.1
  · rw [(h.lists_dropNode v b).1, List.mem_filter] at mem
    rw [inputs?_eq, other mem.2, ← inputs?_eq]
    exact h.phi b w mem.1
  · rw [(h.lists_dropNode v b).2, List.mem_filter] at mem
    rw [inputs?_eq, other mem.2, ← inputs?_eq]
    exact h.plain b w mem.1
  · rw [nodes]
    exact (h.nodup b).filter _

lemma Shaped.dropNode (h : Shaped f) (v : ValueId) : Shaped (f.dropNode v) := by
  refine h.sameFlow sameFlow_dropNode (h.toListed.dropNode v) ?_ ?_ fun t caught => ?_
  · rw [(h.lists_dropNode v _).1, (h.lists_dropNode v _).2, h.entry.2.1, h.entry.2.2.1]
    exact ⟨rfl, rfl⟩
  · rw [(h.lists_dropNode v _).1, (h.lists_dropNode v _).2, h.exit.2.1, h.exit.2.2.1]
    exact ⟨rfl, rfl⟩
  · rw [(h.lists_dropNode v t).1, h.phis_of_caught caught]
    rfl

variable {stale : BlockId → Prop} {due : BlockId → List (BlockId × EdgeKind)}

lemma Sound.dropNode (h : Sound stale due f) (v : ValueId) : Sound stale due (f.dropNode v) := by
  refine h.sameFlow sameFlow_dropNode (h.toShaped.dropNode v) fun t w mem s kind => ?_
  rw [(h.lists_dropNode v t).1, List.mem_filter] at mem
  rw [keys_eq, node?_dropNode, if_neg (bne_iff_ne.1 mem.2), ← keys_eq]
  exact h.synced t w mem.1 s kind

end Dropping

/-- One graph comes of another by replacing operands and dropping nodes. -/
inductive Trims (f : Func) : Func → Prop where
  | refl : Trims f f
  | alike {g h : Func} : Trims f g → Alike g h → Trims f h
  | drop {g : Func} (v : ValueId) : Trims f g → Trims f (g.dropNode v)

namespace Trims

variable {f₁ f₂ f₃ : Func}

lemma trans (h : Trims f₁ f₂) (h' : Trims f₂ f₃) : Trims f₁ f₃ := by
  induction h' with
  | refl => exact h
  | alike _ alike ih => exact ih.alike alike
  | drop v _ ih => exact ih.drop v

lemma sameFlow (h : Trims f f') : SameFlow f f' := by
  induction h with
  | refl => exact SameFlow.refl f
  | alike _ alike ih => exact ih.trans alike.toSameFlow
  | drop v _ ih => exact ih.trans sameFlow_dropNode

lemma shaped (h : Trims f f') (shaped : Shaped f) : Shaped f' := by
  induction h with
  | refl => exact shaped
  | alike _ alike ih => exact ih.alike alike
  | drop v _ ih => exact ih.dropNode v

lemma sound {stale : BlockId → Prop} {due : BlockId → List (BlockId × EdgeKind)} (h : Trims f f')
    (sound : Sound stale due f) : Sound stale due f' := by
  induction h with
  | refl => exact sound
  | alike _ alike ih => exact ih.alike alike
  | drop v _ ih => exact ih.dropNode v

lemma intact (h : Trims f f') (intact : Intact f) : Intact f' := by
  have same : f'.succs = f.succs := funext h.sameFlow.succs
  rw [Intact, same]
  exact h.sound intact

lemma foldl {α β : Type} {step : Func × β → α → Func × β}
    (each : ∀ acc a, Trims acc.1 (step acc a).1) (l : List α) (acc : Func × β) :
    Trims acc.1 (l.foldl step acc).1 := by
  induction l generalizing acc with
  | nil => exact refl
  | cons a l ih => exact (each acc a).trans (ih (step acc a))

lemma foldl_dropNode (l : List ValueId) (f : Func) : Trims f (l.foldl Func.dropNode f) := by
  induction l generalizing f with
  | nil => exact refl
  | cons v l ih => exact (refl.drop v).trans (ih (f.dropNode v))

lemma replace (f : Func) (v : ValueId) (new : Value) :
    Trims f ((f.replaceUses v new).dropNode v) :=
  (refl.alike (alike_replaceUses v new)).drop v

end Trims

section Cleanup

lemma removeTrivialPhis_keeps {P : Func → Prop}
    (each : ∀ g p x, P g → g.trivialValue? p = some x → P ((g.replaceUses p x).dropNode p)) (start : P f) :
    P f.removeTrivialPhis.1 := by
  have one (acc : Func × Nat) (v : ValueId) (here : P acc.1) : P (removeTrivialPhi acc v).1 := by
    rw [removeTrivialPhi]
    split
    · rename_i value trivial
      exact each acc.1 v value here trivial
    · exact here
  have sweep (vs : List ValueId) (acc : Func × Nat) (here : P acc.1) : P (vs.foldl removeTrivialPhi acc).1 := by
    induction vs generalizing acc with
    | nil => exact here
    | cons v vs ih => exact ih _ (one acc v here)
  have loop (fuel : Nat) (acc : Func × Nat) (here : P acc.1) : P (removeTrivialPhisLoop fuel acc).1 := by
    induction fuel generalizing acc with
    | zero => exact here
    | succ fuel ih =>
      rw [removeTrivialPhisLoop]
      split
      · exact sweep _ acc here
      · exact ih _ (sweep _ acc here)
  exact loop _ _ start

lemma trims_removeTrivialPhis (f : Func) : Trims f f.removeTrivialPhis.1 :=
  removeTrivialPhis_keeps (fun g p x here _ => here.trans (.replace g p x)) .refl

lemma trims_removeCopy (acc : Func × Nat) (v : ValueId) : Trims acc.1 (removeCopy acc v).1 := by
  rw [removeCopy]
  split
  · exact Trims.replace _ _ _
  · exact Trims.refl

lemma trims_removeRedundantCopies (f : Func) : Trims f f.removeRedundantCopies.1 :=
  Trims.foldl trims_removeCopy f.nodeIds (f, 0)

lemma trims_removeDeadLoop (fuel : Nat) (acc : Func × Nat) :
    Trims acc.1 (removeDeadLoop fuel acc).1 := by
  induction fuel generalizing acc with
  | zero => exact Trims.refl
  | succ fuel ih =>
    rw [removeDeadLoop]
    split
    · exact Trims.refl
    · exact (Trims.foldl_dropNode acc.1.deadNodes acc.1).trans (ih (_, _))

lemma trims_removeDeadNodes (f : Func) : Trims f f.removeDeadNodes.1 :=
  trims_removeDeadLoop _ (f, 0)

end Cleanup

end Func

end Avm.Ir
