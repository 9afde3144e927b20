import Avm.Ir.Cleanup
import Avm.Proofs.Sequence

/-!
# Looking at function graphs

What is seen of a function graph after an edit: its blocks, its nodes and their parts.  Proofs about
edits use the lemmas here and do not open the arrays behind a graph.  The second part is about edits
that may fail: `Edit.bind_eq_ok` takes a sequence of edits apart, and each elementary edit has a lemma
that says when it succeeds and what the graph is then.
-/

namespace Avm.Ir

namespace Func

variable {f : Func} {b t : BlockId} {v w : ValueId} {g : Block → Block} {u : Node → Node}

section Blocks

@[simp] lemma block?_modifyBlock : (f.modifyBlock b g).block? t =
    if b = t then (f.block? t).map g else f.block? t := by
  simp only [block?, modifyBlock, Array.getElem?_modify]
  split
  · cases f.blocks[t]? with
    | none => rfl
    | some x => rfl
  · rfl

@[simp] lemma node?_modifyBlock : (f.modifyBlock b g).node? v = f.node? v := rfl

@[simp] lemma inputs?_modifyBlock : (f.modifyBlock b g).inputs? v = f.inputs? v := rfl

@[simp] lemma handlers_modifyBlock : (f.modifyBlock b g).handlers = f.handlers := rfl

@[simp] lemma nodes_modifyBlock : (f.modifyBlock b g).nodes = f.nodes := rfl

@[simp] lemma size_modifyBlock : (f.modifyBlock b g).blocks.size = f.blocks.size :=
  Array.size_modify

lemma map_modifyBlock {γ : Type} {p : Block → γ} (keeps : ∀ x, p (g x) = p x) :
    ((f.modifyBlock b g).block? t).map p = (f.block? t).map p := by
  rw [block?_modifyBlock]
  split
  · rw [Option.map_map]
    congr 1
    funext x
    exact keeps x
  · rfl

@[simp] lemma isSome_block?_modifyBlock :
    ((f.modifyBlock b g).block? t).isSome = (f.block? t).isSome := by
  rw [block?_modifyBlock]
  split
  · rw [Option.isSome_map]
  · rfl

lemma phis_modifyBlock (keeps : ∀ x, (g x).phis = x.phis) :
    (f.modifyBlock b g).phis t = f.phis t := congrArg (·.getD []) (map_modifyBlock keeps)

lemma body_modifyBlock (keeps : ∀ x, (g x).body = x.body) :
    (f.modifyBlock b g).body t = f.body t := congrArg (·.getD []) (map_modifyBlock keeps)

lemma handlersOf_modifyBlock (keeps : ∀ x, (g x).handlers = x.handlers) :
    (f.modifyBlock b g).handlersOf t = f.handlersOf t :=
  congrArg (·.getD []) (map_modifyBlock keeps)

lemma terminator_modifyBlock (keeps : ∀ x, (g x).terminator = x.terminator) :
    (f.modifyBlock b g).terminator t = f.terminator t :=
  congrArg (·.getD .none) (map_modifyBlock keeps)

lemma succs_modifyBlock (keeps : ∀ x, (g x).succs = x.succs) :
    (f.modifyBlock b g).succs t = f.succs t := congrArg (·.getD []) (map_modifyBlock keeps)

lemma preds_modifyBlock (keeps : ∀ x, (g x).preds = x.preds) :
    (f.modifyBlock b g).preds t = f.preds t := congrArg (·.getD []) (map_modifyBlock keeps)

variable {x : Block}

lemma phis_of_block? (h : f.block? b = some x) : f.phis b = x.phis := by simp [phis, h]

lemma body_of_block? (h : f.block? b = some x) : f.body b = x.body := by simp [body, h]

lemma handlersOf_of_block? (h : f.block? b = some x) : f.handlersOf b = x.handlers := by
  simp [handlersOf, h]

lemma terminator_of_block? (h : f.block? b = some x) : f.terminator b = x.terminator := by
  simp [terminator, h]

lemma succs_of_block? (h : f.block? b = some x) : f.succs b = x.succs := by simp [succs, h]

lemma preds_of_block? (h : f.block? b = some x) : f.preds b = x.preds := by simp [preds, h]

lemma parts_of_isNone (h : f.block? b = none) :
    f.phis b = [] ∧ f.body b = [] ∧ f.handlersOf b = [] ∧ f.terminator b = .none ∧
      f.succs b = [] ∧ f.preds b = [] := by
  simp [phis, body, handlersOf, terminator, succs, preds, h]

lemma isSome_of_mem_nodesOf (h : v ∈ f.nodesOf b) : (f.block? b).isSome := by
  cases here : f.block? b with
  | some x => rfl
  | none => simp [nodesOf, parts_of_isNone here] at h

lemma isSome_of_mem_succs {e : BlockId × EdgeKind} (h : e ∈ f.succs b) : (f.block? b).isSome := by
  cases here : f.block? b with
  | some x => rfl
  | none => simp [parts_of_isNone here] at h

lemma isSome_of_mem_preds {e : BlockId × EdgeKind} (h : e ∈ f.preds b) : (f.block? b).isSome := by
  cases here : f.block? b with
  | some x => rfl
  | none => simp [parts_of_isNone here] at h

lemma lt_size_of_block? (h : (f.block? b).isSome) : b < f.blocks.size := by
  by_contra above
  rw [block?, Array.getElem?_eq_none (Nat.le_of_not_lt above)] at h
  cases h

lemma mem_blockIds : b ∈ f.blockIds ↔ (f.block? b).isSome := by
  rw [blockIds, List.mem_filter, List.mem_range]
  exact ⟨fun h => h.2, fun h => ⟨lt_size_of_block? h, h⟩⟩

lemma nodup_blockIds : f.blockIds.Nodup := List.nodup_range.filter _

lemma mem_nodeIds : v ∈ f.nodeIds ↔ ∃ b, v ∈ f.nodesOf b := by
  rw [nodeIds, List.mem_flatMap]
  constructor
  · rintro ⟨b, -, mem⟩
    exact ⟨b, mem⟩
  · rintro ⟨b, mem⟩
    exact ⟨b, mem_blockIds.2 (isSome_of_mem_nodesOf mem), mem⟩

end Blocks

section Pushing

@[simp] lemma block?_pushBlock {x : Block} : (f.pushBlock x).block? b =
    if b = f.blocks.size then some x else f.block? b := by
  simp only [block?, pushBlock, Array.getElem?_push]
  split
  · rfl
  · rfl

lemma block?_size : f.block? f.blocks.size = none := by
  rw [block?, Array.getElem?_eq_none (Nat.le_refl _)]
  rfl

@[simp] lemma node?_pushBlock {x : Block} : (f.pushBlock x).node? v = f.node? v := rfl

@[simp] lemma inputs?_pushBlock {x : Block} : (f.pushBlock x).inputs? v = f.inputs? v := rfl

@[simp] lemma handlers_pushBlock {x : Block} : (f.pushBlock x).handlers = f.handlers := rfl

@[simp] lemma size_pushBlock {x : Block} : (f.pushBlock x).blocks.size = f.blocks.size + 1 :=
  Array.size_push ..

end Pushing

section Nodes

@[simp] lemma block?_modifyNode : (f.modifyNode v u).block? b = f.block? b := rfl

@[simp] lemma blocks_modifyNode : (f.modifyNode v u).blocks = f.blocks := rfl

@[simp] lemma handlers_modifyNode : (f.modifyNode v u).handlers = f.handlers := rfl

@[simp] lemma size_nodes_modifyNode : (f.modifyNode v u).nodes.size = f.nodes.size :=
  Array.size_modify

@[simp] lemma node?_modifyNode : (f.modifyNode v u).node? w =
    if v = w then (f.node? w).map u else f.node? w := by
  simp only [node?, modifyNode, Array.getElem?_modify]
  split
  · cases f.nodes[w]? with
    | none => rfl
    | some x => rfl
  · rfl

@[simp] lemma block?_withNodes {ns : Array (Option Node)} :
    ({ f with nodes := ns } : Func).block? b = f.block? b := rfl

lemma lt_size_of_node? (h : (f.node? v).isSome) : v < f.nodes.size := by
  by_contra above
  rw [node?, Array.getElem?_eq_none (Nat.le_of_not_lt above)] at h
  cases h

lemma inputs?_eq : f.inputs? v = (f.node? v).bind (·.kind.inputs?) := by
  rw [inputs?, kind?, Option.bind_map]
  rfl

end Nodes

end Func

/-- What a node does, with the inputs of a phi changed. -/
def NodeKind.mapInputs (g : List PhiInput → List PhiInput) : NodeKind → NodeKind
  | .phi inputs => .phi (g inputs)
  | k => k

@[simp] lemma NodeKind.inputs?_mapInputs (g : List PhiInput → List PhiInput) (k : NodeKind) :
    (k.mapInputs g).inputs? = k.inputs?.map g := by
  cases k <;> rfl

namespace Func

variable {f : Func} {b t : BlockId} {v w : ValueId} {g : List PhiInput → List PhiInput}

lemma modifyInputs_eq : f.modifyInputs v g =
    f.modifyNode v fun n => { n with kind := n.kind.mapInputs g } := rfl

@[simp] lemma blocks_modifyPhis {vs : List ValueId} : (f.modifyPhis vs g).blocks = f.blocks :=
  foldl_keeps Func.blocks fun _ _ => by rfl

@[simp] lemma handlers_modifyPhis {vs : List ValueId} : (f.modifyPhis vs g).handlers = f.handlers :=
  foldl_keeps Func.handlers fun _ _ => by rfl

lemma node?_modifyPhis {vs : List ValueId} (nodup : vs.Nodup) : (f.modifyPhis vs g).node? w =
    if w ∈ vs then (f.node? w).map fun n => { n with kind := n.kind.mapInputs g }
    else f.node? w := by
  induction vs generalizing f with
  | nil => rfl
  | cons v vs ih =>
    obtain ⟨absent, nodup⟩ := List.nodup_cons.1 nodup
    rw [modifyPhis, List.foldl_cons, ← modifyPhis, ih nodup, modifyInputs_eq, node?_modifyNode]
    by_cases same : v = w
    · subst same
      simp [absent]
    · simp [same, Ne.symm same]

lemma inputs?_modifyPhis {vs : List ValueId} (nodup : vs.Nodup) : (f.modifyPhis vs g).inputs? w =
    if w ∈ vs then (f.inputs? w).map g else f.inputs? w := by
  rw [inputs?_eq, node?_modifyPhis nodup, inputs?_eq]
  split
  · cases f.node? w with
    | none => rfl
    | some n => simp
  · rfl

lemma block?_congr {f' : Func} (h : f'.blocks = f.blocks) : f'.block? b = f.block? b := by
  rw [block?, block?, h]

end Func

namespace Edit

variable {α β : Type} {f f' : Func}

lemma bind_eq_ok {x : Edit α} {g : α → Edit β} {b : β} : (x >>= g).run f = .ok b f' ↔
    ∃ a f₁, x.run f = .ok a f₁ ∧ (g a).run f₁ = .ok b f' := by
  change EStateM.bind x g f = _ ↔ _
  rw [EStateM.bind]
  cases h : x f with
  | ok a f₁ => simp [EStateM.run, h]
  | error e f₁ => simp [EStateM.run, h]

@[simp] lemma pure_eq_ok {a b : α} : (pure a : Edit α).run f = .ok b f' ↔ b = a ∧ f' = f := by
  change EStateM.Result.ok a f = .ok b f' ↔ _
  rw [EStateM.Result.ok.injEq, eq_comm, @eq_comm _ f]

@[simp] lemma get_eq_ok {g : Func} : (get : Edit Func).run f = .ok g f' ↔ g = f ∧ f' = f := by
  change EStateM.Result.ok f f = .ok g f' ↔ _
  rw [EStateM.Result.ok.injEq, eq_comm, @eq_comm _ f]

@[simp] lemma set_eq_ok {g : Func} {a : PUnit} : (set g : Edit PUnit).run f = .ok a f' ↔ f' = g := by
  change EStateM.Result.ok PUnit.unit g = .ok a f' ↔ _
  rw [EStateM.Result.ok.injEq, @eq_comm _ g]
  simp

@[simp] lemma modify_eq_ok {u : Func → Func} {a : PUnit} :
    (modify u : Edit PUnit).run f = .ok a f' ↔ f' = u f := by
  change EStateM.Result.ok PUnit.unit (u f) = .ok a f' ↔ _
  rw [EStateM.Result.ok.injEq, @eq_comm _ (u f)]
  simp

@[simp] lemma throw_ne_ok {e : Fault} {a : α} : ¬(throw e : Edit α).run f = .ok a f' := by
  change ¬EStateM.Result.error e f = .ok a f'
  simp

@[simp] lemma ofExcept_eq_ok {x : Except Fault α} {a : α} :
    (ofExcept x).run f = .ok a f' ↔ x = .ok a ∧ f' = f := by
  cases x with
  | ok b => simp [ofExcept, eq_comm]
  | error e => simp [ofExcept]

@[simp] lemma block_eq_ok {b : BlockId} {x : Block} :
    (block b).run f = .ok x f' ↔ f.block? b = some x ∧ f' = f := by
  simp only [block, bind_eq_ok, get_eq_ok]
  cases here : f.block? b with
  | none => simp [here]
  | some y =>
    simp only [↓existsAndEq, here, true_and, pure_eq_ok, Option.some.injEq]
    rw [@eq_comm _ x]

@[simp] lemma modifyBlock_eq_ok {b : BlockId} {g : Block → Block} {a : Unit} :
    (modifyBlock b g).run f = .ok a f' ↔ (f.block? b).isSome ∧ f' = f.modifyBlock b g := by
  simp only [modifyBlock, bind_eq_ok, block_eq_ok, modify_eq_ok, Option.isSome_iff_exists]
  constructor
  · rintro ⟨x, _, ⟨here, rfl⟩, rfl⟩
    exact ⟨⟨x, here⟩, rfl⟩
  · rintro ⟨⟨x, here⟩, rfl⟩
    exact ⟨x, f, ⟨here, rfl⟩, rfl⟩

end Edit

end Avm.Ir
