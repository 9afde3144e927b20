import Avm.Proofs.Ir.Rewiring
import Avm.Proofs.Ir.Trimming

/-!
# Edits of function graphs

When the edits of a function graph succeed, and that they keep it in order.  `Edit.Yields` is the weakest
condition under which an edit succeeds with a given result; it is worked out from the back, one step
after the other.  Each edit is described by the graph that comes of it: `Func.reend` for a block with
another end, `Func.putNode` for one more node, `Func.putPhis` for more phis, `Func.moveTo` for a node
that goes elsewhere.

The main statements are `Sound.putNode`, `Sound.moveTo`, `Sound.pushBlock`, `Sound.withCatches` and
`Intact.reend`.
-/

namespace Avm.Ir

namespace Func

variable {f f' : Func} {b t : BlockId} {v w : ValueId} {index : Nat} {kind : NodeKind}
  {stale : BlockId → Prop} {due : BlockId → List (BlockId × EdgeKind)}

lemma alike_of_blocks (blocks : f'.blocks = f.blocks) (nodes : f'.nodes = f.nodes)
    (catches : f'.handlers = f.handlers) : Alike f f' := by
  refine alike_of_nodes (by rw [blocks]) catches (fun b => ⟨fun v => v, Block.scopeDepth, ?_⟩)
    fun v => by rw [node?, nodes, node?]
  rw [block?_congr blocks]
  cases f.block? b with
  | none => rfl
  | some x => simp [Terminator.mapOperands_id]

lemma modifyBlock_congr {g g' : Block → Block} (same : ∀ x, f.block? b = some x → g x = g' x) :
    f.modifyBlock b g = f.modifyBlock b g' := by
  rw [modifyBlock, modifyBlock]
  congr 1
  refine Array.ext (by simp) fun i _ _ => ?_
  simp only [Array.getElem_modify]
  split
  · rename_i here
    subst here
    rename_i inside _
    rw [Array.size_modify] at inside
    cases found : f.blocks[b] with
    | none => rfl
    | some x =>
      rw [Option.map_some, Option.map_some, same x]
      rw [block?, Array.getElem?_eq_getElem inside, found]
      rfl
  · rfl

section NewNodes

/-- The graph with one more node, at a place in a block. -/
def putNode (f : Func) (b : BlockId) (index : Nat) (kind : NodeKind) : Func :=
  { f with nodes := f.nodes.push (some ⟨kind, b⟩) }.modifyBlock b fun x =>
    if kind.isPhi then { x with phis := x.phis.insertIdx index f.nodes.size }
    else { x with body := x.body.insertIdx index f.nodes.size }

lemma node?_putNode : (f.putNode b index kind).node? w =
    if w = f.nodes.size then some ⟨kind, b⟩ else f.node? w := by
  rw [putNode, node?_modifyBlock]
  simp only [node?, Array.getElem?_push]
  split
  · rfl
  · rfl

lemma node?_putNode_of_isSome (there : (f.node? w).isSome) :
    (f.putNode b index kind).node? w = f.node? w := by
  have below : w < f.nodes.size := lt_size_of_node? there
  rw [node?_putNode, if_neg (Nat.ne_of_lt below)]

lemma map_putNode {γ : Type} {p : Block → γ}
    (keeps : ∀ x vs ws, p { x with phis := vs, body := ws } = p x) :
    ((f.putNode b index kind).block? t).map p = (f.block? t).map p := by
  refine map_modifyBlock fun x => ?_
  split
  · exact keeps x _ x.body
  · exact keeps x x.phis _

lemma sameFlow_of_map (size : f'.blocks.size = f.blocks.size) (catches : f'.handlers = f.handlers)
    (same : ∀ {γ : Type} {p : Block → γ}, (∀ x vs ws d,
      p { x with phis := vs, body := ws, scopeDepth := d } = p x) →
        ∀ t, (f'.block? t).map p = (f.block? t).map p) : SameFlow f f' where
  size := size
  isSome t := by
    rw [← Option.isSome_map (f := fun _ => ()), same fun _ _ _ _ => rfl, Option.isSome_map]
  catches := catches
  handlersOf t := by
    rw [handlersOf, same (p := Block.handlers) fun _ _ _ _ => rfl]
    rfl
  terminator t := by
    refine ⟨fun v => v, ?_⟩
    rw [terminator, same (p := Block.terminator) fun _ _ _ _ => rfl, Terminator.mapOperands_id]
    rfl
  succs t := by
    rw [succs, same (p := Block.succs) fun _ _ _ _ => rfl]
    rfl
  preds t := by
    rw [preds, same (p := Block.preds) fun _ _ _ _ => rfl]
    rfl

lemma sameFlow_putNode : SameFlow f (f.putNode b index kind) :=
  sameFlow_of_map size_modifyBlock rfl fun keeps _ => map_putNode fun x vs ws => keeps x vs ws _

lemma phis_putNode_of_ne (other : t ≠ b) : (f.putNode b index kind).phis t = f.phis t := by
  rw [phis, putNode, block?_modifyBlock, if_neg (Ne.symm other)]
  rfl

lemma body_putNode_of_ne (other : t ≠ b) : (f.putNode b index kind).body t = f.body t := by
  rw [body, putNode, block?_modifyBlock, if_neg (Ne.symm other)]
  rfl

lemma lists_putNode_self (live : (f.block? b).isSome) :
    (f.putNode b index kind).phis b =
        (if kind.isPhi then (f.phis b).insertIdx index f.nodes.size else f.phis b) ∧
      (f.putNode b index kind).body b =
        if kind.isPhi then f.body b else (f.body b).insertIdx index f.nodes.size := by
  obtain ⟨x, here⟩ := Option.isSome_iff_exists.1 live
  simp only [phis, body, putNode, block?_modifyBlock, if_true, block?_withNodes, here,
    Option.map_some, Option.getD_some]
  split
  · exact ⟨rfl, rfl⟩
  · exact ⟨rfl, rfl⟩

lemma phis_putNode_of_plain (plain : kind.isPhi = false) :
    (f.putNode b index kind).phis t = f.phis t := by
  by_cases here : t = b
  · subst here
    cases found : f.block? t with
    | none => simp [phis, putNode, found]
    | some x => rw [(lists_putNode_self (by rw [found]; rfl)).1, plain]; rfl
  · exact phis_putNode_of_ne here

lemma Listed.size_notMem (h : Listed f) (t : BlockId) : f.nodes.size ∉ f.nodesOf t := by
  intro mem
  have there : (f.node? f.nodes.size).isSome := by
    rw [← Option.isSome_map (f := (·.block)), h.owned t _ mem]
    rfl
  exact Nat.lt_irrefl _ (lt_size_of_node? there)

lemma Listed.isSome_node? (h : Listed f) (mem : v ∈ f.nodesOf t) : (f.node? v).isSome := by
  rw [← Option.isSome_map (f := (·.block)), h.owned t v mem]
  rfl

/-- The place lies in the list that the node goes to, or right behind it. -/
def Fits (f : Func) (b : BlockId) (index : Nat) (kind : NodeKind) : Prop :=
  index ≤ (if kind.isPhi then f.phis b else f.body b).length

lemma perm_nodesOf_putNode (live : (f.block? b).isSome) (fits : f.Fits b index kind) :
    ((f.putNode b index kind).nodesOf b).Perm (f.nodes.size :: f.nodesOf b) := by
  rw [nodesOf, (lists_putNode_self live).1, (lists_putNode_self live).2]
  rw [Fits] at fits
  split
  · rename_i phi
    rw [if_pos phi] at fits
    exact (List.perm_insertIdx _ _ fits).append_right _
  · rename_i plain
    rw [if_neg plain] at fits
    exact ((List.perm_insertIdx _ _ fits).append_left _).trans List.perm_middle

lemma mem_nodesOf_putNode (live : (f.block? b).isSome) (fits : f.Fits b index kind) :
    w ∈ (f.putNode b index kind).nodesOf t ↔ (t = b ∧ w = f.nodes.size) ∨ w ∈ f.nodesOf t := by
  by_cases here : t = b
  · subst here
    rw [(perm_nodesOf_putNode live fits).mem_iff, List.mem_cons]
    simp
  · rw [nodesOf, phis_putNode_of_ne here, body_putNode_of_ne here, ← nodesOf]
    simp [here]

lemma mem_phis_putNode (live : (f.block? b).isSome) (fits : f.Fits b index kind) :
    w ∈ (f.putNode b index kind).phis t ↔
      (t = b ∧ kind.isPhi = true ∧ w = f.nodes.size) ∨ w ∈ f.phis t := by
  by_cases here : t = b
  · subst here
    rw [(lists_putNode_self live).1]
    rw [Fits] at fits
    split
    · rename_i phi
      rw [if_pos phi] at fits
      rw [List.mem_insertIdx fits]
      simp [phi]
    · rename_i plain
      simp [plain]
  · rw [phis_putNode_of_ne here]
    simp [here]

lemma mem_body_putNode (live : (f.block? b).isSome) (fits : f.Fits b index kind) :
    w ∈ (f.putNode b index kind).body t ↔
      (t = b ∧ kind.isPhi = false ∧ w = f.nodes.size) ∨ w ∈ f.body t := by
  by_cases here : t = b
  · subst here
    rw [(lists_putNode_self live).2]
    rw [Fits] at fits
    split
    · rename_i phi
      simp [phi]
    · rename_i plain
      rw [if_neg plain] at fits
      rw [List.mem_insertIdx fits]
      simp [plain]
  · rw [body_putNode_of_ne here]
    simp [here]

lemma Listed.putNode (h : Listed f) (live : (f.block? b).isSome) (fits : f.Fits b index kind) :
    Listed (f.putNode b index kind) := by
  refine ⟨fun t w mem => ?_, fun t w mem => ?_, fun t w mem => ?_, fun t => ?_⟩
  · obtain ⟨rfl, rfl⟩ | old := (mem_nodesOf_putNode live fits).1 mem
    · rw [node?_putNode, if_pos rfl]
      rfl
    · rw [node?_putNode_of_isSome (h.isSome_node? old)]
      exact h.owned t w old
  · obtain ⟨rfl, phi, rfl⟩ | old := (mem_phis_putNode live fits).1 mem
    · rw [inputs?_eq, node?_putNode, if_pos rfl]
      cases kind with
      | phi inputs => rfl
      | _ => cases phi
    · rw [inputs?_eq, node?_putNode_of_isSome (h.isSome_node? (List.mem_append_left _ old)),
        ← inputs?_eq]
      exact h.phi t w old
  · obtain ⟨rfl, plain, rfl⟩ | old := (mem_body_putNode live fits).1 mem
    · rw [inputs?_eq, node?_putNode, if_pos rfl]
      cases kind with
      | phi inputs => cases plain
      | _ => rfl
    · rw [inputs?_eq, node?_putNode_of_isSome (h.isSome_node? (List.mem_append_right _ old)),
        ← inputs?_eq]
      exact h.plain t w old
  · by_cases here : t = b
    · subst here
      rw [(perm_nodesOf_putNode live fits).nodup_iff]
      exact List.nodup_cons.2 ⟨h.size_notMem t, h.nodup t⟩
    · rw [nodesOf, phis_putNode_of_ne here, body_putNode_of_ne here]
      exact h.nodup t

/-- A block other than the entry and the exit takes nodes, and phis if it handles no exceptions. -/
lemma Shaped.putNode (h : Shaped f) (live : (f.block? b).isSome) (fits : f.Fits b index kind)
    (inner : b ≠ Func.entry ∧ b ≠ Func.exit) (apart : kind.isPhi = true → ¬f.Caught b) :
    Shaped (f.putNode b index kind) := by
  refine h.sameFlow sameFlow_putNode (h.toListed.putNode live fits) ?_ ?_ fun t caught => ?_
  · rw [phis_putNode_of_ne inner.1.symm, body_putNode_of_ne inner.1.symm]
    exact ⟨h.entry.2.1, h.entry.2.2.1⟩
  · rw [phis_putNode_of_ne inner.2.symm, body_putNode_of_ne inner.2.symm]
    exact ⟨h.exit.2.1, h.exit.2.2.1⟩
  · rw [List.eq_nil_iff_forall_not_mem]
    intro w mem
    obtain ⟨rfl, phi, -⟩ | old := (mem_phis_putNode live fits).1 mem
    · exact apart phi caught
    · rw [h.phis_of_caught caught] at old
      cases old

lemma keys_putNode_of_mem (h : Listed f) (mem : w ∈ f.phis t) :
    (f.putNode b index kind).keys w = f.keys w := by
  rw [keys_eq, node?_putNode_of_isSome (h.isSome_node? (List.mem_append_left _ mem)), ← keys_eq]

lemma Sound.putNode (h : Sound stale due f) (live : (f.block? b).isSome)
    (fits : f.Fits b index kind) (inner : b ≠ Func.entry ∧ b ≠ Func.exit)
    (plain : kind.isPhi = false) : Sound stale due (f.putNode b index kind) := by
  refine h.sameFlow sameFlow_putNode
    (h.toShaped.putNode live fits inner fun phi => by simp [plain] at phi) fun t w mem s k => ?_
  rw [phis_putNode_of_plain plain] at mem
  rw [keys_putNode_of_mem h.toListed mem]
  exact h.synced t w mem s k

end NewNodes

section Inputs

variable {vs : List ValueId} {g : List PhiInput → List PhiInput}

lemma sameNodes_modifyPhis : SameNodes f (f.modifyPhis vs g) where
  size := by rw [blocks_modifyPhis]
  isSome t := by rw [block?_congr blocks_modifyPhis]
  phis t := by rw [phis, block?_congr blocks_modifyPhis, ← phis]
  body t := by rw [body, block?_congr blocks_modifyPhis, ← body]
  catches := handlers_modifyPhis
  owner _ := frame_modifyPhis.1
  isPhi _ := frame_modifyPhis.2

lemma sameFlow_modifyPhis : SameFlow f (f.modifyPhis vs g) := by
  refine sameFlow_of_map (by rw [blocks_modifyPhis]) handlers_modifyPhis fun _ t => ?_
  rw [block?_congr blocks_modifyPhis]

end Inputs

section NewPhis

variable {inputs : List (List PhiInput)}

/-- The graph with more phis in a block. -/
def putPhis (f : Func) (b : BlockId) (inputs : List (List PhiInput)) : Func :=
  let phis : List (Option Node) := inputs.map fun i => some ⟨.phi i, b⟩
  { f with nodes := f.nodes ++ phis }.modifyBlock b fun x =>
    { x with phis := x.phis ++ (List.range inputs.length).map (f.nodes.size + ·) }

lemma sameFlow_putPhis : SameFlow f (f.putPhis b inputs) :=
  sameFlow_of_map size_modifyBlock rfl fun keeps _ =>
    map_modifyBlock fun x => keeps x _ x.body x.scopeDepth

lemma body_putPhis : (f.putPhis b inputs).body t = f.body t := body_modifyBlock fun _ => rfl

lemma phis_putPhis (live : (f.block? b).isSome) : (f.putPhis b inputs).phis t =
    if t = b then f.phis b ++ (List.range inputs.length).map (f.nodes.size + ·) else f.phis t := by
  obtain ⟨x, here⟩ := Option.isSome_iff_exists.1 live
  rw [phis, putPhis, block?_modifyBlock]
  by_cases same : b = t
  · subst same
    simp [phis, here]
  · simp [phis, same, Ne.symm same]

lemma node?_putPhis_of_isSome (there : (f.node? w).isSome) :
    (f.putPhis b inputs).node? w = f.node? w := by
  have below : w < f.nodes.size := lt_size_of_node? there
  rw [putPhis, node?_modifyBlock]
  simp only [node?]
  rw [← Array.getElem?_toList, Array.toList_appendList, List.getElem?_append_left (by simpa),
    Array.getElem?_toList]

lemma node?_putPhis_new {i : Nat} (inside : i < inputs.length) :
    (f.putPhis b inputs).node? (f.nodes.size + i) = some ⟨.phi inputs[i], b⟩ := by
  rw [putPhis, node?_modifyBlock, node?]
  dsimp only
  rw [← Array.getElem?_toList, Array.toList_appendList, List.getElem?_append_right (by simp)]
  simp [inside]

lemma kind?_putPhis {k : NodeKind} (here : (f.putPhis b inputs).kind? w = some k) :
    f.kind? w = some k ∨ f.nodes.size ≤ w ∧ ∃ is ∈ inputs, k = .phi is := by
  by_cases old : w < f.nodes.size
  · left
    rw [kind?, putPhis, node?_modifyBlock, node?, ← Array.getElem?_toList, Array.toList_appendList,
      List.getElem?_append_left (by simpa using old), Array.getElem?_toList] at here
    exact here
  · right
    obtain ⟨i, rfl⟩ := Nat.exists_eq_add_of_le (Nat.le_of_not_lt old)
    by_cases inside : i < inputs.length
    · rw [kind?, node?_putPhis_new inside] at here
      exact ⟨Nat.le_add_right _ _, _, List.getElem_mem inside, (Option.some.inj here).symm⟩
    · rw [kind?, putPhis, node?_modifyBlock, node?, ← Array.getElem?_toList, Array.toList_appendList,
        List.getElem?_eq_none (by simp; omega)] at here
      cases here

lemma Listed.putPhis (h : Listed f) (live : (f.block? b).isSome) : Listed (f.putPhis b inputs) := by
  have new {w t} (mem : w ∈ (f.putPhis b inputs).phis t) : w ∈ f.phis t ∨
      t = b ∧ ∃ is, (f.putPhis b inputs).node? w = some ⟨.phi is, b⟩ := by
    rw [phis_putPhis live] at mem
    split at mem
    · rename_i here
      obtain old | new := List.mem_append.1 mem
      · exact .inl (here ▸ old)
      · obtain ⟨i, inside, rfl⟩ := List.mem_map.1 new
        exact .inr ⟨here, _, node?_putPhis_new (List.mem_range.1 inside)⟩
    · exact .inl mem
  refine ⟨fun t w mem => ?_, fun t w mem => ?_, fun t w mem => ?_, fun t => ?_⟩
  · obtain phi | plain := List.mem_append.1 mem
    · obtain old | ⟨rfl, is, found⟩ := new phi
      · have old : w ∈ f.nodesOf t := List.mem_append_left _ old
        rw [node?_putPhis_of_isSome (h.isSome_node? old)]
        exact h.owned t w old
      · rw [found]
        rfl
    · rw [body_putPhis] at plain
      have old : w ∈ f.nodesOf t := List.mem_append_right _ plain
      rw [node?_putPhis_of_isSome (h.isSome_node? old)]
      exact h.owned t w old
  · obtain old | ⟨rfl, is, found⟩ := new mem
    · rw [inputs?_eq, node?_putPhis_of_isSome (h.isSome_node? (List.mem_append_left _ old)),
        ← inputs?_eq]
      exact h.phi t w old
    · rw [inputs?_eq, found]
      rfl
  · rw [body_putPhis] at mem
    rw [inputs?_eq, node?_putPhis_of_isSome (h.isSome_node? (List.mem_append_right _ mem)),
      ← inputs?_eq]
    exact h.plain t w mem
  · rw [nodesOf, phis_putPhis live, body_putPhis]
    split
    · rename_i here
      subst here
      have fresh : ((List.range inputs.length).map (f.nodes.size + ·)).Nodup :=
        List.nodup_range.map fun _ _ => Nat.add_left_cancel
      have perm : (f.phis t ++ (List.range inputs.length).map (f.nodes.size + ·) ++ f.body t).Perm
          ((List.range inputs.length).map (f.nodes.size + ·) ++ f.nodesOf t) := by
        rw [List.append_assoc]
        exact List.perm_append_comm_assoc _ _ _
      rw [perm.nodup_iff, List.nodup_append]
      refine ⟨fresh, h.nodup t, fun v mem w there same => ?_⟩
      subst same
      obtain ⟨i, -, rfl⟩ := List.mem_map.1 mem
      have below : f.nodes.size + i < f.nodes.size := lt_size_of_node? (h.isSome_node? there)
      omega
    · exact h.nodup t

/-- A block that handles no exceptions takes phis, unless it is the entry or the exit. -/
lemma Shaped.putPhis (h : Shaped f) (live : (f.block? b).isSome)
    (inner : b ≠ Func.entry ∧ b ≠ Func.exit) (apart : ¬f.Caught b) :
    Shaped (f.putPhis b inputs) := by
  refine h.sameFlow sameFlow_putPhis (h.toListed.putPhis live) ?_ ?_ fun t caught => ?_
  · rw [phis_putPhis live, if_neg inner.1.symm, body_putPhis]
    exact ⟨h.entry.2.1, h.entry.2.2.1⟩
  · rw [phis_putPhis live, if_neg inner.2.symm, body_putPhis]
    exact ⟨h.exit.2.1, h.exit.2.2.1⟩
  · rw [phis_putPhis live, if_neg]
    · exact h.phis_of_caught caught
    · rintro rfl
      exact apart caught

end NewPhis

section Moving

variable {n : Node}

/-- The graph with a node at another place. -/
def moveTo (f : Func) (v : ValueId) (source b : BlockId) (index : Nat) : Func :=
  ((f.modifyBlock source fun x => { x with body := x.body.filter (· != v) }).modifyBlock b fun x =>
    { x with body := x.body.insertIdx (min index x.body.length) v }).modifyNode v fun n =>
      { n with block := b }

lemma map_moveTo {γ : Type} {p : Block → γ} {source : BlockId}
    (keeps : ∀ x ws, p { x with body := ws } = p x) :
    ((f.moveTo v source b index).block? t).map p = (f.block? t).map p := by
  rw [moveTo, block?_modifyNode, map_modifyBlock fun x => keeps x _, map_modifyBlock fun x => keeps x _]

lemma sameFlow_moveTo {source : BlockId} : SameFlow f (f.moveTo v source b index) := by
  refine sameFlow_of_map ?_ rfl fun keeps _ => map_moveTo fun x ws => keeps x _ ws _
  rw [moveTo, blocks_modifyNode, size_modifyBlock, size_modifyBlock]

lemma phis_moveTo {source : BlockId} : (f.moveTo v source b index).phis t = f.phis t := by
  rw [phis, map_moveTo (p := Block.phis) fun _ _ => rfl]
  rfl

lemma node?_moveTo {source : BlockId} : (f.moveTo v source b index).node? w =
    if v = w then (f.node? w).map fun n => { n with block := b } else f.node? w := by
  rw [moveTo, node?_modifyNode]
  rfl

lemma inputs?_moveTo {source : BlockId} : (f.moveTo v source b index).inputs? w = f.inputs? w := by
  rw [inputs?_eq, inputs?_eq, node?_moveTo]
  split
  · cases f.node? w with
    | none => rfl
    | some n => rfl
  · rfl

lemma Listed.perm_body_moveTo (h : Listed f) (found : f.node? v = some n)
    (live : (f.block? b).isSome) (index : Nat) (t : BlockId) : ((f.moveTo v n.block b index).body t).Perm
      (if t = b then v :: (f.body t).filter (· != v) else (f.body t).filter (· != v)) := by
  have left (t) : ((f.modifyBlock n.block fun x =>
      { x with body := x.body.filter (· != v) }).body t) = (f.body t).filter (· != v) := by
    rw [body, block?_modifyBlock]
    split
    · rw [body]
      cases f.block? t with
      | none => rfl
      | some x => rfl
    · rename_i other
      rw [← body]
      symm
      rw [List.filter_eq_self]
      intro w mem
      rw [bne_iff_ne]
      rintro rfl
      have owner := h.owned t w (List.mem_append_right _ mem)
      rw [found] at owner
      exact other (Option.some.inj owner)
  rw [moveTo, body, block?_modifyNode, block?_modifyBlock]
  by_cases here : b = t
  · subst here
    rw [if_pos rfl, if_pos rfl, ← left, body]
    have there := isSome_block?_modifyBlock (f := f) (b := n.block) (t := b)
      (g := fun x => { x with body := x.body.filter (· != v) })
    rw [live] at there
    obtain ⟨x, found⟩ := Option.isSome_iff_exists.1 there
    rw [found]
    exact List.perm_insertIdx _ _ (Nat.min_le_right _ _)
  · rw [if_neg here, if_neg (Ne.symm here), ← left, body]

lemma Listed.moveTo (h : Listed f) (found : f.node? v = some n) (plain : n.kind.isPhi = false)
    (live : (f.block? b).isSome) : Listed (f.moveTo v n.block b index) := by
  have perm := h.perm_body_moveTo found live index
  have noPhi (t) : v ∉ f.phis t := by
    intro mem
    have := h.phi t v mem
    rw [inputs?_eq, found, Option.bind_some] at this
    cases kind : n.kind with
    | phi inputs => simp [kind, NodeKind.isPhi] at plain
    | _ => simp [kind, NodeKind.inputs?] at this
  have inBody {w t} (mem : w ∈ (f.moveTo v n.block b index).body t) :
      (w = v ∧ t = b) ∨ (w ≠ v ∧ w ∈ f.body t) := by
    rw [(perm t).mem_iff] at mem
    split at mem
    · rename_i here
      obtain rfl | old := List.mem_cons.1 mem
      · exact .inl ⟨rfl, here⟩
      · simpa [and_comm] using Or.inr (List.mem_filter.1 old)
    · simpa [and_comm] using Or.inr (List.mem_filter.1 mem)
  refine ⟨fun t w mem => ?_, fun t w mem => ?_, fun t w mem => ?_, fun t => ?_⟩
  · rw [node?_moveTo]
    obtain old | mem := List.mem_append.1 mem
    · rw [phis_moveTo] at old
      rw [if_neg]
      · exact h.owned t w (List.mem_append_left _ old)
      · rintro rfl
        exact noPhi t old
    · obtain ⟨rfl, rfl⟩ | ⟨other, old⟩ := inBody mem
      · rw [if_pos rfl, found]
        rfl
      · rw [if_neg (Ne.symm other)]
        exact h.owned t w (List.mem_append_right _ old)
  · rw [phis_moveTo] at mem
    rw [inputs?_moveTo]
    exact h.phi t w mem
  · rw [inputs?_moveTo]
    obtain ⟨rfl, rfl⟩ | ⟨-, old⟩ := inBody mem
    · rw [inputs?_eq, found, Option.bind_some]
      cases kind : n.kind with
      | phi inputs => simp [kind, NodeKind.isPhi] at plain
      | _ => rfl
    · exact h.plain t w old
  · have kept : (f.phis t ++ (f.body t).filter (· != v)).Nodup :=
      (h.nodup t).sublist (List.filter_sublist.append_left _)
    rw [nodesOf, phis_moveTo, ((perm t).append_left _).nodup_iff]
    split
    · rw [List.perm_middle.nodup_iff, List.nodup_cons]
      refine ⟨fun mem => ?_, kept⟩
      obtain old | there := List.mem_append.1 mem
      · exact noPhi t old
      · simpa using (List.mem_filter.1 there).2
    · exact kept

lemma Sound.moveTo (h : Sound stale due f) (found : f.node? v = some n)
    (plain : n.kind.isPhi = false) (live : (f.block? b).isSome)
    (inner : b ≠ Func.entry ∧ b ≠ Func.exit) :
    Sound stale due (f.moveTo v n.block b index) := by
  have body {t} (other : t ≠ b) (none : f.body t = []) :
      (f.moveTo v n.block b index).body t = [] := by
    have perm := h.perm_body_moveTo found live index t
    rw [if_neg other, none, List.filter_nil] at perm
    exact perm.eq_nil
  have shaped : Shaped (f.moveTo v n.block b index) := by
    refine h.toShaped.sameFlow sameFlow_moveTo (h.toListed.moveTo found plain live) ?_ ?_ ?_
    · rw [phis_moveTo]
      exact ⟨h.entry.2.1, body inner.1.symm h.entry.2.2.1⟩
    · rw [phis_moveTo]
      exact ⟨h.exit.2.1, body inner.2.symm h.exit.2.2.1⟩
    · intro t caught
      rw [phis_moveTo, h.phis_of_caught caught]
  refine h.sameFlow sameFlow_moveTo shaped fun t w mem s k => ?_
  rw [phis_moveTo] at mem
  rw [keys, inputs?_moveTo]
  exact h.synced t w mem s k

end Moving

section Growing

variable {cs : List Catch}

lemma getD_pushBlock {γ : Type} (p : Block → γ) :
    (((f.pushBlock {}).block? t).map p).getD (p {}) = ((f.block? t).map p).getD (p {}) := by
  rw [block?_pushBlock]
  split
  · rename_i here
    rw [here, block?_size]
    rfl
  · rfl

lemma phis_pushBlock : (f.pushBlock {}).phis t = f.phis t := getD_pushBlock Block.phis

lemma body_pushBlock : (f.pushBlock {}).body t = f.body t := getD_pushBlock Block.body

lemma handlersOf_pushBlock : (f.pushBlock {}).handlersOf t = f.handlersOf t :=
  getD_pushBlock Block.handlers

lemma terminator_pushBlock : (f.pushBlock {}).terminator t = f.terminator t :=
  getD_pushBlock Block.terminator

lemma succs_pushBlock : (f.pushBlock {}).succs t = f.succs t := getD_pushBlock Block.succs

lemma preds_pushBlock : (f.pushBlock {}).preds t = f.preds t := getD_pushBlock Block.preds

lemma isSome_pushBlock : ((f.pushBlock {}).block? t).isSome =
    (decide (t = f.blocks.size) || (f.block? t).isSome) := by
  rw [block?_pushBlock]
  split
  · rename_i here
    simp [here]
  · rename_i other
    simp [other]

lemma size_ne_of_isSome (live : (f.block? b).isSome) : b ≠ f.blocks.size :=
  Nat.ne_of_lt (lt_size_of_block? live)

lemma Shaped.size_ne (h : Shaped f) :
    f.blocks.size ≠ Func.entry ∧ f.blocks.size ≠ Func.exit :=
  ⟨(size_ne_of_isSome h.entry.1).symm, (size_ne_of_isSome h.exit.1).symm⟩

lemma Shaped.pushBlock (h : Shaped f) (fresh : ∀ s k, (f.blocks.size, k) ∉ f.succs s) :
    Shaped (f.pushBlock {}) where
  owned t w mem := by
    rw [nodesOf, phis_pushBlock, body_pushBlock] at mem
    exact h.owned t w mem
  phi t w mem := by
    rw [phis_pushBlock] at mem
    exact h.phi t w mem
  plain t w mem := by
    rw [body_pushBlock] at mem
    exact h.plain t w mem
  nodup t := by
    rw [nodesOf, phis_pushBlock, body_pushBlock]
    exact h.nodup t
  entry := by
    rw [isSome_pushBlock, phis_pushBlock, body_pushBlock, handlersOf_pushBlock, h.entry.1]
    exact ⟨Bool.or_true _, h.entry.2⟩
  exit := by
    rw [isSome_pushBlock, phis_pushBlock, body_pushBlock, handlersOf_pushBlock, terminator_pushBlock,
      h.exit.1]
    exact ⟨Bool.or_true _, h.exit.2⟩
  linked t live s kind := by
    rw [preds_pushBlock, succs_pushBlock]
    by_cases here : t = f.blocks.size
    · subst here
      rw [(parts_of_isNone block?_size).2.2.2.2.2, List.count_nil, eq_comm, List.count_eq_zero]
      exact fresh s kind
    · rw [isSome_pushBlock] at live
      exact h.linked t (by simpa [here] using live) s kind
  covered b k mem := by
    rw [handlersOf_pushBlock] at mem
    simp only [phis_pushBlock]
    exact h.covered b k mem
  enters b e mem := by
    rw [terminator_pushBlock] at mem
    exact h.enters b e mem

lemma Sound.pushBlock (h : Sound stale due f) : Sound stale due (f.pushBlock {}) := by
  have fresh (s k) : (f.blocks.size, k) ∉ f.succs s := by
    intro mem
    have := h.live s _ mem
    rw [block?_size] at this
    cases this
  refine ⟨h.toShaped.pushBlock fresh, fun b old => ?_, fun b e mem => ?_, fun t v mem => ?_, ?_⟩
  · rw [succs_pushBlock, edgesOf_eq, terminator_pushBlock, handlersOf_pushBlock, handlers_pushBlock,
      ← edgesOf_eq]
    exact h.wired b old
  · rw [succs_pushBlock] at mem
    rw [isSome_pushBlock, h.live b e mem, Bool.or_true]
  · rw [phis_pushBlock] at mem
    exact h.synced t v mem
  · rw [terminator_pushBlock]
    exact h.start

/-- The graph with more handlers. -/
def withCatches (f : Func) (cs : List Catch) : Func := { f with handlers := f.handlers ++ cs }

lemma Shaped.getElem?_withCatches (h : Shaped f) {k : Nat} (mem : k ∈ f.handlersOf b) :
    (f.withCatches cs).handlers[k]? = f.handlers[k]? := by
  obtain ⟨c, found, -⟩ := h.covered b k mem
  have inside : k < f.handlers.length := (List.getElem?_eq_some_iff.1 found).1
  exact List.getElem?_append_left inside

lemma Shaped.withCatches (h : Shaped f) : Shaped (f.withCatches cs) :=
  { h with
    covered := fun b k mem => by
      rw [h.getElem?_withCatches mem]
      exact h.covered b k mem }

lemma Sound.withCatches (h : Sound stale due f) : Sound stale due (f.withCatches cs) := by
  have edges (b) : (f.withCatches cs).edgesOf b = f.edgesOf b := by
    rw [edgesOf_eq, edgesOf_eq, edgesFrom, edgesFrom]
    have same : ((f.withCatches cs).handlersOf b).filterMap (fun k =>
        (f.withCatches cs).handlers[k]?.map fun c => (c.target, EdgeKind.raise)) =
          (f.handlersOf b).filterMap fun k => f.handlers[k]?.map fun c => (c.target, .raise) :=
      List.filterMap_congr fun k mem => by rw [h.getElem?_withCatches mem]
    rw [same]
    rfl
  exact { h.toShaped.withCatches with
    wired := fun b fresh => (h.wired b fresh).trans (edges b).symm
    live := h.live
    synced := h.synced
    start := h.start }

end Growing

section Ends

variable {term : Terminator}

/-- Blocks that handle exceptions of a block exist, if the edges of the block are in order. -/
lemma Sound.caught_live (h : Sound stale due f) (fresh : ¬stale b) {k : Nat}
    (mem : k ∈ f.handlersOf b) {c : Catch} (found : f.handlers[k]? = some c) :
    (f.block? c.target).isSome := by
  refine h.live b (c.target, .raise) ?_
  rw [h.wired b fresh, edgesOf_eq, mem_edgesFrom]
  exact .inr (.inr ⟨k, mem, c, found, rfl⟩)

lemma Sound.mem_targets_or (h : Sound stale due f) (fresh : ¬stale b) {e : BlockId × EdgeKind}
    (mem : e ∈ edgesFrom f.handlers term (f.handlersOf b)) :
    e ∈ term.targets ∨ (f.block? e.1).isSome ∧ f.phis e.1 = [] := by
  obtain goes | leaves | ⟨k, covers, c, found, rfl⟩ := mem_edgesFrom.1 mem
  · exact .inl goes
  · rw [Terminator.eq_exit_of_mem_leaving leaves]
    exact .inr ⟨h.exit.1, h.exit.2.1⟩
  · exact .inr ⟨h.caught_live fresh covers found, h.phis_of_caught ⟨b, k, covers, c, found, rfl⟩⟩

/-- A block of a graph in order may get another terminator, which leads to blocks without phis and to
blocks that the old one led to. -/
lemma Intact.reend (h : Intact f) (live : (f.block? b).isSome) (inside : b ≠ Func.exit)
    (start : b = Func.entry → ∃ c, term = .goto c)
    (targets : ∀ e ∈ term.targets, (f.block? e.1).isSome ∧ e.1 ≠ Func.entry ∧
      (f.phis e.1 = [] ∨ ∃ k, (e.1, k) ∈ f.succs b)) :
    Intact (f.reend b term (f.handlersOf b)) := by
  have reached {e} (mem : e ∈ edgesFrom f.handlers term (f.handlersOf b)) :
      (f.block? e.1).isSome ∧ (f.phis e.1 = [] ∨ ∃ k, (e.1, k) ∈ f.succs b) := by
    obtain goes | ⟨live, none⟩ := h.mem_targets_or id mem
    · exact ⟨(targets e goes).1, (targets e goes).2.2⟩
    · exact ⟨live, .inl none⟩
  have same : (f.reend b term (f.handlersOf b)).succs =
      Function.update f.succs b (edgesFrom f.handlers term (f.handlersOf b)) := by
    funext c
    rw [succs_reend live, Function.update_apply]
  rw [Intact, same]
  refine (Sound.reend h live inside (fun here => ⟨?_, start here⟩) (h.covered b)
    (fun e mem => (targets e mem).2.1) (fun e mem => (reached mem).1) (fun t phis there => ?_)
    fun t _ there => ?_).mono (fun c none => none.1) fun _ _ _ _ => rfl
  · rw [here, h.entry.2.2.2]
  · obtain ⟨k, mem⟩ := there
    exact (reached mem).2.resolve_left phis
  · obtain ⟨k, mem⟩ := there
    exact ⟨k, .inl mem⟩

end Ends

/-- The place behind the nodes that a node goes to. -/
def place (f : Func) (b : BlockId) (kind : NodeKind) : Nat :=
  (if kind.isPhi then f.phis b else f.body b).length

lemma fits_place : f.Fits b (f.place b kind) kind := Nat.le_refl _

end Func

namespace Edit

variable {α β : Type} {f f' : Func} {b : BlockId} {v : ValueId}

/-- An edit of a graph succeeds, and what it gives and the graph behind are as said. -/
def Yields (x : Edit α) (f : Func) (post : α → Func → Prop) : Prop :=
  ∃ a f', x.run f = .ok a f' ∧ post a f'

section Sequencing

variable {x : Edit α} {g : α → Edit β} {P : α → Func → Prop} {Q : β → Func → Prop}

lemma yields_pure {a : α} (h : P a f) : (pure a : Edit α).Yields f P :=
  ⟨a, f, pure_eq_ok.2 ⟨rfl, rfl⟩, h⟩

lemma yields_bind {a : α} (first : x.run f = .ok a f') (next : (g a).Yields f' Q) :
    (x >>= g).Yields f Q := by
  obtain ⟨c, f₂, second, post⟩ := next
  exact ⟨c, f₂, bind_eq_ok.2 ⟨a, f', first, second⟩, post⟩

lemma Yields.bind (first : x.Yields f P) (next : ∀ a f', P a f' → (g a).Yields f' Q) :
    (x >>= g).Yields f Q := by
  obtain ⟨a, f', run, post⟩ := first
  exact yields_bind run (next a f' post)

lemma Yields.imp {P' : α → Func → Prop} (h : x.Yields f P) (next : ∀ a f', P a f' → P' a f') :
    x.Yields f P' := by
  obtain ⟨a, f', run, post⟩ := h
  exact ⟨a, f', run, next a f' post⟩

lemma yields_get {g : Func → Edit β} (next : (g f).Yields f Q) : (get >>= g).Yields f Q :=
  yields_bind (get_eq_ok.2 ⟨rfl, rfl⟩) next

lemma yields_set {g : PUnit → Edit β} (next : (g ⟨⟩).Yields f' Q) : (set f' >>= g).Yields f Q :=
  yields_bind (set_eq_ok.2 rfl) next

lemma yields_modify {u : Func → Func} {g : PUnit → Edit β} (next : (g ⟨⟩).Yields (u f) Q) :
    (modify u >>= g).Yields f Q :=
  yields_bind (modify_eq_ok.2 rfl) next

lemma yields_modifyBlock {u : Block → Block} {g : Unit → Edit β} (live : (f.block? b).isSome)
    (next : (g ()).Yields (f.modifyBlock b u) Q) : (modifyBlock b u >>= g).Yields f Q :=
  yields_bind (modifyBlock_eq_ok.2 ⟨live, rfl⟩) next

end Sequencing

lemma setTerminator_eq_ok {t : Terminator} {a : Unit} : (setTerminator b t).run f = .ok a f' ↔
    (∀ e ∈ t.targets, (f.block? e.1).isSome) ∧ (f.block? b).isSome ∧
      f' = f.reend b t (f.handlersOf b) := by
  have same : (f.modifyBlock b fun x => { x with terminator := t }) =
      f.withEnd b t (f.handlersOf b) := by
    refine Func.modifyBlock_congr fun x here => ?_
    rw [Func.handlersOf_of_block? here]
  simp only [setTerminator, bind_eq_ok, get_eq_ok, ↓existsAndEq, and_true]
  cases missing : t.targets.find? fun e => (f.block? e.1).isNone with
  | some e =>
    have none : f.block? e.1 = none := by simpa using List.find?_some missing
    simp only [throw_ne_ok, and_false, false_iff]
    rintro ⟨all, -⟩
    have there := all e (List.mem_of_find?_eq_some missing)
    rw [none] at there
    cases there
  | none =>
    have all : ∀ e ∈ t.targets, (f.block? e.1).isSome := by
      intro e mem
      simpa [Option.isSome_iff_ne_none] using List.find?_eq_none.1 missing e mem
    simp only [bind_eq_ok, modifyBlock_eq_ok, modify_eq_ok, and_assoc, exists_and_left,
      exists_const, ↓existsAndEq, true_and, same]
    exact (and_iff_right all).symm

lemma setHandlers_eq_ok {hs : List Nat} {a : Unit} : (setHandlers b hs).run f = .ok a f' ↔
    (∀ k ∈ hs, k < f.handlers.length) ∧ (f.block? b).isSome ∧
      f' = f.reend b (f.terminator b) hs := by
  have same : (f.modifyBlock b fun x => { x with handlers := hs }) =
      f.withEnd b (f.terminator b) hs := by
    refine Func.modifyBlock_congr fun x here => ?_
    rw [Func.terminator_of_block? here]
  simp only [setHandlers, bind_eq_ok, get_eq_ok, ↓existsAndEq, and_true]
  cases missing : hs.find? fun k => f.handlers.length ≤ k with
  | some k =>
    have above : f.handlers.length ≤ k := by simpa using List.find?_some missing
    simp only [throw_ne_ok, and_false, false_iff]
    rintro ⟨all, -⟩
    have there := all k (List.mem_of_find?_eq_some missing)
    omega
  | none =>
    have all : ∀ k ∈ hs, k < f.handlers.length := by
      intro k mem
      simpa using List.find?_eq_none.1 missing k mem
    simp only [bind_eq_ok, modifyBlock_eq_ok, modify_eq_ok, and_assoc, exists_and_left,
      exists_const, ↓existsAndEq, true_and, same]
    exact (and_iff_right all).symm

lemma update_eq_ok {u : Func → Func} {r : Func → α} {a : α} :
    (do let f ← get; set (u f); return r f : Edit α).run f = .ok a f' ↔ a = r f ∧ f' = u f := by
  change EStateM.Result.ok (r f) (u f) = .ok a f' ↔ _
  rw [EStateM.Result.ok.injEq, eq_comm, @eq_comm _ (u f)]

@[simp] lemma addBlock_eq_ok {a : BlockId} : addBlock.run f = .ok a f' ↔
    a = f.blocks.size ∧ f' = f.pushBlock {} :=
  update_eq_ok

@[simp] lemma addHandler_eq_ok {c : Catch} {a : Nat} : (addHandler c).run f = .ok a f' ↔
    a = f.handlers.length ∧ f' = f.withCatches [c] :=
  update_eq_ok

@[simp] lemma reserveRegisters_eq_ok {n a : Nat} : (reserveRegisters n).run f = .ok a f' ↔
    a = f.locals ∧ f' = { f with locals := f.locals + n } :=
  update_eq_ok

@[simp] lemma freshVersion_eq_ok {a : Nat} : freshVersion.run f = .ok a f' ↔
    a = f.nextVersion ∧ f' = { f with nextVersion := f.nextVersion + 1 } :=
  update_eq_ok

@[simp] lemma removeNode_eq_ok {a : Option NodeKind} : (removeNode v).run f = .ok a f' ↔
    a = f.kind? v ∧ f' = f.dropNode v :=
  update_eq_ok

lemma insertNode_eq_ok {index : Nat} {kind : NodeKind} : (insertNode b index kind).run f = .ok v f' ↔
    (f.block? b).isSome ∧ f.Fits b index kind ∧ v = f.nodes.size ∧
      f' = f.putNode b index kind := by
  have put := @update_eq_ok ValueId f f' (fun f => f.putNode b index kind) (fun f => f.nodes.size) v
  simp only [insertNode, bind_eq_ok, block_eq_ok]
  constructor
  · rintro ⟨x, f₁, ⟨here, same⟩, run⟩
    rw [same] at run
    by_cases outside : (if kind.isPhi then x.phis else x.body).length < index
    · rw [if_pos outside] at run
      obtain ⟨_, _, none, -⟩ := bind_eq_ok.1 run
      exact absurd none throw_ne_ok
    · rw [if_neg outside] at run
      refine ⟨by rw [here]; rfl, ?_, put.1 run⟩
      rw [Func.Fits, Func.phis_of_block? here, Func.body_of_block? here]
      exact Nat.not_lt.1 outside
  · rintro ⟨live, fits, result⟩
    obtain ⟨x, here⟩ := Option.isSome_iff_exists.1 live
    rw [Func.Fits, Func.phis_of_block? here, Func.body_of_block? here, ← Nat.not_lt] at fits
    refine ⟨x, f, ⟨here, rfl⟩, ?_⟩
    rw [if_neg fits]
    exact put.2 result

lemma appendNode_eq_ok {kind : NodeKind} : (appendNode b kind).run f = .ok v f' ↔
    (f.block? b).isSome ∧ v = f.nodes.size ∧ f' = f.putNode b (f.place b kind) kind := by
  have place {x} (here : f.block? b = some x) :
      (if kind.isPhi then x.phis.length else x.body.length) = f.place b kind := by
    rw [Func.place, Func.phis_of_block? here, Func.body_of_block? here]
    split
    · rfl
    · rfl
  simp only [appendNode, bind_eq_ok, block_eq_ok]
  constructor
  · rintro ⟨x, _, ⟨here, rfl⟩, run⟩
    rw [place here] at run
    obtain ⟨live, -, result⟩ := insertNode_eq_ok.1 run
    exact ⟨live, result⟩
  · rintro ⟨live, result⟩
    obtain ⟨x, here⟩ := Option.isSome_iff_exists.1 live
    refine ⟨x, f, ⟨here, rfl⟩, ?_⟩
    rw [place here]
    exact insertNode_eq_ok.2 ⟨live, Func.fits_place, result⟩

lemma appendPhis_eq_ok {inputs : List (List PhiInput)} {vs : List ValueId} :
    (appendPhis b inputs).run f = .ok vs f' ↔ (f.block? b).isSome ∧
      vs = (List.range inputs.length).map (f.nodes.size + ·) ∧ f' = f.putPhis b inputs := by
  simp only [appendPhis, bind_eq_ok, block_eq_ok, get_eq_ok, modify_eq_ok, pure_eq_ok,
    Option.isSome_iff_exists]
  constructor
  · rintro ⟨x, _, ⟨here, rfl⟩, _, _, ⟨rfl, rfl⟩, _, _, rfl, rfl, rfl⟩
    exact ⟨⟨x, here⟩, rfl, rfl⟩
  · rintro ⟨⟨x, here⟩, rfl, rfl⟩
    exact ⟨x, f, ⟨here, rfl⟩, f, f, ⟨rfl, rfl⟩, ⟨⟩, _, rfl, rfl, rfl⟩

lemma moveNode_eq_ok {index : Nat} {a : Unit} : (moveNode v b index).run f = .ok a f' ↔
    ∃ n, f.node? v = some n ∧ n.kind.isPhi = false ∧ (f.block? n.block).isSome ∧
      (f.block? b).isSome ∧ f' = f.moveTo v n.block b index := by
  simp only [moveNode, bind_eq_ok, get_eq_ok, ↓existsAndEq, and_true, true_and]
  cases found : f.node? v with
  | none => simp only [throw_ne_ok, reduceCtorEq, false_and, exists_false]
  | some n =>
    simp only [Option.some.injEq, ↓existsAndEq, true_and]
    split
    · rename_i phi
      simp [phi]
    · rename_i plain
      simp only [bind_eq_ok, modifyBlock_eq_ok, modify_eq_ok, plain, true_and]
      constructor
      · rintro ⟨_, _, ⟨live, rfl⟩, _, _, ⟨there, rfl⟩, rfl⟩
        rw [Func.isSome_block?_modifyBlock] at there
        exact ⟨live, there, rfl⟩
      · rintro ⟨live, there, rfl⟩
        refine ⟨(), _, ⟨live, rfl⟩, (), _, ⟨?_, rfl⟩, rfl⟩
        rw [Func.isSome_block?_modifyBlock]
        exact there

end Edit

end Avm.Ir
