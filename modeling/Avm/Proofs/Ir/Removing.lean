import Avm.Opt.DeadCode
import Avm.Proofs.Ir.Edits

/-!
# Removing blocks

A block is removed with its nodes, the edges at it, and the inputs that phis have from it.  The blocks
that led to it are left with terminators that name it, so their edges are stale until they are removed
as well.  Removing all blocks that control cannot reach leaves none that is stale, since a block that
control can reach leads to such blocks only.

The main statement is `removeUnreachable_yields`.
-/

namespace Avm.Ir

namespace Func

variable {f : Func} {b c s t : BlockId} {v w : ValueId} {x : Block}
  {es : List (BlockId × EdgeKind)}

/-- Other blocks forget edges from a block, and their phis the inputs from there. -/
def unlink (b : BlockId) (es : List (BlockId × EdgeKind)) (f : Func) : Func :=
  es.foldl (fun f e =>
    (f.modifyBlock e.1 fun t => { t with preds := t.preds.filter (· != (b, e.2)) }).reconcilePhis
      e.1 b []) f

/-- Other blocks forget edges to a block. -/
def forget (b : BlockId) (es : List (BlockId × EdgeKind)) (f : Func) : Func :=
  es.foldl (fun f e =>
    f.modifyBlock e.1 fun s => { s with succs := s.succs.filter (· != (b, e.2)) }) f

/-- The graph without nodes, which are listed as before. -/
def eraseNodes (vs : List ValueId) (f : Func) : Func :=
  { f with nodes := vs.foldl (fun ns v => ns.setIfInBounds v none) f.nodes }

/-- The graph with a gap in place of a block. -/
def clearBlock (f : Func) (b : BlockId) : Func := { f with blocks := f.blocks.setIfInBounds b none }

/-- The graph without a block, of which the parts are given. -/
def without (f : Func) (b : BlockId) (x : Block) : Func :=
  (((f.clearBlock b).unlink b x.succs).forget b x.preds).eraseNodes x.nodeIds

section Steps

lemma block?_clearBlock : (f.clearBlock b).block? t = if t = b then none else f.block? t := by
  rw [clearBlock, block?, block?]
  by_cases here : t = b
  · subst here
    rw [if_pos rfl, Array.getElem?_setIfInBounds_self]
    split
    · rfl
    · rfl
  · rw [if_neg here, Array.getElem?_setIfInBounds_ne (Ne.symm here)]

lemma map_unlink {γ : Type} {p : Block → γ} (keeps : ∀ x ps, p { x with preds := ps } = p x) :
    ((f.unlink b es).block? t).map p = (f.block? t).map p := by
  refine foldl_keeps (fun f : Func => (f.block? t).map p) fun f e => ?_
  rw [reconcilePhis, block?_congr blocks_modifyPhis]
  exact map_modifyBlock fun x => keeps x _

lemma map_forget {γ : Type} {p : Block → γ} (keeps : ∀ x ss, p { x with succs := ss } = p x) :
    ((f.forget b es).block? t).map p = (f.block? t).map p :=
  foldl_keeps (fun f : Func => (f.block? t).map p) fun _ _ => map_modifyBlock fun x => keeps x _

lemma handlers_unlink : (f.unlink b es).handlers = f.handlers :=
  foldl_keeps Func.handlers fun _ _ => by exact handlers_modifyPhis

lemma handlers_forget : (f.forget b es).handlers = f.handlers := foldl_keeps Func.handlers fun _ _ => by rfl

lemma nodes_forget : (f.forget b es).nodes = f.nodes := foldl_keeps Func.nodes fun _ _ => by rfl

lemma filter_filter_ne {l : List (BlockId × EdgeKind)} {k : EdgeKind} :
    (l.filter (· != (b, k))).filter (fun e => !(e.1 == b && es.contains (c, e.2))) =
      l.filter fun e => !(e.1 == b && ((c, k) :: es).contains (c, e.2)) := by
  rw [List.filter_filter]
  refine List.filter_congr fun e _ => ?_
  obtain ⟨d, k'⟩ := e
  rw [Bool.eq_iff_iff]
  simp
  tauto

lemma preds_unlink : (f.unlink b es).preds t =
    (f.preds t).filter fun e => !(e.1 == b && es.contains (t, e.2)) := by
  induction es generalizing f with
  | nil => simp [unlink]
  | cons e es ih =>
    obtain ⟨c, k⟩ := e
    rw [unlink, List.foldl_cons, ← unlink, ih, reconcilePhis, preds, block?_congr blocks_modifyPhis,
      block?_modifyBlock]
    split
    · rename_i here
      subst here
      cases found : f.block? c with
      | none => simp [preds, found]
      | some x =>
        simp only [preds, found, Option.map_some, Option.getD_some]
        exact filter_filter_ne
    · rename_i other
      rw [← preds]
      refine List.filter_congr fun e _ => ?_
      simp [Ne.symm other]

lemma succs_forget : (f.forget b es).succs s =
    (f.succs s).filter fun e => !(e.1 == b && es.contains (s, e.2)) := by
  induction es generalizing f with
  | nil => simp [forget]
  | cons e es ih =>
    obtain ⟨c, k⟩ := e
    rw [forget, List.foldl_cons, ← forget, ih, succs, block?_modifyBlock]
    split
    · rename_i here
      subst here
      cases found : f.block? c with
      | none => simp [succs, found]
      | some x =>
        simp only [succs, found, Option.map_some, Option.getD_some]
        exact filter_filter_ne
    · rename_i other
      rw [← succs]
      refine List.filter_congr fun e _ => ?_
      simp [Ne.symm other]

lemma reconcile_nil {is : List PhiInput} : reconcile b [] is = is.filter (·.source != b) := by
  rw [reconcile]
  split
  · rename_i none
    symm
    rw [List.filter_eq_self]
    intro i mem
    simpa using List.filter_eq_nil_iff.1 none i mem
  · simp

lemma node?_eraseNodes {vs : List ValueId} :
    (f.eraseNodes vs).node? w = if w ∈ vs then none else f.node? w := by
  induction vs generalizing f with
  | nil => rfl
  | cons v vs ih =>
    have step : f.eraseNodes (v :: vs) =
      ({ f with nodes := f.nodes.setIfInBounds v none } : Func).eraseNodes vs := rfl
    rw [step, ih]
    by_cases there : w ∈ vs
    · simp [there]
    · by_cases same : w = v
      · subst same
        simp only [there, if_false, List.mem_cons, true_or, if_true, node?,
          Array.getElem?_setIfInBounds_self]
        split
        · rfl
        · rfl
      · simp [there, same, node?, Array.getElem?_setIfInBounds_ne (Ne.symm same)]

lemma keys_reconcilePhis_nil (owner : ∀ c, v ∈ f.phis c → c = t) (nodup : ∀ c, (f.phis c).Nodup)
    (mem : v ∈ f.phis t) : (f.reconcilePhis c b []).keys v =
      if c = t then (f.keys v).filter (·.1 != b) else f.keys v := by
  have change : (f.reconcilePhis c b []).inputs? v =
      if c = t then (f.inputs? v).map (List.filter (·.source != b)) else f.inputs? v := by
    have step : reconcile b [] = List.filter (·.source != b) := funext fun _ => reconcile_nil
    rw [reconcilePhis, inputs?_modifyPhis (nodup c), step]
    by_cases here : c = t
    · rw [if_pos here, if_pos (here ▸ mem)]
    · rw [if_neg fun there => here (owner c there), if_neg here]
  rw [keys, change]
  split
  · rw [keys]
    cases f.inputs? v with
    | none => rfl
    | some is =>
      simp only [Option.map_some, Option.getD_some, List.filter_map]
      rfl
  · rfl

lemma keys_unlink (owner : ∀ c, v ∈ f.phis c → c = t) (nodup : ∀ c, (f.phis c).Nodup)
    (mem : v ∈ f.phis t) : (f.unlink b es).keys v =
      if t ∈ es.map (·.1) then (f.keys v).filter (·.1 != b) else f.keys v := by
  induction es generalizing f with
  | nil => rfl
  | cons e es ih =>
    let f₁ := f.modifyBlock e.1 fun t => { t with preds := t.preds.filter (· != (b, e.2)) }
    have same (c) : f₁.phis c = f.phis c := phis_modifyBlock fun _ => rfl
    have same' (c) : (f₁.reconcilePhis e.1 b []).phis c = f.phis c := by
      rw [phis, reconcilePhis, block?_congr blocks_modifyPhis, ← phis, same]
    have first := keys_reconcilePhis_nil (f := f₁) (c := e.1) (b := b)
      (fun c there => owner c (same c ▸ there)) (fun c => same c ▸ nodup c) (same t ▸ mem)
    rw [unlink, List.foldl_cons, ← unlink, ih (fun c there => owner c (same' c ▸ there))
      (fun c => same' c ▸ nodup c) (same' t ▸ mem), first]
    have keys : f₁.keys v = f.keys v := rfl
    rw [keys, List.map_cons]
    by_cases here : e.1 = t
    · simp [here, List.filter_filter]
    · simp only [here, if_false, List.mem_cons, Ne.symm here, false_or]

lemma frame_unlink : ((f.unlink b es).node? v).map (·.block) = (f.node? v).map (·.block) ∧
    ((f.unlink b es).inputs? v).isSome = (f.inputs? v).isSome := by
  induction es generalizing f with
  | nil => exact ⟨rfl, rfl⟩
  | cons e es ih =>
    rw [unlink, List.foldl_cons, ← unlink, ih.1, ih.2, reconcilePhis]
    exact frame_modifyPhis

end Steps

section Without

lemma map_without {γ : Type} {p : Block → γ} (preds : ∀ x ps, p { x with preds := ps } = p x)
    (succs : ∀ x ss, p { x with succs := ss } = p x) :
    ((f.without b x).block? t).map p = if t = b then none else (f.block? t).map p := by
  rw [without, eraseNodes, block?_withNodes, map_forget succs, map_unlink preds, block?_clearBlock]
  split
  · rfl
  · rfl

lemma isSome_without : ((f.without b x).block? t).isSome = (decide (t ≠ b) && (f.block? t).isSome) := by
  rw [← Option.isSome_map (f := fun _ => ()), map_without (fun _ _ => rfl) fun _ _ => rfl]
  split
  · rename_i here
    simp [here]
  · rename_i other
    simp [other]

lemma size_without : (f.without b x).blocks.size = f.blocks.size := by
  have unlinked (g : Func) (es) : (g.unlink b es).blocks.size = g.blocks.size :=
    foldl_keeps (fun f : Func => f.blocks.size) fun f e => by
      rw [reconcilePhis, blocks_modifyPhis, size_modifyBlock]
  have forgotten (g : Func) (es) : (g.forget b es).blocks.size = g.blocks.size :=
    foldl_keeps (fun f : Func => f.blocks.size) fun _ _ => size_modifyBlock
  change (((f.clearBlock b).unlink b x.succs).forget b x.preds).blocks.size = _
  rw [forgotten, unlinked, clearBlock, Array.size_setIfInBounds]

lemma catches_without : (f.without b x).handlers = f.handlers := by
  rw [without, eraseNodes, handlers_forget, handlers_unlink]
  rfl

lemma getD_without {γ : Type} {p : Block → γ} {d : γ} (preds : ∀ x ps, p { x with preds := ps } = p x)
    (succs : ∀ x ss, p { x with succs := ss } = p x) :
    (((f.without b x).block? t).map p).getD d =
      if t = b then d else ((f.block? t).map p).getD d := by
  rw [map_without preds succs]
  split
  · rfl
  · rfl

lemma phis_without : (f.without b x).phis t = if t = b then [] else f.phis t :=
  getD_without (fun _ _ => rfl) fun _ _ => rfl

lemma body_without : (f.without b x).body t = if t = b then [] else f.body t :=
  getD_without (fun _ _ => rfl) fun _ _ => rfl

lemma handlersOf_without : (f.without b x).handlersOf t = if t = b then [] else f.handlersOf t :=
  getD_without (fun _ _ => rfl) fun _ _ => rfl

lemma terminator_without :
    (f.without b x).terminator t = if t = b then .none else f.terminator t :=
  getD_without (fun _ _ => rfl) fun _ _ => rfl

lemma succs_without : (f.without b x).succs s = if s = b then []
    else (f.succs s).filter fun e => !(e.1 == b && x.preds.contains (s, e.2)) := by
  have same : (f.without b x).succs s = (((f.clearBlock b).unlink b x.succs).forget b x.preds).succs s :=
    rfl
  have old : ((f.clearBlock b).unlink b x.succs).succs s = if s = b then [] else f.succs s := by
    rw [succs, map_unlink (p := Block.succs) fun _ _ => rfl, block?_clearBlock]
    split
    · rfl
    · rfl
  rw [same, succs_forget, old]
  split
  · rfl
  · rfl

lemma preds_without : (f.without b x).preds t = if t = b then []
    else (f.preds t).filter fun e => !(e.1 == b && x.succs.contains (t, e.2)) := by
  have same : (f.without b x).preds t = ((f.clearBlock b).unlink b x.succs).preds t := by
    rw [without, eraseNodes, preds, block?_withNodes, map_forget (p := Block.preds) fun _ _ => rfl]
    rfl
  have old : (f.clearBlock b).preds t = if t = b then [] else f.preds t := by
    rw [preds, block?_clearBlock]
    split
    · rfl
    · rfl
  rw [same, preds_unlink, old]
  split
  · rfl
  · rfl

variable (h : Listed f) (here : f.block? b = some x)

include h here

lemma Listed.notMem_nodeIds (mem : v ∈ f.nodesOf t) (other : t ≠ b) : v ∉ x.nodeIds := by
  intro there
  have old : v ∈ f.nodesOf b := by
    rw [nodesOf, phis_of_block? here, body_of_block? here]
    exact there
  exact other (h.eq_of_mem_nodesOf mem old)

lemma Listed.frame_without (mem : v ∈ f.nodesOf t) (other : t ≠ b) :
    ((f.without b x).node? v).map (·.block) = (f.node? v).map (·.block) ∧
      ((f.without b x).inputs? v).isSome = (f.inputs? v).isSome := by
  have kept : (f.without b x).node? v = ((f.clearBlock b).unlink b x.succs).node? v := by
    rw [without, node?_eraseNodes, if_neg (h.notMem_nodeIds here mem other), node?, nodes_forget]
    rfl
  rw [inputs?_eq, kept, ← inputs?_eq]
  exact frame_unlink (f := f.clearBlock b)

lemma Listed.keys_without (mem : v ∈ f.phis t) (other : t ≠ b) : (f.without b x).keys v =
    if t ∈ x.succs.map (·.1) then (f.keys v).filter (·.1 != b) else f.keys v := by
  have kept : (f.without b x).node? v = ((f.clearBlock b).unlink b x.succs).node? v := by
    rw [without, node?_eraseNodes, if_neg (h.notMem_nodeIds here (List.mem_append_left _ mem) other),
      node?, nodes_forget]
    rfl
  have same {c} (there : v ∈ (f.clearBlock b).phis c) : v ∈ f.phis c := by
    rw [phis, block?_clearBlock] at there
    split at there
    · cases there
    · exact there
  have nodup (c) : ((f.clearBlock b).phis c).Nodup := by
    rw [phis, block?_clearBlock]
    split
    · exact List.nodup_nil
    · exact h.nodup_phis c
  have there : v ∈ (f.clearBlock b).phis t := by
    rw [phis, block?_clearBlock, if_neg other]
    exact mem
  rw [keys_eq, kept, ← keys_eq]
  exact keys_unlink (fun c there => h.eq_of_mem_phis (same there) mem) nodup there

lemma Listed.without : Listed (f.without b x) := by
  have other {v t} (mem : v ∈ (f.without b x).nodesOf t) : t ≠ b := by
    rintro rfl
    rw [nodesOf, phis_without, body_without, if_pos rfl, if_pos rfl] at mem
    cases mem
  have old {t} (other : t ≠ b) : (f.without b x).nodesOf t = f.nodesOf t := by
    rw [nodesOf, phis_without, body_without, if_neg other, if_neg other, ← nodesOf]
  refine ⟨fun t v mem => ?_, fun t v mem => ?_, fun t v mem => ?_, fun t => ?_⟩
  · have ne := other mem
    rw [old ne] at mem
    rw [(h.frame_without here mem ne).1]
    exact h.owned t v mem
  · have there : v ∈ (f.without b x).nodesOf t := List.mem_append_left _ mem
    have ne := other there
    rw [old ne] at there
    rw [phis_without, if_neg ne] at mem
    rw [(h.frame_without here there ne).2]
    exact h.phi t v mem
  · have there : v ∈ (f.without b x).nodesOf t := List.mem_append_right _ mem
    have ne := other there
    rw [old ne] at there
    rw [body_without, if_neg ne] at mem
    have frame := (h.frame_without here there ne).2
    rw [h.plain t v mem] at frame
    exact Option.not_isSome_iff_eq_none.1 (by rw [frame]; exact Bool.false_ne_true)
  · by_cases same : t = b
    · rw [nodesOf, phis_without, body_without, if_pos same, if_pos same]
      exact List.nodup_nil
    · rw [old same]
      exact h.nodup t

end Without

section Invariant

lemma count_preds_without (linked : ∀ kind, (f.preds t).count (b, kind) = (f.succs b).count (t, kind))
    (here : f.block? b = some x) (other : t ≠ b) {kind : EdgeKind} :
    ((f.without b x).preds t).count (s, kind) =
      if s = b then 0 else (f.preds t).count (s, kind) := by
  rw [preds_without, if_neg other]
  split
  · rename_i same
    rw [List.count_eq_zero]
    intro mem
    obtain ⟨mem, kept⟩ := List.mem_filter.1 mem
    rw [same, ← List.count_pos_iff, linked, List.count_pos_iff, succs_of_block? here] at mem
    simp [same, mem] at kept
  · rename_i ne
    exact List.count_filter (by simp [ne])

lemma count_succs_without {kind : EdgeKind} (other : t ≠ b) :
    ((f.without b x).succs s).count (t, kind) =
      if s = b then 0 else (f.succs s).count (t, kind) := by
  rw [succs_without]
  split
  · rfl
  · exact List.count_filter (by simp [other])

lemma Shaped.without (h : Shaped f) (here : f.block? b = some x)
    (inner : b ≠ Func.entry ∧ b ≠ Func.exit) : Shaped (f.without b x) :=
  { h.toListed.without here with
    entry := by
      simp only [isSome_without, phis_without, body_without, handlersOf_without, inner.1.symm,
        if_false, ne_eq, not_false_eq_true, decide_true, Bool.true_and]
      exact h.entry
    exit := by
      simp only [isSome_without, phis_without, body_without, handlersOf_without, terminator_without,
        inner.2.symm, if_false, ne_eq, not_false_eq_true, decide_true, Bool.true_and]
      exact h.exit
    linked := fun t live s kind => by
      rw [isSome_without, Bool.and_eq_true, decide_eq_true_eq] at live
      rw [count_preds_without (h.linked t live.2 b) here live.1, count_succs_without live.1]
      split
      · rfl
      · exact h.linked t live.2 s kind
    covered := fun c k mem => by
      rw [handlersOf_without] at mem
      split at mem
      · cases mem
      · obtain ⟨d, found, inside, none⟩ := h.covered c k mem
        refine ⟨d, by rw [catches_without, found], inside, ?_⟩
        rw [phis_without, none, ite_self]
    enters := fun c e mem => by
      rw [terminator_without] at mem
      split at mem
      · cases mem
      · exact h.enters c e mem }

lemma Sound.without {stale : BlockId → Prop} (h : Sound stale f.succs f)
    (here : f.block? b = some x) (inner : b ≠ Func.entry ∧ b ≠ Func.exit)
    (before : ∀ s k, (b, k) ∈ f.succs s → stale s) :
    Sound (fun c => stale c ∧ c ≠ b) (f.without b x).succs (f.without b x) := by
  refine ⟨h.toShaped.without here inner, fun c fresh => ?_, fun c e mem => ?_,
    fun t v mem s kind => ?_, ?_⟩
  · rw [succs_without, edgesOf_eq, terminator_without, handlersOf_without, catches_without]
    split
    · rfl
    · rename_i other
      have kept : ¬stale c := fun old => fresh ⟨old, other⟩
      rw [← edgesOf_eq, ← h.wired c kept, List.filter_eq_self]
      intro e mem
      have elsewhere : e.1 ≠ b := fun same => kept (before c e.2 (by rwa [← same]))
      simp [elsewhere]
  · rw [succs_without] at mem
    split at mem
    · cases mem
    · obtain ⟨mem, kept⟩ := List.mem_filter.1 mem
      rw [isSome_without, h.live c e mem, Bool.and_true, decide_eq_true_eq]
      intro same
      have there : (c, e.2) ∈ x.preds := by
        rw [← preds_of_block? here, ← List.count_pos_iff, h.linked b (by rw [here]; rfl),
          List.count_pos_iff, ← same]
        exact mem
      simp [same, there] at kept
  · have other : t ≠ b := by
      rintro rfl
      rw [phis_without, if_pos rfl] at mem
      cases mem
    rw [phis_without, if_neg other] at mem
    have synced := h.synced t v mem s kind
    rw [h.keys_without here mem other, count_succs_without other]
    by_cases same : s = b
    · subst same
      rw [if_pos rfl, List.count_eq_zero]
      split
      · simp
      · rename_i none
        rw [← List.count_eq_zero, synced, List.count_eq_zero, succs_of_block? here]
        exact fun there => none (List.mem_map_of_mem there)
    · rw [if_neg same, ← synced]
      split
      · exact List.count_filter (by simp [same])
      · rfl
  · rw [terminator_without, if_neg inner.1.symm]
    exact h.start

end Invariant

end Func

namespace Edit

variable {f f' : Func} {b : BlockId}

lemma removeBlock_eq_ok {a : Unit} : (removeBlock b).run f = .ok a f' ↔
    (b ≠ Func.entry ∧ b ≠ Func.exit) ∧ ∃ x, f.block? b = some x ∧ f' = f.without b x := by
  rw [removeBlock]
  by_cases fixed : b = Func.entry ∨ b = Func.exit
  · rw [if_pos fixed, bind_eq_ok]
    simp only [throw_ne_ok, false_and, exists_false, false_iff]
    tauto
  · rw [if_neg fixed]
    simp only [bind_eq_ok, block_eq_ok, modify_eq_ok]
    constructor
    · rintro ⟨x, f₁, ⟨here, same⟩, rfl⟩
      exact ⟨not_or.1 fixed, x, here, by rw [same]; rfl⟩
    · rintro ⟨-, x, here, rfl⟩
      exact ⟨x, f, ⟨here, rfl⟩, rfl⟩

end Edit

namespace Lift

variable {f f' : Func} {bs : List BlockId}

lemma removeBlocks_induction {a : Unit} {P : Func → Prop} (run : (removeBlocks bs).run f = .ok a f')
    (start : P f) (step : ∀ f b x, P f → b ≠ Func.entry ∧ b ≠ Func.exit → f.block? b = some x →
      P (f.without b x)) : P f' := by
  induction bs generalizing f with
  | nil =>
    obtain ⟨-, rfl⟩ := Edit.pure_eq_ok.1 run
    exact start
  | cons b bs ih =>
    obtain ⟨_, f₁, first, rest⟩ := Edit.bind_eq_ok.1 run
    obtain ⟨inner, x, here, rfl⟩ := Edit.removeBlock_eq_ok.1 first
    exact ih rest (step f b x start inner here)

/-- Blocks may be removed together if only they lead to one another. -/
lemma removeBlocks_yields (h : Func.Sound (· ∈ bs) f.succs f) (nodup : bs.Nodup)
    (inner : ∀ b ∈ bs, b ≠ Func.entry ∧ b ≠ Func.exit) (live : ∀ b ∈ bs, (f.block? b).isSome)
    (closed : ∀ s k, ∀ b ∈ bs, (b, k) ∈ f.succs s → s ∈ bs) :
    (removeBlocks bs).Yields f fun _ f' => f'.Intact := by
  induction bs generalizing f with
  | nil => exact Edit.yields_pure (h.mono (fun _ none => List.not_mem_nil none) fun _ _ _ _ => rfl)
  | cons b bs ih =>
    obtain ⟨absent, nodup⟩ := List.nodup_cons.1 nodup
    obtain ⟨x, here⟩ := Option.isSome_iff_exists.1 (live b List.mem_cons_self)
    have first := inner b List.mem_cons_self
    refine Edit.yields_bind (a := ()) (Edit.removeBlock_eq_ok.2 ⟨first, x, here, rfl⟩)
      (ih ?_ nodup ?_ ?_ ?_)
    · refine (h.without here first fun s k => closed s k b List.mem_cons_self).mono ?_
        fun _ _ _ _ => rfl
      rintro c ⟨mem, other⟩
      exact (List.mem_cons.1 mem).resolve_left other
    · exact fun c mem => inner c (List.mem_cons_of_mem _ mem)
    · intro c mem
      have other : c ≠ b := fun same => absent (same ▸ mem)
      rw [Func.isSome_without, live c (List.mem_cons_of_mem _ mem)]
      simp [other]
    · intro s k c mem edge
      rw [Func.succs_without] at edge
      split at edge
      · cases edge
      · rename_i other
        have old := (List.mem_filter.1 edge).1
        exact (List.mem_cons.1 (closed s k c (List.mem_cons_of_mem _ mem) old)).resolve_left other

end Lift

end Avm.Ir

namespace Avm.Opt.DeadCode

open Avm.Ir

variable {f : Func}

lemma entry_mem_reachable : Func.entry ∈ f.reachable :=
  Graph.start_mem_reversePostorder (by rw [Func.entry]; omega)

lemma mem_reachable_of_mem_succs {s b : BlockId} {k : EdgeKind} (found : s ∈ f.reachable)
    (edge : (b, k) ∈ f.succs s) (inside : b < f.blocks.size) : b ∈ f.reachable := by
  have above (l : List Nat) (n : Nat) : n ≤ l.foldl max n := by
    induction l generalizing n with
    | nil => exact Nat.le_refl n
    | cons m l ih => exact (Nat.le_max_left n m).trans (ih _)
  refine Graph.mem_reversePostorder_of_mem found (List.mem_map_of_mem edge) ?_
  exact Nat.lt_one_add_iff.2 (inside.le.trans (above _ _))

lemma mem_unreachableBlocks {b : BlockId} : b ∈ unreachableBlocks f ↔
    (f.block? b).isSome ∧ b ∉ f.reachable ∧ b ≠ Func.exit := by
  rw [unreachableBlocks, List.mem_filter, Func.mem_blockIds, Bool.and_eq_true, bne_iff_ne,
    Bool.not_eq_true', ← Bool.not_eq_true, Graph.Marks.has_ofList]
  constructor
  · rintro ⟨live, none, inner⟩
    exact ⟨live, fun there => none ⟨there, Func.lt_size_of_block? live⟩, inner⟩
  · rintro ⟨live, none, inner⟩
    exact ⟨live, fun there => none there.1, inner⟩

lemma mem_unreachableBlocks_of_mem_succs (h : f.Intact) {s b : BlockId} {k : EdgeKind}
    (dead : b ∈ unreachableBlocks f) (edge : (b, k) ∈ f.succs s) : s ∈ unreachableBlocks f := by
  obtain ⟨live, unreached, -⟩ := mem_unreachableBlocks.1 dead
  refine mem_unreachableBlocks.2 ⟨Func.isSome_of_mem_succs edge, fun found => ?_, ?_⟩
  · exact unreached (mem_reachable_of_mem_succs found edge (Func.lt_size_of_block? live))
  · rintro rfl
    rw [h.wired Func.exit id, Func.edgesOf_eq, h.exit.2.2.2.1, h.exit.2.2.2.2] at edge
    cases edge

lemma removeUnreachable_yields (h : f.Intact) :
    removeUnreachable.Yields f fun _ f' => f'.Intact := by
  refine Edit.yields_get (Edit.Yields.bind (Lift.removeBlocks_yields ?_ ?_ ?_ ?_ ?_)
    fun _ f' intact => Edit.yields_pure intact)
  · exact h.mono (fun _ none => none.elim) fun _ _ _ _ => rfl
  · exact Func.nodup_blockIds.filter _
  · intro b dead
    obtain ⟨-, unreached, inner⟩ := mem_unreachableBlocks.1 dead
    exact ⟨fun same => unreached (same ▸ entry_mem_reachable), inner⟩
  · exact fun b dead => (mem_unreachableBlocks.1 dead).1
  · exact fun s k b dead edge => mem_unreachableBlocks_of_mem_succs h dead edge

end Avm.Opt.DeadCode
