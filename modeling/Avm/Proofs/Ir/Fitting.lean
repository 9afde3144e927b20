import Avm.Proofs.Opt.Fixpoint

/-!
# Edges to what is there

A block that is removed leaves terminators behind that name it, and the check fails as long as these
are there.  Control that cannot come to them does no harm, and an optimization may go on.  `Fitted` is what is
left of the check then: a block has the edges that it calls for to blocks that exist, and a phi has one input
for each edge into its block.

The main statements are `Checked.fitted`, `Fitted.keyed` and `Fitted.verify`.
-/

namespace Avm.Ir.Func

variable {f g : Func} {b s t : BlockId} {v : ValueId} {kind : EdgeKind}

/-- Nodes are filed where they say, blocks have the edges that they call for to blocks that exist, and phis have
one input for each edge into their block. -/
structure Fitted (f : Func) : Prop extends Filed f where
  leads : ∀ b, ∀ e ∈ f.edgesOf b, (f.block? e.1).isSome → e ∈ f.succs b
  called : ∀ b, ∀ e ∈ f.succs b, e ∈ f.edgesOf b
  distinct : ∀ b, (f.succs b).Nodup
  synced : ∀ t, ∀ v ∈ f.phis t, ∀ s kind, (f.keys v).count (s, kind) = (f.succs s).count (t, kind)

lemma Checked.fitted (h : Checked f) : Fitted f where
  toFiled := h.toFiled
  leads b e mem _ := by
    rw [h.wired]
    exact mem
  called b e mem := by
    rw [← h.wired]
    exact mem
  distinct := h.nodup_succs
  synced t v mem s kind := by
    obtain ⟨is, inputs⟩ := Option.isSome_iff_exists.1 (h.phi t v mem)
    rw [keys_of_inputs? inputs]
    exact h.count_keysOf mem inputs

namespace Fitted

variable (h : Fitted f)
include h

lemma mem_succs_of_mem_targets {e : BlockId × EdgeKind} (mem : e ∈ (f.terminator b).targets)
    (live : (f.block? e.1).isSome) : e ∈ f.succs b := by
  refine h.leads b e ?_ live
  rw [edgesOf_eq, mem_edgesFrom]
  exact .inl mem

lemma mem_keys (mem : v ∈ f.phis t) : (s, kind) ∈ f.keys v ↔ (t, kind) ∈ f.succs s := by
  rw [← List.count_pos_iff, h.synced t v mem, List.count_pos_iff]

lemma keyed : Keyed f where
  known t v mem s kind := by
    obtain ⟨is, inputs⟩ := Option.isSome_iff_exists.1 (h.phi t v mem)
    rw [incoming, inputs, Option.bind_some, incoming?_isSome, ← h.mem_keys mem, keys_of_inputs? inputs, keysOf]
  once v is inputs := by
    obtain ⟨t, mem⟩ := h.toFiled.mem_phis (v := v) (by rw [inputs]; rfl)
    refine List.nodup_iff_count_le_one.2 ?_
    rintro ⟨s, kind⟩
    have synced := h.synced t v mem s kind
    rw [keys_of_inputs? inputs] at synced
    rw [keysOf, synced]
    exact List.nodup_iff_count_le_one.1 (h.distinct s) (t, kind)

lemma sameFlow (flow : SameFlow f g) (filed : Filed g)
    (phis : ∀ t, ∀ v ∈ g.phis t, v ∈ f.phis t ∧ g.keys v = f.keys v) : Fitted g where
  toFiled := filed
  leads b e mem live := by
    rw [flow.edgesOf] at mem
    rw [flow.isSome] at live
    rw [flow.succs]
    exact h.leads b e mem live
  called b e mem := by
    rw [flow.succs] at mem
    rw [flow.edgesOf]
    exact h.called b e mem
  distinct b := by
    rw [flow.succs]
    exact h.distinct b
  synced t v mem s kind := by
    obtain ⟨there, keys⟩ := phis t v mem
    rw [keys, flow.succs]
    exact h.synced t v there s kind

lemma alike (same : Alike f g) : Fitted g :=
  h.sameFlow same.toSameFlow (h.toFiled.sameNodes same.toSameNodes) fun t v mem =>
    ⟨by rw [← same.phis]; exact mem, same.keys v⟩

lemma dropNode (v : ValueId) : Fitted (f.dropNode v) := by
  refine h.sameFlow sameFlow_dropNode (h.toFiled.dropNode v) fun t w mem => ?_
  rw [(h.toListed.lists_dropNode v t).1, List.mem_filter, bne_iff_ne] at mem
  exact ⟨mem.1, by rw [keys_eq, node?_dropNode, if_neg mem.2, ← keys_eq]⟩

lemma trims (less : Trims f g) : Fitted g := by
  induction less with
  | refl => exact h
  | alike _ same ih => exact ih.alike same
  | drop v _ ih => exact ih.dropNode v

lemma reend {term : Terminator} {hs : List Nat} (live : (f.block? b).isSome)
    (prepared : ∀ t k, (f.block? t).isSome → (t, k) ∈ edgesFrom f.handlers term hs → ∃ k, (t, k) ∈ f.succs b) :
    Fitted (f.reend b term hs) where
  toFiled := h.toFiled.sameNodes sameNodes_reend
  leads c e mem there := by
    rw [sameNodes_reend.isSome] at there
    rw [edgesOf_eq, terminator_reend live, handlersOf_reend live, sameNodes_reend.catches] at mem
    rw [succs_reend live]
    split
    · rename_i here
      rwa [if_pos here, if_pos here] at mem
    · rename_i other
      rw [if_neg other, if_neg other, ← edgesOf_eq] at mem
      exact h.leads c e mem there
  called c e mem := by
    rw [succs_reend live] at mem
    rw [edgesOf_eq, terminator_reend live, handlersOf_reend live, sameNodes_reend.catches]
    split at mem
    · rename_i here
      rwa [if_pos here, if_pos here]
    · rename_i other
      rw [if_neg other, if_neg other, ← edgesOf_eq]
      exact h.called c e mem
  distinct c := by
    rw [succs_reend live]
    split
    · exact nodup_edgesFrom
    · exact h.distinct c
  synced t v mem s kind := by
    rw [sameNodes_reend.phis] at mem
    have there : (f.block? t).isSome := isSome_of_mem_nodesOf (List.mem_append_left _ mem)
    rw [succs_reend live]
    split
    · rename_i here
      subst here
      refine count_keys_reend_self h.toListed live mem (fun ⟨k, edge⟩ => ?_) fun ⟨k, known⟩ => ?_
      · obtain ⟨k', old⟩ := prepared t k there edge
        exact ⟨k', (h.mem_keys mem).2 old⟩
      · exact ⟨k, .inl ((h.mem_keys mem).1 known)⟩
    · rename_i other
      rw [count_keys_reend_of_ne h.toListed mem other]
      exact h.synced t v mem s kind

lemma without {x : Block} (here : f.block? b = some x) : Fitted (f.without b x) where
  toFiled := h.toFiled.without here
  leads c e mem live := by
    rw [isSome_without, Bool.and_eq_true, decide_eq_true_eq] at live
    rw [edgesOf_eq, terminator_without, handlersOf_without, catches_without] at mem
    rw [succs_without]
    split
    · rename_i gone
      rw [if_pos gone, if_pos gone] at mem
      simp [edgesFrom, Terminator.targets, Terminator.leaving] at mem
    · rename_i other
      rw [if_neg other, if_neg other, ← edgesOf_eq] at mem
      exact List.mem_filter.2 ⟨h.leads c e mem live.2, by simp [live.1]⟩
  called c e mem := by
    rw [succs_without] at mem
    rw [edgesOf_eq, terminator_without, handlersOf_without, catches_without]
    split at mem
    · cases mem
    · rename_i other
      rw [if_neg other, if_neg other, ← edgesOf_eq]
      exact h.called c e (List.mem_of_mem_filter mem)
  distinct c := by
    rw [succs_without]
    split
    · exact List.nodup_nil
    · exact (h.distinct c).filter _
  synced t v mem s kind := by
    have other : t ≠ b := by
      rintro rfl
      rw [phis_without, if_pos rfl] at mem
      cases mem
    rw [phis_without, if_neg other] at mem
    rw [h.toListed.keys_without here mem other, count_succs_without other]
    by_cases same : s = b
    · subst same
      rw [if_pos rfl, List.count_eq_zero]
      split
      · simp
      · rename_i none
        rw [h.mem_keys mem, succs_of_block? here]
        exact fun edge => none (List.mem_map_of_mem edge)
    · rw [if_neg same, ← h.synced t v mem]
      split
      · exact List.count_filter (by simp [same])
      · rfl

/-- A graph that is fitted passes the check, if its edges are known at both ends and are those that it calls for. -/
lemma verify
    (linked : ∀ t, (f.block? t).isSome → ∀ s kind, (f.preds t).count (s, kind) = (f.succs s).count (t, kind))
    (live : ∀ b, ∀ e ∈ f.succs b, (f.block? e.1).isSome) (wired : ∀ b, f.succs b = f.edgesOf b) :
      f.verify = .ok () := by
  refine verify_eq_ok.2 fun b x here => verifyBlock_eq_ok.2 ⟨?_, fun e mem => ?_, fun v mem => ?_, fun v mem => ?_⟩
  · rw [← succs_of_block? here, wired]
  · rw [← succs_of_block? here] at mem
    rw [← List.count_pos_iff, linked e.1 (live b e mem), List.count_pos_iff]
    exact mem
  · refine h.owned b v ?_
    rwa [nodesOf, phis_of_block? here, body_of_block? here]
  · rw [← phis_of_block? here] at mem
    refine ⟨h.phi b v mem, List.perm_iff_count.2 fun e => ?_⟩
    rw [← preds_of_block? here, linked b (by rw [here]; rfl)]
    exact h.synced b v mem e.1 e.2

end Fitted

end Avm.Ir.Func
