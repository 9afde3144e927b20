import Avm.Opt.Copying
import Avm.Proofs.Ir.Splitting
import Avm.Proofs.Opt.Enduring

/-!
# The optimizations that normalize

Folding, copy propagation and the removal of dead code succeed on every graph in order and leave it in
order.  They replace operands and drop nodes, which touches no edge (`Func.Trims`); folding also takes
ways away from branches, and both folding and the removal of dead code drop the blocks that control
does not reach.

The main statements are `Folding.pass_keeps`, `Copying.pass_keeps` and `DeadCode.pass_keeps`.
-/

namespace Avm.Opt

open Avm.Ir Avm.Ir.Func Avm.Ir.Edit

variable {f : Func} {m : MethodId}

/-- An optimization succeeds on every graph in order, and leaves a graph in order. -/
def Pass.Keeps (p : Pass) : Prop :=
  ∀ (ctx : Context) (f : Func), f.Intact → (p.run ctx).Yields f fun _ f' => f'.Intact

namespace DeadCode

lemma trims_sweep (f : Func) : Trims f (sweep f).1 := Trims.foldl_dropNode _ f

lemma once_yields (h : f.Intact) : (once m).Yields f fun _ f' => f'.Intact := by
  rw [once]
  refine (removeUnreachable_yields h).bind fun n f₁ h₁ => yields_get ?_
  have trimmed := (trims_removeTrivialPhis f₁).intact h₁
  generalize f₁.removeTrivialPhis = p at trimmed ⊢
  dsimp only
  have swept := (trims_sweep p.1).intact trimmed
  generalize sweep p.1 = q at swept ⊢
  exact yields_set (yields_pure swept)

lemma pass_keeps : pass.Keeps := fun _ _ h =>
  yields_iff_meets.2 (meets_loop (fun _ start => yields_iff_meets.1 (once_yields start)) h)

end DeadCode

namespace Folding

lemma trims_foldNode (acc : Func × Report) (v : ValueId) : Trims acc.1 (foldNode m acc v).1 := by
  rw [foldNode]
  split
  · exact Trims.refl
  · exact Trims.replace _ _ _

lemma trims_foldNodes (f : Func) : Trims f (foldNodes m f).1 :=
  Trims.foldl trims_foldNode f.nodeIds (f, {})

lemma mem_targets_of_decided? {t : Terminator} {b : BlockId} (h : decided? t = some b) :
    ∃ kind, (b, kind) ∈ t.targets := by
  cases t with
  | branch kind operands onTrue onFalse =>
    simp only [decided?, Option.bind_eq_bind, Option.bind_eq_some_iff, Option.pure_def,
      Option.some.injEq] at h
    obtain ⟨_, -, taken, -, rfl⟩ := h
    cases taken with
    | true => exact ⟨.whenTrue, List.mem_cons_self⟩
    | false => exact ⟨.whenFalse, List.mem_cons_of_mem _ List.mem_cons_self⟩
  | switch index default cases =>
    cases index with
    | const c =>
      simp only [decided?, Option.bind_eq_bind, Option.bind_eq_some_iff, Option.pure_def,
        Option.some.injEq] at h
      obtain ⟨choice, -, rfl⟩ := h
      cases found : choice.bind fun i => cases[i]? with
      | none => exact ⟨.switchDefault, List.mem_cons_self⟩
      | some c =>
        obtain ⟨i, -, at_⟩ := Option.bind_eq_some_iff.1 found
        obtain ⟨inside, rfl⟩ := List.getElem?_eq_some_iff.1 at_
        exact ⟨.switchCase i, List.mem_cons_of_mem _ (List.mem_mapIdx.2 ⟨i, inside, rfl⟩)⟩
    | _ => simp [decided?] at h
  | _ => simp [decided?] at h

lemma mem_decidedBlocks {e : BlockId × BlockId} (h : e ∈ decidedBlocks f) :
    (f.block? e.1).isSome ∧ ∃ kind, (e.2, kind) ∈ (f.terminator e.1).targets := by
  obtain ⟨b, -, found⟩ := List.mem_filterMap.1 h
  obtain ⟨t, decided, rfl⟩ := Option.map_eq_some_iff.1 found
  obtain ⟨x, here, decided⟩ := Option.bind_eq_some_iff.1 decided
  rw [terminator_of_block? here, here]
  exact ⟨rfl, mem_targets_of_decided? decided⟩

lemma nodup_decidedBlocks (f : Func) : ((decidedBlocks f).map (·.1)).Nodup := by
  have sub : ((decidedBlocks f).map (·.1)).Sublist f.blockIds := by
    rw [decidedBlocks]
    induction f.blockIds with
    | nil => exact List.Sublist.refl _
    | cons b bs ih =>
      rw [List.filterMap_cons]
      split
      · exact ih.cons b
      · rename_i e found
        obtain ⟨t, -, rfl⟩ := Option.map_eq_some_iff.1 found
        exact ih.cons_cons b
  exact f.nodup_blockIds.sublist sub

lemma foldBranches_yields {l : List (BlockId × BlockId)} (report : Report) (h : f.Intact)
    (once : (l.map (·.1)).Nodup)
    (choices : ∀ e ∈ l, (f.block? e.1).isSome ∧ ∃ kind, (e.2, kind) ∈ (f.terminator e.1).targets) :
    (foldBranches m l report).Yields f fun _ f' => f'.Intact := by
  induction l generalizing f report with
  | nil => exact yields_pure h
  | cons e l ih =>
    obtain ⟨b, t⟩ := e
    obtain ⟨apart, once⟩ := List.nodup_cons.1 once
    obtain ⟨live, kind, goes⟩ := choices (b, t) List.mem_cons_self
    have edge : (t, kind) ∈ f.succs b := h.mem_succs_of_mem_targets goes
    have inside : b ≠ Func.exit := by
      rintro rfl
      rw [h.succs_exit] at edge
      cases edge
    have there : (f.block? t).isSome := h.live b (t, kind) edge
    have next : Intact (f.reend b (.goto t) (f.handlersOf b)) := by
      refine h.reend live inside (fun _ => ⟨t, rfl⟩) fun e mem => ?_
      rw [List.mem_singleton.1 mem]
      exact ⟨there, h.enters b (t, kind) goes, .inr ⟨kind, edge⟩⟩
    rw [foldBranches]
    refine yields_bind (a := ()) (setTerminator_eq_ok.2 ⟨fun e mem => ?_, live, rfl⟩) ?_
    · rw [List.mem_singleton.1 mem]
      exact there
    · refine ih _ next once fun e mem => ?_
      have other : e.1 ≠ b := by
        intro same
        exact apart (List.mem_map.2 ⟨e, mem, same⟩)
      rw [sameNodes_reend.isSome, terminator_reend live, if_neg other]
      exact choices e (List.mem_cons_of_mem _ mem)

lemma once_yields (h : f.Intact) : (once m).Yields f fun _ f' => f'.Intact := by
  have folded : (foldNodes m f).1.Intact := (trims_foldNodes f).intact h
  rw [once]
  refine yields_get ?_
  generalize foldNodes m f = p at folded ⊢
  have trimmed : p.1.removeTrivialPhis.1.Intact := (trims_removeTrivialPhis p.1).intact folded
  dsimp only
  generalize p.1.removeTrivialPhis = q at trimmed ⊢
  refine yields_set ?_
  refine (foldBranches_yields {} trimmed (nodup_decidedBlocks _)
    fun e mem => mem_decidedBlocks mem).bind fun report f₁ h₁ => ?_
  exact (DeadCode.removeUnreachable_yields h₁).bind fun n f₂ h₂ => yields_pure h₂

lemma pass_keeps : pass.Keeps := fun _ _ h =>
  yields_get (yields_iff_meets.2 (meets_loop (fun _ start => yields_iff_meets.1 (once_yields start)) h))

end Folding

namespace Copying

lemma trims_forwardBody (vs : List ValueId) (f : Func) (stores : Stores) (n : Nat) :
    Trims f (forwardBody vs f stores n).1 := by
  induction vs generalizing f stores n with
  | nil => exact Trims.refl
  | cons v vs ih =>
    rw [forwardBody]
    split
    · exact ih f stores n
    · have first : Alike f (f.modifyKind v (NodeKind.mapOperands (forwardValue stores))) :=
        alike_modifyKind fun _ _ => NodeKind.keys_mapOperands
      exact (Trims.refl.alike first).trans (ih _ _ _)

lemma intact_forwardEnd (h : f.Intact) (b : BlockId) (stores : Stores) :
    (forwardEnd f b stores).1.Intact := by
  rw [forwardEnd]
  split
  · exact h
  · rename_i x here
    dsimp only
    split
    · exact h
    · rename_i some_
      have live : (f.block? b).isSome := by rw [here]; rfl
      have same : f.terminator b = x.terminator := terminator_of_block? here
      have edge {e} (mem : e ∈ (x.terminator.mapOperands (forwardValue stores)).targets) :
          e ∈ (f.terminator b).targets := by
        rwa [Terminator.targets_mapOperands, ← same] at mem
      have run : (setTerminator b (x.terminator.mapOperands (forwardValue stores))).run f =
          .ok () (f.reend b (x.terminator.mapOperands (forwardValue stores)) (f.handlersOf b)) :=
        setTerminator_eq_ok.2 ⟨fun e mem => h.live b e (h.mem_succs_of_mem_targets (edge mem)),
          live, rfl⟩
      rw [run]
      refine h.reend live ?_ ?_ fun e mem => ?_
      · rintro rfl
        rw [← same, h.exit.2.2.2.2] at some_
        exact some_ rfl
      · rintro rfl
        obtain ⟨t, start⟩ := h.start
        exact ⟨t, by rw [← same, start]; rfl⟩
      · have there : e ∈ f.succs b := h.mem_succs_of_mem_targets (edge mem)
        exact ⟨h.live b e there, h.enters b e (edge mem), .inr ⟨e.2, there⟩⟩

lemma intact_forwardBlocks (bs : List BlockId) (out : OutStores) (n : Nat) (h : f.Intact) :
    (forwardBlocks bs f out n).1.Intact := by
  induction bs generalizing f out n with
  | nil => exact h
  | cons b bs ih =>
    rw [forwardBlocks]
    exact ih _ _ (intact_forwardEnd ((trims_forwardBody _ f _ n).intact h) b _)

lemma trims_forwardPhis (out : OutStores) (acc : Func × Nat) (v : ValueId) :
    Trims acc.1 (forwardPhis out acc v).1 := by
  rw [forwardPhis]
  split
  · exact Trims.refl
  · refine Trims.refl.alike (alike_modifyInputs fun i => ?_)
    rw [forwardInput]
    split
    · exact ⟨rfl, rfl⟩
    · exact ⟨rfl, rfl⟩

lemma intact_forward (h : f.Intact) : (forward f).1.Intact := by
  rw [forward]
  have blocks := intact_forwardBlocks (f.reversePostorder Func.entry)
    (Array.replicate f.blocks.size []) 0 h
  dsimp only
  generalize forwardBlocks _ f _ 0 = p at blocks ⊢
  exact (Trims.foldl (trims_forwardPhis p.2.1) _ (p.1, p.2.2)).intact blocks

lemma intact_once (h : f.Intact) : (once m f).1.Intact := by
  have forwarded := intact_forward h
  rw [once]
  generalize forward f = p at forwarded ⊢
  have stores : Trims p.1 (removeDeadStores p.1).1 := Trims.foldl_dropNode _ p.1
  dsimp only
  generalize removeDeadStores p.1 = q at stores ⊢
  have copies := stores.trans (trims_removeRedundantCopies q.1)
  exact (copies.trans (trims_removeDeadNodes _)).intact forwarded

lemma keeps_loop (P : Func → Prop) (each : ∀ f, P f → P (once m f).1) (fuel : Nat) (report : Report) (start : P f) :
    P (loop m fuel f report).1 := by
  induction fuel generalizing f report with
  | zero => exact start
  | succ fuel ih =>
    have next := each f start
    rw [loop]
    generalize once m f = p at next ⊢
    dsimp only
    split
    · exact ih _ next
    · exact next

lemma pass_keeps : pass.Keeps := by
  intro ctx f h
  have looped : (loop ctx.method 100 f {}).1.Intact := keeps_loop Func.Intact (fun _ => intact_once) 100 {} h
  refine yields_get ?_
  generalize loop ctx.method 100 f {} = p at looped ⊢
  exact yields_set (yields_pure looped)

end Copying

end Avm.Opt
