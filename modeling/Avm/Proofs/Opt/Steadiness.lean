import Avm.Proofs.Ir.Outlines
import Avm.Proofs.Opt.Normalizing

/-!
# Normalizing is steady

Folding, copy propagation and the removal of dead code drop no node that changes the scope stack or
takes an exception, and lead no block to a place that it did not lead to before.  Folding and copy
propagation drop nodes of kinds that have no such effect.  The removal of dead code asks which nodes
are needed; there the search for them has to come by all nodes with effects before it stops.

The main statements are `Folding.pass_lessens`, `Copying.pass_lessens` and `DeadCode.pass_lessens`.
-/

namespace Avm.Ir.Func

variable {f : Func} {v : ValueId}

lemma turn_of_inputs? (h : (f.inputs? v).isSome) : f.turn v = .still := by
  obtain ⟨is, here⟩ := Option.isSome_iff_exists.1 h
  obtain ⟨k, found, phi⟩ := Option.bind_eq_some_iff.1 here
  rw [turn_of_kind? found]
  cases k with
  | phi inputs => rfl
  | _ => cases phi

lemma steady_removeTrivialPhis (f : Func) : Steady f f.removeTrivialPhis.1 := by
  refine removeTrivialPhis_keeps (fun g p x steady trivial => ?_) (.refl f)
  refine steady.trans (Steady.replace g x (turn_of_inputs? ?_))
  by_contra none
  rw [Option.not_isSome_iff_eq_none] at none
  simp [trivialValue?, merged, none] at trivial

lemma steady_removeCopy (acc : Func × Nat) (v : ValueId) : Steady acc.1 (removeCopy acc v).1 := by
  rw [removeCopy]
  split
  · rename_i value copied
    refine Steady.replace _ _ ?_
    rw [copiedValue?] at copied
    split at copied
    · rename_i c here
      exact turn_of_kind? here
    · rename_i id here
      exact turn_of_kind? here
    · cases copied
  · exact .refl _

lemma steady_removeRedundantCopies (f : Func) : Steady f f.removeRedundantCopies.1 :=
  Steady.foldl steady_removeCopy f.nodeIds (f, 0)

lemma turn_of_mem_deadNodes (mem : v ∈ f.deadNodes) : f.turn v = .still := by
  have dead := (List.mem_filter.1 mem).2
  cases here : f.kind? v with
  | none =>
    rw [here] at dead
    cases dead
  | some k =>
    rw [here, Option.any_some, Bool.and_eq_true, Bool.not_eq_true'] at dead
    rw [turn_of_kind? here, NodeKind.turn_of_hasSideEffects dead.1]

lemma steady_removeDeadLoop (fuel : Nat) (acc : Func × Nat) :
    Steady acc.1 (removeDeadLoop fuel acc).1 := by
  induction fuel generalizing acc with
  | zero => exact .refl _
  | succ fuel ih =>
    rw [removeDeadLoop]
    split
    · exact .refl _
    · exact (Steady.foldl_dropNode _ fun v => turn_of_mem_deadNodes).trans (ih (_, _))

lemma steady_removeDeadNodes (f : Func) : Steady f f.removeDeadNodes.1 :=
  steady_removeDeadLoop _ (f, 0)

end Avm.Ir.Func

namespace Avm.Opt

open Avm.Ir Avm.Ir.Func Avm.Ir.Edit

variable {f f₀ : Func} {m : MethodId}

/-- An optimization that succeeds on a graph is steady. -/
def Pass.Lessens (p : Pass) : Prop := ∀ ctx f₀, (p.run ctx).Retains (Lessened f₀)

namespace DeadCode

variable {live : Graph.Marks} {v : ValueId}

lemma removeUnreachable_lessened : removeUnreachable.Retains (Lessened f₀) :=
  retains_removeUnreachable fun _ _ _ h here => ⟨h.toSteady.trans (.without h.toListed here), h.toListed.without here⟩

/-- How many operands a node has. -/
def cost (f : Func) (v : ValueId) : Nat := (((f.kind? v).map NodeKind.operands).getD []).length

/-- How many operands the nodes have that are not marked. -/
def debt (f : Func) (live : Graph.Marks) : Nat :=
  ∑ v ∈ Finset.range f.nodes.size, if live.has v then 0 else cost f v

lemma debt_none : debt f (.none f.nodes.size) = f.nodeOperands.length := by
  have each : (List.range f.nodes.size).map (cost f) = f.nodes.toList.map fun place =>
      ((place.map fun n => n.kind.operands).getD []).length := by
    refine List.ext_getElem (by simp) fun v below _ => ?_
    rw [List.length_map, List.length_range] at below
    simp only [List.getElem_map, List.getElem_range, Array.getElem_toList, cost, kind?, node?,
      Option.map_map]
    rw [Array.getElem?_eq_getElem below]
    rfl
  have all : debt f (.none f.nodes.size) = ((List.range f.nodes.size).map (cost f)).sum := by
    simp only [debt, Graph.Marks.not_has_none, Bool.false_eq_true, if_false]
    exact Multiset.sum_coe _
  rw [all, each, nodeOperands, allNodes, List.length_flatMap]
  induction f.nodes.toList with
  | nil => rfl
  | cons place l ih => cases place <;> simp_all

lemma debt_add (size : live.bits.size = f.nodes.size) (new : live.has v = false)
    (inside : v < f.nodes.size) : cost f v + debt f (live.add v) = debt f live := by
  have has (w : Nat) : (live.add v).has w = (live.has w || decide (w = v)) := by
    rw [Bool.eq_iff_iff, Graph.Marks.has_add, Bool.or_eq_true, decide_eq_true_eq, size]
    exact or_congr_right (and_iff_left inside)
  have mem := Finset.mem_range.2 inside
  rw [debt, debt, ← Finset.add_sum_erase _ _ mem, ← Finset.add_sum_erase _ _ mem, has, new]
  simp only [Bool.false_or, decide_true, if_true, Bool.false_eq_true, if_false, Nat.zero_add]
  refine congrArg _ (Finset.sum_congr rfl fun w other => ?_)
  rw [has, decide_eq_false (Finset.ne_of_mem_erase other), Bool.or_false]

lemma cost_add_debt_le (size : live.bits.size = f.nodes.size) (new : live.has v = false) :
    cost f v + debt f (live.add v) ≤ debt f live := by
  by_cases inside : v < f.nodes.size
  · exact (debt_add size new inside).le
  · -- There is no such node, so nothing changes and it has no operands.
    have absent : f.kind? v = none := by
      rw [kind?, node?, Array.getElem?_eq_none (Nat.le_of_not_lt inside)]
      rfl
    have above : live.bits.size ≤ v := by rw [size]; exact Nat.le_of_not_lt inside
    have same : live.add v = live := by
      rw [Graph.Marks.add, Array.setIfInBounds_eq_of_size_le above]
    rw [same, cost, absent]
    exact (Nat.zero_add _).le

/-- The nodes that a node needs at once. -/
def asks (f : Func) (v : ValueId) : List ValueId := (((f.kind? v).map NodeKind.operands).getD []).filterMap Value.node?

lemma asks_append_lt {fuel : Nat} {vs : List ValueId} (size : live.bits.size = f.nodes.size)
    (new : live.has v = false) (enough : vs.length + 1 + debt f live < fuel + 1) :
    (asks f v ++ vs).length + debt f (live.add v) < fuel := by
  have few : (asks f v).length ≤ cost f v := List.length_filterMap_le _ _
  have paid := cost_add_debt_le size new
  rw [List.length_append]
  omega

/-- The search marks every node of its list, if it has fuel for the list and for the operands of the
nodes that are not marked yet. -/
lemma need_spec (fuel : Nat) (vs : List ValueId) (size : live.bits.size = f.nodes.size)
    (enough : vs.length + debt f live < fuel) :
    (∀ v, live.has v = true → (need f fuel live vs).has v = true) ∧
      ∀ v ∈ vs, v < f.nodes.size → (need f fuel live vs).has v = true := by
  induction fuel generalizing live vs with
  | zero => exact absurd enough (Nat.not_lt_zero _)
  | succ fuel ih =>
    cases vs with
    | nil => exact ⟨fun v marked => marked, fun v none => absurd none List.not_mem_nil⟩
    | cons v vs =>
      rw [List.length_cons] at enough
      rw [need]
      split
      · rename_i marked
        obtain ⟨kept, all⟩ := ih vs size (by omega)
        refine ⟨kept, fun w mem inside => ?_⟩
        obtain rfl | mem := List.mem_cons.1 mem
        · exact kept w marked
        · exact all w mem inside
      · rename_i new
        rw [Bool.not_eq_true] at new
        obtain ⟨kept, all⟩ := @ih (live.add v) (asks f v ++ vs) (by rw [Graph.Marks.size_add, size])
          (asks_append_lt size new enough)
        refine ⟨fun w marked => kept w (Graph.Marks.has_add.2 (.inl marked)), fun w mem inside => ?_⟩
        obtain rfl | mem := List.mem_cons.1 mem
        · exact kept w (Graph.Marks.has_add.2 (.inr ⟨rfl, by rwa [size]⟩))
        · exact all w (List.mem_append_right _ mem) inside

lemma turn_of_not_needed (mem : v ∈ f.nodeIds) (dead : (neededNodes f).has v = false) :
    f.turn v = .still := by
  rw [turn_eq]
  cases here : f.kind? v with
  | none => rfl
  | some k =>
    refine NodeKind.turn_of_hasSideEffects ?_
    by_contra effect
    rw [Bool.not_eq_false] at effect
    have inside : v < f.nodes.size := by
      refine lt_size_of_node? ?_
      obtain ⟨n, found, -⟩ := Option.map_eq_some_iff.1 here
      rw [found]
      rfl
    have root : v ∈ effects f := List.mem_filter.2 ⟨mem, by rw [here]; exact effect⟩
    have needed : (neededNodes f).has v = true := by
      refine (need_spec _ _ (by simp [Graph.Marks.none]) ?_).2 v (List.mem_append_right _ root) inside
      rw [debt_none]
      exact Nat.lt_succ_self _
    rw [dead] at needed
    cases needed

lemma steady_sweep (f : Func) : Steady f (sweep f).1 := by
  refine Steady.foldl_dropNode _ fun v mem => ?_
  obtain ⟨listed, dead⟩ := List.mem_filter.1 mem
  exact turn_of_not_needed listed (by simpa using dead)

lemma once_lessened : (once m).Retains (Lessened f₀) := by
  rw [once]
  refine removeUnreachable_lessened.bind fun n => retains_get fun f h => ?_
  have trimmed := h.trims (steady_removeTrivialPhis f) (trims_removeTrivialPhis f)
  generalize f.removeTrivialPhis = p at trimmed ⊢
  dsimp only
  have swept := trimmed.trims (steady_sweep p.1) (trims_sweep p.1)
  generalize sweep p.1 = q at swept ⊢
  exact meets_set (meets_pure swept)

lemma pass_lessens : pass.Lessens := fun _ _ _ h => meets_loop once_lessened h

end DeadCode

namespace Folding

lemma steady_foldNode (acc : Func × Report) (v : ValueId) : Steady acc.1 (foldNode m acc v).1 := by
  rw [foldNode]
  split
  · exact .refl _
  · rename_i c folded
    refine Steady.replace _ _ ?_
    rw [nodeConstant?] at folded
    split at folded
    · rename_i here
      exact turn_of_kind? here
    · rename_i here
      exact turn_of_kind? here
    · cases folded

lemma steady_foldNodes (f : Func) : Steady f (foldNodes m f).1 :=
  Steady.foldl steady_foldNode f.nodeIds (f, {})

lemma foldBranches_lessened {l : List (BlockId × BlockId)} (report : Report) (h : Lessened f₀ f)
    (once : (l.map (·.1)).Nodup) (choices : ∀ e ∈ l, ∃ kind, (e.2, kind) ∈ (f.terminator e.1).targets) :
    (foldBranches m l report).Meets f (fun _ f' => Lessened f₀ f') fun _ => True := by
  induction l generalizing f report with
  | nil => exact meets_pure h
  | cons e l ih =>
    obtain ⟨b, t⟩ := e
    obtain ⟨apart, once⟩ := List.nodup_cons.1 once
    rw [foldBranches]
    refine Meets.bind (P := fun _ f' => (f.block? b).isSome ∧ f' = f.reend b (.goto t) (f.handlersOf b))
      (meets_of_forall (fun _ f' run => (setTerminator_eq_ok.1 run).2) fun _ _ _ => trivial) ?_
    rintro _ _ ⟨live, rfl⟩
    refine ih _ ⟨h.toSteady.trans (.reend live (fun e mem => ?_) fun _ => trivial),
      h.toListed.sameNodes sameNodes_reend⟩ once fun e mem => ?_
    · rw [List.mem_singleton.1 mem]
      exact choices (b, t) List.mem_cons_self
    · have other : e.1 ≠ b := fun same => apart (List.mem_map.2 ⟨e, mem, same⟩)
      rw [terminator_reend live, if_neg other]
      exact choices e (List.mem_cons_of_mem _ mem)

lemma once_lessened : (once m).Retains (Lessened f₀) := by
  intro f h
  rw [once]
  refine meets_get ?_
  have folded := h.trims (steady_foldNodes (m := m) f) (trims_foldNodes f)
  generalize foldNodes m f = p at folded ⊢
  have trimmed := folded.trims (steady_removeTrivialPhis p.1) (trims_removeTrivialPhis p.1)
  dsimp only
  generalize p.1.removeTrivialPhis = q at trimmed ⊢
  refine meets_set ?_
  refine (foldBranches_lessened {} trimmed (nodup_decidedBlocks _)
    fun e mem => (mem_decidedBlocks mem).2).bind fun report f₁ h₁ => ?_
  exact (DeadCode.removeUnreachable_lessened f₁ h₁).bind fun n f₂ h₂ => meets_pure h₂

lemma pass_lessens : pass.Lessens := fun _ _ _ h => meets_get (meets_loop once_lessened h)

end Folding

namespace Copying

lemma steady_forwardBody (vs : List ValueId) (f : Func) (stores : Stores) (n : Nat) :
    Steady f (forwardBody vs f stores n).1 := by
  induction vs generalizing f stores n with
  | nil => exact .refl f
  | cons v vs ih =>
    rw [forwardBody]
    split
    · exact ih f stores n
    · exact (Steady.modifyKind fun _ => NodeKind.shape_mapOperands).trans (ih _ _ _)

/-- Whether the end of a block can be set or not, the block goes on at the same places. -/
lemma lessened_forwardEnd (h : Lessened f₀ f) (b : BlockId) (stores : Stores) :
    Lessened f₀ (forwardEnd f b stores).1 := by
  rw [forwardEnd]
  split
  · exact h
  · rename_i x here
    dsimp only
    split
    · exact h
    · split
      · rename_i f' run
        obtain ⟨-, live, rfl⟩ := setTerminator_eq_ok.1 run
        have same : f.terminator b = x.terminator := terminator_of_block? here
        refine ⟨h.toSteady.trans (.reend live (fun e mem => ?_) fun writable => ?_),
          h.toListed.sameNodes sameNodes_reend⟩
        · rw [Terminator.targets_mapOperands] at mem
          exact ⟨e.2, by rw [same]; exact mem⟩
        · rw [Terminator.writable_mapOperands, ← same]
          exact writable
      · rename_i fault f' run
        rw [setTerminator_eq_error run]
        exact h

lemma lessened_forwardBlocks (bs : List BlockId) (out : OutStores) (n : Nat) (h : Lessened f₀ f) :
    Lessened f₀ (forwardBlocks bs f out n).1 := by
  induction bs generalizing f out n with
  | nil => exact h
  | cons b bs ih =>
    rw [forwardBlocks]
    exact ih _ _ (lessened_forwardEnd (h.trims (steady_forwardBody _ f _ n) (trims_forwardBody _ f _ n))
      b _)

lemma steady_forwardPhis (out : OutStores) (acc : Func × Nat) (v : ValueId) :
    Steady acc.1 (forwardPhis out acc v).1 := by
  rw [forwardPhis]
  split
  · exact .refl _
  · exact Steady.modifyKind fun k => NodeKind.shape_mapInputs _

lemma lessened_forward (h : Lessened f₀ f) : Lessened f₀ (forward f).1 := by
  rw [forward]
  have blocks := lessened_forwardBlocks (f.reversePostorder Func.entry)
    (Array.replicate f.blocks.size []) 0 h
  dsimp only
  generalize forwardBlocks _ f _ 0 = p at blocks ⊢
  exact blocks.trims (Steady.foldl (steady_forwardPhis p.2.1) _ (p.1, p.2.2))
    (Trims.foldl (trims_forwardPhis p.2.1) _ (p.1, p.2.2))

lemma steady_removeDeadStores (f : Func) : Steady f (removeDeadStores f).1 := by
  refine Steady.foldl_dropNode _ fun v mem => ?_
  obtain ⟨b, -, listed⟩ := List.mem_flatMap.1 mem
  obtain ⟨e, stored, rfl⟩ := List.mem_map.1 listed
  have dead := (List.mem_filter.1 stored).2
  rw [isDeadStore] at dead
  split at dead
  · rename_i here
    exact turn_of_kind? here
  · cases dead

lemma lessened_once (h : Lessened f₀ f) : Lessened f₀ (once m f).1 := by
  have forwarded := lessened_forward h
  rw [once]
  generalize forward f = p at forwarded ⊢
  have stores := forwarded.trims (steady_removeDeadStores p.1) (Trims.foldl_dropNode _ p.1)
  dsimp only
  generalize removeDeadStores p.1 = q at stores ⊢
  have copies := stores.trims (steady_removeRedundantCopies q.1) (trims_removeRedundantCopies q.1)
  exact copies.trims (steady_removeDeadNodes _) (trims_removeDeadNodes _)

lemma pass_lessens : pass.Lessens := by
  intro ctx f₀ f h
  have looped : Lessened f₀ (loop ctx.method 100 f {}).1 := keeps_loop (Lessened f₀) (fun _ => lessened_once) 100 {} h
  refine meets_get ?_
  generalize loop ctx.method 100 f {} = p at looped ⊢
  exact meets_set (meets_pure looped)

end Copying

end Avm.Opt
