import Avm.Proofs.Ir.Merging
import Avm.Proofs.Ir.Padding

/-!
# Folding ends

A round of folding adds no node and no block, and a round that tells of a change takes away a node, a block, or the fork
at the end of a block.  There are only so many of them, so folding comes to a round that changes nothing before its fuel
runs out.

The main statements are `pass_ends` and `pass_rests`.
-/

namespace Avm.Ir.Func

variable {f g h : Func} {v : ValueId} {b : BlockId}

/-- As many nodes and blocks have been numbered. -/
structure SameRoom (f g : Func) : Prop where
  nodes : g.nodes.size = f.nodes.size
  blocks : g.blocks.size = f.blocks.size

namespace SameRoom

lemma refl (f : Func) : SameRoom f f := ⟨rfl, rfl⟩

lemma trans (first : SameRoom f g) (second : SameRoom g h) : SameRoom f h :=
  ⟨second.nodes.trans first.nodes, second.blocks.trans first.blocks⟩

lemma reend (f : Func) (b : BlockId) (term : Terminator) (hs : List Nat) : SameRoom f (f.reend b term hs) :=
  ⟨sameRest_reend.size, sameNodes_reend.size⟩

lemma replace (f : Func) (v : ValueId) (x : Value) : SameRoom f ((f.replaceUses v x).dropNode v) :=
  ⟨size_dropNode.trans (Array.size_map ..), sameFlow_dropNode.size.trans (alike_replaceUses v x).size⟩

lemma without (f : Func) (b : BlockId) (x : Block) : SameRoom f (f.without b x) := by
  refine ⟨?_, size_without⟩
  have unlinked : ((f.clearBlock b).unlink b x.succs).nodes.size = f.nodes.size :=
    List.foldlRecOn (motive := fun g : Func => g.nodes.size = f.nodes.size) x.succs _ rfl
      fun _ same _ _ => sameRest_modifyPhis.size.trans same
  have forgotten : (((f.clearBlock b).unlink b x.succs).forget b x.preds).nodes.size = f.nodes.size :=
    List.foldlRecOn (motive := fun g : Func => g.nodes.size = f.nodes.size) x.preds _ unlinked fun _ same _ _ => same
  exact List.foldlRecOn (motive := fun ns : Array (Option Node) => ns.size = f.nodes.size) x.nodeIds _ forgotten
    fun _ same _ _ => (Array.size_setIfInBounds ..).trans same

end SameRoom

/-- The blocks at the end of which control goes depends on an operand. -/
def forks (f : Func) : Finset BlockId := f.blockIds.toFinset.filter fun b => (f.terminator b).isFork

/-- The nodes and the blocks of a graph, and its forks. -/
def substance (f : Func) : Finset (ValueId ⊕ BlockId ⊕ BlockId) :=
  f.census.disjSum (f.blockIds.toFinset.disjSum f.forks)

lemma mem_forks : b ∈ f.forks ↔ (f.terminator b).isFork = true := by
  rw [forks, Finset.mem_filter, List.mem_toFinset, mem_blockIds, and_iff_right_iff_imp]
  intro fork
  by_contra none
  rw [Option.not_isSome_iff_eq_none] at none
  rw [(parts_of_isNone none).2.2.2.1] at fork
  cases fork

lemma substance_subset : g.substance ⊆ f.substance ↔ (∀ v, (g.node? v).isSome → (f.node? v).isSome) ∧
    (∀ b, (g.block? b).isSome → (f.block? b).isSome) ∧
      ∀ b, (g.terminator b).isFork = true → (f.terminator b).isFork = true := by
  constructor
  · intro sub
    refine ⟨fun v there => ?_, fun b there => ?_, fun b fork => ?_⟩
    · have mem := sub (Finset.inl_mem_disjSum.2 (mem_census.2 there))
      exact mem_census.1 (Finset.inl_mem_disjSum.1 mem)
    · have mem := sub (Finset.inr_mem_disjSum.2 (Finset.inl_mem_disjSum.2 (List.mem_toFinset.2 (mem_blockIds.2 there))))
      exact mem_blockIds.1 (List.mem_toFinset.1 (Finset.inl_mem_disjSum.1 (Finset.inr_mem_disjSum.1 mem)))
    · have mem := sub (Finset.inr_mem_disjSum.2 (Finset.inr_mem_disjSum.2 (mem_forks.2 fork)))
      exact mem_forks.1 (Finset.inr_mem_disjSum.1 (Finset.inr_mem_disjSum.1 mem))
  · rintro ⟨nodes, blocks, forks⟩ (v | b | b) mem
    · exact Finset.inl_mem_disjSum.2 (mem_census.2 (nodes v (mem_census.1 (Finset.inl_mem_disjSum.1 mem))))
    · have mem := Finset.inl_mem_disjSum.1 (Finset.inr_mem_disjSum.1 mem)
      rw [List.mem_toFinset, mem_blockIds] at mem
      exact Finset.inr_mem_disjSum.2 (Finset.inl_mem_disjSum.2 (List.mem_toFinset.2 (mem_blockIds.2 (blocks b mem))))
    · have mem := mem_forks.1 (Finset.inr_mem_disjSum.1 (Finset.inr_mem_disjSum.1 mem))
      exact Finset.inr_mem_disjSum.2 (Finset.inr_mem_disjSum.2 (mem_forks.2 (forks b mem)))

lemma settles_iff (room : SameRoom f g) : Settles f g ↔ g.substance ⊆ f.substance := by
  rw [substance_subset]
  constructor
  · intro settles
    refine ⟨fun v there => settles.node_of v ?_ there, fun b there => settles.block_of b ?_ there, settles.forks⟩
    · rw [← room.nodes]
      exact lt_size_of_node? there
    · rw [← room.blocks]
      exact lt_size_of_block? there
  · rintro ⟨nodes, blocks, forks⟩
    exact ⟨⟨room.blocks.ge, room.nodes.ge, fun b _ => blocks b, fun v _ => nodes v⟩, forks⟩

lemma card_substance_le (f : Func) : f.substance.card ≤ f.nodes.size + 2 * f.blocks.size := by
  have blocks : f.blockIds.toFinset.card ≤ f.blocks.size := by
    refine (List.toFinset_card_le _).trans ((List.length_filter_le _ _).trans ?_)
    rw [List.length_range]
  have forks : f.forks.card ≤ f.blockIds.toFinset.card := Finset.card_filter_le _ _
  have nodes : f.census.card ≤ f.nodes.size := card_census_le
  rw [substance, Finset.card_disjSum, Finset.card_disjSum]
  omega

lemma card_substance_lt {H : Func → Prop} (room : SameRoom f g) (start : H f) (advances : Advances Settles H f g) :
    g.substance.card < f.substance.card := by
  refine Finset.card_lt_card ⟨(settles_iff room).1 advances.1, fun back => advances.2 start ?_⟩
  exact (settles_iff ⟨room.nodes.symm, room.blocks.symm⟩).2 back

lemma removeTrivialPhisLoop_fuel {fuel : Nat} {acc : Func × Nat} (enough : acc.1.census.card < fuel) :
    removeTrivialPhisLoop (fuel + 1) acc = removeTrivialPhisLoop fuel acc := by
  induction fuel generalizing acc with
  | zero => exact absurd enough (Nat.not_lt_zero _)
  | succ fuel ih =>
    have fewer := foldl_removeTrivialPhi_fewer acc.1.nodeIds acc
    have grows := le_foldl_removeTrivialPhi acc.1.nodeIds acc
    rw [removeTrivialPhisLoop.eq_2 acc (fuel + 1), removeTrivialPhisLoop.eq_2 acc fuel]
    generalize acc.1.nodeIds.foldl removeTrivialPhi acc = next at fewer grows ⊢
    split
    · rfl
    · exact ih (by omega)

lemma removeTrivialPhis_fuel {fuel : Nat} (enough : f.nodes.size < fuel) :
    removeTrivialPhisLoop fuel (f, 0) = f.removeTrivialPhis := by
  induction fuel, enough using Nat.le_induction with
  | base => rfl
  | succ fuel more ih =>
    rw [← ih]
    exact removeTrivialPhisLoop_fuel (card_census_le.trans_lt more)

end Avm.Ir.Func

namespace Avm.Opt.Folding

open Avm.Ir Avm.Ir.Func Avm.Ir.Edit

variable {f f₀ g : Func} {m : MethodId} {report r : Report} {fuel : Nat} {ctx : Context}

lemma foldNodes_keeps (start : SameRoom f₀ f) : SameRoom f₀ (foldNodes m f).1 := by
  refine List.foldlRecOn (motive := fun acc : Func × Report => SameRoom f₀ acc.1) f.nodeIds _ start
    fun acc same v _ => ?_
  rw [foldNode]
  split
  · exact same
  · exact same.trans (.replace acc.1 v _)

lemma setTerminator_keeps {b : BlockId} {term : Terminator} : (setTerminator b term).Retains (SameRoom f₀) := by
  refine retains_of_run fun f _ g start run => ?_
  obtain ⟨-, -, rfl⟩ := setTerminator_eq_ok.1 run
  exact start.trans (.reend f b term _)

lemma once_keeps : (once m).Retains (SameRoom f₀) := by
  rw [once]
  refine retains_get fun f start => ?_
  have nodes := foldNodes_keeps (m := m) start
  generalize foldNodes m f = p at nodes ⊢
  have phis := removeTrivialPhis_keeps (fun g v x same _ => same.trans (.replace g v x)) nodes
  dsimp only
  generalize p.1.removeTrivialPhis = q at phis ⊢
  refine meets_set (((retains_foldBranches fun b t => setTerminator_keeps) q.1 phis).bind fun _ g same => ?_)
  refine Meets.bind (P := fun _ h => SameRoom f₀ h) ?_ fun _ h same => meets_pure same
  exact DeadCode.retains_removeUnreachable (fun g b x same _ => same.trans (.without g b x)) g same

/-- A round of folding takes something away if it tells of a change, and else it does nothing. -/
lemma once_lighter (run : (once m).run f = .ok r g) :
    (r.changed = true → g.substance.card < f.substance.card) ∧ (r.changed = false → g = f) := by
  have account := (once_accounts (H := fun _ => True)).of_ok run
  rw [Report.changed_eq, decide_eq_true_iff, decide_eq_false_iff_not, Nat.not_lt, Nat.le_zero]
  refine ⟨fun counted => card_substance_lt (once_keeps.of_ok (.refl f) run) trivial (account.step_of_pos counted),
    fun none => ?_⟩
  rw [none] at account
  exact account.eq_of_zero

lemma loop_fuel (enough : f.substance.card < fuel) : (loop m (fuel + 1) report).run f = (loop m fuel report).run f := by
  induction fuel generalizing f report with
  | zero => exact absurd enough (Nat.not_lt_zero _)
  | succ fuel ih =>
    rw [loop, loop]
    refine run_bind_congr rfl fun more g run => ?_
    split
    · rename_i changed
      exact ih (Nat.lt_of_lt_of_le ((once_lighter run).1 changed) (Nat.le_of_lt_succ enough))
    · rfl

lemma once_of_loop (enough : f.substance.card < fuel) (run : (loop m fuel report).run f = .ok r g) :
    ∃ more, (once m).run g = .ok more g ∧ more.changed = false := by
  induction fuel generalizing f report with
  | zero => exact absurd enough (Nat.not_lt_zero _)
  | succ fuel ih =>
    rw [loop] at run
    obtain ⟨more, f₁, first, rest⟩ := Edit.bind_eq_ok.1 run
    split at rest
    · rename_i changed
      exact ih (Nat.lt_of_lt_of_le ((once_lighter first).1 changed) (Nat.le_of_lt_succ enough)) rest
    · rename_i none
      obtain ⟨-, rfl⟩ := Edit.pure_eq_ok.1 rest
      rw [Bool.not_eq_true] at none
      obtain rfl := (once_lighter first).2 none
      exact ⟨more, first, none⟩

lemma run_pass (ctx : Context) : (pass.run ctx).run f = (loop ctx.method (effort f) {}).run f := by
  have same : pass.run ctx = get >>= fun g => loop ctx.method (effort g) {} := rfl
  rw [same, run_get_bind]

lemma card_substance_lt_effort (f : Func) : f.substance.card < effort f := Nat.lt_succ_of_le (card_substance_le f)

lemma pass_fuel (enough : effort f ≤ fuel) : (loop ctx.method fuel {}).run f = (pass.run ctx).run f := by
  rw [run_pass]
  induction fuel, enough using Nat.le_induction with
  | base => rfl
  | succ fuel more ih =>
    rw [← ih]
    exact loop_fuel ((card_substance_lt_effort f).trans_le more)

/-- Folding stops because nothing is left to fold, and so does the removal of trivial phis, however
much fuel there is. -/
structure Ends (ctx : Context) (f : Func) : Prop where
  fuel : ∀ fuel, effort f ≤ fuel → (loop ctx.method fuel {}).run f = (pass.run ctx).run f
  last : ∀ r g, (pass.run ctx).run f = .ok r g → ∃ more, (once ctx.method).run g = .ok more g ∧ more.changed = false
  phis : ∀ (g : Func) fuel, g.nodes.size < fuel → removeTrivialPhisLoop fuel (g, 0) = g.removeTrivialPhis

lemma pass_ends (ctx : Context) (f : Func) : Ends ctx f where
  fuel _ enough := pass_fuel enough
  last r g run := by
    rw [run_pass] at run
    exact once_of_loop (card_substance_lt_effort f) run
  phis _ _ enough := removeTrivialPhis_fuel enough

lemma pass_rests (run : (pass.run ctx).run f = .ok r g) : (pass.run ctx).run g = .ok {} g := by
  obtain ⟨more, first, none⟩ := (pass_ends ctx f).last r g run
  rw [run_pass, effort, loop]
  refine Edit.bind_eq_ok.2 ⟨more, g, first, ?_⟩
  rw [none, if_neg Bool.false_ne_true]
  rfl

end Avm.Opt.Folding
