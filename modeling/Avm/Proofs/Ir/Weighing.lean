import Avm.Proofs.Ir.Aging
import Avm.Proofs.Ir.Shapes

/-!
# What the calls of a graph weigh

A graph weighs what its calls weigh, each by how it calls and with how many operands.  No edit touches that
but by adding or dropping calls: `Func.Gains` says by how much a graph gets heavier, and that the nodes
that were there weigh what they weighed.

The main statements are `Edit.gains_setTerminator` and its like, for edits, and `gains_removeTrivialPhis`.
-/

namespace Avm.Ir

/-- What a call weighs, by its instruction, the two numbers in it, and how many operands it has. -/
abbrev Weights := Opcode → Nat → Nat → Nat → Nat

/-- What a node weighs: nothing if it is no call. -/
def NodeKind.weight (m : Weights) : NodeKind → Nat
  | .call opcode index argCount operands => m opcode index argCount operands.length
  | _ => 0

variable {m : Weights}

lemma NodeKind.weight_shape (k : NodeKind) : k.shape.weight m = k.weight m := by
  cases k <;> simp [shape, mapInputs, mapOperands, weight]

namespace Func

variable {f g h : Func} {b : BlockId} {v : ValueId} {k : NodeKind} {c c' : Nat}

/-- What a node weighs, if it is there. -/
def weight (m : Weights) (f : Func) (v : ValueId) : Nat := ((f.shape? v).map (NodeKind.weight m)).getD 0

/-- What all nodes weigh. -/
def weighs (m : Weights) (f : Func) : Nat := ∑ v ∈ Finset.range f.nodes.size, f.weight m v

lemma weight_of_kind? (here : f.kind? v = some k) : f.weight m v = k.weight m := by
  rw [weight, shape?_of_kind? here, Option.map_some, Option.getD_some, NodeKind.weight_shape]

lemma weight_of_size_le (outside : f.nodes.size ≤ v) : f.weight m v = 0 := by
  cases here : f.shape? v with
  | none => rw [weight, here, Option.map_none, Option.getD_none]
  | some k =>
    have there : (f.node? v).isSome := by
      rw [← Option.isSome_map (f := fun n : Node => n.kind.shape), ← shape?, here]
      rfl
    exact absurd (lt_size_of_node? there) (Nat.not_lt.2 outside)

lemma weighs_eq_sum {n : Nat} (all : f.nodes.size ≤ n) : f.weighs m = ∑ v ∈ Finset.range n, f.weight m v := by
  refine Finset.sum_subset (Finset.range_mono all) fun v _ outside => ?_
  rw [Finset.mem_range, Nat.not_lt] at outside
  exact weight_of_size_le outside

lemma exists_of_weighs_pos (heavy : 0 < f.weighs m) : ∃ v, 0 < f.weight m v := by
  by_contra none
  rw [weighs, Finset.sum_eq_zero] at heavy
  · exact absurd heavy (Nat.lt_irrefl 0)
  · intro v _
    exact Nat.eq_zero_of_not_pos fun some => none ⟨v, some⟩

lemma weighs_congr (shapes : ∀ v, g.shape? v = f.shape? v) : g.weighs m = f.weighs m := by
  rw [weighs_eq_sum (Nat.le_max_left g.nodes.size f.nodes.size),
    weighs_eq_sum (f := f) (Nat.le_max_right g.nodes.size f.nodes.size)]
  exact Finset.sum_congr rfl fun v _ => by rw [weight, shapes, weight]

/-- The method that a graph is for, and what is known of it before its code. -/
def title (f : Func) : MethodId × Nat × MethodFlags := (f.method, f.params, f.flags)

/-- The graph gets heavier by some calls that are added. -/
structure Gains (m : Weights) (c : Nat) (f g : Func) : Prop where
  size : f.nodes.size ≤ g.nodes.size
  old : ∀ v < f.nodes.size, g.weight m v = f.weight m v
  load : g.weighs m = f.weighs m + c
  title : g.title = f.title

namespace Gains

lemma of_shapes (size : f.nodes.size ≤ g.nodes.size) (shapes : ∀ v, g.shape? v = f.shape? v)
    (title : g.title = f.title) : Gains m 0 f g :=
  ⟨size, fun v _ => by rw [weight, shapes, weight], weighs_congr shapes, title⟩

lemma refl (f : Func) : Gains m 0 f f := of_shapes (Nat.le_refl _) (fun _ => rfl) rfl

lemma trans (first : Gains m c f g) (second : Gains m c' g h) : Gains m (c + c') f h where
  size := first.size.trans second.size
  old v inside := (second.old v (inside.trans_le first.size)).trans (first.old v inside)
  load := by rw [second.load, first.load, Nat.add_assoc]
  title := second.title.trans first.title

lemma foldl {α : Type} {step : Func → α → Func} (each : ∀ f a, Gains m 0 f (step f a)) (l : List α) (f : Func) :
    Gains m 0 f (l.foldl step f) := by
  induction l generalizing f with
  | nil => exact refl f
  | cons a l ih => exact (each f a).trans (ih _)

end Gains

lemma title_foldl {α : Type} {step : Func → α → Func} (each : ∀ f a, (step f a).title = f.title) (l : List α)
    (f : Func) : (l.foldl step f).title = f.title := by
  induction l generalizing f with
  | nil => rfl
  | cons a l ih => exact (ih _).trans (each f a)

lemma title_modifyPhis {vs : List ValueId} {u : List PhiInput → List PhiInput} :
    (f.modifyPhis vs u).title = f.title := by
  have each (f : Func) (v : ValueId) : (f.modifyInputs v u).title = f.title := rfl
  exact title_foldl each vs f

lemma title_rewire : (f.rewire b).title = f.title := by
  exact rewire_keeps (P := fun g => g.title = f.title) (fun _ _ _ same => same) (fun _ _ same => same)
    (fun _ _ _ same => same) rfl

lemma gains_modifyBlock (f : Func) (b : BlockId) (u : Block → Block) : Gains m 0 f (f.modifyBlock b u) :=
  .of_shapes (Nat.le_refl _) (fun _ => rfl) rfl

lemma gains_modifyNode {u : Node → Node} (keeps : ∀ n, (u n).kind.weight m = n.kind.weight m) :
    Gains m 0 f (f.modifyNode v u) := by
  have same (w) : (f.modifyNode v u).weight m w = f.weight m w := by
    rw [weight, weight, shape?, shape?, node?_modifyNode]
    split
    · rw [Option.map_map, Option.map_map, Option.map_map]
      congr 2
      funext n
      rw [Function.comp_apply, Function.comp_apply, Function.comp_apply, NodeKind.weight_shape,
        NodeKind.weight_shape, keeps]
    · rfl
  refine ⟨size_nodes_modifyNode.ge, fun w _ => same w, ?_, rfl⟩
  rw [weighs_eq_sum size_nodes_modifyNode.le, weighs]
  exact Finset.sum_congr rfl fun w _ => same w

lemma gains_modifyPhis (f : Func) (vs : List ValueId) (u : List PhiInput → List PhiInput) :
    Gains m 0 f (f.modifyPhis vs u) :=
  .of_shapes (ages_modifyPhis f vs u).nodes (fun _ => shape?_modifyPhis) title_modifyPhis

lemma gains_reend (f : Func) (b : BlockId) (t : Terminator) (hs : List Nat) : Gains m 0 f (f.reend b t hs) :=
  .of_shapes (ages_reend f b t hs).nodes (fun _ => shape?_reend) title_rewire

lemma gains_replaceUses (f : Func) (v : ValueId) (new : Value) : Gains m 0 f (f.replaceUses v new) :=
  .of_shapes (ages_replaceUses f v new).nodes (fun _ => shape?_replaceUses) rfl

lemma gains_putNode (f : Func) (b : BlockId) (index : Nat) (k : NodeKind) :
    Gains m (k.weight m) f (f.putNode b index k) := by
  have size : (f.putNode b index k).nodes.size = f.nodes.size + 1 := Array.size_push ..
  have weights (v) : (f.putNode b index k).weight m v = if v = f.nodes.size then k.weight m else f.weight m v := by
    rw [weight, shape?_putNode]
    split
    · rw [Option.map_some, Option.getD_some, NodeKind.weight_shape]
    · rfl
  refine ⟨by omega, fun v inside => by rw [weights, if_neg inside.ne], ?_, rfl⟩
  rw [weighs, size, Finset.sum_range_succ, weights, if_pos rfl, weighs]
  refine congrArg (· + _) (Finset.sum_congr rfl fun v inside => ?_)
  rw [weights, if_neg (Finset.mem_range.1 inside).ne]

lemma title_dropNode : (f.dropNode v).title = f.title := by
  rw [dropNode]
  split <;> rfl

lemma weighs_dropNode : (f.dropNode v).weighs m + f.weight m v = f.weighs m := by
  have weights (w) : (f.dropNode v).weight m w = if w = v then 0 else f.weight m w := by
    rw [weight, shape?_dropNode]
    split <;> rfl
  have inside : v ∈ Finset.range (max (max f.nodes.size (f.dropNode v).nodes.size) (v + 1)) := by
    rw [Finset.mem_range]
    exact lt_max_of_lt_right v.lt_succ_self
  rw [weighs_eq_sum ((Nat.le_max_right _ _).trans (Nat.le_max_left (max f.nodes.size (f.dropNode v).nodes.size)
    (v + 1))),
    weighs_eq_sum (f := f)
      ((Nat.le_max_left _ _).trans (Nat.le_max_left (max f.nodes.size (f.dropNode v).nodes.size) (v + 1))),
    ← Finset.sum_erase_add _ _ inside, ← Finset.sum_erase_add _ _ inside, weights, if_pos rfl, Nat.add_zero]
  refine congrArg (· + _) (Finset.sum_congr rfl fun w mem => ?_)
  rw [weights, if_neg (Finset.ne_of_mem_erase mem)]

lemma gains_dropNode (light : f.weight m v = 0) : Gains m 0 f (f.dropNode v) := by
  refine ⟨(ages_dropNode f v).nodes, fun w _ => ?_, ?_, title_dropNode⟩
  · rw [weight, shape?_dropNode]
    split
    · rename_i here
      rw [here, light]
      rfl
    · rfl
  · have total := weighs_dropNode (f := f) (v := v) (m := m)
    rw [light] at total
    rw [Nat.add_zero]
    exact total

lemma weight_of_inputs? (phi : (f.inputs? v).isSome) : f.weight m v = 0 := by
  obtain ⟨is, inputs⟩ := Option.isSome_iff_exists.1 phi
  rw [inputs?] at inputs
  obtain ⟨k, here, own⟩ := Option.bind_eq_some_iff.1 inputs
  rw [weight_of_kind? here]
  cases k with
  | phi => rfl
  | _ => cases own

lemma gains_removeTrivialPhis (f : Func) : Gains m 0 f f.removeTrivialPhis.1 := by
  refine removeTrivialPhis_keeps (fun g p x gains trivial => ?_) (.refl f)
  refine (gains.trans (gains_replaceUses g p x)).trans (gains_dropNode ?_)
  have phi : (g.inputs? p).isSome := by
    cases inputs : g.inputs? p with
    | some is => rfl
    | none => simp [trivialValue?, merged, inputs] at trivial
  rw [weight, shape?_replaceUses, ← weight]
  exact weight_of_inputs? phi

end Func

namespace Edit

open Func

variable {α β : Type} {f : Func} {b : BlockId} {v : ValueId} {x : Edit α} {g : α → Edit β} {c c' : Nat}

/-- The edit adds calls of some weight. -/
def Gains (m : Weights) (c : Nat) (x : Edit α) : Prop :=
  ∀ f, x.Meets f (fun _ f' => Func.Gains m c f f') fun _ => True

lemma gains_of_run (h : ∀ f a f', x.run f = .ok a f' → Func.Gains m c f f') : x.Gains m c :=
  fun f => meets_of_forall (h f) fun _ _ _ => trivial

lemma gains_pure {a : α} : (pure a : Edit α).Gains m 0 := fun f => meets_pure (.refl f)

lemma Gains.bind (first : x.Gains m c) (next : ∀ a, (g a).Gains m c') : (x >>= g).Gains m (c + c') := by
  refine fun f => (first f).bind fun a f₁ step => ?_
  exact (next a f₁).imp (fun _ _ => step.trans) fun _ _ => trivial

lemma Gains.next (first : x.Gains m 0) (next : ∀ a, (g a).Gains m c) : (x >>= g).Gains m c := by
  have both := first.bind next
  rwa [Nat.zero_add] at both

lemma gains_get {g : Func → Edit α} (next : ∀ f, (g f).Gains m c) : (get >>= g).Gains m c :=
  fun f => meets_get (next f f)

lemma gains_modify {u : Func → Func} (step : ∀ f, Func.Gains m 0 f (u f)) : (modify u : Edit PUnit).Gains m 0 :=
  gains_of_run fun f _ f' run => by
    obtain rfl := modify_eq_ok.1 run
    exact step f

lemma gains_block : (block b).Gains m 0 := gains_of_run fun f _ f' run => by
  obtain ⟨-, rfl⟩ := block_eq_ok.1 run
  exact .refl _

lemma gains_modifyBlock {u : Block → Block} : (modifyBlock b u).Gains m 0 :=
  gains_block.next fun _ => gains_modify fun f => Func.gains_modifyBlock f b u

lemma gains_addBlock : addBlock.Gains m 0 := by
  refine gains_of_run fun f a f' run => ?_
  obtain ⟨-, rfl⟩ := addBlock_eq_ok.1 run
  exact .of_shapes (Nat.le_refl _) (fun _ => rfl) rfl

lemma gains_addHandler {h : Catch} : (addHandler h).Gains m 0 := by
  refine gains_of_run fun f a f' run => ?_
  obtain ⟨-, rfl⟩ := addHandler_eq_ok.1 run
  exact .of_shapes (Nat.le_refl _) (fun _ => rfl) rfl

lemma gains_reserveRegisters {n : Nat} : (reserveRegisters n).Gains m 0 := by
  refine gains_of_run fun f a f' run => ?_
  obtain ⟨-, rfl⟩ := reserveRegisters_eq_ok.1 run
  exact .of_shapes (Nat.le_refl _) (fun _ => rfl) rfl

lemma gains_appendNode {k : NodeKind} : (appendNode b k).Gains m (k.weight m) := by
  refine gains_of_run fun f a f' run => ?_
  obtain ⟨-, -, rfl⟩ := appendNode_eq_ok.1 run
  exact gains_putNode f b _ k

lemma gains_setTerminator {t : Terminator} : (setTerminator b t).Gains m 0 := by
  refine gains_of_run fun f a f' run => ?_
  obtain ⟨-, -, rfl⟩ := setTerminator_eq_ok.1 run
  exact gains_reend f b t _

lemma gains_setHandlers {hs : List Nat} : (setHandlers b hs).Gains m 0 := by
  refine gains_of_run fun f a f' run => ?_
  obtain ⟨-, -, rfl⟩ := setHandlers_eq_ok.1 run
  exact gains_reend f b _ hs

lemma gains_splitBlock {index : Nat} : (splitBlock b index).Gains m 0 := by
  rw [splitBlock]
  refine gains_block.next fun x => ?_
  split
  · exact fun f => meets_throw_bind trivial
  · refine gains_addBlock.next fun tail => gains_modifyBlock.next fun _ => gains_setHandlers.next fun _ => ?_
    refine gains_get fun f => gains_modifyBlock.next fun _ => ?_
    have handed (f : Func) (v : ValueId) : Func.Gains m 0 f (f.modifyNode v fun n => { n with block := tail }) :=
      gains_modifyNode fun _ => rfl
    refine (gains_modify fun f => .foldl handed _ f).next fun _ => ?_
    refine gains_modifyBlock.next fun _ => gains_modifyBlock.next fun _ => ?_
    refine (gains_modify fun f => .foldl (fun f e => gains_modifyPhis f _ _) _ f).next fun _ => ?_
    refine gains_block.next fun y => gains_modifyBlock.next fun _ => gains_setTerminator.next fun _ => ?_
    exact gains_setTerminator.next fun _ => gains_pure

/-- The edit adds calls of some weight and drops a node. -/
def Swaps (m : Weights) (v : ValueId) (c : Nat) (x : Edit α) : Prop :=
  ∀ f, v < f.nodes.size →
    x.Meets f (fun _ g => g.weighs m + f.weight m v = f.weighs m + c ∧ g.title = f.title) fun _ => True

lemma swaps_bind {P : α → Prop}
    (first : ∀ f, x.Meets f (fun a f' => P a ∧ Func.Gains m c f f') fun _ => True)
    (next : ∀ a, P a → Swaps m v c' (g a)) : Swaps m v (c + c') (x >>= g) := by
  refine fun f inside => (first f).bind fun a f₁ step => ?_
  obtain ⟨fine, gains⟩ := step
  refine (next a fine f₁ (inside.trans_le gains.size)).imp (fun _ f₂ rest => ?_) fun _ _ => trivial
  obtain ⟨load, title⟩ := rest
  rw [gains.old v inside, gains.load] at load
  exact ⟨by omega, title.trans gains.title⟩

lemma Gains.swaps (first : x.Gains m 0)
    (next : ∀ a, Swaps m v c (g a)) : Swaps m v c (x >>= g) := by
  have both := swaps_bind (P := fun _ => True)
    (fun f => (first f).imp (fun _ _ step => ⟨trivial, step⟩) fun _ _ => trivial) fun a _ => next a
  rwa [Nat.zero_add] at both

lemma swaps_get {g : Func → Edit α} (next : ∀ f, Swaps m v c (g f)) : Swaps m v c (get >>= g) :=
  fun f inside => meets_get (next f f inside)

lemma swaps_removeNode {g : Option NodeKind → Edit α} (next : ∀ k, (g k).Gains m 0) :
    Swaps m v 0 (removeNode v >>= g) := by
  intro f _
  refine Meets.bind (P := fun _ f₁ => f₁ = f.dropNode v) ?_ fun k f₁ here => ?_
  · exact meets_of_forall (fun k f₁ run => (removeNode_eq_ok.1 run).2) fun _ _ _ => trivial
  · rw [here]
    refine (next k (f.dropNode v)).imp (fun _ g step => ?_) fun _ _ => trivial
    rw [step.load, Nat.add_zero, Nat.add_zero]
    exact ⟨weighs_dropNode, step.title.trans title_dropNode⟩

end Edit

end Avm.Ir
