import Avm.Proofs.Ir.Removing
import Avm.Proofs.Ir.Written

/-!
# Nodes without their operands

What a node is written as does not depend on its operands, so edits that replace operands or drop
nodes are seen through the shapes of nodes.

The main statement is `Writable.sameFlow`: what keeps the ends of blocks but for operands can be written
as before.
-/

namespace Avm.Ir

namespace NodeKind

variable {k : NodeKind} {pool : Pool} {g : Value → Value}

/-- The node without its operands. -/
def shape (k : NodeKind) : NodeKind := (k.mapInputs fun _ => []).mapOperands fun _ => .const .null

@[simp] lemma shape_mapOperands : (k.mapOperands g).shape = k.shape := by
  cases k <;> simp [shape, mapOperands, mapInputs, Function.comp_def]

@[simp] lemma shape_mapInputs (g : List PhiInput → List PhiInput) : (k.mapInputs g).shape = k.shape := by
  cases k <;> rfl

lemma writable_shape : k.shape.Writable pool ↔ k.Writable pool := by
  cases k with
  | phi inputs => exact ⟨fun _ => writable_phi inputs, fun _ => writable_phi []⟩
  | _ =>
    rw [shape, mapInputs]
    · refine ⟨fun h i here => ?_, fun h => h.mapOperands⟩
      have result := h i (instruction?_mapOperands.trans here)
      rwa [demand_mapOperands] at result
    · nofun

end NodeKind

namespace Terminator

variable {t : Terminator} {g : Value → Value}

@[simp] lemma writable_mapOperands : (t.mapOperands g).Writable ↔ t.Writable := by
  cases t <;> simp [mapOperands, Writable]

end Terminator

namespace Func

variable {f f' f'' : Func} {b t : BlockId} {v w : ValueId} {k : NodeKind} {pool : Pool}

/-- A node without its operands. -/
def shape? (f : Func) (v : ValueId) : Option NodeKind := (f.node? v).map (·.kind.shape)

section Shapes

lemma shape?_of_kind? (h : f.kind? v = some k) : f.shape? v = some k.shape := by
  obtain ⟨n, here, rfl⟩ := Option.map_eq_some_iff.1 h
  rw [shape?, here]
  rfl

@[simp] lemma shape?_modifyBlock {g : Block → Block} : (f.modifyBlock b g).shape? v = f.shape? v := rfl

lemma shape?_modifyNode {u : Node → Node} (keeps : ∀ n, (u n).kind.shape = n.kind.shape) :
    (f.modifyNode v u).shape? w = f.shape? w := by
  rw [shape?, node?_modifyNode, shape?]
  split
  · rw [Option.map_map]
    congr 1
    funext n
    exact keeps n
  · rfl

lemma shape?_modifyInputs {g : List PhiInput → List PhiInput} :
    (f.modifyInputs v g).shape? w = f.shape? w := by
  rw [modifyInputs_eq]
  exact shape?_modifyNode fun n => NodeKind.shape_mapInputs g

lemma shape?_modifyPhis {vs : List ValueId} {g : List PhiInput → List PhiInput} :
    (f.modifyPhis vs g).shape? w = f.shape? w :=
  foldl_keeps (fun f : Func => f.shape? w) fun _ _ => by exact shape?_modifyInputs

lemma shape?_syncPhis {es : List (BlockId × EdgeKind)} {ts : List BlockId} :
    (f.syncPhis b es ts).shape? v = f.shape? v :=
  foldl_keeps (fun f : Func => f.shape? v) fun _ _ => by exact shape?_modifyPhis

lemma shape?_congr (h : f'.nodes = f.nodes) : f'.shape? v = f.shape? v := by
  rw [shape?, node?, h, ← node?, ← shape?]

lemma shape?_rewire : (f.rewire b).shape? v = f.shape? v := by
  rw [rewire_eq, shape?_modifyBlock, shape?_syncPhis]
  exact shape?_congr (by rw [nodes_addLinks, nodes_dropLinks])

lemma shape?_reend {term : Terminator} {hs : List Nat} : (f.reend b term hs).shape? v = f.shape? v := by
  rw [reend, shape?_rewire]
  rfl

lemma shape?_replaceUses {new : Value} : (f.replaceUses w new).shape? v = f.shape? v := by
  simp only [shape?, node?, replaceUses, Array.getElem?_map]
  cases f.nodes[v]? with
  | none => rfl
  | some place =>
    cases place with
    | none => rfl
    | some n =>
      simp only [Option.map_some, Option.join_some, replaceInNode]
      split
      · simp
      · rfl

lemma shape?_dropNode : (f.dropNode v).shape? w = if w = v then none else f.shape? w := by
  rw [shape?, node?_dropNode, shape?]
  split
  · rfl
  · rfl

lemma shape?_putNode {index : Nat} : (f.putNode b index k).shape? w =
    if w = f.nodes.size then some k.shape else f.shape? w := by
  rw [shape?, node?_putNode, shape?]
  split
  · rfl
  · rfl

lemma shape?_moveTo {source : BlockId} {index : Nat} :
    (f.moveTo v source b index).shape? w = f.shape? w := by
  rw [moveTo]
  exact shape?_modifyNode fun _ => rfl

lemma shape?_unlink {es : List (BlockId × EdgeKind)} : (f.unlink b es).shape? v = f.shape? v :=
  foldl_keeps (fun f : Func => f.shape? v) fun _ _ => by exact shape?_modifyPhis

lemma shape?_without {x : Block} :
    (f.without b x).shape? v = if v ∈ x.nodeIds then none else f.shape? v := by
  rw [without, shape?, node?_eraseNodes]
  split
  · rfl
  · rw [← shape?, shape?_congr nodes_forget, shape?_unlink]
    rfl

end Shapes

/-- Every node and every end of a block can be written. -/
structure Writable (pool : Pool) (f : Func) : Prop where
  nodes : ∀ v k, f.shape? v = some k → k.Writable pool
  ends : ∀ b, (f.terminator b).Writable

lemma Writable.kind (h : f.Writable pool) (here : f.kind? v = some k) : k.Writable pool :=
  NodeKind.writable_shape.1 (h.nodes v _ (shape?_of_kind? here))

lemma Writable.sameFlow (h : f.Writable pool) (flow : SameFlow f f')
    (nodes : ∀ v k, f'.shape? v = some k → f.shape? v = some k ∨ k.Writable pool) : f'.Writable pool := by
  refine ⟨fun v k here => ?_, fun b => ?_⟩
  · obtain old | new := nodes v k here
    · exact h.nodes v k old
    · exact new
  · obtain ⟨g, same⟩ := flow.terminator b
    rw [same, Terminator.writable_mapOperands]
    exact h.ends b

end Func

end Avm.Ir
