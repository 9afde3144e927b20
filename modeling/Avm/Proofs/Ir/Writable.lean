import Avm.Proofs.Ir.Shapes
import Avm.Proofs.Ir.Splitting

/-!
# Edits of graphs that can be written

Every edit leaves a graph that can be written if it could be written before, and if what it adds can be
written: a new node, or a new end of a block.

The main statements say for each edit that it retains `Func.Writable`.
-/

namespace Avm.Ir

variable {f f' : Func} {pool : Pool} {b t : BlockId} {k : NodeKind} {v : ValueId}

namespace Terminator

variable {t : Terminator}

lemma Writable.retarget (h : t.Writable) (kind : EdgeKind) (target : BlockId) :
    ((t.retarget? kind target).getD t).Writable := by
  cases t with
  | switch index default cases =>
    cases kind with
    | switchCase i =>
      rw [retarget?]
      split
      · trivial
      · trivial
    | _ => trivial
  | branch k operands onTrue onFalse => cases kind <;> exact h
  | _ => cases kind <;> trivial

lemma Writable.mapTargets (h : t.Writable) (g : BlockId → BlockId) : (t.mapTargets g).Writable := by
  cases t with
  | branch k operands onTrue onFalse => exact h
  | _ => trivial

end Terminator

namespace Func

lemma Writable.of_ends (h : f.Writable pool) (ends : ∀ b, (f'.terminator b).Writable)
    (nodes : ∀ v k, f'.shape? v = some k → f.shape? v = some k ∨ k.Writable pool) : f'.Writable pool := by
  refine ⟨fun v k here => ?_, ends⟩
  obtain old | new := nodes v k here
  · exact h.nodes v k old
  · exact new

lemma Writable.block (h : f.Writable pool) {x : Block} (here : f.block? b = some x) :
    x.terminator.Writable := by
  rw [← terminator_of_block? here]
  exact h.ends b

lemma Writable.modifyBlock {g : Block → Block} (h : f.Writable pool)
    (keeps : ∀ x, x.terminator.Writable → (g x).terminator.Writable) :
    (f.modifyBlock b g).Writable pool := by
  refine h.of_ends (fun t => ?_) fun v k here => .inl here
  have old := h.ends t
  rw [terminator] at old ⊢
  rw [block?_modifyBlock]
  split
  · cases here : f.block? t with
    | none => trivial
    | some x =>
      rw [here] at old
      exact keeps x old
  · exact old

lemma Writable.reend {term : Terminator} {hs : List Nat} (h : f.Writable pool)
    (live : (f.block? b).isSome) (new : term.Writable) : (f.reend b term hs).Writable pool := by
  refine h.of_ends (fun t => ?_) fun v k here => .inl (by rwa [shape?_reend] at here)
  rw [terminator_reend live]
  split
  · exact new
  · exact h.ends t

lemma Writable.putNode {index : Nat} (h : f.Writable pool) (new : k.Writable pool) :
    (f.putNode b index k).Writable pool := by
  refine h.sameFlow sameFlow_putNode fun v k' here => ?_
  rw [shape?_putNode] at here
  split at here
  · rw [← Option.some.inj here]
    exact .inr (NodeKind.writable_shape.2 new)
  · exact .inl here

lemma Writable.putPhis {inputs : List (List PhiInput)} (h : f.Writable pool) :
    (f.putPhis b inputs).Writable pool := by
  refine h.sameFlow sameFlow_putPhis fun v k here => ?_
  obtain ⟨n, found, rfl⟩ := Option.map_eq_some_iff.1 here
  have kind : (f.putPhis b inputs).kind? v = some n.kind := by
    rw [kind?, found]
    rfl
  obtain old | ⟨-, is, -, phi⟩ := kind?_putPhis kind
  · exact .inl (shape?_of_kind? old)
  · rw [phi]
    exact .inr (NodeKind.writable_phi [])

lemma Writable.of_blocks (h : f.Writable pool) (blocks : f'.blocks = f.blocks)
    (shapes : ∀ v, f'.shape? v = f.shape? v) : f'.Writable pool := by
  refine h.of_ends (fun b => ?_) fun v k here => .inl ?_
  · rw [terminator, block?_congr blocks, ← terminator]
    exact h.ends b
  · rwa [shapes] at here

lemma writable_empty (blocks : f.blocks = #[some {}, some {}]) (nodes : f.nodes = #[]) :
    f.Writable pool := by
  refine ⟨fun v k none => ?_, fun b => ?_⟩
  · simp [shape?, node?, nodes] at none
  · obtain _ | _ | b := b
    · simp [terminator, block?, blocks, Terminator.Writable]
    · simp [terminator, block?, blocks, Terminator.Writable]
    · simp [terminator, block?, blocks, Terminator.Writable]

lemma shape?_handNodes {vs : List ValueId} {tail : BlockId} : (f.handNodes vs tail).shape? v = f.shape? v := by
  induction vs generalizing f with
  | nil => rfl
  | cons w vs ih =>
    rw [handNodes, List.foldl_cons, ← handNodes, ih]
    exact shape?_modifyNode fun _ => rfl

lemma shape?_handPhis {tail : BlockId} {es : List (BlockId × EdgeKind)} :
    (f.handPhis b tail es).shape? v = f.shape? v := by
  induction es generalizing f with
  | nil => rfl
  | cons e es ih =>
    rw [handPhis, List.foldl_cons, ← handPhis, ih]
    exact shape?_modifyPhis

end Func

namespace Edit

open Func

variable {α : Type} {x : Edit α} {P : Func → Prop}

lemma retains_ofBlock {g : Block → Edit α} (next : ∀ f x, P f → f.block? b = some x →
    (g x).Meets f (fun _ f' => P f') fun _ => True) : (block b >>= g).Retains P :=
  fun f start => meets_block trivial fun x here => next f x start here

section Writing

lemma retains_modifyBlock {g : Block → Block}
    (keeps : ∀ x, x.terminator.Writable → (g x).terminator.Writable) :
    (modifyBlock b g).Retains (Writable pool) := by
  refine retains_of_run fun f a f' start run => ?_
  obtain ⟨-, rfl⟩ := modifyBlock_eq_ok.1 run
  exact start.modifyBlock keeps

lemma retains_addBlock : addBlock.Retains (Writable pool) := by
  refine retains_of_run fun f a f' start run => ?_
  obtain ⟨-, rfl⟩ := addBlock_eq_ok.1 run
  refine start.of_ends (fun b => ?_) fun v k here => .inl here
  rw [terminator_pushBlock]
  exact start.ends b

lemma retains_addHandler {c : Catch} : (addHandler c).Retains (Writable pool) := by
  refine retains_of_run fun f a f' start run => ?_
  obtain ⟨-, rfl⟩ := addHandler_eq_ok.1 run
  exact start.of_blocks rfl fun _ => rfl

lemma retains_reserveRegisters {n : Nat} : (reserveRegisters n).Retains (Writable pool) := by
  refine retains_of_run fun f a f' start run => ?_
  obtain ⟨-, rfl⟩ := reserveRegisters_eq_ok.1 run
  exact start.of_blocks rfl fun _ => rfl

lemma retains_freshVersion : freshVersion.Retains (Writable pool) := by
  refine retains_of_run fun f a f' start run => ?_
  obtain ⟨-, rfl⟩ := update_eq_ok.1 run
  exact start.of_blocks rfl fun _ => rfl

lemma retains_insertNode {index : Nat} (new : k.Writable pool) :
    (insertNode b index k).Retains (Writable pool) := by
  refine retains_of_run fun f a f' start run => ?_
  obtain ⟨-, -, -, rfl⟩ := insertNode_eq_ok.1 run
  exact start.putNode new

lemma retains_appendNode (new : k.Writable pool) : (appendNode b k).Retains (Writable pool) := by
  refine retains_of_run fun f a f' start run => ?_
  obtain ⟨-, -, rfl⟩ := appendNode_eq_ok.1 run
  exact start.putNode new

lemma retains_appendPhis {inputs : List (List PhiInput)} :
    (appendPhis b inputs).Retains (Writable pool) := by
  refine retains_of_run fun f a f' start run => ?_
  obtain ⟨-, -, rfl⟩ := appendPhis_eq_ok.1 run
  exact start.putPhis

lemma retains_removeNode : (removeNode v).Retains (Writable pool) := by
  refine retains_of_run fun f a f' start run => ?_
  obtain ⟨-, rfl⟩ := removeNode_eq_ok.1 run
  refine start.sameFlow sameFlow_dropNode fun w k here => .inl ?_
  rw [shape?_dropNode] at here
  split at here
  · cases here
  · exact here

lemma retains_moveNode {index : Nat} : (moveNode v b index).Retains (Writable pool) := by
  refine retains_of_run fun f a f' start run => ?_
  obtain ⟨n, -, -, -, -, rfl⟩ := moveNode_eq_ok.1 run
  refine start.sameFlow sameFlow_moveTo fun w k here => .inl ?_
  rwa [shape?_moveTo] at here

lemma retains_setTerminator {t : Terminator} (new : t.Writable) :
    (setTerminator b t).Retains (Writable pool) := by
  refine retains_of_run fun f a f' start run => ?_
  obtain ⟨-, live, rfl⟩ := setTerminator_eq_ok.1 run
  exact start.reend live new

lemma retains_setHandlers {hs : List Nat} : (setHandlers b hs).Retains (Writable pool) := by
  refine retains_of_run fun f a f' start run => ?_
  obtain ⟨-, live, rfl⟩ := setHandlers_eq_ok.1 run
  exact start.reend live (start.ends b)

lemma retains_modifyPhis {vs : Func → List ValueId} {g : List PhiInput → List PhiInput} :
    (modify fun f => f.modifyPhis (vs f) g : Edit PUnit).Retains (Writable pool) :=
  retains_modify fun _ start => start.of_blocks blocks_modifyPhis fun _ => shape?_modifyPhis

lemma retains_removeBlock : (removeBlock b).Retains (Writable pool) := by
  refine retains_of_run fun f a f' start run => ?_
  obtain ⟨-, x, -, rfl⟩ := removeBlock_eq_ok.1 run
  refine start.of_ends (fun t => ?_) fun v k here => .inl ?_
  · rw [terminator_without]
    split
    · trivial
    · exact start.ends t
  · rw [shape?_without] at here
    split at here
    · cases here
    · exact here

lemma retains_splitEdge {source target : BlockId} {kind : EdgeKind} :
    (splitEdge source target kind).Retains (Writable pool) := by
  rw [splitEdge]
  refine retains_get fun f start => ?_
  split
  · exact meets_throw_bind trivial
  · refine meets_of_retains (retains_addBlock.bind fun middle => ?_) start
    refine retains_block.bind fun x => ?_
    refine Retains.bind (retains_modifyBlock fun _ same => same) fun _ => ?_
    refine retains_setHandlers.bind fun _ => retains_modifyPhis.bind fun _ => ?_
    refine Retains.bind (retains_setTerminator trivial) fun _ => ?_
    refine retains_ofBlock fun f₁ y start₁ here => ?_
    refine meets_of_retains (Retains.bind (retains_setTerminator ?_) fun _ => retains_pure) start₁
    exact (start₁.block here).retarget kind middle

lemma retains_splitBlock {index : Nat} : (splitBlock b index).Retains (Writable pool) := by
  rw [splitBlock]
  refine retains_block.bind fun x => ?_
  split
  · exact fun f _ => meets_throw_bind trivial
  · refine retains_addBlock.bind fun tail => ?_
    refine Retains.bind (retains_modifyBlock fun _ same => same) fun _ => ?_
    refine retains_setHandlers.bind fun _ => retains_get fun f start => ?_
    dsimp only
    refine meets_of_retains (Retains.bind (retains_modifyBlock fun _ same => same) fun _ => ?_) start
    refine Retains.bind (retains_modify fun f start => ?_) fun _ => ?_
    · exact start.of_blocks blocks_handNodes fun w => shape?_handNodes
    refine Retains.bind (retains_modifyBlock fun _ same => same) fun _ => ?_
    refine Retains.bind (retains_modifyBlock fun _ same => same) fun _ => ?_
    refine Retains.bind (retains_modify fun f start => ?_) fun _ => ?_
    · exact start.of_blocks blocks_handPhis fun w => shape?_handPhis
    refine retains_ofBlock fun f₁ y start₁ here => ?_
    refine meets_of_retains (Retains.bind (retains_modifyBlock fun _ _ => trivial) fun _ => ?_) start₁
    refine (retains_setTerminator (start₁.block here)).bind fun _ => ?_
    exact Retains.bind (retains_setTerminator trivial) fun _ => retains_pure

end Writing

end Edit

end Avm.Ir
