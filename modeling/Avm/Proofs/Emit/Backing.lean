import Avm.Proofs.Emit.Protecting

/-!
# Splitting edges of graphs that pass the check

In a graph that passes the check, the edges that leave blocks are those that they call for, and each of them is known
where it leads.  Splitting an edge keeps that, whatever else the graph is like: it leads to a block that exists, and so
do the handlers that the new block gets.

The main statement is `backed_of_emit`: the graph that is written in the end is in order too.
-/

namespace Avm.Ir.Func

variable {f f' : Func} {b s t source target : BlockId} {kind : EdgeKind} {term : Terminator} {hs : List Nat}
  {depth : Nat}

/-- The edges that leave blocks are those that they call for, and are known where they lead. -/
structure Backed (f : Func) : Prop where
  wired : ∀ b, f.succs b = f.edgesOf b
  known : ∀ s, ∀ e ∈ f.succs s, (s, e.2) ∈ f.preds e.1

lemma backed_of_verify (verified : f.verify = .ok ()) : f.Backed where
  wired := wired_of_verify verified
  known s e edge := by
    obtain ⟨x, here⟩ := Option.isSome_iff_exists.1 (isSome_of_mem_succs edge)
    rw [succs_of_block? here] at edge
    exact (verifyBlock_eq_ok.1 (verify_eq_ok.1 verified s x here)).2.1 e edge

namespace Backed

lemma live (h : f.Backed) {e : BlockId × EdgeKind} (edge : e ∈ f.succs s) : (f.block? e.1).isSome :=
  isSome_of_mem_preds (h.known s e edge)

lemma mem_succs_of_mem_targets (h : f.Backed) {e : BlockId × EdgeKind} (goes : e ∈ (f.terminator s).targets) :
    e ∈ f.succs s := by
  rw [h.wired, edgesOf_eq]
  exact mem_edgesFrom.2 (.inl goes)

lemma sameFlow (h : f.Backed) (same : SameFlow f f') : f'.Backed where
  wired b := by rw [same.succs, same.edgesOf, h.wired]
  known s e edge := by
    rw [same.succs] at edge
    rw [same.preds]
    exact h.known s e edge

lemma pushBlock (h : f.Backed) : (f.pushBlock {}).Backed where
  wired b := by
    rw [succs_pushBlock, edgesOf_eq, terminator_pushBlock, handlersOf_pushBlock, handlers_pushBlock, ← edgesOf_eq,
      h.wired]
  known s e edge := by
    rw [succs_pushBlock] at edge
    rw [preds_pushBlock]
    exact h.known s e edge

lemma reend (h : f.Backed) (live : (f.block? b).isSome)
    (leads : ∀ e ∈ edgesFrom f.handlers term hs, (f.block? e.1).isSome) : (f.reend b term hs).Backed where
  wired c := wired_reend live (fun c (_ : ¬False) => h.wired c) c fun old => old.1
  known s e edge := by
    rw [succs_reend live] at edge
    have there : ((f.withEnd b term hs).block? e.1).isSome := by
      rw [sameNodes_withEnd.isSome]
      split at edge
      · exact leads e edge
      · exact h.live edge
    rw [Func.reend, ← List.count_pos_iff, count_preds_rewire there, edgesOf_withEnd live]
    split at edge
    · rename_i here
      rw [if_pos here]
      exact Nat.lt_of_lt_of_le (List.count_pos_iff.2 edge) (Nat.le_add_left _ _)
    · rename_i other
      rw [if_neg other, preds_withEnd, List.count_pos_iff]
      exact h.known s e edge

lemma onEdge (h : f.Backed) (edge : (target, kind) ∈ f.succs source) :
    (f.onEdge source target kind depth).Backed := by
  have live : (f.block? source).isSome := isSome_of_mem_succs edge
  have called (e : BlockId × EdgeKind) (mem : e ∈ edgesFrom f.handlers (f.terminator source) (f.handlersOf source)) :
      (f.block? e.1).isSome := by
    rw [← edgesOf_eq, ← h.wired] at mem
    exact h.live mem
  have thrown {k : Nat} {c : Catch} (covers : k ∈ f.handlersOf source) (found : f.handlers[k]? = some c) :
      (f.block? c.target).isSome :=
    called _ (mem_edgesFrom.2 (.inr (.inr ⟨k, covers, c, found, rfl⟩)))
  have beside : (f.beside source depth).Backed := by
    refine (h.pushBlock.sameFlow alike_withBlock.toSameFlow).reend isSome_withBlock_self fun e mem => ?_
    rw [alike_withBlock.toSameFlow.catches, handlers_pushBlock] at mem
    obtain goes | leaves | ⟨k, covers, c, found, rfl⟩ := mem_edgesFrom.1 mem
    · cases goes
    · cases leaves
    · rw [isSome_withBlock, thrown covers found, Bool.or_true]
  have entered : (f.enteredEdge source target kind depth).Backed := by
    have prepared : (f.preparedEdge source target kind depth).Backed := beside.sameFlow sameFlow_modifyPhis
    refine prepared.reend ?_ fun e mem => ?_
    · rw [isSome_preparedEdge, decide_eq_true rfl, Bool.true_or]
    · rw [catches_preparedEdge] at mem
      rw [isSome_preparedEdge]
      obtain goes | leaves | ⟨k, covers, c, found, rfl⟩ := mem_edgesFrom.1 mem
      · rw [List.mem_singleton.1 goes, h.live edge, Bool.or_true]
      · cases leaves
      · rw [thrown covers found, Bool.or_true]
  refine entered.reend ?_ fun e mem => ?_
  · rw [isSome_enteredEdge, live, Bool.or_true]
  · rw [catches_enteredEdge] at mem
    rw [isSome_enteredEdge]
    obtain goes | leaves | ⟨k, covers, c, found, rfl⟩ := mem_edgesFrom.1 mem
    · obtain rfl | ⟨stays, -⟩ := Terminator.mem_targets_retarget goes
      · rw [decide_eq_true rfl, Bool.true_or]
      · rw [called e (mem_edgesFrom.2 (.inl stays)), Bool.or_true]
    · rw [retargeted, Terminator.leaving_retarget] at leaves
      rw [called e (mem_edgesFrom.2 (.inr (.inl leaves))), Bool.or_true]
    · rw [thrown covers found, Bool.or_true]

end Backed

end Avm.Ir.Func

namespace Avm.Emit

open Avm.Ir Avm.Ir.Func

variable {f g : Func} {source target middle : BlockId} {kind : EdgeKind} {pool : Pool}

lemma covered_of_splitEdge (run : (Edit.splitEdge source target kind).run f = .ok middle g) :
    ∀ k ∈ f.handlersOf source, k < f.handlers.length := by
  rw [Edit.splitEdge, Edit.bind_eq_ok] at run
  obtain ⟨_, f, got, run⟩ := run
  obtain ⟨rfl, rfl⟩ := Edit.get_eq_ok.1 got
  split at run
  · obtain ⟨_, _, thrown, -⟩ := Edit.bind_eq_ok.1 run
    exact absurd thrown Edit.throw_ne_ok
  obtain ⟨m, f₁, added, run⟩ := Edit.bind_eq_ok.1 run
  obtain ⟨rfl, rfl⟩ := Edit.addBlock_eq_ok.1 added
  obtain ⟨x, f₂, got, run⟩ := Edit.bind_eq_ok.1 run
  obtain ⟨there, rfl⟩ := Edit.block_eq_ok.1 got
  obtain ⟨_, f₃, set, run⟩ := Edit.bind_eq_ok.1 run
  obtain ⟨-, rfl⟩ := Edit.modifyBlock_eq_ok.1 set
  obtain ⟨_, f₄, protect, -⟩ := Edit.bind_eq_ok.1 run
  obtain ⟨covers, -, -⟩ := Edit.setHandlers_eq_ok.1 protect
  have same : x.handlers = f.handlersOf source := by
    rw [← handlersOf_pushBlock, handlersOf_of_block? there]
  rw [same] at covers
  exact covers

lemma backed_of_splitEdges {es : List (BlockId × BlockId × EdgeKind)} {u : Unit} (backed : f.Backed)
    (run : (splitEdges es).run f = .ok u g) : g.Backed ∧ ∀ v, g.shape? v = f.shape? v := by
  induction es generalizing f with
  | nil =>
    obtain ⟨-, rfl⟩ := Edit.pure_eq_ok.1 run
    exact ⟨backed, fun _ => rfl⟩
  | cons e es ih =>
    obtain ⟨source, target, kind⟩ := e
    rw [splitEdges, Edit.bind_eq_ok] at run
    obtain ⟨middle, f₁, first, run⟩ := run
    obtain ⟨edge, normal⟩ := edge_of_splitEdge first
    rw [Edit.run_splitEdge edge normal (covered_of_splitEdge first) (backed.live edge)
      fun e goes => backed.live (backed.mem_succs_of_mem_targets goes)] at first
    obtain ⟨rfl, rfl⟩ := EStateM.Result.ok.inj first
    obtain ⟨done, shapes⟩ := ih (backed.onEdge edge) run
    exact ⟨done, fun v => (shapes v).trans shape?_onEdge⟩

/-- Code that is written for a graph that passes the check is written for one whose edges are in order. -/
theorem backed_of_emit {code : Code} (verified : f.verify = .ok ()) (emitted : (emit f pool).1 = .ok code) :
    ∃ g d, splitCriticalEdges.run f = .ok () g ∧ g.Backed ∧ (∀ v, g.shape? v = f.shape? v) ∧
      (Write.all (.ofFunc g)).run (.start (.ofFunc g) pool) = .ok () d ∧ d.code = code := by
  obtain ⟨g, d, split, written, code⟩ := exists_all_of_emit emitted
  have run := split
  rw [splitCriticalEdges, Edit.bind_eq_ok] at run
  obtain ⟨_, _, got, run⟩ := run
  obtain ⟨rfl, rfl⟩ := Edit.get_eq_ok.1 got
  obtain ⟨backed, shapes⟩ := backed_of_splitEdges (backed_of_verify verified) run
  exact ⟨g, d, split, backed, shapes, written, code⟩

end Avm.Emit
