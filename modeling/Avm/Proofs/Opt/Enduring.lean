import Avm.Opt.Hoisting
import Avm.Opt.Folding
import Avm.Opt.Inlining
import Avm.Proofs.Ir.Outcomes
import Avm.Proofs.Ir.Removing

/-!
# What lasts through optimizations

An optimization is made of a few kinds of edits, one after another.  A property of graphs lasts through all of it if it
lasts through each of these edits.  What is particular about the nodes that are added, and about the calls and the loops
that are looked at, is left to those who ask.

The main statements are `Hoisting.meets_hoistAll`, `TailCall.meets_eliminateAll`, `Inlining.Endures.expand` and
`Inlining.meets_expandAll`.
-/

namespace Avm.Ir.Edit

variable {α : Type} {f : Func} {x : Edit α} {post : α → Func → Prop}

lemma yields_iff_meets : x.Yields f post ↔ x.Meets f post fun _ => False := by
  constructor
  · rintro ⟨a, f', run, holds⟩
    refine meets_of_forall (fun a' f'' run' => ?_) fun e f'' run' => ?_
    · obtain ⟨rfl, rfl⟩ := EStateM.Result.ok.inj (run.symm.trans run')
      exact holds
    · cases run.symm.trans run'
  · intro meets
    cases run : x.run f with
    | ok a f' => exact ⟨a, f', run, meets.of_ok run⟩
    | error e f' => exact (meets.of_error run).elim

end Avm.Ir.Edit

namespace Avm.Opt

open Avm.Ir Avm.Ir.Edit

variable {P : Func → Prop} {bad : Fault → Prop} {f callee : Func} {m : MethodId} {ctx : Context}
  {b target header : BlockId}
  {report : Report}

namespace DeadCode

lemma retains_removeUnreachable (each : ∀ f b x, P f → f.block? b = some x → P (f.without b x)) :
    removeUnreachable.Retains P := by
  refine retains_get fun f start => Meets.bind (P := fun _ f' => P f') ?_ fun _ _ there => meets_pure there
  refine meets_of_forall (fun _ f' run => ?_) fun _ _ _ => trivial
  exact Lift.removeBlocks_induction run start fun f b x there _ here => each f b x there here

lemma meets_loop (each : ∀ f, P f → (once m).Meets f (fun _ g => P g) bad) (start : P f) {fuel : Nat} :
    (loop m fuel report).Meets f (fun _ g => P g) bad := by
  induction fuel generalizing f report with
  | zero => exact meets_pure start
  | succ fuel ih =>
    refine (each f start).bind fun more g there => ?_
    split
    · exact ih there
    · exact meets_pure there

end DeadCode

namespace Folding

lemma retains_foldBranches (each : ∀ b t, (setTerminator b (.goto t)).Retains P) {l : List (BlockId × BlockId)} :
    (foldBranches m l report).Retains P := by
  induction l generalizing report with
  | nil => exact retains_pure
  | cons e l ih => exact (each e.1 e.2).bind fun _ => ih

lemma meets_loop (each : ∀ f, P f → (once m).Meets f (fun _ g => P g) bad) (start : P f) {fuel : Nat} :
    (loop m fuel report).Meets f (fun _ g => P g) bad := by
  induction fuel generalizing f report with
  | zero => exact meets_pure start
  | succ fuel ih =>
    refine (each f start).bind fun more g there => ?_
    split
    · exact ih there
    · exact meets_pure there

end Folding

namespace Hoisting

lemma retains_moveAll (move : ∀ v index, (moveNode v target index).Retains P) {vs : List ValueId} :
    (moveAll m header target vs report).Retains P := by
  induction vs generalizing report with
  | nil => exact retains_pure
  | cons v vs ih => exact retains_get fun f start => meets_of_retains ((move v _).bind fun _ => ih) start

/-- The block before a loop is there and leads to the loop only, or is put on the edge into the loop. -/
lemma meets_preheader_bind {α : Type} {e : Entrance} {g : BlockId → Edit α} {post : α → Func → Prop}
    (reuse : e.source ≠ Func.entry → (f.succs e.source).length = 1 → (g e.source).Meets f post bad)
    (split : (splitEdge e.source e.header e.kind >>= g).Meets f post bad) : (preheader e >>= g).Meets f post bad := by
  rw [preheader, bind_assoc]
  refine meets_get ?_
  split
  · rename_i alone
    rw [Bool.and_eq_true, bne_iff_ne, beq_iff_eq] at alone
    rw [pure_bind]
    exact reuse alone.1 alone.2
  · exact split

lemma retains_preheader (split : ∀ source target kind, (splitEdge source target kind).Retains P) (e : Entrance) :
    (preheader e).Retains P := by
  refine retains_get fun f start => ?_
  split
  · exact meets_pure start
  · exact split _ _ _ f start

section Hoist

variable {l members : List BlockId} {cut : Option BlockId} {post : Report → Func → Prop}

/-- What is invariant goes to the block before the loop, if there is anything and the same handlers cover both. -/
lemma meets_hoist
    (stay : (∀ e, entrance? f l = some e → f.handlersOf e.header = f.handlersOf e.source → invariants f l = []) →
      post {} f)
    (move : ∀ e, entrance? f l = some e → f.handlersOf e.header = f.handlersOf e.source → invariants f l ≠ [] →
      (preheader e >>= fun target => moveAll m e.header target (invariants f l) {}).Meets f post bad) :
    (hoist m l).Meets f post bad := by
  refine meets_get ?_
  cases found : entrance? f l with
  | none => exact meets_pure (stay fun e some_ => by cases found.symm.trans some_)
  | some e =>
    dsimp only
    split
    · rename_i other
      refine meets_pure (stay fun e' some_ covered => ?_)
      obtain rfl := Option.some.inj (found.symm.trans some_)
      exact absurd covered other
    · rename_i covered
      rw [ne_eq, not_not] at covered
      have goes := move e found covered
      cases vs : invariants f l with
      | nil => exact meets_pure (stay fun _ _ _ => vs)
      | cons v rest =>
        rw [vs] at goes
        exact goes (List.cons_ne_nil v rest)

lemma retains_hoist (move : ∀ v target index, (moveNode v target index).Retains P)
    (split : ∀ source target kind, (splitEdge source target kind).Retains P) (l : List BlockId) :
      (hoist m l).Retains P :=
  fun f start => meets_hoist (fun _ => start) fun e _ _ _ =>
    ((retains_preheader split e).bind fun target => retains_moveAll fun v => move v target) f start

lemma meets_hoistAll (each : ∀ l f, P f → (hoist m l).Meets f (fun _ g => P g) bad) (start : P f) {fuel : Nat} :
    (hoistAll m fuel members cut).Meets f (fun _ g => P g) bad := by
  induction fuel generalizing f members cut with
  | zero => exact meets_pure start
  | succ fuel ih =>
    refine meets_get (meets_foldlM (P := fun _ _ g => P g) (fun _ l _ report g _ there => ?_) start)
    refine (each l g there).bind fun outer g₁ there => meets_get ?_
    split
    · exact meets_pure there
    · exact (ih there).bind fun inner g₂ there => meets_pure there

end Hoist

end Hoisting

namespace TailCall

lemma retains_saveArgs {targets : List Nat} {position : Nat} {args : List Value}
    (put : ∀ index x, (insertNode b index (.copy x)).Retains P) : (saveArgs b targets position args).Retains P := by
  induction args generalizing position with
  | nil => exact retains_pure
  | cons x args ih =>
    refine retains_get fun f start => ?_
    split
    · exact meets_of_retains ((put _ x).bind fun _ => ih.bind fun _ => retains_pure) start
    · exact meets_of_retains (ih.bind fun _ => retains_pure) start

lemma retains_storeAll {l : List (Nat × Value)} (put : ∀ e ∈ l, (appendNode b (.store e.1 e.2)).Retains P) :
    (storeAll b l).Retains P := by
  induction l with
  | nil => exact retains_pure
  | cons e l ih =>
    obtain ⟨first, rest⟩ := List.forall_mem_cons.1 put
    exact first.bind fun _ => ih rest

lemma retains_popScopes (put : (appendNode b (.scope .pop none)).Retains P) (n : Nat) : (popScopes b n).Retains P := by
  induction n with
  | zero => exact retains_pure
  | succ n ih => exact put.bind fun _ => ih

lemma retains_start (split : ∀ source target kind, (splitEdge source target kind).Retains P) : start.Retains P := by
  refine retains_get fun f there => ?_
  split
  · exact meets_throw trivial
  · split
    · exact meets_pure there
    · exact split _ _ _ f there

lemma meets_eliminateAll (each : ∀ f b call, P f → selfCall? f ctx b = some call →
      (eliminate call).Meets f (fun _ g => P g) bad) (start : P f) {bs : List BlockId} :
    (eliminateAll ctx bs report).Meets f (fun _ g => P g) bad := by
  induction bs generalizing f report with
  | nil => exact meets_pure start
  | cons b bs ih =>
    refine meets_get ?_
    cases found : selfCall? f ctx b with
    | none => exact ih start
    | some call => exact (each f b call start found).bind fun _ g there => ih there

end TailCall

namespace Inlining

lemma retains_addBlocks (add : addBlock.Retains P) {bs : List BlockId} : (addBlocks bs).Retains P := by
  induction bs with
  | nil => exact retains_pure
  | cons b bs ih => exact add.bind fun _ => ih.bind fun _ => retains_pure

lemma retains_addHandlers (add : ∀ c, (addHandler c).Retains P) {cs : List Catch} : (addHandlers cs).Retains P := by
  induction cs with
  | nil => exact retains_pure
  | cons c cs ih => exact (add c).bind fun _ => ih

lemma retains_coverBlocks (depth : ∀ b n, (modifyBlock b fun t => { t with scopeDepth := n }).Retains P)
    (cover : ∀ b hs, (setHandlers b hs).Retains P) {head : BlockId} {first outside : Nat} {outer : List Nat}
    {l : List (BlockId × BlockId)} : (coverBlocks callee head first outside outer l).Retains P := by
  induction l with
  | nil => exact retains_pure
  | cons e l ih =>
    rw [coverBlocks]
    split
    · exact (depth _ _).bind fun _ => (cover _ _).bind fun _ => ih
    · exact ih

lemma retains_jumpAll {tail : BlockId} (jump : ∀ b, (setTerminator b (.jump tail)).Retains P) {bs : List BlockId} :
    (jumpAll tail bs).Retains P := by
  induction bs with
  | nil => exact retains_pure
  | cons b bs ih => exact (jump b).bind fun _ => ih

/-- A property lasts through the edits by which a callee is expanded behind the split of the block of the call. -/
structure Endures (callee : Func) (P : Func → Prop) : Prop where
  addBlock : addBlock.Retains P
  addHandler : ∀ c, (addHandler c).Retains P
  reserve : ∀ n, (reserveRegisters n).Retains P
  store : ∀ b r x, (appendNode b (.store r x)).Retains P
  pop : ∀ b, (appendNode b (.scope .pop none)).Retains P
  copy : ∀ b v k, callee.kind? v = some k → (appendNode b k).Retains P
  merge : ∀ b is, (appendNode b (.phi is)).Retains P
  depth : ∀ b n, (modifyBlock b fun t => { t with scopeDepth := n }).Retains P
  cover : ∀ b hs, (setHandlers b hs).Retains P
  finish : ∀ (p : Placement) b c x, callee.block? c = some x → (setTerminator b (p.terminator x.terminator)).Retains P
  jump : ∀ b t, (setTerminator b (.jump t)).Retains P
  rename : ∀ (p : Placement) f v, P f → P (f.modifyKind v p.kind)
  replace : ∀ f v x, P f → P (f.replaceUses v x)
  remove : ∀ v, (removeNode v).Retains P
  trim : ∀ f, P f → P f.removeTrivialPhis.1

namespace Endures

variable (endures : Endures callee P)
include endures

lemma copyNodes {vs : List ValueId} : (copyNodes callee target vs).Retains P := by
  induction vs with
  | nil => exact retains_pure
  | cons v vs ih =>
    rw [Inlining.copyNodes]
    split
    · exact ih
    · exact ih
    · rename_i kind _ found
      exact (endures.copy target v kind found).bind fun _ => ih.bind fun _ => retains_pure

lemma copyBodies {l : List (BlockId × BlockId)} : (copyBodies callee l).Retains P := by
  induction l with
  | nil => exact retains_pure
  | cons e l ih => exact endures.copyNodes.bind fun _ => ih.bind fun _ => retains_pure

lemma endBlocks {p : Placement} {depth : Nat} {l : List (BlockId × BlockId)} :
    (endBlocks callee p depth l).Retains P := by
  induction l with
  | nil => exact retains_pure
  | cons e l ih =>
    rw [Inlining.endBlocks]
    split
    · exact ih
    · refine (TailCall.retains_popScopes (endures.pop e.2) _).bind fun _ => (endures.depth e.2 _).bind fun _ => ?_
      exact ih.bind fun _ => retains_pure
    · rename_i t _ found
      obtain ⟨t', found', rfl⟩ := Option.map_eq_some_iff.1 found
      obtain ⟨x, here, rfl⟩ := Option.map_eq_some_iff.1 found'
      exact (endures.finish p e.2 e.1 x here).bind fun _ => ih

lemma mergeResults {call : ValueId} {tail : BlockId} {results : List (BlockId × Value)} :
    (mergeResults call tail results).Retains P := by
  refine retains_get fun f start => ?_
  split
  · refine meets_of_retains ((endures.merge tail _).bind fun phi => ?_) start
    exact retains_modify fun f there => endures.replace f call _ there
  · exact meets_pure start

/-- What holds once the block of the call is split holds once the callee is expanded. -/
lemma expand {call : ReceiverCall}
    (split : (splitBlock call.block call.position).Meets f (fun _ g => P g) fun _ => True) :
    (expand call callee).Meets f (fun _ g => P g) fun _ => True := by
  refine split.bind fun tail f₁ start => meets_get (meets_get ?_)
  refine meets_of_retains ((endures.reserve _).bind fun base => ?_) start
  refine (TailCall.retains_storeAll fun e _ => endures.store _ e.1 e.2).bind fun _ => ?_
  refine (retains_addBlocks endures.addBlock).bind fun blocks => endures.copyBodies.bind fun values => ?_
  refine Retains.bind (retains_modify fun f start => ?_) fun _ => retains_get fun f start => ?_
  · exact List.foldlRecOn (motive := P) values _ start fun f there e _ => endures.rename _ f e.2 there
  refine meets_of_retains ((retains_addHandlers endures.addHandler).bind fun _ => ?_) start
  refine (retains_coverBlocks endures.depth endures.cover).bind fun _ => endures.endBlocks.bind fun results => ?_
  refine endures.mergeResults.bind fun _ => (retains_jumpAll fun b => endures.jump b tail).bind fun _ => ?_
  exact (endures.remove _).bind fun _ => (retains_modify endures.trim).bind fun _ => retains_pure

end Endures

lemma meets_expandAll (each : ∀ f v call callee, P f → ReceiverCall.ofNode? f ctx.pool v = some call →
      (candidate ctx f call).1 = some callee → (expand call callee).Meets f (fun _ g => P g) bad)
    (start : P f) {vs : List ValueId} : (expandAll ctx vs report).Meets f (fun _ g => P g) bad := by
  induction vs generalizing f report with
  | nil => exact meets_pure start
  | cons v vs ih =>
    refine meets_get ?_
    split
    · exact ih start
    · rename_i call found
      refine meets_get ?_
      have expands := each f v call
      generalize candidate ctx f call = c at expands ⊢
      obtain ⟨chosen, noticed⟩ := c
      cases chosen with
      | none => exact ih start
      | some callee => exact (expands callee start found rfl).bind fun _ g there => ih there

end Inlining

end Avm.Opt
