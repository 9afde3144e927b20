import Avm.Proofs.Ir.Inserting
import Avm.Proofs.Opt.Normalizing

/-!
# Hoisting and tail calls

Hoisting and the removal of tail calls succeed on every graph in order and leave it in order.  Hoisting
moves operators to a block before a loop, which it makes on the edge into the loop if there is none; the
removal of a tail call pads the block of the call with plain nodes (`Func.Pads`) and lets it jump to a
block without phis, which it makes on the edge from the entry if there is none.

The main statements are `Hoisting.pass_keeps` and `TailCall.pass_keeps`.
-/

namespace Avm.Ir

namespace Func

variable {f f' f'' : Func} {b t : BlockId} {v : ValueId}

/-- One graph comes of another by plain nodes that are added to a block. -/
inductive Pads (b : BlockId) (f : Func) : Func → Prop where
  | refl : Pads b f f
  | put {g : Func} {index : Nat} {kind : NodeKind} : Pads b f g → g.Fits b index kind →
    kind.isPhi = false → Pads b f (g.putNode b index kind)

lemma isSome_of_operand {x : Value} (mem : x ∈ (f.terminator b).operands) : (f.block? b).isSome := by
  by_contra none
  rw [Option.not_isSome_iff_eq_none] at none
  rw [(parts_of_isNone none).2.2.2.1] at mem
  cases mem

namespace Pads

lemma trans (h : Pads b f f') (h' : Pads b f' f'') : Pads b f f'' := by
  induction h' with
  | refl => exact h
  | put _ fits plain ih => exact ih.put fits plain

lemma sameFlow (h : Pads b f f') : SameFlow f f' := by
  induction h with
  | refl => exact SameFlow.refl f
  | put _ _ _ ih => exact ih.trans sameFlow_putNode

lemma phis (h : Pads b f f') (t : BlockId) : f'.phis t = f.phis t := by
  induction h with
  | refl => rfl
  | put _ _ plain ih => rw [phis_putNode_of_plain plain, ih]

lemma sound {stale : BlockId → Prop} {due : BlockId → List (BlockId × EdgeKind)} (h : Pads b f f')
    (live : (f.block? b).isSome) (inner : b ≠ Func.entry ∧ b ≠ Func.exit)
    (sound : Sound stale due f) : Sound stale due f' := by
  induction h with
  | refl => exact sound
  | put pads fits plain ih =>
    rw [← pads.sameFlow.isSome] at live
    exact ih.putNode live fits inner plain

lemma intact (h : Pads b f f') (live : (f.block? b).isSome)
    (inner : b ≠ Func.entry ∧ b ≠ Func.exit) (intact : Intact f) : Intact f' := by
  have same : f'.succs = f.succs := funext h.sameFlow.succs
  rw [Intact, same]
  exact h.sound live inner intact

end Pads

lemma Shaped.inner_of_mem_body (h : Shaped f) (mem : v ∈ f.body b) :
    b ≠ Func.entry ∧ b ≠ Func.exit := by
  refine ⟨?_, ?_⟩
  · rintro rfl
    rw [h.entry.2.2.1] at mem
    cases mem
  · rintro rfl
    rw [h.exit.2.2.1] at mem
    cases mem

lemma Intact.mem_succs_of_mem_preds (h : Intact f) {kind : EdgeKind} (mem : (t, kind) ∈ f.preds b) :
    (b, kind) ∈ f.succs t := by
  have count := h.linked b (isSome_of_mem_preds mem) t kind
  rw [← List.count_pos_iff] at mem ⊢
  omega

end Func

namespace Edit

lemma foldlM_yields {α β : Type} {P : Func → Prop} {step : β → α → Edit β}
    (l : List α) (each : ∀ acc, ∀ a ∈ l, ∀ f, P f → (step acc a).Yields f fun _ f' => P f') (acc : β) {f : Func}
    (h : P f) : (l.foldlM step acc).Yields f fun _ f' => P f' := by
  induction l generalizing acc f with
  | nil => exact yields_pure h
  | cons a l ih =>
    exact (each acc a List.mem_cons_self f h).bind fun acc f' h' =>
      ih (fun acc a mem => each acc a (List.mem_cons_of_mem _ mem)) acc h'

end Edit

end Avm.Ir

namespace Avm.Opt

open Avm.Ir Avm.Ir.Func Avm.Ir.Edit

variable {f f' : Func} {m : MethodId} {b : BlockId}

namespace Hoisting

variable {l : List BlockId} {e : Entrance}

lemma entrance?_eq_some_iff : entrance? f l = some e ↔ entrances f l = [e] ∧ e.kind ≠ .raise := by
  rw [entrance?]
  split
  · rename_i d only
    rw [only, List.cons_eq_cons, and_iff_left rfl]
    split
    · rename_i raise
      refine iff_of_false nofun fun both => both.2 ?_
      rw [← both.1, raise]
    · rename_i normal
      rw [Option.some.injEq]
      constructor
      · rintro rfl
        exact ⟨rfl, normal⟩
      · exact fun both => both.1
  · rename_i more
    exact iff_of_false nofun fun both => more e both.1

lemma mem_entrances : e ∈ entrances f l ↔ e.header ∈ l ∧ (e.source, e.kind) ∈ f.preds e.header ∧
    (Graph.Marks.ofList f.blocks.size l).has e.source = false := by
  rw [entrances, List.mem_flatMap]
  simp only [List.mem_map, List.mem_filter, Bool.not_eq_true']
  constructor
  · rintro ⟨b, here, edge, both, rfl⟩
    exact ⟨here, both⟩
  · exact fun both => ⟨e.header, both.1, (e.source, e.kind), both.2, rfl⟩

/-- The edge by which a loop is entered leads to a block of the loop from one that is not known to be in it. -/
lemma mem_entrances_of_entrance? (found : entrance? f l = some e) : e ∈ entrances f l := by
  rw [(entrance?_eq_some_iff.1 found).1]
  exact List.mem_singleton_self e

lemma entrance_edge (h : f.Intact) (found : entrance? f l = some e) :
    (e.header, e.kind) ∈ f.succs e.source ∧ e.kind ≠ .raise :=
  ⟨h.mem_succs_of_mem_preds (mem_entrances.1 (mem_entrances_of_entrance? found)).2.1, (entrance?_eq_some_iff.1 found).2⟩

/-- A node may be moved: it is no phi, and its block is there. -/
def Movable (f : Func) (v : ValueId) : Prop :=
  f.inputs? v = none ∧ ∃ b, (f.node? v).map (·.block) = some b ∧ (f.block? b).isSome

lemma movable_of_mem_body {v : ValueId} (h : f.Listed) (mem : v ∈ f.body b) : Movable f v :=
  ⟨h.plain b v mem, b, h.owned b v (List.mem_append_right _ mem),
    isSome_of_mem_nodesOf (List.mem_append_right _ mem)⟩

lemma Movable.moveTo {v w : ValueId} {source : BlockId} {index : Nat} (h : Movable f v)
    (live : (f.block? b).isSome) : Movable (f.moveTo w source b index) v := by
  obtain ⟨plain, t, owner, there⟩ := h
  rw [Movable, inputs?_moveTo, node?_moveTo]
  simp only [sameFlow_moveTo.isSome]
  refine ⟨plain, ?_⟩
  split
  · obtain ⟨n, found, -⟩ := Option.map_eq_some_iff.1 owner
    exact ⟨b, by rw [found]; rfl, live⟩
  · exact ⟨t, owner, there⟩

lemma mem_invariantLoop {written : List Nat} {candidates known : List ValueId} {fuel : Nat}
    {v : ValueId} (sub : ∀ w ∈ known, w ∈ candidates)
    (mem : v ∈ invariantLoop f l written candidates fuel known) : v ∈ candidates := by
  have step (known : List ValueId) (sub : ∀ w ∈ known, w ∈ candidates) :
      ∀ w ∈ invariantStep f l written candidates known, w ∈ candidates := by
    rw [invariantStep]
    refine List.foldlRecOn (motive := fun known => ∀ w ∈ known, w ∈ candidates) candidates _ sub
      fun known sub v there => ?_
    dsimp only
    split
    · intro w mem
      obtain old | new := List.mem_append.1 mem
      · exact sub w old
      · rwa [List.mem_singleton.1 new]
    · exact sub
  induction fuel generalizing known with
  | zero => exact sub v mem
  | succ fuel ih =>
    rw [invariantLoop] at mem
    split at mem
    · exact sub v mem
    · exact ih (step known sub) mem

lemma movable_of_mem_invariants {v : ValueId} (h : f.Listed) (mem : v ∈ invariants f l) :
    Movable f v := by
  have candidate : v ∈ operators f l := mem_invariantLoop (fun _ none => by cases none) mem
  obtain ⟨b, -, mem⟩ := List.mem_flatMap.1 (List.mem_of_mem_filter candidate)
  exact movable_of_mem_body h mem

lemma preheader_yields (h : f.Intact) (found : entrance? f l = some e) :
    (preheader e).Yields f fun target f' => f'.Intact ∧ (f'.block? target).isSome ∧
      (target ≠ Func.entry ∧ target ≠ Func.exit) ∧ ∀ v, Movable f v → Movable f' v := by
  obtain ⟨edge, normal⟩ := entrance_edge h found
  rw [preheader]
  refine yields_get ?_
  split
  · rename_i alone
    rw [Bool.and_eq_true, bne_iff_ne] at alone
    refine yields_pure ⟨h, isSome_of_mem_succs edge, ⟨alone.1, ?_⟩, fun _ movable => movable⟩
    intro same
    rw [same, h.succs_exit] at edge
    cases edge
  · refine ⟨_, _, splitEdge_eq_ok h edge normal, h.onEdge edge normal, ?_, h.size_ne, ?_⟩
    · rw [isSome_onEdge, decide_eq_true rfl, Bool.true_or]
    · rintro v ⟨plain, b, owner, live⟩
      refine ⟨?_, b, frame_onEdge.1.trans owner, ?_⟩
      · rw [← Option.isNone_iff_eq_none, ← Option.not_isSome, frame_onEdge.2, plain]
        rfl
      · rw [isSome_onEdge, live, Bool.or_true]

lemma moveAll_yields {header target : BlockId} (vs : List ValueId) (report : Report) (h : f.Intact)
    (live : (f.block? target).isSome) (inner : target ≠ Func.entry ∧ target ≠ Func.exit)
    (movable : ∀ v ∈ vs, Movable f v) :
    (moveAll m header target vs report).Yields f fun _ f' => f'.Intact := by
  induction vs generalizing f report with
  | nil => exact yields_pure h
  | cons v vs ih =>
    obtain ⟨plain, b, owner, there⟩ := movable v List.mem_cons_self
    obtain ⟨n, found, rfl⟩ := Option.map_eq_some_iff.1 owner
    have noPhi : n.kind.isPhi = false := by
      rw [inputs?_eq, found, Option.bind_some] at plain
      cases kind : n.kind with
      | phi inputs => simp [kind, NodeKind.inputs?] at plain
      | _ => rfl
    rw [moveAll]
    refine yields_get (yields_bind (a := ())
      (moveNode_eq_ok.2 ⟨n, found, noPhi, there, live, rfl⟩) (ih _ ?_ ?_ fun w mem => ?_))
    · have same : (f.moveTo v n.block target (f.body target).length).succs = f.succs :=
        funext sameFlow_moveTo.succs
      rw [Intact, same]
      exact h.moveTo found noPhi live inner
    · rw [sameFlow_moveTo.isSome]
      exact live
    · exact (movable w (List.mem_cons_of_mem _ mem)).moveTo live

lemma hoist_yields (h : f.Intact) : (hoist m l).Yields f fun _ f' => f'.Intact := by
  refine yields_iff_meets.2 (meets_hoist (fun _ => h) fun e found _ _ => yields_iff_meets.1 ?_)
  refine (preheader_yields h found).bind ?_
  rintro target f₁ ⟨h₁, live, inner, kept⟩
  exact moveAll_yields _ {} h₁ live inner fun w mem => kept w (movable_of_mem_invariants h.toListed mem)

lemma pass_keeps : pass.Keeps := fun _ _ h =>
  yields_get (yields_iff_meets.2 (meets_hoistAll (fun _ _ start => yields_iff_meets.1 (hoist_yields start)) h))

end Hoisting

namespace TailCall

lemma storeAll_yields (l : List (Nat × Value)) (live : (f.block? b).isSome) :
    (storeAll b l).Yields f fun _ f' => Pads b f f' := by
  induction l generalizing f with
  | nil => exact yields_pure .refl
  | cons e l ih =>
    have one : Pads b f (f.putNode b (f.place b (.store e.1 e.2)) (.store e.1 e.2)) :=
      Pads.refl.put fits_place rfl
    have there := one.sameFlow.isSome b
    rw [live] at there
    rw [storeAll]
    refine yields_bind (appendNode_eq_ok.2 ⟨live, rfl, rfl⟩) ?_
    exact (ih there).imp fun _ f' more => one.trans more

lemma popScopes_yields (n : Nat) (live : (f.block? b).isSome) :
    (popScopes b n).Yields f fun _ f' => Pads b f f' := by
  induction n generalizing f with
  | zero => exact yields_pure .refl
  | succ n ih =>
    have one : Pads b f (f.putNode b (f.place b (.scope .pop none)) (.scope .pop none)) :=
      Pads.refl.put fits_place rfl
    have there := one.sameFlow.isSome b
    rw [live] at there
    rw [popScopes]
    refine yields_bind (appendNode_eq_ok.2 ⟨live, rfl, rfl⟩) ?_
    exact (ih there).imp fun _ f' more => one.trans more

lemma saveArgs_yields {targets : List Nat} (args : List Value) {position : Nat}
    (live : (f.block? b).isSome) (fits : position ≤ (f.body b).length) :
    (saveArgs b targets position args).Yields f fun _ f' => Pads b f f' := by
  induction args generalizing f position with
  | nil => exact yields_pure .refl
  | cons v args ih =>
    rw [saveArgs]
    refine yields_get ?_
    split
    · have one : Pads b f (f.putNode b position (.copy v)) := Pads.refl.put fits rfl
      have there := one.sameFlow.isSome b
      rw [live] at there
      have room : position + 1 ≤ ((f.putNode b position (.copy v)).body b).length := by
        rw [(lists_putNode_self live).2, if_neg (by simp [NodeKind.isPhi]),
          List.length_insertIdx_of_le_length fits]
        omega
      refine yields_bind (insertNode_eq_ok.2 ⟨live, fits, rfl, rfl⟩) ?_
      exact (ih there room).bind fun _ f' more => yields_pure (one.trans more)
    · exact (ih live fits).bind fun _ f' more => yields_pure more

lemma start_yields (h : f.Intact) : start.Yields f fun target f' => f'.Intact ∧
    (f'.block? target).isSome ∧ target ≠ Func.entry ∧ f'.phis target = [] ∧
      ∀ t, (f.block? t).isSome → (f'.block? t).isSome := by
  obtain ⟨first, goes⟩ := h.start
  have edges : f.succs Func.entry = [(first, .fallthrough)] := by
    rw [h.wired Func.entry id, edgesOf_eq, goes, h.entry.2.2.2]
    rfl
  have edge : (first, .fallthrough) ∈ f.succs Func.entry := by
    rw [edges]
    exact List.mem_singleton_self _
  rw [start]
  refine yields_get ?_
  rw [edges]
  dsimp only
  split
  · rename_i none
    refine yields_pure ⟨h, h.live _ _ edge, h.target_ne_entry edge (by decide), ?_, fun _ live => live⟩
    exact List.isEmpty_iff.1 none
  · refine ⟨_, _, splitEdge_eq_ok h edge (by decide), h.onEdge edge (by decide), ?_, h.size_ne.1, ?_, ?_⟩
    · rw [isSome_onEdge, decide_eq_true rfl, Bool.true_or]
    · rw [phis_onEdge, (parts_of_isNone block?_size).1]
    · intro t live
      rw [isSome_onEdge, live, Bool.or_true]

lemma exists_of_ofNode? {pool : Pool} {v : ValueId} {call : ReceiverCall}
    (found : ReceiverCall.ofNode? f pool v = some call) : call.id = v ∧ ∃ opcode index x,
      f.node? v = some ⟨.call opcode index call.args.length (call.receiver :: call.args), call.block⟩ ∧
        ReceiverCall.dispatch? pool opcode index = some call.dispatch ∧ f.block? call.block = some x ∧
          x.body.findIdx? (· == v) = some call.position ∧
            call.onReceiver = ReceiverCall.isOwnReceiver f call.receiver := by
  simp only [ReceiverCall.ofNode?, Option.bind_eq_bind, Option.bind_eq_some_iff] at found
  obtain ⟨⟨kind, b⟩, there, found⟩ := found
  split at found
  · rename_i opcode index count operands same
    obtain ⟨dispatch, named, found⟩ := Option.bind_eq_some_iff.1 found
    split at found
    · cases found
    · rename_i receiver args _
      obtain ⟨_, full, found⟩ := Option.bind_eq_some_iff.1 found
      obtain ⟨x, here, found⟩ := Option.bind_eq_some_iff.1 found
      obtain ⟨position, at_, found⟩ := Option.bind_eq_some_iff.1 found
      cases found
      obtain rfl := (Option.guard_eq_some' _).1 full
      obtain rfl : kind = _ := same
      exact ⟨rfl, opcode, index, x, there, named, here, at_, rfl⟩
  · cases found

lemma call_block {pool : Pool} {v : ValueId} {call : ReceiverCall}
    (found : ReceiverCall.ofNode? f pool v = some call) :
    (f.block? call.block).isSome ∧ call.position < (f.body call.block).length := by
  obtain ⟨-, _, _, x, -, -, here, at_, -⟩ := exists_of_ofNode? found
  rw [body_of_block? here, here]
  exact ⟨rfl, (List.findIdx?_eq_some_iff_getElem.1 at_).1⟩

lemma call_inner (h : f.Shaped) {call : ReceiverCall}
    (place : call.position < (f.body call.block).length) :
    call.block ≠ Func.entry ∧ call.block ≠ Func.exit :=
  h.inner_of_mem_body (List.getElem_mem place)

lemma eliminate_yields {call : ReceiverCall} (h : f.Intact) (live : (f.block? call.block).isSome)
    (place : call.position < (f.body call.block).length) :
    (eliminate call).Yields f fun _ f' => f'.Intact := by
  have inner := call_inner h.toShaped place
  rw [eliminate]
  refine yields_get ((saveArgs_yields _ live place.le).bind fun args f₁ saved => ?_)
  have h₁ := (Trims.refl.drop call.id).intact (saved.intact live inner h)
  have live₁ : ((f₁.dropNode call.id).block? call.block).isSome := by
    rwa [sameFlow_dropNode.isSome, saved.sameFlow.isSome]
  refine yields_bind (removeNode_eq_ok.2 ⟨rfl, rfl⟩) ?_
  refine (storeAll_yields _ live₁).bind fun _ f₂ stored => ?_
  have live₂ : (f₂.block? call.block).isSome := by rwa [stored.sameFlow.isSome]
  refine (storeAll_yields _ live₂).bind fun _ f₃ reset => ?_
  have live₃ : (f₃.block? call.block).isSome := by rwa [reset.sameFlow.isSome]
  refine yields_get ((popScopes_yields _ live₃).bind fun _ f₄ popped => ?_)
  have live₄ : (f₄.block? call.block).isSome := by rwa [popped.sameFlow.isSome]
  have h₄ := ((stored.trans reset).trans popped).intact live₁ inner h₁
  refine yields_modifyBlock live₄ ?_
  have h₅ := (Trims.refl.alike (alike_scopeDepth (b := call.block) fun _ => 0)).intact h₄
  refine (start_yields h₅).bind ?_
  rintro target f₆ ⟨h₆, there, inside, none, kept⟩
  have live₆ : (f₆.block? call.block).isSome := kept _ (by rwa [isSome_block?_modifyBlock])
  refine yields_bind (a := ()) (setTerminator_eq_ok.2 ⟨fun e mem => ?_, live₆, rfl⟩) (yields_pure ?_)
  · rw [List.mem_singleton.1 mem]
    exact there
  · refine h₆.reend live₆ inner.2 (fun same => absurd same inner.1) fun e mem => ?_
    rw [List.mem_singleton.1 mem]
    exact ⟨there, inside, .inl none⟩

lemma selfCall?_eq_some_iff {ctx : Context} {call : ReceiverCall} :
    selfCall? f ctx b = some call ↔ ∃ v, f.handlersOf b = [] ∧
    f.terminator b = .leave (some (.node v)) ∧ (f.body b).getLast? = some v ∧ f.useCount v = 1 ∧
      ReceiverCall.ofNode? f ctx.pool v = some call ∧ (call.onReceiver ∧ call.args.length = f.params) ∧
        call.target? ctx.env f.method = some f.method := by
  constructor
  · intro found
    simp only [selfCall?, Option.bind_eq_bind, Option.bind_eq_some_iff] at found
    obtain ⟨x, here, _, bare, found⟩ := found
    split at found
    · rename_i v ending
      obtain ⟨_, last, found⟩ := Option.bind_eq_some_iff.1 found
      obtain ⟨_, once, found⟩ := Option.bind_eq_some_iff.1 found
      obtain ⟨d, node, found⟩ := Option.bind_eq_some_iff.1 found
      obtain ⟨_, own, found⟩ := Option.bind_eq_some_iff.1 found
      obtain ⟨_, target, found⟩ := Option.bind_eq_some_iff.1 found
      cases found
      rw [handlersOf_of_block? here, terminator_of_block? here, body_of_block? here]
      exact ⟨v, List.isEmpty_iff.1 ((Option.guard_eq_some' _).1 bare), ending, (Option.guard_eq_some' _).1 last,
        (Option.guard_eq_some' _).1 once, node, (Option.guard_eq_some' _).1 own, (Option.guard_eq_some' _).1 target⟩
    · cases found
  · rintro ⟨v, bare, ends, last, once, node, own, target⟩
    have operand : Value.node v ∈ (f.terminator b).operands := by
      rw [ends]
      exact List.mem_singleton_self _
    obtain ⟨x, here⟩ := Option.isSome_iff_exists.1 (isSome_of_operand operand)
    rw [handlersOf_of_block? here] at bare
    rw [terminator_of_block? here] at ends
    rw [body_of_block? here] at last
    simp [selfCall?, here, Block.isUnprotected, bare, ends, last, once, node, own, target]

lemma pass_keeps : pass.Keeps := by
  refine fun _ _ h => yields_get (yields_iff_meets.2 (meets_eliminateAll (fun f b call start found => ?_) h))
  obtain ⟨v, -, -, -, -, node, -⟩ := selfCall?_eq_some_iff.1 found
  obtain ⟨live, place⟩ := call_block node
  exact yields_iff_meets.1 (eliminate_yields start live place)

end TailCall

end Avm.Opt
