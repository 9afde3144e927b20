import Avm.Proofs.Ir.Scoping
import Avm.Proofs.Opt.Looping
import Avm.Proofs.Opt.Steadiness

/-!
# Scopes in loops

Hoisting moves operators only, which leave the scope stack alone, to the end of a block that is there or
is put on an edge.  A tail call leaves all scopes of its block before it jumps to the start of the method,
which is entered without a scope.

The main statements are `Hoisting.pass_scopes` and `TailCall.pass_scopes`.
-/

namespace Avm.Ir

namespace Edit

variable {α : Type} {x : Edit α} {f : Func} {P Q : α → Func → Prop} {bad : Fault → Prop}

lemma Meets.also (h : x.Meets f P bad) (also : x.Yields f Q) :
    x.Meets f (fun a f' => P a f' ∧ Q a f') bad := by
  obtain ⟨a, f', run, done⟩ := also
  refine meets_of_forall (fun b g there => ?_) fun e g there => h.of_error there
  obtain ⟨rfl, rfl⟩ := EStateM.Result.ok.inj (there.symm.trans run)
  exact ⟨h.of_ok there, done⟩

end Edit

namespace Func

variable {f : Func} {b source target : BlockId} {v : ValueId} {k : NodeKind}

lemma turn_onEdge {kind : EdgeKind} {depth : Nat} :
    (f.onEdge source target kind depth).turn v = f.turn v := by
  refine turn_congr ?_
  rw [onEdge, shape?_reend, enteredEdge, shape?_reend, preparedEdge, shape?_modifyPhis, shape?_beside]

/-- The graph is in order, with its scopes. -/
structure Kept (f : Func) : Prop where
  intact : f.Intact
  scopes : f.Scoped

lemma Kept.onEdge {kind : EdgeKind} (h : f.Kept) (edge : (target, kind) ∈ f.succs source)
    (normal : kind ≠ .raise) : (f.onEdge source target kind (f.scopeDepth source)).Kept :=
  ⟨h.intact.onEdge edge normal, h.scopes.onEdge h.intact edge normal⟩

end Func

end Avm.Ir

namespace Avm.Opt

open Avm.Ir Avm.Ir.Func Avm.Ir.Edit

variable {f f' : Func} {m : MethodId} {b : BlockId} {ctx : Context}

/-- The optimization keeps the graph and its scopes in order. -/
def Pass.Scopes (p : Pass) : Prop := ∀ ctx, (p.run ctx).Retains Func.Kept

lemma Pass.scopes_of_lessens {p : Pass} (keeps : p.Keeps) (lessens : p.Lessens) : p.Scopes := by
  refine fun ctx => retains_of_run fun f report f' start run => ?_
  obtain ⟨_, g, run', intact⟩ := keeps ctx f start.intact
  obtain ⟨rfl, rfl⟩ := EStateM.Result.ok.inj (run.symm.trans run')
  have less := (lessens ctx f).of_ok ⟨.refl f, start.intact.toListed⟩ run
  exact ⟨intact, less.toSteady.scoped start.scopes intact⟩

namespace Hoisting

variable {l : List BlockId} {e : Entrance}

lemma turn_of_mem_invariants {v : ValueId} (mem : v ∈ invariants f l) : f.turn v = .still := by
  have candidate : v ∈ operators f l := mem_invariantLoop (fun _ none => by cases none) mem
  have chosen := (List.mem_filter.1 candidate).2
  split at chosen
  · rename_i here
    exact turn_of_kind? here
  · rename_i here
    exact turn_of_kind? here
  · cases chosen

lemma preheader_scoped (h : f.Kept) (found : entrance? f l = some e) :
    (preheader e).Meets f (fun target f' => f'.Kept ∧ (target ≠ Func.entry ∧ target ≠ Func.exit) ∧
      ∀ v, f'.turn v = f.turn v) fun _ => True := by
  obtain ⟨edge, normal⟩ := entrance_edge h.intact found
  refine meets_of_forall (fun target f' run => ?_) fun _ _ _ => trivial
  rw [preheader, Edit.bind_eq_ok] at run
  obtain ⟨_, _, got, run⟩ := run
  obtain ⟨rfl, rfl⟩ := get_eq_ok.1 got
  split at run
  · rename_i alone
    obtain ⟨rfl, rfl⟩ := Edit.pure_eq_ok.1 run
    rw [Bool.and_eq_true, bne_iff_ne] at alone
    refine ⟨h, ⟨alone.1, fun same => ?_⟩, fun _ => rfl⟩
    rw [same, h.intact.succs_exit] at edge
    cases edge
  · rw [splitEdge_eq_ok h.intact edge normal] at run
    obtain ⟨rfl, rfl⟩ := EStateM.Result.ok.inj run
    exact ⟨h.onEdge edge normal, h.intact.size_ne, fun _ => turn_onEdge⟩

lemma moveAll_scoped {header target : BlockId} (vs : List ValueId) (report : Report) (h : f.Kept)
    (inner : target ≠ Func.entry ∧ target ≠ Func.exit) (still : ∀ v ∈ vs, f.turn v = .still) :
    (moveAll m header target vs report).Meets f (fun _ f' => f'.Kept) fun _ => True := by
  induction vs generalizing f report with
  | nil => exact meets_pure h
  | cons v vs ih =>
    refine meets_get (Meets.bind (P := fun _ f' => f'.Kept ∧ ∀ v, f'.turn v = f.turn v) ?_ ?_)
    · refine meets_of_forall (fun _ f' run => ?_) fun _ _ _ => trivial
      obtain ⟨n, found, plain, -, live, rfl⟩ := moveNode_eq_ok.1 run
      have steady : Steady f (f.moveTo v n.block target (f.body target).length) :=
        Steady.moveTo (still v List.mem_cons_self) (Nat.le_refl _)
      have intact : (f.moveTo v n.block target (f.body target).length).Intact := by
        rw [Intact, funext sameFlow_moveTo.succs]
        exact h.intact.moveTo found plain live inner
      exact ⟨⟨intact, steady.scoped h.scopes intact⟩, fun w => turn_congr shape?_moveTo⟩
    · rintro _ f' ⟨h', same⟩
      refine ih _ h' fun w mem => ?_
      rw [same]
      exact still w (List.mem_cons_of_mem _ mem)

lemma hoist_scoped : (hoist m l).Retains Func.Kept := by
  refine fun f h => meets_hoist (fun _ => h) fun e found _ _ => (preheader_scoped h found).bind ?_
  rintro target f₁ ⟨h₁, inner, same⟩
  refine moveAll_scoped _ {} h₁ inner fun v mem => ?_
  rw [same]
  exact turn_of_mem_invariants mem

lemma pass_scopes : pass.Scopes := fun _ => retains_get fun _ start => meets_hoistAll (fun _ => hoist_scoped) start

end Hoisting

namespace TailCall

/-- A graph in order with a block that leads nowhere. -/
structure Leaving (b : BlockId) (f : Func) : Prop extends Func.Kept f where
  out : ∃ o, f.outline b = some o ∧ o.targets = []

lemma Leaving.live (h : Leaving b f) : (f.block? b).isSome := by
  obtain ⟨o, here, -⟩ := h.out
  exact (outline_eq_some.1 here).1

lemma Leaving.putNode {index : Nat} {k : NodeKind} (h : Leaving b f) (fits : f.Fits b index k)
    (inner : b ≠ Func.entry ∧ b ≠ Func.exit) (plain : k.isPhi = false) (still : k.turn = .still)
    (behind : ∀ o, f.outline b = some o → o.turns.head? = some .catches → index ≠ 0) :
    Leaving b (f.putNode b index k) := by
  obtain ⟨o, here, out⟩ := h.out
  have intact := (Pads.refl.put fits plain).intact h.live inner h.intact
  refine ⟨⟨intact, h.scopes.putNode h.intact.toListed here still fun head _ => behind o here head⟩, ?_⟩
  refine ⟨{ o with turns := o.turns.insertIdx index k.turn }, ?_, out⟩
  rw [outline_putNode h.intact.toListed, if_pos ⟨rfl, plain⟩, here]
  rfl

lemma Leaving.dropNode {v : ValueId} (h : Leaving b f) (still : f.turn v = .still) :
    Leaving b (f.dropNode v) := by
  have steady := Steady.dropNode still
  have intact := (Trims.refl.drop v).intact h.intact
  obtain ⟨o, here, out⟩ := h.out
  have live : ((f.dropNode v).block? b).isSome := by rw [sameFlow_dropNode.isSome, h.live]
  obtain ⟨o', there⟩ := exists_outline live
  obtain ⟨o₁, here', within⟩ := steady.outline b o' there
  obtain rfl := Option.some.inj (here.symm.trans here')
  refine ⟨⟨intact, steady.scoped h.scopes intact⟩, o', there, ?_⟩
  rw [← List.subset_nil, ← out]
  exact within.targets

lemma storeAll_kept {s : BlockId} {l : List (Nat × Value)} (h : f.Kept) (live : (f.block? b).isSome)
    (inner : b ≠ Func.entry ∧ b ≠ Func.exit) : (storeAll b l).Meets f (fun _ f' => f'.Kept ∧
      Reshapes [(s, b)] (fun _ o => { o with turns := o.turns ++ List.replicate l.length .still }) f f')
      fun _ => True := by
  induction l generalizing f with
  | nil =>
    refine meets_pure ⟨h, (Reshapes.of_same h.intact.toListed rfl rfl (fun v there => ⟨there, rfl⟩)
      fun _ => rfl).congr fun e _ => funext fun o => ?_⟩
    rw [List.length_nil, List.replicate_zero, List.append_nil]
    rfl
  | cons e l ih =>
    refine Meets.bind (P := fun _ f' => f'.Kept ∧ Reshapes [(s, b)]
      (fun _ o => { o with turns := o.turns ++ [.still] }) f f') ?_ ?_
    · refine meets_of_forall (fun _ f' run => ?_) fun _ _ _ => trivial
      obtain ⟨-, -, rfl⟩ := appendNode_eq_ok.1 run
      refine ⟨⟨?_, h.scopes.append h.intact.toListed live rfl⟩, ?_⟩
      · exact (Pads.refl.put fits_place rfl).intact live inner h.intact
      · exact reshapes_putNode (k := .store e.1 e.2) h.intact.toListed live
    · rintro _ f₁ ⟨h₁, one⟩
      refine (ih h₁ (by rw [one.isSome, live])).imp (fun _ f' done => ⟨done.1, ?_⟩) fun _ _ => trivial
      refine (one.comp done.2).congr fun e _ => funext fun o => ?_
      simp only [Function.comp_apply, List.append_assoc, List.length_cons, List.replicate_succ,
        List.singleton_append]

lemma storeAll_leaving {l : List (Nat × Value)} (inner : b ≠ Func.entry ∧ b ≠ Func.exit) :
    (storeAll b l).Retains (Leaving b) := by
  intro f start
  obtain ⟨o, here, out⟩ := start.out
  refine (storeAll_kept (s := b) start.toKept start.live inner).imp (fun _ f' done => ?_) fun _ _ => trivial
  refine ⟨done.1, { o with turns := o.turns ++ List.replicate l.length .still }, ?_, out⟩
  rw [done.2.each _ List.mem_cons_self, here]
  rfl

lemma saveArgs_leaving {targets : List Nat} {position : Nat} {v : ValueId} (args : List Value)
    (inner : b ≠ Func.entry ∧ b ≠ Func.exit) (h : Leaving b f)
    (there : (f.node? v).isSome ∧ f.turn v = .still)
    (behind : ∀ o, f.outline b = some o → o.turns.head? = some .catches → position ≠ 0) :
    (saveArgs b targets position args).Meets f
      (fun _ f' => Leaving b f' ∧ f'.turn v = .still) fun _ => True := by
  induction args generalizing f position with
  | nil => exact meets_pure ⟨h, there.2⟩
  | cons a args ih =>
    refine meets_get ?_
    split
    · refine Meets.bind (P := fun _ f' => Leaving b f' ∧ (f'.node? v).isSome ∧ f'.turn v = .still)
        (meets_of_forall (fun _ f' run => ?_) fun _ _ _ => trivial) ?_
      · obtain ⟨-, fits, -, rfl⟩ := insertNode_eq_ok.1 run
        refine ⟨h.putNode fits inner rfl rfl behind, ?_, ?_⟩
        · rw [node?_putNode_of_isSome there.1, there.1]
        · rw [turn_putNode, if_neg (lt_size_of_node? there.1).ne, there.2]
      · rintro _ f' ⟨h', there'⟩
        exact (ih h' there' fun _ _ _ => Nat.succ_ne_zero _).bind fun _ f₁ h₁ => meets_pure h₁
    · exact (ih h there behind).bind fun _ f₁ h₁ => meets_pure h₁

lemma popScopes_reshapes {s : BlockId} (count : Nat) (h : f.Listed) (live : (f.block? b).isSome) :
    (popScopes b count).Meets f (fun _ f' => Reshapes [(s, b)]
      (fun _ o => { o with turns := o.turns ++ List.replicate count .leaves }) f f') fun _ => True := by
  induction count generalizing f with
  | zero =>
    refine meets_pure ((Reshapes.of_same h rfl rfl (fun v there => ⟨there, rfl⟩) fun _ => rfl).congr ?_)
    intro e _
    funext o
    rw [List.replicate_zero, List.append_nil]
    rfl
  | succ count ih =>
    refine Meets.bind (P := fun _ f' => Reshapes [(s, b)]
      (fun _ o => { o with turns := o.turns ++ [.leaves] }) f f') ?_ fun _ f₁ one => ?_
    · refine meets_of_forall (fun _ f' run => ?_) fun _ _ _ => trivial
      obtain ⟨-, -, rfl⟩ := appendNode_eq_ok.1 run
      exact reshapes_putNode (k := .scope .pop none) h live
    refine (ih one.listed (by rw [one.isSome, live])).imp (fun _ f' rest => ?_) fun _ _ => trivial
    refine (one.comp rest).congr fun e _ => funext fun o => ?_
    simp only [Function.comp_apply, List.append_assoc, List.replicate_succ, List.singleton_append]

lemma Leaving.unwind (h : Leaving b f) (inner : b ≠ Func.entry ∧ b ≠ Func.exit) (pads : Pads b f f')
    (popped : Reshapes [(b, b)] (fun _ o =>
      { o with turns := o.turns ++ List.replicate (f.scopeDepth b) .leaves }) f f') :
    Leaving b (f'.modifyBlock b fun x => { x with scopeDepth := 0 }) ∧
      (f'.modifyBlock b fun x => { x with scopeDepth := 0 }).scopeDepth b = 0 := by
  obtain ⟨o, here, out⟩ := h.out
  have intact := (Trims.refl.alike (alike_scopeDepth (b := b) fun _ => 0)).intact
    (pads.intact h.live inner h.intact)
  have changed (t) : (f'.modifyBlock b fun x => { x with scopeDepth := 0 }).outline t = if t = b then
      some ⟨o.turns ++ List.replicate o.depth .leaves, 0, o.targets⟩ else f.outline t := by
    rw [outline_setDepth]
    split
    · rename_i same
      rw [same, popped.each _ List.mem_cons_self, here, scopeDepth_of_outline here]
      rfl
    · rename_i other
      exact popped.other t (by simpa using other)
  have agrees := h.scopes.blocks b o here
  have catches (mem : .catches ∈ o.turns ++ List.replicate o.depth .leaves) : .catches ∈ o.turns := by
    obtain mem | mem := List.mem_append.1 mem
    · exact mem
    · cases List.eq_of_mem_replicate mem
  have starts (d) (start : o.Starts d) :
      Outline.Starts ⟨o.turns ++ List.replicate o.depth .leaves, 0, o.targets⟩ d := by
    have left := Turn.walk_leaves (d := 0) (n := o.depth)
    rw [Nat.zero_add] at left
    rw [Outline.Starts, Turn.walk_append, start]
    exact left
  have ended := (changed b).trans (if_pos rfl)
  refine ⟨⟨⟨intact, ?_⟩, _, ended, out⟩, scopeDepth_of_outline ended⟩
  refine h.scopes.update pads.sameFlow.catches ?_ here changed (fun _ => rfl) starts fun _ => ?_
  · exact (alike_scopeDepth (b := b) fun _ => 0).toSameFlow.size.trans pads.sameFlow.size
  · obtain ⟨d, start⟩ := agrees.starts
    refine ⟨⟨d, starts d start⟩, fun mem => agrees.late ?_, fun mem => ?_, fun t mem => ?_⟩
    · generalize o.turns = l at mem ⊢
      cases l with
      | nil => cases List.eq_of_mem_replicate (List.mem_of_mem_tail mem)
      | cons t l =>
        obtain mem | mem := List.mem_append.1 mem
        · exact mem
        · cases List.eq_of_mem_replicate mem
    · exact (handles_congr pads.sameFlow.catches).2 (agrees.caught (catches mem))
    · dsimp only at mem
      rw [out] at mem
      cases mem

lemma start_leaving (h : Leaving b f) (inner : b ≠ Func.entry) : start.Meets f (fun target f' =>
    (Leaving b f' ∧ f'.scopeDepth b = f.scopeDepth b) ∧
      (target ≠ Func.exit → f'.Enters target 0 ∧ ¬f'.Handles target)) fun _ => True := by
  obtain ⟨first, goes⟩ := h.intact.start
  have edges : f.succs Func.entry = [(first, .fallthrough)] := by
    rw [h.intact.wired Func.entry id, edgesOf_eq, goes, h.intact.entry.2.2.2]
    rfl
  have edge : (first, .fallthrough) ∈ f.succs Func.entry := by
    rw [edges]
    exact List.mem_singleton_self _
  obtain ⟨o, here⟩ := exists_outline h.intact.entry.1
  have zero : o.depth = 0 := by rw [← scopeDepth_of_outline here, h.scopes.start]
  refine meets_get ?_
  rw [edges]
  dsimp only
  split
  · refine meets_pure ⟨⟨h, rfl⟩, fun inside => ?_⟩
    rw [← zero]
    refine (h.scopes.blocks _ o here).next first ?_ inside
    obtain ⟨-, rfl⟩ := outline_eq_some.1 here
    rw [goes]
    exact List.mem_singleton_self _
  · refine meets_of_forall (fun target f' run => ?_) fun _ _ _ => trivial
    rw [splitEdge_eq_ok h.intact edge (by decide)] at run
    obtain ⟨rfl, rfl⟩ := EStateM.Result.ok.inj run
    have live : (f.block? Func.entry).isSome := h.intact.entry.1
    obtain ⟨o', there, out⟩ := h.out
    have kept := h.toKept.onEdge edge (by decide)
    have same : (f.onEdge Func.entry first .fallthrough (f.scopeDepth Func.entry)).outline b =
        f.outline b := by
      rw [outline_onEdge live, if_neg (size_ne_of_isSome h.live), if_neg inner]
    refine ⟨⟨⟨kept, o', same.trans there, out⟩, ?_⟩, fun _ => ⟨?_, ?_⟩⟩
    · rw [scopeDepth_eq, same, ← scopeDepth_eq]
    · rw [Enters, outline_onEdge live, if_pos rfl, h.scopes.start]
      exact ⟨_, rfl, rfl⟩
    · refine (handles_congr ?_).not.2 h.scopes.not_handles_size
      rw [catches_onEdge]

lemma call_node {pool : Pool} {v : ValueId} {call : ReceiverCall}
    (found : ReceiverCall.ofNode? f pool v = some call) :
    call.id = v ∧ (f.node? v).isSome ∧ f.turn v = .still ∧ (f.body call.block)[call.position]? = some v := by
  obtain ⟨id, opcode, index, x, there, -, here, at_, -⟩ := exists_of_ofNode? found
  obtain ⟨inside, same, -⟩ := List.findIdx?_eq_some_iff_getElem.1 at_
  refine ⟨id, by rw [there]; rfl, ?_, ?_⟩
  · rw [turn_of_kind? (k := .call opcode index call.args.length (call.receiver :: call.args))
      (by rw [kind?, there]; rfl)]
    rfl
  · rw [body_of_block? here, List.getElem?_eq_getElem inside, beq_iff_eq.1 same]

lemma position_ne_zero {pool : Pool} {v : ValueId} {call : ReceiverCall} {o : Outline}
    (found : ReceiverCall.ofNode? f pool v = some call) (here : f.outline call.block = some o)
    (head : o.turns.head? = some .catches) : call.position ≠ 0 := by
  obtain ⟨-, -, still, at_⟩ := call_node found
  obtain ⟨-, rfl⟩ := outline_eq_some.1 here
  intro first
  rw [first] at at_
  rw [List.head?_map, List.head?_eq_getElem?, at_, Option.map_some, still] at head
  cases head

lemma targets_of_selfCall? {call : ReceiverCall} (listed : f.Listed) (found : selfCall? f ctx b = some call) :
    ∃ v, ReceiverCall.ofNode? f ctx.pool v = some call ∧ (f.terminator call.block).targets = [] := by
  obtain ⟨v, -, ends, last, -, node, -⟩ := selfCall?_eq_some_iff.1 found
  have same : b = call.block :=
    listed.eq_of_mem_body (List.mem_of_getLast? last) (List.mem_of_getElem? (call_node node).2.2.2)
  refine ⟨v, node, ?_⟩
  rw [← same, ends]
  rfl

lemma eliminate_kept {pool : Pool} {v : ValueId} {call : ReceiverCall} (h : f.Kept)
    (found : ReceiverCall.ofNode? f pool v = some call) (out : (f.terminator call.block).targets = []) :
    (eliminate call).Meets f (fun _ f' => f'.Kept) fun _ => True := by
  obtain ⟨live, place⟩ := call_block found
  obtain ⟨id, there, still, -⟩ := call_node found
  have inner := call_inner h.intact.toShaped place
  obtain ⟨o, here⟩ := exists_outline live
  have leaving : Leaving call.block f := by
    refine ⟨h, o, here, ?_⟩
    obtain ⟨-, rfl⟩ := outline_eq_some.1 here
    rw [out]
    rfl
  rw [eliminate, id]
  refine meets_get ((saveArgs_leaving _ inner leaving ⟨there, still⟩ fun o here =>
    position_ne_zero found here).bind ?_)
  rintro args f₁ ⟨h₁, still⟩
  refine Meets.bind (P := fun _ => Leaving call.block) ?_ fun _ f₂ h₂ => ?_
  · refine meets_of_forall (fun _ f₂ run => ?_) fun _ _ _ => trivial
    obtain ⟨-, rfl⟩ := removeNode_eq_ok.1 run
    exact h₁.dropNode still
  refine (storeAll_leaving inner f₂ h₂).bind fun _ f₃ h₃ => (storeAll_leaving inner f₃ h₃).bind ?_
  intro _ f₄ h₄
  refine meets_get (((popScopes_reshapes (s := call.block) _ h₄.intact.toListed h₄.live).also
    (popScopes_yields _ h₄.live)).bind ?_)
  rintro _ f₅ ⟨popped, pads⟩
  refine Meets.bind (P := fun _ f' => Leaving call.block f' ∧ f'.scopeDepth call.block = 0) ?_ ?_
  · refine meets_of_forall (fun _ f₆ run => ?_) fun _ _ _ => trivial
    obtain ⟨-, rfl⟩ := modifyBlock_eq_ok.1 run
    exact h₄.unwind inner pads popped
  rintro _ f₆ ⟨h₆, zero⟩
  refine ((start_leaving h₆ inner.1).also (start_yields h₆.intact)).bind ?_
  rintro target f₇ ⟨⟨⟨h₇, same⟩, enters⟩, -, there, inside, none, -⟩
  obtain ⟨o₇, here₇, -⟩ := h₇.out
  rw [zero, scopeDepth_of_outline here₇] at same
  refine Meets.bind (P := fun _ => Kept) ?_ fun _ f₈ h₈ => meets_pure h₈
  refine meets_of_forall (fun _ f₈ run => ?_) fun _ _ _ => trivial
  obtain ⟨-, -, rfl⟩ := setTerminator_eq_ok.1 run
  refine ⟨h₇.intact.reend h₇.live inner.2 (fun same => absurd same inner.1) fun e mem => ?_, ?_⟩
  · rw [List.mem_singleton.1 mem]
    exact ⟨there, inside, .inl none⟩
  · refine h₇.scopes.reend here₇ fun e mem out => ?_
    rw [List.mem_singleton.1 mem] at out ⊢
    rw [same]
    exact enters out

lemma pass_scopes : pass.Scopes := by
  refine fun ctx => retains_get fun f start => meets_eliminateAll (fun f b call h found => ?_) start
  obtain ⟨v, node, out⟩ := targets_of_selfCall? h.intact.toListed found
  exact (eliminate_kept h node out).imp (fun _ _ kept => kept) fun _ _ => trivial

end TailCall

end Avm.Opt
