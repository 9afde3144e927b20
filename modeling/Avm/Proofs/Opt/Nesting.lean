import Avm.Proofs.Lift.Scoping
import Avm.Proofs.Opt.Expanding
import Avm.Proofs.Opt.Unwinding

/-!
# Scopes of expanded callees

A callee that is expanded has its scopes above those of the call, so the depths that its blocks have are
greater by the depth at the call, and where it returns it leaves its scopes.  The steps of an expansion are
followed through the outlines of the blocks that are copied (`Reshapes`).

The main statement is `pass_scopes`.
-/

namespace Avm.Opt.Inlining

open Avm.Ir Avm.Ir.Func Avm.Ir.Edit

variable {f f' f'' callee : Func} {p : Placement} {b n t tail head : BlockId} {v : ValueId} {k : NodeKind}
  {l : List (BlockId × BlockId)} {u u' : BlockId → Outline → Outline} {depth : Nat}

section Copying

/-- What a node does that is copied to the body of a block. -/
def copiedTurn? : NodeKind → Option Turn
  | .debug _ | .phi _ => none
  | k => some k.turn

/-- What the nodes of a callee do that are copied to the body of a block. -/
def copiedTurns (callee : Func) (vs : List ValueId) : List Turn :=
  vs.filterMap fun v => (callee.kind? v).bind copiedTurn?

lemma copiedTurns_cons {vs : List ValueId} (plain : ∀ i, k ≠ .debug i) (here : callee.kind? v = some k) :
    copiedTurns callee (v :: vs) = (if k.isPhi then [] else [k.turn]) ++ copiedTurns callee vs := by
  rw [copiedTurns, List.filterMap_cons, here, Option.bind_some]
  cases k with
  | phi inputs => rfl
  | debug i => exact absurd rfl (plain i)
  | _ => rfl

lemma copiedTurns_cons_of_none {vs : List ValueId} (none : (callee.kind? v).bind copiedTurn? = none) :
    copiedTurns callee (v :: vs) = copiedTurns callee vs := by
  rw [copiedTurns, List.filterMap_cons, none]
  rfl

lemma copyNodes_reshapes {vs : List ValueId} (h : f.Listed) (live : (f.block? n).isSome) :
    (copyNodes callee n vs).Meets f (fun _ f' => Reshapes [(b, n)]
      (fun _ o => { o with turns := o.turns ++ copiedTurns callee vs }) f f') fun _ => True := by
  induction vs generalizing f with
  | nil =>
    refine meets_pure ((Reshapes.of_same h rfl rfl (fun v there => ⟨there, rfl⟩) fun _ => rfl).congr ?_)
    intro e _
    funext o
    rw [copiedTurns, List.filterMap_nil, List.append_nil]
    rfl
  | cons v vs ih =>
    rw [copyNodes]
    split
    · rename_i absent
      rw [copiedTurns_cons_of_none (by rw [absent]; rfl)]
      exact ih h live
    · rename_i debug
      rw [copiedTurns_cons_of_none (by rw [debug]; rfl)]
      exact ih h live
    · rename_i kind plain here
      rw [copiedTurns_cons plain here]
      refine Meets.bind (P := fun _ f' => Reshapes [(b, n)]
        (fun _ o => { o with turns := o.turns ++ if kind.isPhi then [] else [kind.turn] }) f f') ?_ ?_
      · refine meets_of_forall (fun _ f' run => ?_) fun _ _ _ => trivial
        obtain ⟨-, -, rfl⟩ := appendNode_eq_ok.1 run
        exact reshapes_putNode h live
      · intro _ f₁ one
        refine (ih one.listed (by rw [one.isSome, live])).bind fun values f₂ rest => meets_pure ?_
        refine (one.comp rest).congr fun e _ => funext fun o => ?_
        simp only [Function.comp_apply, List.append_assoc]

lemma copyBodies_reshapes (h : f.Listed) (live : ∀ e ∈ l, (f.block? e.2).isSome)
    (nodup : (l.map (·.2)).Nodup) : (copyBodies callee l).Meets f (fun _ f' => Reshapes l
      (fun b o => { o with turns := o.turns ++ copiedTurns callee (callee.nodesOf b) }) f f')
      fun _ => True := by
  induction l generalizing f with
  | nil => exact meets_pure (.refl h)
  | cons e l ih =>
    obtain ⟨b, n⟩ := e
    obtain ⟨apart, nodup⟩ := List.nodup_cons.1 nodup
    have listing : ((callee.block? b).map Block.nodeIds).getD [] = callee.nodesOf b := by
      rw [nodesOf, phis, body]
      cases callee.block? b with
      | none => rfl
      | some x => rfl
    rw [copyBodies, listing]
    refine (copyNodes_reshapes (b := b) h (live _ List.mem_cons_self)).bind fun values f₁ first => ?_
    refine (ih first.listed (fun e mem => ?_) nodup).bind fun more f₂ rest => meets_pure ?_
    · rw [first.isSome]
      exact live e (List.mem_cons_of_mem _ mem)
    · refine (first.congr fun e mem => ?_).cons rest apart
      rw [List.mem_singleton.1 mem]

lemma turn_modifyKind {g : NodeKind → NodeKind} (same : ∀ k, (g k).turn = k.turn) :
    (f.modifyKind n g).turn v = f.turn v := by
  rw [turn_eq, turn_eq, kind?, kind?, modifyKind, node?_modifyNode]
  split
  · cases f.node? v with
    | none => rfl
    | some x => exact same x.kind
  · rfl

lemma turn_remapRegisters {g : Nat → Nat} : (k.remapRegisters g).turn = k.turn := by
  cases k with
  | scope op operand => cases op <;> rfl
  | _ => rfl

lemma Placement.turn_kind : (p.kind k).turn = k.turn := by
  rw [Placement.kind, ← turn_remapRegisters (k := k) (g := (· + p.base)),
    ← NodeKind.turn_mapOperands (k := k.remapRegisters (· + p.base))
      (g := Value.mapNode fun id => (p.values.lookup id).getD id)]
  generalize (k.remapRegisters _).mapOperands _ = k'
  cases k' <;> rfl

lemma reshapes_renameAll {values : List (ValueId × ValueId)} (h : f.Listed) :
    Reshapes l (fun _ => id) f (renameAll p values f) := by
  have same : SameNodes f (renameAll p values f) := by
    clear h
    induction values generalizing f with
    | nil => exact .refl f
    | cons e values ih =>
      have one : SameNodes f (renameAll p [e] f) := (same_renameAll (by simp)).1
      exact one.trans ih
  have turns (v : ValueId) : (renameAll p values f).turn v = f.turn v := by
    clear same h
    induction values generalizing f with
    | nil => rfl
    | cons e values ih =>
      exact ih.trans (turn_modifyKind fun _ => Placement.turn_kind)
  refine .of_same (h.sameNodes same) same.catches same.size (fun v there => ⟨?_, turns v⟩) fun t =>
    outline_congr (blocks_renameAll values f).1 turns
  rw [← Option.isSome_map (f := (·.block)), same.owner, Option.isSome_map, there]

end Copying

section Covering

/-- What covering does to the outline of the copy of a block. -/
def deepen (callee : Func) (depth : Nat) (b : BlockId) (o : Outline) : Outline :=
  if b = Func.entry then o else { o with depth := callee.scopeDepth b + depth }

lemma coverBlocks_reshapes {first : Nat} {outer : List Nat} (h : f.Listed)
    (nodup : (l.map (·.2)).Nodup) (entry : ∀ e ∈ l, e.2 = head ↔ e.1 = Func.entry) :
    (coverBlocks callee head first depth outer l).Meets f
      (fun _ f' => Reshapes l (deepen callee depth) f f') fun _ => True := by
  induction l generalizing f with
  | nil => exact meets_pure (.refl h)
  | cons e l ih =>
    obtain ⟨b, n⟩ := e
    obtain ⟨apart, nodup⟩ := List.nodup_cons.1 nodup
    have entry' : ∀ e ∈ l, e.2 = head ↔ e.1 = Func.entry := fun e mem => entry e (List.mem_cons_of_mem _ mem)
    rw [coverBlocks]
    split
    · rename_i other
      have inner : b ≠ Func.entry := fun same => 
        absurd ((entry _ List.mem_cons_self).2 same) (by simpa using other)
      refine Meets.bind (P := fun _ f' => Reshapes [(b, n)]
        (fun _ o => { o with depth := callee.scopeDepth b + depth }) f f') ?_ fun _ f₁ deep => ?_
      · refine meets_of_forall (fun _ f' run => ?_) fun _ _ _ => trivial
        obtain ⟨-, rfl⟩ := modifyBlock_eq_ok.1 run
        exact reshapes_setDepth h
      refine Meets.bind (P := fun _ f' => Reshapes [(b, n)] (fun _ => id) f₁ f') ?_ fun _ f₂ covered => ?_
      · refine meets_of_forall (fun _ f' run => ?_) fun _ _ _ => trivial
        obtain ⟨-, -, rfl⟩ := setHandlers_eq_ok.1 run
        exact reshapes_cover deep.listed
      refine (ih covered.listed nodup entry').imp (fun _ f' rest => ?_) fun _ _ => trivial
      refine ((deep.comp covered).congr fun e mem => ?_).cons rest apart
      rw [List.mem_singleton.1 mem]
      funext o
      rw [deepen, if_neg inner]
      rfl
    · rename_i same
      have inner : b = Func.entry := (entry _ List.mem_cons_self).1 (by simpa using same)
      refine (ih h nodup entry').imp (fun _ f' rest => ?_) fun _ _ => trivial
      refine (((Reshapes.of_same (l := [(b, n)]) h rfl rfl (fun v there => ⟨there, rfl⟩)
        fun _ => rfl)).congr fun e mem => ?_).cons rest apart
      rw [List.mem_singleton.1 mem]
      funext o
      rw [deepen, if_pos inner]
      rfl

end Covering

section Ending

/-- The block of a callee returns. -/
def isReturn (callee : Func) (b : BlockId) : Bool :=
  match callee.terminator b with
  | .leave _ => true
  | _ => false

/-- What ending does to the outline of the copy of a block. -/
def conclude (callee : Func) (p : Placement) (depth : Nat) (b : BlockId) (o : Outline) : Outline :=
  if isReturn callee b then
    { o with turns := o.turns ++ List.replicate (callee.scopeDepth b) .leaves, depth := depth }
  else { o with targets := (callee.terminator b).targets.map fun e => p.target e.1 }

lemma terminator_eq_leave {term : Terminator} {value : Option Value} (h : p.terminator term = .leave value) :
    ∃ value', term = .leave value' := by
  cases term with
  | leave value' => exact ⟨value', rfl⟩
  | _ => cases h

lemma endBlocks_reshapes (h : f.Listed) (live : ∀ e ∈ l, (f.block? e.2).isSome ∧ (callee.block? e.1).isSome)
    (nodup : (l.map (·.2)).Nodup) : (endBlocks callee p depth l).Meets f (fun results f' =>
      Reshapes l (conclude callee p depth) f f' ∧
        results.map (·.1) = (l.filter fun e => isReturn callee e.1).map (·.2)) fun _ => True := by
  induction l generalizing f with
  | nil => exact meets_pure ⟨.refl h, rfl⟩
  | cons e l ih =>
    obtain ⟨b, n⟩ := e
    obtain ⟨apart, nodup⟩ := List.nodup_cons.1 nodup
    obtain ⟨here, there⟩ := live _ List.mem_cons_self
    obtain ⟨x, found⟩ := Option.isSome_iff_exists.1 there
    have term : callee.terminator b = x.terminator := terminator_of_block? found
    have rest {f₁} {g : Outline → Outline} (first : Reshapes [(b, n)] (fun _ => g) f f₁)
        (same : conclude callee p depth b = g) : (endBlocks callee p depth l).Meets f₁ (fun results f' =>
          Reshapes ((b, n) :: l) (conclude callee p depth) f f' ∧
            results.map (·.1) = (l.filter fun e => isReturn callee e.1).map (·.2)) fun _ => True := by
      refine (ih first.listed (fun e mem => ?_) nodup).imp (fun results f' done => ?_) fun _ _ => trivial
      · rw [first.isSome]
        exact live e (List.mem_cons_of_mem _ mem)
      · refine ⟨(first.congr fun e mem => ?_).cons done.1 apart, done.2⟩
        rw [List.mem_singleton.1 mem, same]
    rw [endBlocks, found]
    dsimp only [Option.map_some]
    split
    · rename_i absent
      cases absent
    · rename_i value eq
      obtain ⟨value', leaves⟩ := terminator_eq_leave (Option.some.inj eq)
      have returns : isReturn callee b = true := by
        rw [isReturn, term, leaves]
      refine (TailCall.popScopes_reshapes (s := b) _ h here).bind fun _ f₁ popped => ?_
      refine Meets.bind (P := fun _ f' => Reshapes [(b, n)] (fun _ o => { o with depth := depth }) f₁ f') ?_ ?_
      · refine meets_of_forall (fun _ f' run => ?_) fun _ _ _ => trivial
        obtain ⟨-, rfl⟩ := modifyBlock_eq_ok.1 run
        exact reshapes_setDepth popped.listed
      · intro _ f₂ deep
        refine (rest (popped.comp deep) ?_).bind fun results f' done => meets_pure ⟨done.1, ?_⟩
        · funext o
          rw [conclude, if_pos returns]
          rfl
        · rw [List.map_cons, done.2, List.filter_cons, if_pos returns, List.map_cons]
    · rename_i t plain eq
      have same := Option.some.inj eq
      have goes : isReturn callee b = false := by
        rw [isReturn, term]
        split
        · rename_i leaves
          rw [leaves] at same
          exact absurd same.symm (plain _)
        · rfl
      refine Meets.bind (P := fun _ f' => Reshapes [(b, n)]
        (fun _ o => { o with targets := t.targets.map (·.1) }) f f') ?_ fun _ f₁ ended => ?_
      · refine meets_of_forall (fun _ f' run => ?_) fun _ _ _ => trivial
        obtain ⟨-, -, rfl⟩ := setTerminator_eq_ok.1 run
        exact reshapes_reend h
      · refine (rest ended ?_).imp (fun results f' done => ⟨done.1, ?_⟩) fun _ _ => trivial
        · funext o
          rw [conclude, if_neg (by simp [goes]), ← same, Placement.targets_terminator, term, List.map_map]
          rfl
        · rw [done.2, List.filter_cons, if_neg (by simp [goes])]

end Ending

section Joining

lemma mergeResults_reshapes {call : ValueId} {results : List (BlockId × Value)} (h : f.Listed)
    (live : (f.block? tail).isSome) : (mergeResults call tail results).Meets f
      (fun _ f' => Reshapes l (fun _ => id) f f') fun _ => True := by
  refine meets_get ?_
  split
  · refine Meets.bind (P := fun phi f' => Reshapes l (fun _ => id) f f') ?_ fun phi f₁ placed => ?_
    · refine meets_of_forall (fun _ f' run => ?_) fun _ _ _ => trivial
      obtain ⟨-, -, rfl⟩ := appendNode_eq_ok.1 run
      refine .of_same (h.putNode live fits_place) rfl sameFlow_putNode.size kept_putNode fun t => ?_
      rw [outline_putNode h, if_neg (by simp [NodeKind.isPhi])]
    · exact meets_last ((placed.comp (reshapes_replaceUses placed.listed)).congr fun _ _ => rfl)
  · exact meets_pure (.of_same h rfl rfl (fun v there => ⟨there, rfl⟩) fun _ => rfl)

lemma jumpAll_reshapes {rs : List BlockId} (h : f.Listed) (nodup : rs.Nodup) :
    (jumpAll tail rs).Meets f (fun _ f' => Reshapes (rs.map fun r => (r, r))
      (fun _ o => { o with targets := [tail] }) f f') fun _ => True := by
  induction rs generalizing f with
  | nil => exact meets_pure (.refl h)
  | cons r rs ih =>
    obtain ⟨apart, nodup⟩ := List.nodup_cons.1 nodup
    refine Meets.bind (P := fun _ f' => Reshapes [(r, r)] (fun _ o => { o with targets := [tail] }) f f')
      ?_ fun _ f₁ first => ?_
    · refine meets_of_forall (fun _ f' run => ?_) fun _ _ _ => trivial
      obtain ⟨-, -, rfl⟩ := setTerminator_eq_ok.1 run
      exact @reshapes_reend f r r (.jump tail) _ h
    · refine (ih first.listed nodup).imp (fun _ f' rest => first.cons rest ?_) fun _ _ => trivial
      rw [List.map_map]
      simpa using apart

end Joining

section Settling

variable {o : Outline} {vs : List ValueId} {d : Nat}

/-- A node is copied as it is, or does nothing to the scopes. -/
lemma copiedTurns_cons_cases (callee : Func) (v : ValueId) (vs : List ValueId) :
    copiedTurns callee (v :: vs) = callee.turn v :: copiedTurns callee vs ∨
    copiedTurns callee (v :: vs) = copiedTurns callee vs ∧ callee.turn v = .still := by
  cases here : (callee.kind? v).bind copiedTurn? with
  | none =>
    refine .inr ⟨copiedTurns_cons_of_none here, ?_⟩
    rw [turn_eq]
    cases found : callee.kind? v with
    | none => rfl
    | some k =>
      rw [found] at here
      cases k <;> cases here <;> rfl
  | some t =>
    obtain ⟨k, found, copied⟩ := Option.bind_eq_some_iff.1 here
    have same : t = callee.turn v := by
      rw [turn_of_kind? found]
      cases k <;> cases copied <;> rfl
    exact .inl (by rw [copiedTurns, List.filterMap_cons, here, ← copiedTurns, same])

lemma copiedTurns_sublist : (copiedTurns callee vs).Sublist (vs.map callee.turn) := by
  induction vs with
  | nil => exact .slnil
  | cons v vs ih =>
    obtain same | ⟨same, -⟩ := copiedTurns_cons_cases callee v vs
    · exact same ▸ ih.cons_cons _
    · exact same ▸ ih.cons _

lemma filter_copiedTurns : (copiedTurns callee vs).filter (· != .still) =
    (vs.map callee.turn).filter (· != .still) := by
  induction vs with
  | nil => rfl
  | cons v vs ih =>
    rw [List.map_cons, List.filter_cons, ← ih]
    obtain same | ⟨same, still⟩ := copiedTurns_cons_cases callee v vs
    · rw [same, List.filter_cons]
    · rw [same, still]
      rfl

lemma copiedTurns_nodesOf (h : callee.Listed) :
    copiedTurns callee (callee.nodesOf b) = copiedTurns callee (callee.body b) := by
  have none : copiedTurns callee (callee.phis b) = [] := by
    refine List.filterMap_eq_nil_iff.2 fun v mem => ?_
    have phi := h.phi b v mem
    rw [inputs?] at phi
    cases found : callee.kind? v with
    | none => rfl
    | some k =>
      rw [found] at phi
      cases k with
      | phi inputs => rfl
      | _ => cases phi
  rw [nodesOf, copiedTurns, List.filterMap_append, ← copiedTurns, none]
  rfl

lemma within_copied (h : callee.Listed) (here : callee.outline b = some o) :
    ({ o with turns := copiedTurns callee (callee.nodesOf b) } : Outline).Within o := by
  obtain ⟨-, rfl⟩ := outline_eq_some.1 here
  rw [copiedTurns_nodesOf h]
  exact ⟨rfl, fun _ mem => mem, filter_copiedTurns, fun mem => copiedTurns_sublist.tail.subset mem⟩

/-- The outline of the copy of a block when the callee is expanded. -/
def settle (callee : Func) (p : Placement) (tail : BlockId) (depth : Nat) (b : BlockId) (o : Outline) :
    Outline :=
  if isReturn callee b then
    ⟨o.turns ++ copiedTurns callee (callee.nodesOf b) ++ List.replicate (callee.scopeDepth b) .leaves,
      depth, [tail]⟩
  else
    ⟨o.turns ++ copiedTurns callee (callee.nodesOf b),
      if b = Func.entry then o.depth else callee.scopeDepth b + depth,
      (callee.terminator b).targets.map fun e => p.target e.1⟩

/-- What is known of the outlines when a callee is expanded in a graph. -/
structure Expanded (callee : Func) (p : Placement) (tail : BlockId) (depth : Nat) (f f' : Func) : Prop where
  catches : f'.handlers = f.handlers ++ callee.handlers.map p.handler
  size : f.blocks.size ≤ f'.blocks.size
  first : f'.outline p.head = (f.outline p.head).map (settle callee p tail depth Func.entry)
  copies : ∀ e ∈ p.blocks, e.2 ≠ p.head → f.blocks.size ≤ e.2 ∧
    f'.outline e.2 = some (settle callee p tail depth e.1 {})
  other : ∀ t ∉ p.blocks.map (·.2), f'.outline t = f.outline t

lemma starts_settle (h : callee.Listed) (here : callee.outline b = some o) (inner : b ≠ Func.entry)
    (start : o.Starts d) : (settle callee p tail depth b {}).Starts (d + depth) := by
  have copied : Turn.walk d (copiedTurns callee (callee.nodesOf b)) = some o.depth :=
    (within_copied h here).starts start
  have deeper := Turn.walk_add depth copied
  rw [settle, scopeDepth_of_outline here]
  split
  · rw [Outline.Starts]
    dsimp only
    rw [List.nil_append, Turn.walk_append, deeper, Nat.add_comm]
    exact Turn.walk_leaves
  · rw [Outline.Starts]
    dsimp only
    rw [List.nil_append, deeper]

lemma catches_settle (h : callee.Listed) (here : callee.outline b = some o)
    (mem : .catches ∈ (settle callee p tail depth b {}).turns) : .catches ∈ o.turns := by
  refine (within_copied h here).catches ?_
  rw [settle] at mem
  split at mem
  · obtain mem | mem := List.mem_append.1 mem
    · exact mem
    · cases List.eq_of_mem_replicate mem
  · exact mem

lemma late_settle (h : callee.Listed) (here : callee.outline b = some o)
    (mem : .catches ∈ (settle callee p tail depth b {}).turns.tail) : .catches ∈ o.turns.tail := by
  refine (within_copied h here).late ?_
  rw [settle] at mem
  split at mem
  · dsimp only at mem ⊢
    rw [List.nil_append] at mem
    generalize copiedTurns callee (callee.nodesOf b) = l at mem ⊢
    cases l with
    | nil => cases List.eq_of_mem_replicate (List.mem_of_mem_tail mem)
    | cons t l =>
      obtain mem | mem := List.mem_append.1 mem
      · exact mem
      · cases List.eq_of_mem_replicate mem
  · exact mem

namespace Expanded

variable {h₀ : Outline} (expanded : Expanded callee p tail depth f f') (plan : Plan callee p)
include expanded

lemma handles (mem : f.Handles t) : f'.Handles t := by
  obtain ⟨c, listed, same⟩ := mem
  rw [Handles, expanded.catches]
  exact ⟨c, List.mem_append_left _ listed, same⟩

include plan

lemma new (mem : (b, n) ∈ p.blocks) (inner : b ≠ Func.entry) : f.blocks.size ≤ n ∧
    f'.outline n = some (settle callee p tail depth b {}) := by
  exact expanded.copies _ mem fun same => inner ((plan.eq_head_iff mem).1 same)

/-- A block that was there is no copy, unless it is the first half of the block of the call. -/
lemma notMem (old : t < f.blocks.size) (other : t ≠ p.head) : t ∉ p.blocks.map (·.2) := by
  intro mem
  obtain ⟨⟨b, n⟩, place, rfl⟩ := List.mem_map.1 mem
  exact absurd old (Nat.not_lt.2 (expanded.new plan place (mt (plan.eq_head_iff place).2 other)).1)

lemma handles_copy (mem : (b, n) ∈ p.blocks) (handled : callee.Handles b) : f'.Handles n := by
  obtain ⟨c, listed, rfl⟩ := handled
  rw [Handles, expanded.catches]
  refine ⟨p.handler c, List.mem_append_right _ (List.mem_map_of_mem listed), ?_⟩
  exact plan.target_eq mem

variable (order : callee.Scoped) (manned : callee.Manned)
include order manned

lemma handles_cases (handled : f'.Handles t) : f.Handles t ∨
    ∃ b, (b, t) ∈ p.blocks ∧ b ≠ Func.entry ∧ callee.Handles b := by
  obtain ⟨c, listed, rfl⟩ := handled
  rw [expanded.catches] at listed
  obtain old | new := List.mem_append.1 listed
  · exact .inl ⟨c, old, rfl⟩
  · obtain ⟨c, original, rfl⟩ := List.mem_map.1 new
    obtain ⟨live, inside⟩ := manned c original
    have place := plan.mem_source live inside
    refine .inr ⟨c.target, ?_, (order.handler c original).1, c, original, rfl⟩
    have same : (p.handler c).target = p.source c.target := plan.target_eq place
    rwa [same]

lemma free_old (live : (f.block? t).isSome) (free : ¬f.Handles t) : ¬f'.Handles t := by
  intro handled
  obtain old | ⟨b, mem, inner, -⟩ := expanded.handles_cases plan order manned handled
  · exact free old
  · exact absurd (lt_size_of_block? live) (Nat.not_lt.2 (expanded.new plan mem inner).1)

lemma free_copy (before : f.Scoped) (mem : (b, n) ∈ p.blocks) (inner : b ≠ Func.entry)
    (free : ¬callee.Handles b) : ¬f'.Handles n := by
  intro handled
  obtain ⟨c, old, rfl⟩ | ⟨b', mem', -, handled'⟩ := expanded.handles_cases plan order manned handled
  · exact absurd (before.handler c old).2.1 (Nat.not_lt.2 (expanded.new plan mem inner).1)
  · rw [plan.inj mem' mem] at handled'
    exact free handled'

omit order manned

lemma enters_copy (listed : callee.Listed) (mem : (b, n) ∈ p.blocks) (inner : b ≠ Func.entry) {d : Nat}
    (entered : callee.Enters b d) : f'.Enters n (d + depth) := by
  obtain ⟨o, here, start⟩ := entered
  exact ⟨_, (expanded.new plan mem inner).2, starts_settle listed here inner start⟩

variable (intact : callee.Intact) (host : f.outline p.head = some h₀)
include intact host

omit plan in
lemma exists_first : ∃ b, callee.terminator Func.entry = .goto b ∧ f'.outline p.head =
    some { h₀ with targets := [p.target b] } := by
  obtain ⟨b, goes⟩ := intact.start
  refine ⟨b, goes, ?_⟩
  have none : copiedTurns callee (callee.nodesOf Func.entry) = [] := by
    rw [nodesOf, intact.entry.2.1, intact.entry.2.2.1]
    rfl
  rw [expanded.first, host, Option.map_some, settle, isReturn, goes, none, if_pos rfl, List.append_nil]
  rfl

lemma enters_old {d : Nat} (entered : f.Enters t d) : f'.Enters t d := by
  by_cases same : t = p.head
  · obtain ⟨b, -, first⟩ := expanded.exists_first intact host
    rw [same] at entered ⊢
    exact ⟨_, first, (enters_iff host).1 entered⟩
  · rw [Enters, expanded.other t (expanded.notMem plan (lt_size_of_block? entered.isSome) same)]
    exact entered

variable (before : f.Scoped)
include before order manned

omit host in
lemma next_copy (here : callee.outline b = some o) (mem : t ∈ o.targets) (inside : p.target t ≠ Func.exit) :
    f'.Enters (p.target t) (o.depth + depth) ∧ ¬f'.Handles (p.target t) := by
  have inside' : t ≠ Func.exit := fun same => inside (by rw [same, plan.target_exit])
  obtain ⟨entered, apart⟩ := (order.blocks b o here).next t mem inside'
  have other : t ≠ Func.entry := by
    obtain ⟨-, rfl⟩ := outline_eq_some.1 here
    obtain ⟨e, goes, rfl⟩ := List.mem_map.1 mem
    exact intact.enters b e goes
  have place := plan.mem_source entered.isSome inside'
  rw [plan.target_eq place]
  exact ⟨expanded.enters_copy plan intact.toListed place other entered,
    expanded.free_copy plan order manned before place other apart⟩

lemma agrees_first (deep : h₀.depth = depth) (here : f'.outline p.head = some o) : f'.Agrees p.head o := by
  have agrees := before.blocks _ h₀ host
  obtain ⟨b₀, leads, first⟩ := expanded.exists_first intact host
  obtain rfl := Option.some.inj (first.symm.trans here)
  refine ⟨agrees.starts, agrees.late, fun mem => expanded.handles (agrees.caught mem), fun t mem inside => ?_⟩
  obtain rfl := List.mem_singleton.1 mem
  obtain ⟨o, original⟩ := exists_outline intact.entry.1
  have at_start : o.depth = 0 := by rw [← scopeDepth_of_outline original, order.start]
  have goes : b₀ ∈ o.targets := by
    obtain ⟨-, rfl⟩ := outline_eq_some.1 original
    rw [leads]
    exact List.mem_singleton_self _
  have next := expanded.next_copy plan order manned intact before original goes inside
  rw [at_start, Nat.zero_add] at next
  rwa [deep]

lemma agrees_copy (goes : h₀.targets = [tail]) (deep : h₀.depth = depth) (outer : tail ≠ Func.exit)
    (mem : (b, n) ∈ p.blocks) (inner : b ≠ Func.entry) (here : f'.outline n = some o) : f'.Agrees n o := by
  have listed := intact.toListed
  obtain rfl := Option.some.inj ((expanded.new plan mem inner).2.symm.trans here)
  obtain ⟨o, original⟩ := exists_outline ((plan.mem b).1 ⟨n, mem⟩).1
  have agrees := order.blocks b o original
  obtain ⟨d, start⟩ := agrees.starts
  refine ⟨⟨_, starts_settle listed original inner start⟩, fun late => agrees.late ?_, fun catches => ?_,
    fun t target inside => ?_⟩
  · exact late_settle listed original late
  · exact expanded.handles_copy plan mem (agrees.caught (catches_settle listed original catches))
  · rw [settle] at target ⊢
    split at target
    · rename_i returns
      rw [if_pos returns]
      obtain rfl := List.mem_singleton.1 target
      obtain ⟨entered, apart⟩ := (before.blocks _ h₀ host).next t (by rw [goes]; exact target) outer
      rw [deep] at entered
      exact ⟨expanded.enters_old plan intact host entered,
        expanded.free_old plan order manned entered.isSome apart⟩
    · rename_i stays
      rw [if_neg stays]
      obtain ⟨e, leads, rfl⟩ := List.mem_map.1 target
      dsimp only
      rw [if_neg inner, scopeDepth_of_outline original]
      refine expanded.next_copy plan order manned intact before original ?_ inside
      obtain ⟨-, rfl⟩ := outline_eq_some.1 original
      exact List.mem_map_of_mem leads

lemma agrees_old (other : t ∉ p.blocks.map (·.2)) (here : f'.outline t = some o) : f'.Agrees t o := by
  rw [expanded.other t other] at here
  have agrees := before.blocks t o here
  refine ⟨agrees.starts, agrees.late, fun mem => expanded.handles (agrees.caught mem), fun t mem inside => ?_⟩
  obtain ⟨entered, apart⟩ := agrees.next t mem inside
  exact ⟨expanded.enters_old plan intact host entered,
    expanded.free_old plan order manned entered.isSome apart⟩

omit order manned in
lemma handler_old {c : Catch} (old : c ∈ f.handlers) : c.target ≠ Func.entry ∧ c.target < f'.blocks.size ∧
    ∀ o, f'.outline c.target = some o → o.Starts 0 := by
  obtain ⟨other, small, zero⟩ := before.handler c old
  refine ⟨other, small.trans_le expanded.size, fun o here => ?_⟩
  cases found : f.outline c.target with
  | none =>
    have away : c.target ≠ p.head := by
      intro same
      rw [same, host] at found
      cases found
    rw [expanded.other _ (expanded.notMem plan small away), found] at here
    cases here
  | some o' => exact (enters_iff here).1 (expanded.enters_old plan intact host ⟨o', found, zero o' found⟩)

omit before in
/-- A handler of the callee still starts without a scope, because there is none at the call. -/
lemma handler_copy (flat : callee.handlers ≠ [] → depth = 0) {c : Catch} (original : c ∈ callee.handlers) :
    (p.handler c).target ≠ Func.entry ∧ (p.handler c).target < f'.blocks.size ∧
      ∀ o, f'.outline (p.handler c).target = some o → o.Starts 0 := by
  obtain ⟨live, inside⟩ := manned c original
  obtain ⟨other, -, zero⟩ := order.handler c original
  have place := plan.mem_source live inside
  obtain ⟨above, copy⟩ := expanded.new plan place other
  have same : (p.handler c).target = p.source c.target := plan.target_eq place
  have there : (f'.block? (p.source c.target)).isSome := (outline_eq_some.1 copy).1
  have start : 0 < f.blocks.size := Nat.zero_lt_of_lt (lt_size_of_block? (outline_eq_some.1 host).1)
  rw [same]
  refine ⟨(start.trans_le above).ne', lt_size_of_block? there, fun o here => ?_⟩
  obtain ⟨o', original'⟩ := exists_outline live
  have entered := expanded.enters_copy plan intact.toListed place other ⟨o', original', zero o' original'⟩
  rw [flat (List.ne_nil_of_mem original)] at entered
  exact (enters_iff here).1 entered

lemma scopes (goes : h₀.targets = [tail]) (deep : h₀.depth = depth) (inner : p.head ≠ Func.entry)
    (outer : tail ≠ Func.exit) (flat : callee.handlers ≠ [] → depth = 0) : f'.Scoped := by
  have start : Func.entry < f.blocks.size := Nat.zero_lt_of_lt (lt_size_of_block? (outline_eq_some.1 host).1)
  refine ⟨?_, fun t o here => ?_, fun c mem => ?_⟩
  · rw [scopeDepth_eq, expanded.other _ (expanded.notMem plan start inner.symm), ← scopeDepth_eq,
      before.start]
  · by_cases mem : t ∈ p.blocks.map (·.2)
    · obtain ⟨⟨b, n⟩, place, rfl⟩ := List.mem_map.1 mem
      by_cases entry : b = Func.entry
      · dsimp only at here ⊢
        rw [(plan.eq_head_iff place).2 entry] at here ⊢
        exact expanded.agrees_first plan order manned intact host before deep here
      · exact expanded.agrees_copy plan order manned intact host before goes deep outer place entry here
    · exact expanded.agrees_old plan order manned intact host before mem here
  · rw [expanded.catches] at mem
    obtain old | new := List.mem_append.1 mem
    · exact expanded.handler_old plan intact host before old
    · obtain ⟨c, original, rfl⟩ := List.mem_map.1 new
      exact expanded.handler_copy plan order manned intact host flat original

end Expanded

end Settling

section Widening

variable {bs ns : List BlockId} {ps : List (BlockId × BlockId)}

/-- Empty blocks are added. -/
structure Widened (f : Func) (ns : List BlockId) (f' : Func) : Prop where
  catches : f'.handlers = f.handlers
  kept : ∀ v, (f.node? v).isSome → (f'.node? v).isSome ∧ f'.turn v = f.turn v
  size : f.blocks.size ≤ f'.blocks.size
  new : ∀ t ∈ ns, f.blocks.size ≤ t ∧ f'.outline t = some {}
  other : ∀ t ∉ ns, f'.outline t = f.outline t

lemma addBlocks_widened : (addBlocks bs).Meets f (fun ps f' => Widened f (ps.map (·.2)) f') fun _ => True := by
  induction bs generalizing f with
  | nil =>
    exact meets_pure ⟨rfl, fun _ there => ⟨there, rfl⟩, Nat.le_refl _, nofun, fun _ _ => rfl⟩
  | cons b bs ih =>
    refine Meets.bind (P := fun n f' => n = f.blocks.size ∧ f' = f.pushBlock {}) ?_ ?_
    · exact meets_of_forall (fun n f' run => addBlock_eq_ok.1 run) fun _ _ _ => trivial
    rintro n f₁ ⟨rfl, rfl⟩
    refine ih.bind fun ps f' rest => meets_pure ?_
    have size := rest.size
    rw [size_pushBlock] at size
    refine ⟨rest.catches, rest.kept, Nat.le_of_succ_le size, fun t mem => ?_, fun t absent => ?_⟩
    · obtain rfl | old := List.mem_cons.1 mem
      · refine ⟨Nat.le_refl _, ?_⟩
        by_cases again : f.blocks.size ∈ ps.map (·.2)
        · exact (rest.new _ again).2
        · rw [rest.other _ again, outline_pushBlock, if_pos rfl]
      · obtain ⟨above, empty⟩ := rest.new t old
        rw [size_pushBlock] at above
        exact ⟨Nat.le_of_succ_le above, empty⟩
    · rw [List.map_cons, List.mem_cons, not_or] at absent
      rw [rest.other t absent.2, outline_pushBlock, if_neg absent.1]

lemma jumpAll_copies {rs : List BlockId} (h : f.Listed) (nodup : (l.map (·.2)).Nodup)
    (returns : rs = (l.filter fun e => isReturn callee e.1).map (·.2)) :
    (jumpAll tail rs).Meets f (fun _ f' => Reshapes l
      (fun b o => if isReturn callee b then { o with targets := [tail] } else o) f f') fun _ => True := by
  have sub : rs.Sublist (l.map (·.2)) := returns ▸ List.filter_sublist.map _
  refine (jumpAll_reshapes h (nodup.sublist sub)).imp (fun _ f' jumped => ?_) fun _ _ => trivial
  have mem_iff {e : BlockId × BlockId} (mem : e ∈ l) : e.2 ∈ rs ↔ isReturn callee e.1 = true := by
    rw [returns, List.mem_map]
    constructor
    · rintro ⟨e', there, same⟩
      obtain ⟨there, returns⟩ := List.mem_filter.1 there
      rw [← List.inj_on_of_nodup_map nodup there mem same]
      exact returns
    · intro returns
      exact ⟨e, List.mem_filter.2 ⟨mem, returns⟩, rfl⟩
  have same : (rs.map fun r => (r, r)).map (·.2) = rs := by
    rw [List.map_map]
    exact List.map_id _
  refine { jumped with each := fun e mem => ?_, other := fun t absent => jumped.other t ?_ }
  · by_cases returns : isReturn callee e.1 = true
    · simp only [if_pos returns]
      exact jumped.each (e.2, e.2) (List.mem_map.2 ⟨e.2, (mem_iff mem).2 returns, rfl⟩)
    · simp only [if_neg returns, Option.map_id']
      exact jumped.other e.2 (by rwa [same, mem_iff mem])
  · rw [same]
    exact fun mem => absent (sub.subset mem)

lemma expanded_of_steps {f₁ f₂ : Func} (plan : Plan callee p) (blocks : p.blocks = (Func.entry, p.head) :: ps)
    (old : (f.block? p.head).isSome) (widened : Widened f (ps.map (·.2)) f₁)
    (copied : Reshapes p.blocks
      (fun b o => { o with turns := o.turns ++ copiedTurns callee (callee.nodesOf b) }) f₁ f₂)
    (ended : Reshapes p.blocks (fun b o =>
      let o := conclude callee p depth b (deepen callee depth b o)
      if isReturn callee b then { o with targets := [tail] } else o)
      (f₂.withCatches (callee.handlers.map p.handler)) f') : Expanded callee p tail depth f f' := by
  have each (e) (mem : e ∈ p.blocks) :
      f'.outline e.2 = (f₁.outline e.2).map (settle callee p tail depth e.1) := by
    have same : (f₂.withCatches (callee.handlers.map p.handler)).outline e.2 = f₂.outline e.2 := rfl
    rw [ended.each e mem, same, copied.each e mem, Option.map_map]
    congr 1
    funext o
    dsimp only [Function.comp_apply, settle, conclude, deepen]
    split
    · split
      · rfl
      · rfl
    · split
      · rfl
      · rfl
  have first : p.head ∉ ps.map (·.2) := fun mem =>
    absurd (lt_size_of_block? old) (Nat.not_lt.2 (widened.new _ mem).1)
  refine ⟨?_, ?_, ?_, fun e mem other => ?_, fun t absent => ?_⟩
  · rw [ended.catches, ← widened.catches, ← copied.catches]
    rfl
  · rw [ended.size]
    exact widened.size.trans_eq copied.size.symm
  · rw [each _ plan.first, widened.other _ first]
  · have new : e ∈ ps := by
      rw [blocks] at mem
      obtain rfl | mem := List.mem_cons.1 mem
      · exact absurd rfl other
      · exact mem
    obtain ⟨above, empty⟩ := widened.new e.2 (List.mem_map_of_mem new)
    rw [each e mem, empty]
    exact ⟨above, rfl⟩
  · have same : (f₂.withCatches (callee.handlers.map p.handler)).outline t = f₂.outline t := rfl
    rw [ended.other t absent, same, copied.other t absent, widened.other]
    rw [blocks, List.map_cons, List.mem_cons, not_or] at absent
    exact absent.2

end Widening

section Expanding

variable {pool : Pool} {call : ReceiverCall}

/-- The block of a call is split, with the depth of the scope stack at the call between the halves. -/
lemma splitBlock_kept (h : f.Kept) (found : ReceiverCall.ofNode? f pool v = some call) :
    (splitBlock call.block call.position).Meets f (fun tail f' => f'.Kept ∧
      (∀ w, (f.node? w).isSome → (f'.node? w).isSome ∧ f'.turn w = f.turn w) ∧
      (tail ≠ Func.exit ∧ (f'.block? call.block).isSome) ∧
      ∃ ts, f'.outline call.block = some ⟨ts, depthAt f call.block call.position, [tail]⟩) fun _ => True := by
  obtain ⟨live, place⟩ := TailCall.call_block found
  have inner := TailCall.call_inner h.intact.toShaped place
  obtain ⟨o, here⟩ := exists_outline live
  have plain : .catches ∉ o.turns.drop call.position := by
    intro mem
    refine (h.scopes.blocks _ o here).late ?_
    have behind := TailCall.position_ne_zero found here
    generalize call.position = i at mem behind
    generalize o.turns = l at mem behind ⊢
    cases i with
    | succ i => exact (List.drop_sublist i l.tail).subset (by rwa [List.drop_tail])
    | zero =>
      cases l with
      | nil => cases mem
      | cons t l =>
        obtain rfl | late := List.mem_cons.1 mem
        · exact absurd rfl (behind rfl)
        · exact late
  have changes : scopeChanges (f.beside call.block (f.scopeDepth call.block))
      ((f.body call.block).drop call.position) = scopeChanges f ((f.body call.block).drop call.position) := by
    rw [scopeChanges_eq, scopeChanges_eq]
    exact congrArg (fun g => ((((f.body call.block).drop call.position).map g).map Turn.change).sum)
      (funext fun v => turn_congr shape?_beside)
  have depth : depthAt f call.block call.position =
      ((o.depth : Int) - ((o.turns.drop call.position).map Turn.change).sum).toNat := by
    rw [depthAt, scopeChanges_eq, scopeDepth_of_outline here]
    obtain ⟨-, rfl⟩ := outline_eq_some.1 here
    rw [List.map_drop]
  refine meets_of_forall (fun tail f' run => ?_) fun _ _ _ => trivial
  rw [splitBlock_eq_ok h.intact live place.le, changes, ← depthAt] at run
  obtain ⟨rfl, rfl⟩ := EStateM.Result.ok.inj run
  have parts := @outline_cut f call.block call.block call.position o.depth
    (depthAt f call.block call.position) o here
  rw [scopeDepth_of_outline here]
  rw [if_neg (size_ne_of_isSome live), if_pos rfl] at parts
  exact ⟨⟨h.intact.cut live inner, h.scopes.cut h.intact here inner.1 plain depth⟩,
    kept_of_shapes fun _ => shape?_cut, ⟨h.intact.size_ne.2, (outline_eq_some.1 parts).1⟩, _, parts⟩

lemma kept_reserve {count : Nat} (h : f.Kept) : Kept { f with locals := f.locals + count } := by
  have reserved : Alike f { f with locals := f.locals + count } := alike_of_blocks rfl rfl rfl
  exact ⟨(Trims.refl.alike reserved).intact h.intact, h.scopes.congr rfl rfl fun _ => rfl⟩

/-- Copied blocks get handlers and ends, and what they return is handed on in place of the call. -/
lemma finish_reshapes {id : ValueId} {depth : Nat} {outer : List Nat} (plan : Plan callee p) (listed : f.Listed)
    (live : ∀ e ∈ p.blocks, (f.block? e.2).isSome) (there : (f.block? tail).isSome)
    (node : (f.node? id).isSome) (still : f.turn id = .still) :
    (do
      addHandlers (callee.handlers.map p.handler)
      coverBlocks callee p.head f.handlers.length depth outer p.blocks
      let results ← endBlocks callee p depth p.blocks
      mergeResults id tail results
      jumpAll tail (results.map (·.1))
      let _ ← removeNode id
      modify fun f => f.removeTrivialPhis.1
      return tail : Edit BlockId).Meets f (fun t f' => t = tail ∧ ∃ g, Reshapes p.blocks (fun b o =>
          let o := conclude callee p depth b (deepen callee depth b o)
          if isReturn callee b then { o with targets := [tail] } else o)
        (f.withCatches (callee.handlers.map p.handler)) g ∧ Steady g f') fun _ => True := by
  refine Meets.bind (P := fun _ f' => f' = f.withCatches (callee.handlers.map p.handler)) ?_ ?_
  · refine meets_of_forall (fun _ f' run => ?_) fun _ _ _ => trivial
    rw [addHandlers_run] at run
    exact (EStateM.Result.ok.inj run).2.symm
  rintro _ _ rfl
  have listed₁ : (f.withCatches (callee.handlers.map p.handler)).Listed :=
    ⟨listed.1, listed.2, listed.3, listed.4⟩
  refine (coverBlocks_reshapes listed₁ plan.images fun _ mem => plan.eq_head_iff mem).bind fun _ f₁ covered => ?_
  refine (endBlocks_reshapes covered.listed (fun e mem => ⟨?_, ((plan.mem e.1).1 ⟨e.2, mem⟩).1⟩) plan.images).bind ?_
  · rw [covered.isSome]
    exact live e mem
  rintro results f₂ ⟨ended, returns⟩
  refine (mergeResults_reshapes (l := p.blocks) ended.listed ?_).bind fun _ f₃ merged => ?_
  · rw [ended.isSome, covered.isSome]
    exact there
  refine (jumpAll_copies merged.listed plan.images returns).bind fun _ f₄ jumped => ?_
  have ends := ((covered.comp ended).comp merged).comp jumped
  -- the call
  refine Meets.bind (P := fun _ f' => f' = f₄.dropNode id) ?_ ?_
  · refine meets_of_forall (fun _ f' run => (removeNode_eq_ok.1 run).2) fun _ _ _ => trivial
  rintro _ _ rfl
  have still₄ : f₄.turn id = .still := (ends.kept id node).2.trans still
  exact meets_modify (meets_pure ⟨rfl, f₄, ends, (Steady.dropNode still₄).trans (steady_removeTrivialPhis _)⟩)

/-- How the outlines change when a callee is expanded: as its blocks are copied, and then as steady edits do. -/
lemma expand_expanded (h : f.Kept) (intact : callee.Intact) (found : ReceiverCall.ofNode? f pool v = some call) :
    (expand call callee).Meets f (fun tail f' => ∃ p f₁ f₂ ts, Plan callee p ∧ p.head = call.block ∧ f₁.Kept ∧
      f₁.outline p.head = some ⟨ts, depthAt f call.block call.position, [tail]⟩ ∧ tail ≠ Func.exit ∧
      Expanded callee p tail (depthAt f call.block call.position) f₁ f₂ ∧ Steady f₂ f') fun _ => True := by
  obtain ⟨live, place⟩ := TailCall.call_block found
  obtain ⟨named, there, still, -⟩ := TailCall.call_node found
  have inner := TailCall.call_inner h.intact.toShaped place
  rw [expand]
  refine (splitBlock_kept h found).bind ?_
  rintro tail f₁ ⟨h₁, kept₁, ⟨outer, live₁⟩, ts, first⟩
  refine meets_get (meets_get ?_)
  rw [scopeDepth_of_outline first]
  dsimp only
  generalize depthAt f call.block call.position = depth at first ⊢
  -- the registers and the arguments
  refine Meets.bind (P := fun _ f' => f' = { f₁ with locals := f₁.locals + callee.locals }) ?_ ?_
  · refine meets_of_forall (fun _ f' run => (reserveRegisters_eq_ok.1 run).2) fun _ _ _ => trivial
  rintro base _ rfl
  refine (TailCall.storeAll_kept (s := Func.entry) (kept_reserve h₁) live₁ inner).bind ?_
  rintro _ f₂ ⟨h₂, stored⟩
  have live₂ : (f₂.block? call.block).isSome := by rw [stored.isSome]; exact live₁
  have second := stored.each _ List.mem_cons_self
  have same : ({ f₁ with locals := f₁.locals + callee.locals } : Func).outline call.block = f₁.outline call.block := rfl
  rw [same, first, Option.map_some] at second
  -- the blocks and the nodes of the callee
  refine (addBlocks_widened.also (addBlocks_yields _ h₂.intact)).bind ?_
  rintro ps f₃ ⟨widened, added⟩
  have plan (values) : Plan callee ⟨call.block, base, (Func.entry, call.block) :: ps, values⟩ :=
    plan_of_added intact added live₂ rfl rfl
  have places : ∀ e ∈ (Func.entry, call.block) :: ps, (f₃.block? e.2).isSome := by
    intro e mem
    rcases List.mem_cons.1 mem with rfl | new
    · exact added.kept _ live₂
    · exact (added.new e new).2
  refine (copyBodies_reshapes added.intact.toListed places (plan []).images).bind fun values f₄ copied => ?_
  let p : Placement := ⟨call.block, base, (Func.entry, call.block) :: ps, values⟩
  replace plan : Plan callee p := plan values
  refine meets_modify (meets_get ?_)
  have renamed : Reshapes p.blocks (fun _ => id) f₄ (renameAll p values f₄) := reshapes_renameAll copied.listed
  have steps : Reshapes p.blocks (fun b o => { o with turns := o.turns ++ copiedTurns callee (callee.nodesOf b) }) f₃
      (renameAll p values f₄) := (copied.comp renamed).congr fun _ _ => rfl
  have tailed : (f₃.block? tail).isSome := by
    have goes := (h₁.scopes.blocks _ _ first).next tail (List.mem_singleton_self _) outer
    refine added.kept tail ?_
    rw [stored.isSome]
    exact goes.1.isSome
  have kept := kept_trans kept₁ (kept_trans stored.kept (kept_trans widened.kept steps.kept)) v there
  rw [← named] at kept
  -- the handlers and the ends of its blocks
  refine (finish_reshapes plan steps.listed (fun e mem => ?_) ?_ kept.1 (kept.2.trans (named ▸ still))).imp ?_
    fun _ _ => trivial
  · rw [steps.isSome]
    exact places e mem
  · rw [steps.isSome]
    exact tailed
  rintro _ f' ⟨rfl, f₅, ends, steady⟩
  exact ⟨p, f₂, f₅, _, plan, rfl, h₂, second, outer, expanded_of_steps plan rfl live₂ widened steps ends, steady⟩

/-- The scopes stay in order when a callee is expanded, and copies are entered with the scopes of the call below
those of the callee. -/
lemma expand_kept (h : f.Kept) (kept : callee.Kept) (manned : callee.Manned)
    (flat : callee.handlers ≠ [] → depthAt f call.block call.position = 0)
    (found : ReceiverCall.ofNode? f pool v = some call) :
    (expand call callee).Meets f (fun _ f' => f'.Kept ∧ ∃ p, Plan callee p ∧ p.head = call.block ∧
      ∀ b n d, (b, n) ∈ p.blocks → b ≠ Func.entry → callee.Enters b d → n ≠ Func.exit ∧
        ((f'.block? n).isSome → f'.Enters n (d + depthAt f call.block call.position))) fun _ => True := by
  obtain ⟨live, place⟩ := TailCall.call_block found
  have inner := (TailCall.call_inner h.intact.toShaped place).1
  refine ((expand_expanded h kept.intact found).also (expand_yields h.intact kept.intact live place)).imp ?_
    fun _ _ => trivial
  rintro tail f' ⟨⟨p, f₁, f₂, ts, plan, head, before, host, outer, expanded, steady⟩, intact'⟩
  have scopes := expanded.scopes plan kept.scopes manned kept.intact host before.scopes rfl rfl
    (head ▸ inner) outer flat
  refine ⟨⟨intact', steady.scoped scopes intact'⟩, p, plan, head, fun b n d mem other entered => ⟨?_, fun there => ?_⟩⟩
  · rintro rfl
    exact absurd (lt_size_of_block? before.intact.exit.1) (Nat.not_lt.2 (expanded.new plan mem other).1)
  · obtain ⟨o, here, starts⟩ := expanded.enters_copy plan kept.intact.toListed mem other entered
    obtain ⟨o', here'⟩ := exists_outline there
    obtain ⟨o₂, here₂, within⟩ := steady.outline n o' here'
    obtain rfl := Option.some.inj (here.symm.trans here₂)
    exact ⟨o', here', within.starts starts⟩

lemma kept_of_candidate {ctx : Context} (chosen : (candidate ctx f call).1 = some callee) :
    callee.Kept ∧ callee.Manned ∧ (callee.handlers ≠ [] → depthAt f call.block call.position = 0) := by
  obtain ⟨⟨body, lifted⟩, fit⟩ := lift_of_candidate chosen
  obtain ⟨scopes, manned⟩ := MethodBody.scoped_of_lift lifted
  refine ⟨⟨intact_of_lift lifted, scopes⟩, manned, fun covers => ?_⟩
  rw [fits, Bool.and_eq_true, Bool.or_eq_true, List.isEmpty_iff, beq_iff_eq] at fit
  exact fit.2.resolve_left covers

lemma pass_scopes : pass.Scopes := by
  refine fun ctx => retains_get fun f start => Meets.bind (P := fun _ g => g.Kept) ?_ fun _ _ kept => meets_pure kept
  refine meets_expandAll (fun f v call callee h found chosen => ?_) start
  obtain ⟨kept, manned, flat⟩ := kept_of_candidate chosen
  exact (expand_kept h kept manned flat found).imp (fun _ _ rest => rest.1) fun _ _ => trivial

end Expanding

end Avm.Opt.Inlining
