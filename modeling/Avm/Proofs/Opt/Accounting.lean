import Avm.Proofs.Ir.Aging
import Avm.Proofs.Opt.Looping

/-!
# Reports account for changes

An optimization tells that it changed something by the events that it records, not by a look at the
graph.  `Accounts` says that such a count can be trusted: as long as nothing is counted the graph stays as
it is, and with what is counted the graph gets further in an order in which it cannot come back
(`Advances`).  That it cannot come back matters, since a count goes on over many steps, and a later step
must not undo what an earlier one was counted for.

Here the order is that graphs age, and for folding also that branches that are decided stay so.

The main statements are `Folding.pass_accounts`, `DeadCode.pass_accounts`, `TailCall.pass_accounts` and
`Inlining.pass_accounts`.
-/

namespace Avm.Ir

/-- Where control goes depends on an operand. -/
def Terminator.isFork : Terminator → Bool
  | .branch .. | .switch .. => true
  | _ => false

@[simp] lemma Terminator.isFork_mapOperands {g : Value → Value} (t : Terminator) :
    (t.mapOperands g).isFork = t.isFork := by
  cases t <;> rfl

namespace Func

variable {f f' g h : Func} {S : Func → Func → Prop} {n n' n'' : Nat} {v : ValueId}

/-- Graphs age, and no block begins to fork. -/
structure Settles (f g : Func) : Prop extends Ages f g where
  forks : ∀ b, (g.terminator b).isFork = true → (f.terminator b).isFork = true

namespace Settles

lemma refl (f : Func) : Settles f f := ⟨.refl f, fun _ fork => fork⟩

lemma trans (first : Settles f g) (second : Settles g h) : Settles f h :=
  ⟨first.toAges.trans second.toAges, fun b fork => first.forks b (second.forks b fork)⟩

instance : IsTrans Func Settles := ⟨fun _ _ _ => trans⟩

lemma of_sameFlow (ages : Ages f g) (same : SameFlow f g) : Settles f g := by
  refine ⟨ages, fun b fork => ?_⟩
  obtain ⟨u, eq⟩ := same.terminator b
  rwa [eq, Terminator.isFork_mapOperands] at fork

lemma dropNode (f : Func) (v : ValueId) : Settles f (f.dropNode v) :=
  of_sameFlow (ages_dropNode f v) sameFlow_dropNode

lemma replaceUses (f : Func) (v : ValueId) (new : Value) : Settles f (f.replaceUses v new) :=
  of_sameFlow (ages_replaceUses f v new) (alike_replaceUses v new).toSameFlow

end Settles

/-- One graph is further than another in an order, strictly so if it starts out as it should. -/
def Advances (R : Func → Func → Prop) (H : Func → Prop) (f g : Func) : Prop := R f g ∧ (H f → ¬R g f)

section Advancing

variable {R : Func → Func → Prop} {H : Func → Prop} [IsTrans Func R]

lemma Advances.step (first : Advances R H f g) (second : R g h) : Advances R H f h :=
  ⟨IsTrans.trans _ _ _ first.1 second, fun start back => first.2 start (IsTrans.trans _ _ _ second back)⟩

instance : IsTrans Func (Advances R H) := ⟨fun _ _ _ first second => first.step second.1⟩

end Advancing

/-- A count accounts for the step from one graph to another: nothing is counted and the graph stays, or
something is counted and the graph changes as it should. -/
inductive Accounts (S : Func → Func → Prop) (n : Nat) (f : Func) : Nat → Func → Prop
  | stay : Accounts S n f n f
  | move {n' : Nat} {g : Func} (more : n < n') (step : S f g) : Accounts S n f n' g

namespace Accounts

lemma trans [IsTrans Func S] (first : Accounts S n f n' g) (second : Accounts S n' g n'' h) :
    Accounts S n f n'' h := by
  cases first with
  | stay => exact second
  | move more step =>
    cases second with
    | stay => exact .move more step
    | move more' step' => exact .move (more.trans more') (IsTrans.trans _ _ _ step step')

lemma mono {T : Func → Func → Prop} (account : Accounts S n f n' g) (weaker : S f g → T f g) :
    Accounts T n f n' g := by
  cases account with
  | stay => exact .stay
  | move more step => exact .move more (weaker step)

lemma shift (account : Accounts S n f n' g) (k : Nat) : Accounts S (k + n) f (k + n') g := by
  cases account with
  | stay => exact .stay
  | move more step => exact .move (Nat.add_lt_add_left more k) step

lemma add [IsTrans Func S] (first : Accounts S 0 f n g) (second : Accounts S 0 g n' h) :
    Accounts S 0 f (n + n') h := first.trans (second.shift n)

lemma eq_of_zero (account : Accounts S 0 f 0 g) : g = f := by
  cases account with
  | stay => rfl
  | move more _ => cases more

lemma step_of_pos (account : Accounts S 0 f n g) (counted : 0 < n) : S f g := by
  cases account with
  | stay => cases counted
  | move _ step => exact step

lemma foldl [IsTrans Func S] {σ α : Type} {c : σ → Nat} {step : Func × σ → α → Func × σ}
    (each : ∀ s a, Accounts S (c s.2) s.1 (c (step s a).2) (step s a).1) (l : List α) (s : Func × σ) :
    Accounts S (c s.2) s.1 (c (l.foldl step s).2) (l.foldl step s).1 := by
  induction l generalizing s with
  | nil => exact .stay
  | cons a l ih => exact (each s a).trans (ih _)

end Accounts

section Cleaning

variable {H : Func → Prop}

lemma isSome_node?_of_kind? {k : NodeKind} (here : f.kind? v = some k) : (f.node? v).isSome := by
  obtain ⟨n, found, -⟩ := Option.map_eq_some_iff.1 here
  rw [found]
  rfl

lemma accounts_replace (live : (f.node? v).isSome) (new : Value) :
    Accounts (Advances Settles H) n f (n + 1) ((f.replaceUses v new).dropNode v) := by
  have replaced := Settles.replaceUses f v new
  refine .move (Nat.lt_succ_self n) ⟨replaced.trans (Settles.dropNode _ v), fun _ back => ?_⟩
  have there : ((f.replaceUses v new).node? v).isSome := by
    have owner := (alike_replaceUses (f := f) v new).owner v
    rw [← Option.isSome_map (f := (·.block)), owner, Option.isSome_map]
    exact live
  exact not_ages_dropNode there (back.toAges.trans replaced.toAges)

lemma settles_dropNodes (vs : List ValueId) (f : Func) : Settles f (vs.foldl dropNode f) := by
  induction vs generalizing f with
  | nil => exact .refl f
  | cons v vs ih => exact (Settles.dropNode f v).trans (ih _)

/-- If nodes are dropped, the first of them was there; the others may be named twice. -/
lemma accounts_dropNodes {vs : List ValueId} (live : H f → ∀ v ∈ vs, (f.node? v).isSome) :
    Accounts (Advances Settles H) n f (n + vs.length) (vs.foldl dropNode f) := by
  cases vs with
  | nil => exact .stay
  | cons v vs =>
    refine .move (Nat.lt_add_of_pos_right (Nat.succ_pos _)) ⟨settles_dropNodes _ f, fun start back => ?_⟩
    have there := live start v List.mem_cons_self
    exact not_ages_dropNode there ((settles_dropNodes vs _).toAges.trans back.toAges)

lemma accounts_removeTrivialPhi (acc : Func × Nat) (v : ValueId) :
    Accounts (Advances Settles H) acc.2 acc.1 (removeTrivialPhi acc v).2 (removeTrivialPhi acc v).1 := by
  rw [removeTrivialPhi]
  split
  · rename_i value trivial_
    refine accounts_replace ?_ value
    cases here : acc.1.node? v with
    | some m => rfl
    | none => simp [trivialValue?, merged, inputs?_eq, here] at trivial_
  · exact .stay

lemma accounts_removeTrivialPhisLoop (fuel : Nat) (acc : Func × Nat) : Accounts (Advances Settles H) acc.2 acc.1
    (removeTrivialPhisLoop fuel acc).2 (removeTrivialPhisLoop fuel acc).1 := by
  induction fuel generalizing acc with
  | zero => exact .stay
  | succ fuel ih =>
    have once := Accounts.foldl (c := id) (S := Advances Settles H) accounts_removeTrivialPhi acc.1.nodeIds acc
    rw [removeTrivialPhisLoop]
    split
    · exact once
    · exact once.trans (ih _)

lemma accounts_removeTrivialPhis (f : Func) :
    Accounts (Advances Settles H) 0 f f.removeTrivialPhis.2 f.removeTrivialPhis.1 :=
  accounts_removeTrivialPhisLoop _ (f, 0)

lemma accounts_removeCopy (acc : Func × Nat) (v : ValueId) :
    Accounts (Advances Settles H) acc.2 acc.1 (removeCopy acc v).2 (removeCopy acc v).1 := by
  rw [removeCopy]
  split
  · rename_i value copied
    refine accounts_replace ?_ value
    rw [copiedValue?] at copied
    split at copied
    · rename_i here
      exact isSome_node?_of_kind? here
    · rename_i here
      exact isSome_node?_of_kind? here
    · cases copied
  · exact .stay

lemma accounts_removeRedundantCopies (f : Func) :
    Accounts (Advances Settles H) 0 f f.removeRedundantCopies.2 f.removeRedundantCopies.1 :=
  Accounts.foldl (c := id) accounts_removeCopy f.nodeIds (f, 0)

lemma isSome_node?_of_mem_deadNodes (mem : v ∈ f.deadNodes) : (f.node? v).isSome := by
  have dead := (List.mem_filter.1 mem).2
  cases here : f.kind? v with
  | none =>
    rw [here] at dead
    cases dead
  | some k => exact isSome_node?_of_kind? here

lemma accounts_removeDeadLoop (fuel : Nat) (acc : Func × Nat) : Accounts (Advances Settles H) acc.2 acc.1
    (removeDeadLoop fuel acc).2 (removeDeadLoop fuel acc).1 := by
  induction fuel generalizing acc with
  | zero => exact .stay
  | succ fuel ih =>
    rw [removeDeadLoop]
    split
    · exact .stay
    · exact (accounts_dropNodes fun _ _ => isSome_node?_of_mem_deadNodes).trans (ih (_, _))

lemma accounts_removeDeadNodes (f : Func) :
    Accounts (Advances Settles H) 0 f f.removeDeadNodes.2 f.removeDeadNodes.1 :=
  accounts_removeDeadLoop _ (f, 0)

end Cleaning

end Func

end Avm.Ir

namespace Avm.Opt

open Avm.Ir Avm.Ir.Func Avm.Ir.Edit

variable {f g : Func} {m : MethodId} {S : Func → Func → Prop} {H : Func → Prop}

namespace Report

/-- The number of changes that a report tells of. -/
def changes (r : Report) : Nat := EventLog.transformations r.events

lemma changed_eq (r : Report) : r.changed = decide (0 < r.changes) := by
  rw [Bool.eq_iff_iff, decide_eq_true_iff, changed, changes, EventLog.transformations, List.countP_pos_iff,
    List.any_eq_true]

@[simp] lemma changes_empty : ({} : Report).changes = 0 := rfl

@[simp] lemma changes_andThen (a b : Report) : (a.andThen b).changes = a.changes + b.changes :=
  List.countP_append

lemma changes_event {e : Event} (changing : e.kind.isTransformation = true) : (event e).changes = 1 := by
  simp [changes, EventLog.transformations, event, changing]

lemma changes_noticedFirst (r : Report) : r.noticedFirst.changes = r.changes := by
  have split : r.events.partition (·.kind.isDiagnostic) = (r.events.filter (·.kind.isDiagnostic),
      r.events.filter fun e => !e.kind.isDiagnostic) := List.partition_eq_filter_filter ..
  rw [changes, changes, noticedFirst, split]
  exact (List.filter_append_perm (·.kind.isDiagnostic) r.events).countP_eq _

lemma accounts_counted {n : Nat} {kind : EventKind} (account : Accounts S 0 f n g)
    (changing : kind.isTransformation = true) (message : String) :
    Accounts S 0 f (counted n kind m message).changes g := by
  cases account with
  | stay => exact .stay
  | move more step =>
    rw [counted, if_neg more.ne', changes_event changing]
    exact .move Nat.one_pos step

/-- Going on while there are changes adds up the changes of the turns, and the last turn has none. -/
lemma meets_again [IsTrans Func S] {report more : Report} {again : Report → Edit Report}
    (account : Func.Accounts S 0 f more.changes g) (next : (again (report.andThen more)).Meets g
      (fun r h => Func.Accounts S (report.andThen more).changes g r.changes h) fun _ => True) :
    (if more.changed then again (report.andThen more) else pure report).Meets g
      (fun r h => Func.Accounts S report.changes f r.changes h) fun _ => True := by
  split
  · refine next.imp (fun r h rest => ?_) fun _ _ => trivial
    rw [changes_andThen] at rest
    exact (account.shift report.changes).trans rest
  · rename_i none
    rw [changed_eq, decide_eq_true_iff, Nat.not_lt, Nat.le_zero] at none
    rw [none] at account
    rw [account.eq_of_zero]
    exact meets_pure .stay

end Report

/-- What an optimization tells accounts for what it does, if it succeeds. -/
def Pass.Accounts (p : Pass) (S : Func → Func → Prop) : Prop :=
  ∀ ctx f, (p.run ctx).Meets f (fun r g => Func.Accounts S 0 f r.changes g) fun _ => True

namespace DeadCode

/-- Every node that a block lists is there. -/
def Stocked (f : Func) : Prop := ∀ v ∈ f.nodeIds, (f.node? v).isSome

lemma settles_removeBlocks {bs : List BlockId} {a : Unit} (run : (Lift.removeBlocks bs).run f = .ok a g) :
    Settles f g := by
  refine Lift.removeBlocks_induction run (.refl f) fun f₁ b x so _ here => so.trans ⟨ages_without f₁ b x, ?_⟩
  intro t fork
  rw [terminator_without] at fork
  split at fork
  · cases fork
  · exact fork

lemma accounts_removeBlocks {bs : List BlockId} {a : Unit} (run : (Lift.removeBlocks bs).run f = .ok a g) :
    Func.Accounts (Advances Settles H) 0 f bs.length g := by
  have settles := settles_removeBlocks run
  cases bs with
  | nil =>
    obtain ⟨-, rfl⟩ := Edit.pure_eq_ok.1 run
    exact .stay
  | cons b bs =>
    obtain ⟨_, f₁, first, rest⟩ := Edit.bind_eq_ok.1 run
    obtain ⟨-, x, here, rfl⟩ := Edit.removeBlock_eq_ok.1 first
    refine .move (Nat.succ_pos _) ⟨settles, fun _ back => ?_⟩
    refine not_ages_without ?_ ((settles_removeBlocks rest).toAges.trans back.toAges)
    rw [here]
    rfl

lemma removeUnreachable_accounts :
    removeUnreachable.Meets f (fun n g => Func.Accounts (Advances Settles H) 0 f n g) fun _ => True := by
  refine meets_get (Meets.bind (P := fun _ g =>
    Func.Accounts (Advances Settles H) 0 f (unreachableBlocks f).length g) ?_ fun _ _ account => ?_)
  · exact meets_of_forall (fun _ g run => accounts_removeBlocks run) fun _ _ _ => trivial
  · exact meets_pure account

lemma accounts_sweep (f : Func) : Func.Accounts (Advances Settles Stocked) 0 f (sweep f).2 (sweep f).1 := by
  have live (stocked : Stocked f) : ∀ v ∈ f.nodeIds.filter fun v => !(neededNodes f).has v, (f.node? v).isSome :=
    fun v mem => stocked v (List.mem_of_mem_filter mem)
  have dropped := accounts_dropNodes (n := 0) live
  rwa [Nat.zero_add] at dropped

lemma once_accounts : (once m).Meets f
    (fun r g => Func.Accounts (Advances Settles Stocked) 0 f r.changes g) fun _ => True := by
  rw [once]
  refine (removeUnreachable_accounts (H := Stocked)).bind fun n f₁ blocks => meets_get ?_
  have phis := accounts_removeTrivialPhis (H := Stocked) f₁
  generalize f₁.removeTrivialPhis = p at phis ⊢
  have nodes := accounts_sweep p.1
  dsimp only
  generalize sweep p.1 = q at nodes ⊢
  refine meets_set (meets_pure ?_)
  rw [Report.changes_andThen, Report.changes_andThen]
  exact (Report.accounts_counted blocks rfl _).add
    ((Report.accounts_counted phis rfl _).add (Report.accounts_counted nodes rfl _))

lemma loop_accounts (fuel : Nat) (report : Report) : (loop m fuel report).Meets f
    (fun r g => Func.Accounts (Advances Settles Stocked) report.changes f r.changes g) fun _ => True := by
  induction fuel generalizing f report with
  | zero => exact meets_pure .stay
  | succ fuel ih =>
    rw [loop]
    refine once_accounts.bind fun more f₁ account => ?_
    exact Report.meets_again account (ih _)

lemma pass_accounts : pass.Accounts (Advances Settles Stocked) := fun _ _ => loop_accounts 100 {}

end DeadCode

namespace Folding

lemma accounts_foldNode (acc : Func × Report) (v : ValueId) : Func.Accounts (Advances Settles H) acc.2.changes
    acc.1 (foldNode m acc v).2.changes (foldNode m acc v).1 := by
  rw [foldNode]
  split
  · exact .stay
  · rename_i c constant
    rw [Report.changes_andThen, Report.changes_event rfl]
    refine accounts_replace ?_ _
    rw [nodeConstant?] at constant
    split at constant
    · rename_i here
      exact isSome_node?_of_kind? here
    · rename_i here
      exact isSome_node?_of_kind? here
    · cases constant

lemma accounts_foldNodes (f : Func) :
    Func.Accounts (Advances Settles H) 0 f (foldNodes m f).2.changes (foldNodes m f).1 :=
  Accounts.foldl (c := Report.changes) accounts_foldNode f.nodeIds (f, {})

lemma settles_goto {b t : BlockId} {a : Unit} (run : (setTerminator b (.goto t)).run f = .ok a g) :
    Settles f g ∧ (g.terminator b).isFork = false := by
  have ages := ages_setTerminator.of_run run
  obtain ⟨-, live, rfl⟩ := setTerminator_eq_ok.1 run
  refine ⟨⟨ages, fun c fork => ?_⟩, ?_⟩
  · rw [terminator_reend live] at fork
    split at fork
    · cases fork
    · exact fork
  · rw [terminator_reend live, if_pos rfl]
    rfl

lemma foldBranches_settles (l : List (BlockId × BlockId)) (report : Report) :
    (foldBranches m l report).Meets f
      (fun r g => Settles f g ∧ r.changes = report.changes + l.length) fun _ => True := by
  induction l generalizing f report with
  | nil => exact meets_pure ⟨.refl f, rfl⟩
  | cons e l ih =>
    rw [foldBranches]
    refine Meets.bind (P := fun _ g => Settles f g) ?_ fun _ f₁ settles => ?_
    · exact meets_of_forall (fun _ g run => (settles_goto run).1) fun _ _ _ => trivial
    · refine (ih (f := f₁) _).imp (fun r g rest => ⟨settles.trans rest.1, ?_⟩) fun _ _ => trivial
      rw [rest.2, Report.changes_andThen, Report.changes_event rfl, List.length_cons]
      omega

lemma isFork_of_mem_decidedBlocks {e : BlockId × BlockId} (mem : e ∈ decidedBlocks f) :
    (f.terminator e.1).isFork = true := by
  obtain ⟨b, -, found⟩ := List.mem_filterMap.1 mem
  obtain ⟨t, decided, rfl⟩ := Option.map_eq_some_iff.1 found
  obtain ⟨x, here, decided⟩ := Option.bind_eq_some_iff.1 decided
  rw [terminator_of_block? here]
  cases end_ : x.terminator with
  | branch kind operands onTrue onFalse => rfl
  | «switch» index default cases => rfl
  | _ =>
    rw [end_] at decided
    cases decided

lemma foldBranches_accounts {l : List (BlockId × BlockId)}
    (forks : ∀ e ∈ l, (f.terminator e.1).isFork = true) :
    (foldBranches m l {}).Meets f (fun r g => Func.Accounts (Advances Settles H) 0 f r.changes g)
      fun _ => True := by
  cases l with
  | nil => exact meets_pure .stay
  | cons e l =>
    rw [foldBranches]
    refine Meets.bind (P := fun _ g => Settles f g ∧ (g.terminator e.1).isFork = false) ?_
      fun _ f₁ first => ?_
    · exact meets_of_forall (fun _ g run => settles_goto run) fun _ _ _ => trivial
    · refine (foldBranches_settles l _).imp (fun r g rest => ?_) fun _ _ => trivial
      refine .move ?_ ⟨first.1.trans rest.1, fun _ back => ?_⟩
      · rw [rest.2, Report.changes_andThen, Report.changes_event rfl]
        omega
      · have again := (rest.1.trans back).forks e.1 (forks e List.mem_cons_self)
        rw [first.2] at again
        cases again

lemma once_accounts : (once m).Meets f (fun r g => Func.Accounts (Advances Settles H) 0 f r.changes g)
    fun _ => True := by
  rw [once]
  refine meets_get ?_
  have nodes := accounts_foldNodes (m := m) (H := H) f
  generalize foldNodes m f = p at nodes ⊢
  have phis := accounts_removeTrivialPhis (H := H) p.1
  dsimp only
  generalize p.1.removeTrivialPhis = q at phis ⊢
  have forks := fun e => isFork_of_mem_decidedBlocks (f := q.1) (e := e)
  refine meets_set ((foldBranches_accounts (H := H) forks).bind fun r f₁ branches => ?_)
  refine (DeadCode.removeUnreachable_accounts (H := H)).bind fun n f₂ blocks => meets_pure ?_
  simp only [Report.changes_andThen]
  exact nodes.add ((Report.accounts_counted phis rfl _).add
    (branches.add (Report.accounts_counted blocks rfl _)))

lemma loop_accounts (fuel : Nat) (report : Report) : (loop m fuel report).Meets f
    (fun r g => Func.Accounts (Advances Settles H) report.changes f r.changes g) fun _ => True := by
  induction fuel generalizing f report with
  | zero => exact meets_pure .stay
  | succ fuel ih =>
    rw [loop]
    refine (once_accounts (H := H)).bind fun more f₁ account => ?_
    exact Report.meets_again account (ih _)

lemma pass_accounts : pass.Accounts (Advances Settles H) := fun _ _ => meets_get (loop_accounts _ {})

end Folding

namespace TailCall

variable {b : BlockId} {ctx : Context} {call : ReceiverCall} {P : Func → Prop}

lemma isSome_node?_of_ofNode? {pool : Pool} {v : ValueId} (found : ReceiverCall.ofNode? f pool v = some call) :
    (f.node? call.id).isSome := by
  obtain ⟨rfl, _, _, _, there, -⟩ := exists_of_ofNode? found
  rw [there]
  rfl

lemma eliminate_advances (live : (f.node? call.id).isSome) :
    (eliminate call).Meets f (fun _ g => Advances Ages H f g) fun _ => True := by
  let Saved (g : Func) : Prop := Ages f g ∧ (g.node? call.id).isSome
  have put (index : Nat) (kind : NodeKind) : (insertNode call.block index kind).Retains Saved := by
    refine retains_of_run fun g v g' saved run => ?_
    obtain ⟨-, -, -, rfl⟩ := insertNode_eq_ok.1 run
    refine ⟨saved.1.trans (ages_putNode g call.block index kind), ?_⟩
    rw [node?_putNode_of_isSome saved.2]
    exact saved.2
  rw [eliminate]
  refine meets_get ((retains_saveArgs (fun index x => put index _) f ⟨.refl f, live⟩).bind fun args f₁ saved => ?_)
  have dropped : Advances Ages H f (f₁.dropNode call.id) :=
    ⟨saved.1.trans (ages_dropNode f₁ call.id), fun _ back => not_ages_dropNode saved.2 (back.trans saved.1)⟩
  refine Meets.bind (P := fun _ g => Advances Ages H f g) ?_ fun _ f₂ advanced => ?_
  · refine meets_of_forall (fun _ g run => ?_) fun _ _ _ => trivial
    obtain ⟨-, rfl⟩ := removeNode_eq_ok.1 run
    exact dropped
  · refine meets_of_forall (fun _ g run => advanced.step (Edit.Ages.of_run ?_ run)) fun _ _ _ => trivial
    have storeAll {l} : (storeAll call.block l).Ages := fun f₀ => retains_storeAll fun _ _ => ages_appendNode f₀
    refine storeAll.bind fun _ => storeAll.bind fun _ => ages_get fun f => ?_
    refine Edit.Ages.bind (fun f₀ => retains_popScopes (ages_appendNode f₀) _) fun _ => ages_modifyBlock.bind fun _ =>
      ?_
    refine Edit.Ages.bind (fun f₀ => retains_start fun _ _ _ => splitEdge_grows.ages f₀) fun _ => ?_
    exact ages_setTerminator.bind fun _ => ages_pure

lemma eliminateAll_accounts (bs : List BlockId) (report : Report) : (eliminateAll ctx bs report).Meets f
    (fun r g => Func.Accounts (Advances Ages H) report.changes f r.changes g) fun _ => True := by
  induction bs generalizing f report with
  | nil => exact meets_pure .stay
  | cons b bs ih =>
    refine meets_get ?_
    cases found : selfCall? f ctx b with
    | none => exact ih report
    | some call =>
      obtain ⟨v, -, -, -, -, node, -⟩ := selfCall?_eq_some_iff.1 found
      refine (eliminate_advances (H := H) (isSome_node?_of_ofNode? node)).bind fun _ f₁ advanced => ?_
      refine (ih (f := f₁) _).imp (fun r g rest => Accounts.trans (.move ?_ advanced) rest) fun _ _ => trivial
      rw [Report.changes_andThen, Report.changes_event rfl]
      exact Nat.lt_succ_self _

lemma pass_accounts : pass.Accounts (Advances Ages H) := fun _ _ => meets_get (eliminateAll_accounts _ {})

end TailCall

namespace Inlining

variable {callee : Func} {b target : BlockId} {ctx : Context} {call : ReceiverCall}

lemma ages_removeTrivialPhis (f : Func) : Ages f f.removeTrivialPhis.1 := by
  have account := accounts_removeTrivialPhis (H := fun _ => True) f
  generalize f.removeTrivialPhis = p at account ⊢
  obtain ⟨g, n⟩ := p
  cases account with
  | stay => exact .refl _
  | move _ step => exact step.1.toAges

lemma endures_ages (f₀ : Func) : Endures callee (Ages f₀) where
  addBlock := ages_addBlock f₀
  addHandler _ := ages_addHandler f₀
  reserve _ := ages_reserveRegisters f₀
  store _ _ _ := ages_appendNode f₀
  pop _ := ages_appendNode f₀
  copy _ _ _ _ := ages_appendNode f₀
  merge _ _ := ages_appendNode f₀
  depth _ _ := ages_modifyBlock f₀
  cover _ _ := ages_setHandlers f₀
  finish _ _ _ _ _ := ages_setTerminator f₀
  jump _ _ := ages_setTerminator f₀
  rename _ f _ start := start.trans (ages_modifyKind f _ _)
  replace f _ _ start := start.trans (ages_replaceUses f _ _)
  remove _ := ages_removeNode f₀
  trim f start := start.trans (ages_removeTrivialPhis f)

lemma expand_grows : (expand call callee).Grows := fun f => (endures_ages _).expand (splitBlock_grows f)

lemma changes_candidate (ctx : Context) (f : Func) (call : ReceiverCall) : (candidate ctx f call).2.changes = 0 := by
  rw [candidate]
  split
  · rfl
  · split
    · rfl
    · dsimp only
      split
      · rfl
      · split
        · rfl
        · split
          · rfl
          · rfl

lemma expandAll_accounts (vs : List ValueId) (report : Report) : (expandAll ctx vs report).Meets f
    (fun r g => Func.Accounts (Advances Ages H) report.changes f r.changes g) fun _ => True := by
  induction vs generalizing f report with
  | nil => exact meets_pure .stay
  | cons v vs ih =>
    refine meets_get ?_
    split
    · exact ih report
    · rename_i call found
      refine meets_get ?_
      have quiet := changes_candidate ctx f call
      generalize candidate ctx f call = c at quiet ⊢
      obtain ⟨chosen, noticed⟩ := c
      dsimp only at quiet ⊢
      cases chosen with
      | none =>
        have rest := ih (f := f) (report.andThen noticed)
        rwa [Report.changes_andThen, quiet, Nat.add_zero] at rest
      | some callee =>
        refine (expand_grows f).bind fun tail f₁ grown => ?_
        refine (ih (f := f₁) _).imp (fun r g rest => Accounts.trans (.move ?_ ?_) rest) fun _ _ => trivial
        · rw [Report.changes_andThen, Report.changes_andThen, Report.changes_event rfl]
          omega
        · exact ⟨(ages_pushBlock f).trans grown, fun _ => not_ages_of_pushBlock grown⟩

lemma pass_accounts : pass.Accounts (Advances Ages H) := by
  refine fun ctx f => meets_get ((expandAll_accounts (H := H) _ {}).bind fun r g account => meets_pure ?_)
  rw [Report.changes_noticedFirst]
  exact account

end Inlining

end Avm.Opt
