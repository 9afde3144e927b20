import Avm.Proofs.Opt.Forwarding
import Avm.Proofs.Opt.Relocating
import Avm.Proofs.Opt.Upkeep

/-!
# Schedules end at a fixed point

A schedule goes on as long as reports tell of changes.  Since reports can be trusted, it ends where no
optimization of the schedule changes anything, unless it is stopped.  That an optimization that tells of no
change has not changed the graph holds of every graph.  That one that tells of a change has changed it holds
of graphs in which nodes are listed once and edges are known at both ends (`Func.Tidy`), which is what edits
keep; without that the same node could be moved, or the same operand replaced, at two places in turn.

The main statement is `settled_of_run`.
-/

namespace Avm.Ir.Func

variable {f g : Func}

/-- What a graph says that a method does. -/
def contents (f : Func) : Array (Option Block) × Array (Option Node) × List Catch := (f.blocks, f.nodes, f.handlers)

/-- What edits keep of every graph: no node is listed twice, and edges are known at both ends. -/
structure Tidy (f : Func) : Prop where
  once : f.nodeIds.Nodup
  linked : ∀ t, (f.block? t).isSome → ∀ s kind, (f.preds t).count (s, kind) = (f.succs s).count (t, kind)

lemma Listed.nodup_nodeIds (h : Listed f) : f.nodeIds.Nodup := by
  rw [nodeIds, List.nodup_flatMap]
  refine ⟨fun b _ => h.nodup b, nodup_blockIds.imp fun {b t} other v mem mem' => ?_⟩
  have owner := h.owned b v mem
  rw [h.owned t v mem'] at owner
  exact other (Option.some.inj owner).symm

/-- A graph that passes the check is tidy, whatever edits made it. -/
lemma tidy_of_lawful (h : Lawful f) (verified : f.verify = .ok ()) : Tidy f :=
  ⟨h.toListed.nodup_nodeIds, fun t _ s kind => h.count_preds verified t s kind⟩

lemma tidy_of_intact (h : Intact f) : Tidy f := tidy_of_lawful h.toShaped.toLawful (verify_of_intact h)

section Checked

variable (verified : f.verify = .ok ())
include verified

lemma owned_of_verify {b : BlockId} {v : ValueId} (mem : v ∈ f.nodesOf b) :
    (f.node? v).map (·.block) = some b := by
  obtain ⟨x, here⟩ := Option.isSome_iff_exists.1 (isSome_of_mem_nodesOf mem)
  obtain ⟨-, -, owned, -⟩ := verifyBlock_eq_ok.1 (verify_eq_ok.1 verified b x here)
  refine owned v ?_
  rwa [nodesOf, phis_of_block? here, body_of_block? here] at mem

lemma stocked_of_verify : Opt.DeadCode.Stocked f := by
  intro v mem
  obtain ⟨b, -, mem⟩ := List.mem_flatMap.1 mem
  cases there : f.node? v with
  | none =>
    have owner := owned_of_verify verified mem
    rw [there] at owner
    cases owner
  | some n => rfl

lemma placed_of_verify (tidy : Tidy f) : Placed f where
  owned b v mem := owned_of_verify verified (List.mem_append_right _ mem)
  entered s t kind mem := by
    rw [← List.count_pos_iff, ← tidy.linked t (isSome_of_mem_preds mem), List.count_pos_iff]
    exact mem

lemma regular_of_verify (tidy : Tidy f) : Opt.Copying.Regular f where
  owned b v mem := owned_of_verify verified mem
  once b := by
    cases here : f.block? b with
    | none =>
      rw [nodesOf, (parts_of_isNone here).1, (parts_of_isNone here).2.1]
      exact List.nodup_nil
    | some x => exact (List.nodup_flatMap.1 tidy.once).1 b (mem_blockIds.2 (here ▸ rfl))
  wired := wired_of_verify verified
  linked := tidy.linked

end Checked

section Contents

variable (same : g.contents = f.contents)
include same

lemma blocks_of_contents : g.blocks = f.blocks := congrArg Prod.fst same

lemma nodes_of_contents : g.nodes = f.nodes := congrArg (fun p => p.2.1) same

lemma handlers_of_contents : g.handlers = f.handlers := congrArg (fun p => p.2.2) same

lemma ages_of_contents : Ages g f :=
  .of_eq (blocks_of_contents same).symm (nodes_of_contents same).symm

lemma settles_of_contents : Settles g f := by
  refine ⟨ages_of_contents same, fun b fork => ?_⟩
  rwa [terminator, block?, blocks_of_contents same]

lemma lessens_of_contents : Opt.Copying.Lessens g f := by
  refine ⟨settles_of_contents same, fun _ _ => ?_⟩
  cases f
  cases g
  -- What is left of the two graphs differs in numbers that neither reads.
  cases blocks_of_contents same
  cases nodes_of_contents same
  cases handlers_of_contents same
  refine ⟨?_, le_of_eq rfl⟩
  exact { Opt.Copying.Skeleton.refl _ with catches := rfl }

end Contents

end Avm.Ir.Func

namespace Avm.Opt

open Avm.Ir Avm.Ir.Func Avm.Ir.Edit

variable {f g : Func} {ctx : Context} {s : Schedule} {p : Pass}

section Reports

variable (mem : p ∈ Pass.all) {r : Report} (run : (p.run ctx).run f = .ok r g)
include mem run

lemma Pass.eq_of_unchanged (unchanged : r.changed = false) : g = f := by
  rw [Report.changed_eq, decide_eq_false_iff_not, Nat.not_lt, Nat.le_zero] at unchanged
  have stays {S} (accounts : p.Accounts S) : g = f := by
    have account := (accounts ctx f).of_ok run
    rw [unchanged] at account
    exact account.eq_of_zero
  simp only [Pass.all, List.mem_cons, List.not_mem_nil, or_false] at mem
  obtain rfl | rfl | rfl | rfl | rfl | rfl := mem
  · exact stays (Folding.pass_accounts (H := fun _ => True))
  · exact stays Copying.pass_accounts
  · exact stays DeadCode.pass_accounts
  · exact stays Hoisting.pass_accounts
  · exact stays (TailCall.pass_accounts (H := fun _ => True))
  · exact stays (Inlining.pass_accounts (H := fun _ => True))

/-- An optimization that tells of a change has changed a block, a node or a handler. -/
lemma Pass.contents_ne_of_changed (verified : f.verify = .ok ()) (tidy : Tidy f)
    (changed : r.changed = true) : g.contents ≠ f.contents := by
  rw [Report.changed_eq, decide_eq_true_iff] at changed
  intro same
  have moves {S} (accounts : p.Accounts S) : S f g := ((accounts ctx f).of_ok run).step_of_pos changed
  simp only [Pass.all, List.mem_cons, List.not_mem_nil, or_false] at mem
  obtain rfl | rfl | rfl | rfl | rfl | rfl := mem
  · exact (moves (Folding.pass_accounts (H := fun _ => True))).2 trivial (settles_of_contents same)
  · exact (moves Copying.pass_accounts).2 (regular_of_verify verified tidy) (lessens_of_contents same)
  · exact (moves DeadCode.pass_accounts).2 (stocked_of_verify verified) (settles_of_contents same)
  · obtain older | ⟨v, away⟩ := moves Hoisting.pass_accounts (placed_of_verify verified tidy)
    · exact older (ages_of_contents same)
    · rw [Func.home, node?, nodes_of_contents same] at away
      exact away rfl
  · exact (moves (TailCall.pass_accounts (H := fun _ => True))).2 trivial (ages_of_contents same)
  · exact (moves (Inlining.pass_accounts (H := fun _ => True))).2 trivial (ages_of_contents same)

end Reports

/-- An optimization has nothing to do at a graph: if it applies, it leaves the graph and says so. -/
def Pass.Rests (p : Pass) (ctx : Context) (f : Func) : Prop :=
  p.applies f = true → ∃ r, (p.run ctx).run f = .ok r f ∧ r.changed = false

/-- A run that tells of no change stayed where every listed optimization rests. -/
def Settled (ctx : Context) (ps : List Pass) (f : Func) (r : Report) (g : Func) : Prop :=
  r.changed = false → g = f ∧ ∀ p ∈ ps, p.Rests ctx f

lemma Report.changed_andThen {a b : Report} :
    (a.andThen b).changed = false ↔ a.changed = false ∧ b.changed = false := by
  simp only [Report.changed_eq, Report.changes_andThen, decide_eq_false_iff_not]
  omega

lemma Pass.runChecked_settled (mem : p ∈ Pass.all) :
    (p.runChecked ctx).Meets f (Settled ctx [p] f) fun _ => True := by
  rw [Pass.runChecked]
  refine meets_get ?_
  split
  · refine Meets.bind (P := fun r g => (p.run ctx).run f = .ok r g) ?_ fun r g run => ?_
    · exact meets_of_forall (fun _ _ run => run) fun _ _ _ => trivial
    · have same := Pass.eq_of_unchanged mem run
      cases changed : r.changed with
      | true =>
        refine meets_get (meets_of_forall (fun r' g' run' => ?_) fun _ _ _ => trivial)
        obtain ⟨_, _, -, last⟩ := Edit.bind_eq_ok.1 run'
        obtain ⟨rfl, rfl⟩ := Edit.pure_eq_ok.1 last
        exact fun unchanged => absurd (changed.symm.trans unchanged) (by rintro ⟨⟩)
      | false =>
        refine meets_pure fun _ => ⟨same changed, fun q listed _ => ?_⟩
        cases List.mem_singleton.1 listed
        have stays := same changed
        subst stays
        exact ⟨r, run, changed⟩
  · rename_i idle
    refine meets_pure fun _ => ⟨rfl, fun q listed applies => ?_⟩
    cases List.mem_singleton.1 listed
    exact absurd applies idle

namespace Schedule

lemma runAll_settled {ps : List Pass} (known : ∀ p ∈ ps, p ∈ Pass.all) :
    (runAll ctx ps).Meets f (Settled ctx ps f) fun _ => True := by
  induction ps generalizing f with
  | nil => exact meets_pure fun _ => ⟨rfl, nofun⟩
  | cons p ps ih =>
    rw [runAll]
    refine (Pass.runChecked_settled (known p List.mem_cons_self)).bind fun first f₁ settled => ?_
    refine (ih fun q mem => known q (List.mem_cons_of_mem _ mem)).bind fun rest f₂ settled' => ?_
    refine meets_pure fun unchanged => ?_
    obtain ⟨quiet, quiet'⟩ := Report.changed_andThen.1 unchanged
    obtain ⟨rfl, rests⟩ := settled quiet
    obtain ⟨rfl, rests'⟩ := settled' quiet'
    exact ⟨rfl, List.forall_mem_cons.2 ⟨rests p (List.mem_singleton.2 rfl), rests'⟩⟩

/-- The first turn that changes nothing is the last one, and one that changes something is told of. -/
lemma normalize_settled (known : s.Known) {turns : Nat} (some_turn : 1 ≤ turns) :
    (s.normalize ctx turns).Meets f (Settled ctx s.normalizing f) fun _ => True := by
  obtain ⟨n, rfl⟩ := Nat.exists_eq_add_of_le' some_turn
  rw [normalize]
  refine (runAll_settled known.normalizing).bind fun report f₁ settled => ?_
  split
  · rename_i changed
    refine meets_of_forall (fun r g run unchanged => ?_) fun _ _ _ => trivial
    obtain ⟨more, f₂, -, last⟩ := Edit.bind_eq_ok.1 run
    obtain ⟨rfl, rfl⟩ := Edit.pure_eq_ok.1 last
    exact absurd (changed.symm.trans (Report.changed_andThen.1 unchanged).1) (by rintro ⟨⟩)
  · exact meets_pure settled

lemma improve_settled (known : s.Known) {turns : Nat} (some_turn : 1 ≤ turns) :
    (s.improve ctx turns).Meets f (Settled ctx s.improving f) fun _ => True := by
  obtain ⟨n, rfl⟩ := Nat.exists_eq_add_of_le' some_turn
  rw [improve]
  refine (runAll_settled known.improving).bind fun report f₁ settled => ?_
  split
  · rename_i changed
    refine meets_of_forall (fun r g run unchanged => ?_) fun _ _ _ => trivial
    obtain ⟨tidied, f₂, -, run⟩ := Edit.bind_eq_ok.1 run
    obtain ⟨more, f₃, -, last⟩ := Edit.bind_eq_ok.1 run
    obtain ⟨rfl, rfl⟩ := Edit.pure_eq_ok.1 last
    have quiet := (Report.changed_andThen.1 (Report.changed_andThen.1 unchanged).1).1
    exact absurd (changed.symm.trans quiet) (by rintro ⟨⟩)
  · exact meets_pure settled

/-- What a run of a schedule says if it is stopped. -/
def capWarning (s : Schedule) (ctx : Context) : Event where
  kind := .warning
  message := ctx.method.text ++ s!": optimization stopped after {s.rounds} rounds"

/-- Rounds end where the whole schedule rests, unless there is none left. -/
lemma runRounds_settled (known : s.Known) (some_turn : 1 ≤ s.turns) {done left : Nat}
    (rounds : done + left = s.rounds) : (s.runRounds ctx done left).Meets f
      (fun o g => s.capWarning ctx ∉ o.events → ∀ p ∈ s.normalizing ++ s.improving, p.Rests ctx g)
      fun _ => True := by
  induction left generalizing f done with
  | zero =>
    -- Here the rounds are used up, so what is said is the warning.
    refine meets_pure fun quiet => absurd (List.mem_singleton.2 ?_) quiet
    rw [capWarning, ← rounds, Nat.add_zero]
  | succ n ih =>
    rw [runRounds]
    refine (normalize_settled known some_turn).bind fun tidied f₁ settled => ?_
    refine (improve_settled known some_turn).bind fun improved f₂ settled' => ?_
    dsimp only
    split
    · refine (ih (by omega)).bind fun o f₃ rests => meets_pure fun quiet => rests fun said => ?_
      exact quiet (List.mem_append_right _ said)
    · rename_i unchanged
      obtain ⟨quiet, quiet'⟩ := Report.changed_andThen.1 (Bool.eq_false_iff.2 unchanged)
      obtain ⟨rfl, rests⟩ := settled quiet
      obtain ⟨rfl, rests'⟩ := settled' quiet'
      exact meets_pure fun _ => List.forall_mem_append.2 ⟨rests, rests'⟩

end Schedule

/-- A run of a schedule that is not stopped ends at a graph that no optimization of the schedule changes.
Of a graph that passes the check and is tidy, an optimization says that it has changed nothing just if it
left everything as it was. -/
theorem settled_of_run (s : Schedule) (known : s.Known) (some_turn : 1 ≤ s.turns) (ctx : Context) (f : Func)
    (verified : f.verify = .ok ()) :
    (∀ o f', (s.run ctx).run f = .ok o f' → s.capWarning ctx ∉ o.events →
      ∀ p ∈ s.normalizing ++ s.improving, p.Rests ctx f') ∧
    ∀ p ∈ Pass.all, ∀ r g, (p.run ctx).run f = .ok r g →
      (r.changed = false → g = f) ∧ (f.Tidy → r.changed = true → g.contents ≠ f.contents) := by
  constructor
  · intro o f' run
    exact (Schedule.runRounds_settled known some_turn (Nat.zero_add _)).of_ok run
  · intro p mem r g run
    exact ⟨Pass.eq_of_unchanged mem run, fun tidy => Pass.contents_ne_of_changed mem run verified tidy⟩

/-- A callee is expanded in its caller, the graph is normalized, and then all optimizations rest. -/
theorem settled_of_run_caller : ∃ f o f', caller.lift {} {} = .ok f ∧ f.verify = .ok () ∧ f.Tidy ∧
    ((Schedule.ofConfig {}).run ⟨caller.method, {}, choosing, {}⟩).run f = .ok o f' ∧
    (Schedule.ofConfig {}).capWarning ⟨caller.method, {}, choosing, {}⟩ ∉ o.events ∧
    (∀ p ∈ (Schedule.ofConfig {}).normalizing ++ (Schedule.ofConfig {}).improving,
      p.Rests ⟨caller.method, {}, choosing, {}⟩ f') ∧
    ∀ p ∈ Pass.all, ∀ r g, (p.run ⟨caller.method, {}, choosing, {}⟩).run f = .ok r g →
      (r.changed = false → g = f) ∧ (f.Tidy → r.changed = true → g.contents ≠ f.contents) := by
  have facts : (caller.lift {} {}).toOption.any (fun f =>
      ((Schedule.ofConfig {}).run ⟨caller.method, {}, choosing, {}⟩).succeedsWith f fun o _ =>
        decide ((Schedule.ofConfig {}).capWarning ⟨caller.method, {}, choosing, {}⟩ ∉ o.events)) = true := by
    decide +kernel
  obtain ⟨f, lifted, facts⟩ := exists_of_toOption facts
  obtain ⟨o, f', run, quiet⟩ := Edit.exists_of_succeedsWith facts
  have intact : f.Intact := intact_of_lift lifted
  obtain ⟨rests, honest⟩ := settled_of_run (Schedule.ofConfig {}) (Schedule.known_ofConfig {}) (by decide)
    ⟨caller.method, {}, choosing, {}⟩ f (verify_of_intact intact)
  exact ⟨f, o, f', lifted, verify_of_intact intact, tidy_of_intact intact, run,
    of_decide_eq_true quiet, rests o f' run (of_decide_eq_true quiet), honest⟩

end Avm.Opt
