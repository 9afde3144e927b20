import Avm.Pipeline
import Avm.Proofs.Opt.Expanding

/-!
# Optimization keeps graphs in order

Every optimization succeeds on a graph in order and leaves it in order (`Pass.Keeps`), so a schedule of
optimizations does, and no check of a graph fails on the way.  A graph that is lifted is in order.

The main statement is `verify_of_reaches`: whatever a lifted graph becomes, by any optimizations in any
order, passes the check, and the schedule of every configuration comes to an end with such a graph.
-/

namespace Avm.Opt

open Avm.Ir Avm.Ir.Func Avm.Ir.Edit

variable {f f' : Func} {ctx : Context} {s : Schedule}

/-- The graphs that a graph becomes by optimizations, in any order and any number. -/
inductive Reaches (ctx : Context) (f : Func) : Func → Prop where
  | refl : Reaches ctx f f
  | step {g g' : Func} {p : Pass} {report : Report} : Reaches ctx f g → p ∈ Pass.all →
    (p.run ctx).run g = .ok report g' → Reaches ctx f g'

lemma Pass.of_mem_all {P : Pass → Prop} {p : Pass} (mem : p ∈ Pass.all) (folding : P Folding.pass)
    (copying : P Copying.pass) (deadCode : P DeadCode.pass) (hoisting : P Hoisting.pass)
    (tailCall : P TailCall.pass) (inlining : P Inlining.pass) : P p := by
  simp only [Pass.all, List.mem_cons, List.not_mem_nil, or_false] at mem
  obtain rfl | rfl | rfl | rfl | rfl | rfl := mem
  all_goals assumption

lemma Pass.keeps_of_mem {p : Pass} (mem : p ∈ Pass.all) : p.Keeps :=
  of_mem_all mem Folding.pass_keeps Copying.pass_keeps DeadCode.pass_keeps Hoisting.pass_keeps
    TailCall.pass_keeps Inlining.pass_keeps

lemma Reaches.intact (h : Reaches ctx f f') (start : f.Intact) : f'.Intact := by
  induction h with
  | refl => exact start
  | step _ mem run ih =>
    obtain ⟨_, g, run', kept⟩ := Pass.keeps_of_mem mem ctx _ ih
    obtain ⟨rfl, rfl⟩ := EStateM.Result.ok.inj (run.symm.trans run')
    exact kept

/-- What a run of optimizations keeps: the graph is in order, and comes of the first one. -/
def Upheld (ctx : Context) (f f' : Func) : Prop := f'.Intact ∧ Reaches ctx f f'

variable {f₀ : Func}

lemma Pass.runChecked_yields {p : Pass} (mem : p ∈ Pass.all) (h : Upheld ctx f₀ f) :
    (p.runChecked ctx).Yields f fun _ f' => Upheld ctx f₀ f' := by
  obtain ⟨report, f₁, run, intact⟩ := Pass.keeps_of_mem mem ctx f h.1
  have reached : Upheld ctx f₀ f₁ := ⟨intact, h.2.step mem run⟩
  rw [Pass.runChecked]
  refine yields_get ?_
  split
  · refine yields_bind run ?_
    split
    · refine yields_get (yields_bind (ofExcept_eq_ok.2 ⟨verify_of_intact intact, rfl⟩) ?_)
      exact yields_pure reached
    · exact yields_pure reached
  · exact yields_pure h

namespace Schedule

lemma runAll_yields {ps : List Pass} (known : ∀ p ∈ ps, p ∈ Pass.all) (h : Upheld ctx f₀ f) :
    (runAll ctx ps).Yields f fun _ f' => Upheld ctx f₀ f' := by
  induction ps generalizing f with
  | nil => exact yields_pure h
  | cons p ps ih =>
    rw [runAll]
    refine (Pass.runChecked_yields (known p List.mem_cons_self) h).bind fun first f₁ h₁ => ?_
    refine (ih (fun q mem => known q (List.mem_cons_of_mem _ mem)) h₁).bind fun rest f₂ h₂ => ?_
    exact yields_pure h₂

/-- A schedule of the optimizations that there are. -/
structure Known (s : Schedule) : Prop where
  normalizing : ∀ p ∈ s.normalizing, p ∈ Pass.all
  improving : ∀ p ∈ s.improving, p ∈ Pass.all

lemma mem_of_mem_enabled {c : Config} {l : List (Optimization × Pass)} {p : Pass}
    (mem : p ∈ enabled c l) : p ∈ l.map (·.2) := by
  obtain ⟨e, listed, rfl⟩ := List.mem_map.1 mem
  exact List.mem_map_of_mem (List.mem_of_mem_filter listed)

lemma known_ofConfig (c : Config) : (ofConfig c).Known := by
  refine ⟨fun p mem => ?_, fun p mem => ?_⟩
  · have listed := mem_of_mem_enabled mem
    simp only [List.map_cons, List.map_nil, List.mem_cons, List.not_mem_nil, or_false] at listed
    simp only [Pass.all, List.mem_cons]
    tauto
  · have listed := mem_of_mem_enabled mem
    simp only [List.map_cons, List.map_nil, List.mem_cons, List.not_mem_nil, or_false] at listed
    simp only [Pass.all, List.mem_cons]
    tauto

lemma normalize_yields (known : s.Known) (turns : Nat) (h : Upheld ctx f₀ f) :
    (s.normalize ctx turns).Yields f fun _ f' => Upheld ctx f₀ f' := by
  induction turns generalizing f with
  | zero => exact yields_pure h
  | succ n ih =>
    rw [normalize]
    refine (runAll_yields known.normalizing h).bind fun report f₁ h₁ => ?_
    split
    · exact (ih h₁).bind fun _ f₂ h₂ => yields_pure h₂
    · exact yields_pure h₁

lemma improve_yields (known : s.Known) (turns : Nat) (h : Upheld ctx f₀ f) :
    (s.improve ctx turns).Yields f fun _ f' => Upheld ctx f₀ f' := by
  induction turns generalizing f with
  | zero => exact yields_pure h
  | succ n ih =>
    rw [improve]
    refine (runAll_yields known.improving h).bind fun report f₁ h₁ => ?_
    split
    · refine (normalize_yields known s.turns h₁).bind fun tidied f₂ h₂ => ?_
      exact (ih h₂).bind fun _ f₃ h₃ => yields_pure h₃
    · exact yields_pure h₁

lemma runRounds_yields (known : s.Known) (done left : Nat) (h : Upheld ctx f₀ f) :
    (s.runRounds ctx done left).Yields f fun _ f' => Upheld ctx f₀ f' := by
  induction left generalizing f done with
  | zero => exact yields_pure h
  | succ n ih =>
    rw [runRounds]
    refine (normalize_yields known s.turns h).bind fun tidied f₁ h₁ => ?_
    refine (improve_yields known s.turns h₁).bind fun improved f₂ h₂ => ?_
    dsimp only
    split
    · exact (ih (done + 1) h₂).bind fun _ f₃ h₃ => yields_pure h₃
    · exact yields_pure h₂

end Schedule

lemma reaches_of_optimize {body : MethodBody} {pool : Pool} {env : Environment} {config : Config}
    {o : Optimized} (optimized : body.optimize pool env config = .ok o) :
    ∃ f, body.lift pool config = .ok f ∧ Reaches ⟨body.method, pool, env, config⟩ f o.func := by
  rw [MethodBody.optimize] at optimized
  obtain ⟨f, lifted, optimized⟩ := Avm.bind_eq_ok.1 optimized
  obtain ⟨outcome, f', run, -, reached⟩ := Schedule.runRounds_yields (Schedule.known_ofConfig config)
    0 (Schedule.ofConfig config).rounds ⟨intact_of_lift lifted, Reaches.refl⟩
  have ran : ((Schedule.ofConfig config).run ⟨body.method, pool, env, config⟩).run f =
    .ok outcome f' := run
  rw [ran] at optimized
  cases optimized
  exact ⟨f, lifted, reached⟩

lemma intact_of_optimize {body : MethodBody} {pool : Pool} {env : Environment} {config : Config}
    {o : Optimized} (optimized : body.optimize pool env config = .ok o) : o.func.Intact := by
  obtain ⟨f, lifted, reached⟩ := reaches_of_optimize optimized
  exact reached.intact (intact_of_lift lifted)

/-- The schedule of every configuration runs to its end on a lifted graph, and whatever the graph becomes
on the way or by optimizations in another order passes the check and can be optimized further. -/
theorem verify_of_reaches {body : MethodBody} {pool : Pool} {config : Config} (env : Environment)
    (lifted : body.lift pool config = .ok f) :
    (∃ outcome f', ((Schedule.ofConfig config).run ⟨body.method, pool, env, config⟩).run f =
        .ok outcome f' ∧ Reaches ⟨body.method, pool, env, config⟩ f f') ∧
      ∀ g, Reaches ⟨body.method, pool, env, config⟩ f g → g.verify = .ok () ∧
        ∀ p ∈ Pass.all, ∃ report g', (p.run ⟨body.method, pool, env, config⟩).run g = .ok report g' := by
  have start : f.Intact := intact_of_lift lifted
  constructor
  · obtain ⟨outcome, f', run, -, reached⟩ := Schedule.runRounds_yields (Schedule.known_ofConfig config)
      0 (Schedule.ofConfig config).rounds ⟨start, Reaches.refl⟩
    exact ⟨outcome, f', run, reached⟩
  · intro g reached
    have intact : g.Intact := reached.intact start
    refine ⟨verify_of_intact intact, fun p mem => ?_⟩
    obtain ⟨report, g', run, -⟩ := Pass.keeps_of_mem mem _ g intact
    exact ⟨report, g', run⟩

/-- A method that calls another one on its receiver. -/
def caller : MethodBody where
  params := 1
  locals := 2
  code := [0xd0, 0xd1, 0x44, 0x01, 0x01, 0x48]

/-- A method whose result depends on its argument, and comes out of a join. -/
def chooser : MethodBody where
  method := 1
  params := 1
  locals := 2
  code := [0xd1, 0x11, 0x06, 0x00, 0x00, 0x24, 0x01, 0x10, 0x02, 0x00, 0x00, 0x24, 0x02, 0x48]

/-- The methods of the two. -/
def choosing : Environment := (MethodTable.addBody {} chooser).environment

/-- The caller has the callee expanded in it. -/
theorem verify_of_reaches_caller : ∃ f, caller.lift {} {} = .ok f ∧
    (∃ outcome f', ((Schedule.ofConfig {}).run ⟨caller.method, {}, choosing, {}⟩).run f =
        .ok outcome f' ∧ Reaches ⟨caller.method, {}, choosing, {}⟩ f f') ∧
      ∀ g, Reaches ⟨caller.method, {}, choosing, {}⟩ f g → g.verify = .ok () ∧
        ∀ p ∈ Pass.all, ∃ report g',
          (p.run ⟨caller.method, {}, choosing, {}⟩).run g = .ok report g' := by
  have lifts : (caller.lift {} {}).toOption.isSome := by decide +kernel
  obtain ⟨f, lifted⟩ : ∃ f, caller.lift {} {} = .ok f := by
    generalize caller.lift {} {} = result at lifts
    cases result with
    | error e => cases lifts
    | ok f => exact ⟨f, rfl⟩
  exact ⟨f, lifted, verify_of_reaches choosing lifted⟩

end Avm.Opt
