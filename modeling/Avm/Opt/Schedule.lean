import Avm.Opt.Copying
import Avm.Opt.Folding
import Avm.Opt.Hoisting
import Avm.Opt.Inlining

/-!
# The schedule

Runs optimizations until nothing changes any more.  One group normalizes the graph; the other group
looks for more, and what it does is normalized again before its next turn.
-/

namespace Avm.Opt

open Avm.Ir

/-- Every optimization. -/
def Pass.all : List Pass :=
  [Folding.pass, Copying.pass, DeadCode.pass, Hoisting.pass, TailCall.pass, Inlining.pass]

/-- Runs an optimization if it applies, and checks the graph if it changed. -/
def Pass.runChecked (p : Pass) (ctx : Context) : Edit Report := do
  if p.applies (← get) then
    let report ← p.run ctx
    if report.changed then
      Edit.ofExcept (← get).verify
    return report
  else return {}

/-- Which optimizations run, and how often. -/
structure Schedule where
  /-- The number of rounds. -/
  rounds : Nat
  /-- The number of turns of a group in a round. -/
  turns : Nat
  /-- The group that normalizes. -/
  normalizing : List Pass
  /-- The group that looks for more. -/
  improving : List Pass

namespace Schedule

/-- The optimizations that are switched on, among the given ones. -/
def enabled (c : Config) (passes : List (Optimization × Pass)) : List Pass :=
  (passes.filter fun p => c.isEnabled p.1).map (·.2)

/-- The schedule that a configuration asks for. -/
def ofConfig (c : Config) : Schedule where
  rounds := c.maxIterations
  turns := c.maxPhaseIterations
  normalizing := enabled c
    [(.constantFolding, Folding.pass), (.copyPropagation, Copying.pass), (.deadCode, DeadCode.pass)]
  improving := enabled c
    [(.licm, Hoisting.pass), (.tailCalls, TailCall.pass), (.inlining, Inlining.pass)]

/-- The names of the optimizations. -/
def names (s : Schedule) : List String := (s.normalizing ++ s.improving).map (·.name)

/-- Nothing runs. -/
def isEmpty (s : Schedule) : Bool := s.normalizing.isEmpty && s.improving.isEmpty

/-- Runs optimizations one after another. -/
def runAll (ctx : Context) : List Pass → Edit Report
  | [] => return {}
  | p :: rest => do
    let first ← p.runChecked ctx
    return first.andThen (← runAll ctx rest)

/-- Normalizes until nothing changes, at most as many times as given. -/
def normalize (s : Schedule) (ctx : Context) : Nat → Edit Report
  | 0 => return {}
  | n + 1 => do
    let report ← runAll ctx s.normalizing
    if report.changed then return report.andThen (← s.normalize ctx n) else return report

/-- Improves and normalizes until nothing changes, at most as many times as given. -/
def improve (s : Schedule) (ctx : Context) : Nat → Edit Report
  | 0 => return {}
  | n + 1 => do
    let report ← runAll ctx s.improving
    if report.changed then
      let tidied ← s.normalize ctx s.turns
      return (report.andThen tidied).andThen (← s.improve ctx n)
    else return report

end Schedule

/-- The result of a run of a schedule. -/
structure Outcome where
  /-- The number of rounds. -/
  rounds : Nat
  /-- What was done. -/
  events : List Event := []
  /-- The callees that were asked for, each once. -/
  callees : List MethodId := []
deriving DecidableEq, Repr, Inhabited

/-- The outcome of a round before a later outcome. -/
def Outcome.after (o : Outcome) (r : Report) : Outcome :=
  { o with events := r.events ++ o.events, callees := (r.callees ++ o.callees).eraseDups }

namespace Schedule

/-- Runs rounds until nothing changes; `done` rounds are over and at most `left` are to come. -/
def runRounds (s : Schedule) (ctx : Context) (done : Nat) : Nat → Edit Outcome
  | 0 =>
    let message := ctx.method.text ++ s!": optimization stopped after {done} rounds"
    return { rounds := done, events := [{ kind := .warning, message }] }
  | left + 1 => do
    let tidied ← s.normalize ctx s.turns
    let improved ← s.improve ctx s.turns
    let report := tidied.andThen improved
    if report.changed then return (← s.runRounds ctx (done + 1) left).after report
    else return Outcome.after { rounds := done + 1 } report

/-- Runs a schedule. -/
def run (s : Schedule) (ctx : Context) : Edit Outcome := s.runRounds ctx 0 s.rounds

end Schedule

end Avm.Opt
