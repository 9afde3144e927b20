/-!
# Configuration

Which optimizations run, and how much effort they may take.
-/

namespace Avm

/-- An optimization that can be switched on and off. -/
inductive Optimization where
  | constantFolding | copyPropagation | deadCode | licm | tailCalls | inlining
deriving DecidableEq, Repr, Inhabited

namespace Optimization

/-- Every optimization. -/
def all : List Optimization :=
  [.constantFolding, .copyPropagation, .deadCode, .licm, .tailCalls, .inlining]

/-- The name of the switch. -/
def name : Optimization → String
  | constantFolding => "constant-folding"
  | copyPropagation => "copy-propagation"
  | deadCode => "dead-code"
  | licm => "licm"
  | tailCalls => "tail-calls"
  | inlining => "inlining"

end Optimization

/-- What the optimisation of a method may do. -/
structure Config where
  /-- The number of rounds over all optimizations. -/
  maxIterations : Nat := 10
  /-- The number of repetitions of a group of optimizations in a round. -/
  maxPhaseIterations : Nat := 15
  /-- The optimizations that are switched off. -/
  disabled : List Optimization := []
  /-- The number of nodes up to which a callee is expanded in place. -/
  inlineThreshold : Nat := 32
  /-- The number of steps along paths that the stack analysis may take. -/
  maxStackPaths : Nat := 4096
  /-- Unreachable instructions are removed first. -/
  removeUnreachable : Bool := true
  /-- Methods may be worked on at the same time; the results are the same. -/
  parallel : Bool := true
deriving DecidableEq, Repr, Inhabited

namespace Config

/-- Little effort. -/
def fast : Config where
  maxIterations := 3
  maxPhaseIterations := 5
  disabled := [.licm, .tailCalls, .inlining]

/-- Much effort. -/
def aggressive : Config where
  maxIterations := 25
  maxPhaseIterations := 30
  inlineThreshold := 128
  maxStackPaths := 65536

/-- The optimization is switched on. -/
def isEnabled (c : Config) (o : Optimization) : Bool := !c.disabled.contains o

/-- Switches an optimization on or off. -/
def enable (c : Config) (o : Optimization) (on : Bool) : Config :=
  { c with disabled := if on then c.disabled.filter (· != o) else c.disabled ++ [o] }

end Config

end Avm
