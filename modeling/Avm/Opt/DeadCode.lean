import Avm.Opt.Context

/-!
# Dead code

Removes blocks that control cannot reach, phis that merge a single value, and nodes whose result
nothing needs.
-/

namespace Avm.Opt.DeadCode

open Avm.Ir

/-- The blocks other than the exit that control cannot reach. -/
def unreachableBlocks (f : Func) : List BlockId :=
  let reachable := Graph.Marks.ofList f.blocks.size f.reachable
  f.blockIds.filter fun b => !reachable.has b && b != Func.exit

/-- Removes the blocks that control cannot reach, and counts them. -/
def removeUnreachable : Edit Nat := do
  let dead := unreachableBlocks (← get)
  Lift.removeBlocks dead
  return dead.length

/-- Marks the nodes of a list and those that they need in turn, following at most `fuel` nodes. -/
def need (f : Func) : Nat → Graph.Marks → List ValueId → Graph.Marks
  | 0, live, _ => live
  | _, live, [] => live
  | fuel + 1, live, v :: rest =>
    if live.has v then need f fuel live rest
    else
      let operands := ((f.kind? v).map NodeKind.operands).getD []
      need f fuel (live.add v) (operands.filterMap Value.node? ++ rest)

/-- The nodes that have to stay even if nothing uses their result. -/
def effects (f : Func) : List ValueId :=
  f.nodeIds.filter fun v => (f.kind? v).any NodeKind.hasSideEffects

/-- The nodes that effects and terminators need. -/
def neededNodes (f : Func) : Graph.Marks :=
  let roots := f.endOperands.filterMap Value.node? ++ effects f
  need f (roots.length + f.nodeOperands.length + 1) (.none f.nodes.size) roots

/-- Removes nodes that nothing needs, and counts them. -/
def sweep (f : Func) : Func × Nat :=
  let live := neededNodes f
  let dead := f.nodeIds.filter fun v => !live.has v
  (dead.foldl Func.dropNode f, dead.length)

/-- Removes what is dead once. -/
def once (method : MethodId) : Edit Report := do
  let blocks ← removeUnreachable
  let (f, phis) := (← get).removeTrivialPhis
  let (f, nodes) := sweep f
  set f
  return (Report.counted blocks .blockRemoved method s!"removed {blocks} unreachable blocks").andThen
    ((Report.counted phis .phiSimplified method s!"removed {phis} trivial phis").andThen
      (Report.counted nodes .nodeRemoved method s!"removed {nodes} unused nodes"))

/-- Removes what is dead until nothing is, at most `fuel` times. -/
def loop (method : MethodId) : Nat → Report → Edit Report
  | 0, report => pure report
  | fuel + 1, report => do
    let more ← once method
    if more.changed then loop method fuel (report.andThen more) else return report

/-- Removes dead code. -/
def pass : Pass where
  name := "dead-code-elimination"
  description := "Eliminates unreachable blocks and unused nodes"
  run ctx := loop ctx.method 100 {}

end Avm.Opt.DeadCode
