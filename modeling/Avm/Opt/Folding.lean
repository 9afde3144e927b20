import Avm.Opt.DeadCode
import Avm.Opt.Eval

/-!
# Constant folding

Replaces operators on constants by their results, phis that merge a single value by that value, and
branches on constants by the way that they take.
-/

namespace Avm.Opt.Folding

open Avm.Ir

/-- The constant that a node computes. -/
def nodeConstant? (f : Func) (v : ValueId) : Option Constant :=
  match f.kind? v with
  | some (.unary op (.const c)) => Eval.unary op c
  | some (.binary op (.const a) (.const b)) => Eval.binary op a b
  | _ => none

/-- Replaces a node by the constant that it computes. -/
def foldNode (method : MethodId) (acc : Func × Report) (v : ValueId) : Func × Report :=
  match nodeConstant? acc.1 v with
  | none => acc
  | some c =>
    let was := ((acc.1.kind? v).map NodeKind.text).getD ""
    let event : Event :=
      { kind := .constantFolded, method := some method, location := some v
        message := was ++ " => " ++ c.text }
    ((acc.1.replaceUses v (.const c)).dropNode v, acc.2.andThen (.event event))

/-- Replaces nodes by the constants that they compute. -/
def foldNodes (method : MethodId) (f : Func) : Func × Report :=
  f.nodeIds.foldl (foldNode method) (f, {})

/-- The block at which a branch on constants continues. -/
def decided? : Terminator → Option BlockId
  | .branch kind operands onTrue onFalse => do
    let taken ← Eval.branch kind (← operands.mapM Value.const?)
    return if taken then onTrue else onFalse
  | .switch (.const index) default cases => do
    let choice ← Eval.switchCase index cases.length
    return (choice.bind fun i => cases[i]?).getD default
  | _ => none

/-- The blocks whose branch is decided, with the blocks at which they continue. -/
def decidedBlocks (f : Func) : List (BlockId × BlockId) :=
  f.blockIds.filterMap fun b =>
    ((f.block? b).bind fun block => decided? block.terminator).map fun t => (b, t)

/-- Replaces decided branches. -/
def foldBranches (method : MethodId) : List (BlockId × BlockId) → Report → Edit Report
  | [], report => pure report
  | (b, t) :: rest, report => do
    Edit.setTerminator b (.goto t)
    foldBranches method rest (report.andThen (.event
      { kind := .branchSimplified, method := some method, location := some b
        message := b.text ++ " always continues at " ++ t.text }))

/-- Folds once. -/
def once (method : MethodId) : Edit Report := do
  let (f, folded) := foldNodes method (← get)
  let (f, phis) := f.removeTrivialPhis
  set f
  let phiReport := Report.counted phis .phiSimplified method s!"{phis} phis merge a single value"
  let branches ← foldBranches method (decidedBlocks f) {}
  let blocks ← DeadCode.removeUnreachable
  let blockReport :=
    Report.counted blocks .blockRemoved method s!"{blocks} blocks became unreachable"
  return folded.andThen (phiReport.andThen (branches.andThen blockReport))

/-- Folds until nothing folds, at most `fuel` times. -/
def loop (method : MethodId) : Nat → Report → Edit Report
  | 0, report => pure report
  | fuel + 1, report => do
    let more ← once method
    if more.changed then loop method fuel (report.andThen more) else return report

/-- A bound for the number of times that something folds. -/
def effort (f : Func) : Nat := f.nodes.size + 2 * f.blocks.size + 1

/-- Folds constants. -/
def pass : Pass where
  name := "constant-folding"
  description := "Folds constant expressions, trivial phis and constant branches"
  run ctx := do loop ctx.method (effort (← get)) {}

end Avm.Opt.Folding
