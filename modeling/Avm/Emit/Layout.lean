import Avm.Ir.Edit

/-!
# The order of blocks

The blocks of a function graph in the order in which they are written.  A block is followed by the
block at which it continues where that is possible, and handlers come last.
-/

namespace Avm.Emit

open Avm.Ir

/-- The terminator chooses between edges. -/
def isChoice : Terminator → Bool
  | .branch .. | .switch .. => true
  | _ => false

/-- The edges that lead from a choice to a block with phis.  What the phis take on such an edge has
no place on either side of it. -/
def criticalEdges (f : Func) : List (BlockId × BlockId × EdgeKind) :=
  f.blockIds.flatMap fun b =>
    match f.block? b with
    | none => []
    | some block =>
      if isChoice block.terminator then
        (block.succs.filter fun e => e.2 != .raise && !(f.phis e.1).isEmpty).map fun e => (b, e)
      else []

/-- Puts a block on each of the given edges. -/
def splitEdges : List (BlockId × BlockId × EdgeKind) → Edit Unit
  | [] => return ()
  | (source, target, kind) :: rest => do
    let _ ← Edit.splitEdge source target kind
    splitEdges rest

/-- Puts a block on each critical edge. -/
def splitCriticalEdges : Edit Unit := do splitEdges (criticalEdges (← get))

/-- The block that should follow a block with the given terminator. -/
def preferred? : Terminator → Option BlockId
  | .goto target | .jump target => some target
  | .branch _ _ _ onFalse => some onFalse
  | _ => none

/-- Places the blocks that wait, the first one first, at most `fuel` of them.  Behind a placed block
its own continuation waits before the other targets, and these before what waited already; handlers
wait behind everything else. -/
def place (f : Func) : Nat → List BlockId → List BlockId → List BlockId
  | 0, placed, _ => placed
  | _, placed, [] => placed
  | fuel + 1, placed, b :: waiting =>
    if b = Func.exit ∨ b ∈ placed then place f fuel placed waiting
    else
      let placed := placed ++ [b]
      match f.block? b with
      | none => place f fuel placed waiting
      | some block =>
        let next := preferred? block.terminator
        let open_ := block.succs.filter fun e => !placed.contains e.1
        let caught := (open_.filter (·.2 == .raise)).map (·.1)
        let others := (open_.filter fun e => e.2 != .raise && some e.1 != next).map (·.1)
        let first := (next.filter fun t => !placed.contains t).toList
        place f fuel placed (first ++ others ++ waiting ++ caught.reverse)

/-- The blocks in the order in which they are written. -/
def order (f : Func) : List BlockId :=
  let edges := f.blockIds.foldl (fun n b => n + (f.succs b).length + 1) 0
  place f (edges + 1) [] [Func.entry]

/-- The block that is written behind a block. -/
def next? (order : List BlockId) (b : BlockId) : Option BlockId :=
  (order.findIdx? (· == b)).bind fun i => order[i + 1]?

/-- Some block that is not written before a block continues there. -/
def isBackwardTarget (f : Func) (order : List BlockId) (b : BlockId) : Bool :=
  match order.findIdx? (· == b) with
  | none => false
  | some position => (f.preds b).any fun e =>
    e.2 != .raise && (order.findIdx? (· == e.1)).any fun i => decide (position ≤ i)

end Avm.Emit
