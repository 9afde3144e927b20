import Avm.Flow.Graph

/-!
# Unreachable instructions

Removes the instructions that have no vertex in a control flow graph, and the handlers whose
protected range is empty then.  A handler that goes may take the last way to some instructions with
it, so this is repeated until no handler goes.
-/

namespace Avm.Code

/-- Removes the given instructions. -/
def removeAll : List InstrId → Code → Except Fault Code
  | [], c => .ok c
  | id :: rest, c => do
    let (c, _) ← c.remove id
    removeAll rest c

/-- Removes the instructions without a vertex, and says how many there were. -/
def sweepOnce (c : Code) (g : FlowGraph) : Except Fault (Code × Nat) := do
  let dead := (c.instrs.map (·.1)).filter fun id => !g.contains id
  let c ← removeAll dead c
  return (c, dead.length)

/-- Removes the handlers whose protected range is empty, and says how many there were. -/
def dropEmptyHandlers (c : Code) : Except Fault (Code × Nat) := do
  let resolved ← c.resolvedHandlers
  let live := (c.handlers.zip resolved).filter fun e => e.2.start < e.2.stop
  return ({ c with handlers := live.map (·.1) }, c.handlers.length - live.length)

/-- Drops empty handlers and what only they reached, at most `fuel` times. -/
def sweepHandlers : Nat → Code → Nat → Except Fault (Code × Nat)
  | 0, c, removed => .ok (c, removed)
  | fuel + 1, c, removed => do
    let (c, dropped) ← c.dropEmptyHandlers
    if dropped = 0 then
      return (c, removed)
    let g ← FlowGraph.build c
    let (c, more) ← c.sweepOnce g
    sweepHandlers fuel c (removed + more)

/-- Removes unreachable instructions and empty handlers, and says how many instructions there were. -/
def sweep (c : Code) (g : FlowGraph) : Except Fault (Code × Nat) := do
  let (c, removed) ← c.sweepOnce g
  sweepHandlers (c.handlers.length + 1) c removed

end Avm.Code
