import Avm.Graph.Marks

/-!
# Depth-first orders

The nodes that can be reached from a node, in the order in which a depth-first search leaves them.
The search looks at successors in the order in which they are listed, enters a node once, and leaves
it when everything below it was left.  A successor outside the graph is passed over.
-/

namespace Avm.Graph

/-- What a depth-first search has found so far. -/
structure Walk where
  /-- The nodes that were entered. -/
  seen : Marks
  /-- The nodes that were left again, the last one first. -/
  finished : List Nat := []
deriving DecidableEq, Repr, Inhabited

/-- Searches from one node, entering at most `fuel` nodes one below the other. -/
def Walk.visit (count : Nat) (succ : Nat → List Nat) : Nat → Walk → Nat → Walk
  | 0, walk, _ => walk
  | fuel + 1, walk, node =>
    if walk.seen.has node ∨ count ≤ node then walk
    else
      let entered := { walk with seen := walk.seen.add node }
      let inner := (succ node).foldl (Walk.visit count succ fuel) entered
      { inner with finished := node :: inner.finished }

/-- The nodes reachable from a start, each before everything that was found before it was left. -/
def reversePostorder (count : Nat) (succ : Nat → List Nat) (start : Nat) : List Nat :=
  (Walk.visit count succ (count + 1) { seen := .none count } start).finished

/-- The nodes reachable from a start, in the order in which the search leaves them. -/
def postorder (count : Nat) (succ : Nat → List Nat) (start : Nat) : List Nat :=
  (reversePostorder count succ start).reverse

end Avm.Graph
