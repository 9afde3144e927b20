import Avm.Graph.Marks

/-!
# Strongly connected components

The components of a graph given by its number of nodes and its successor lists, found in one
depth-first search.  A component is complete once the search leaves its first node without having
seen a way to an earlier node that still waits for its component.  So a component comes after every
other component that it reaches.
-/

namespace Avm.Graph

/-- The state of the search for components. -/
structure Search where
  /-- For each node that was entered, the number of nodes entered before. -/
  index : Array (Option Nat)
  /-- The number of nodes that were entered. -/
  entered : Nat := 0
  /-- The nodes that wait for their component, the last one first. -/
  waiting : List Nat := []
  /-- The nodes of the complete components. -/
  settled : Marks
  /-- The complete components, the last one first. -/
  components : List (List Nat) := []
deriving DecidableEq, Repr, Inhabited

namespace Search

/-- The search before any node is entered. -/
def start (count : Nat) : Search :=
  { index := Array.replicate count none, settled := .none count }

/-- The number of nodes entered before the given one. -/
def index? (s : Search) (v : Nat) : Option Nat := s.index[v]?.join

/-- Enters a node. -/
def enter (s : Search) (v : Nat) : Search :=
  { s with
    index := s.index.setIfInBounds v (some s.entered)
    entered := s.entered + 1
    waiting := v :: s.waiting }

/-- Completes the component whose first node is given. -/
def complete (s : Search) (v : Nat) : Search :=
  let component := s.waiting.takeWhile (· != v) ++ [v]
  { s with
    components := component :: s.components
    settled := s.settled.addAll component
    waiting := s.waiting.drop component.length }

/-- Looks at a successor, given how to search from it: the least index of a waiting node that was
seen before, and then. -/
def look (count : Nat) (visit : Search → Nat → Nat × Search) (acc : Nat × Search) (w : Nat) :
    Nat × Search :=
  if count ≤ w then acc
  else match acc.2.index? w with
    | none =>
      let below := visit acc.2 w
      (min acc.1 below.1, below.2)
    | some i => if acc.2.settled.has w then acc else (min acc.1 i, acc.2)

/-- Searches from a node that was not entered yet, at most `fuel` nodes one below the other.  The
number in the result is the least index of a waiting node that was seen. -/
def visit (count : Nat) (succ : Nat → List Nat) : Nat → Search → Nat → Nat × Search
  | 0, s, _ => (s.entered, s)
  | fuel + 1, s, v =>
    let low := s.entered
    let inner := (succ v).reverse.foldl (look count (visit count succ fuel)) (low, s.enter v)
    if inner.1 = low then (low, inner.2.complete v) else inner

end Search

/-- The strongly connected components of the given nodes, all below `count`; each component follows
the components that it reaches. -/
def components (nodes : List Nat) (count : Nat) (succ : Nat → List Nat) : List (List Nat) :=
  let search := nodes.foldl (fun s v =>
    match s.index? v with
    | none => (s.visit count succ (count + 1) v).2
    | some _ => s) (Search.start count)
  search.components.reverse

/-- The nodes of a component lie on a cycle. -/
def isCyclic (succ : Nat → List Nat) : List Nat → Bool
  | [] => false
  | [v] => (succ v).contains v
  | _ => true

end Avm.Graph
