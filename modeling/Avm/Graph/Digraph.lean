import Avm.Fault

/-!
# Directed graphs

A directed graph with data on its nodes and edges.  Nodes and edges are numbered in the order in
which they were added and are never removed; parallel edges and loops are allowed.  The edges that
leave or enter a node are listed in the order in which they were added.
-/

namespace Avm

/-- The number of a node in a graph. -/
abbrev NodeId := Nat

/-- An edge between two nodes. -/
structure Digraph.Edge (ε : Type) where
  /-- The node that the edge leaves. -/
  source : NodeId
  /-- The node that the edge enters. -/
  target : NodeId
  /-- What the edge carries. -/
  label : ε
deriving DecidableEq, Repr

/-- A directed graph with nodes that carry `ν` and edges that carry `ε`. -/
structure Digraph (ν ε : Type) where
  /-- The data of the nodes, in the order of their numbers. -/
  nodes : List ν := []
  /-- The edges, in the order of their numbers. -/
  edges : List (Digraph.Edge ε) := []
deriving DecidableEq, Repr

namespace Digraph

variable {ν ε : Type}

/-- The number of nodes. -/
def nodeCount (g : Digraph ν ε) : Nat := g.nodes.length

/-- The number of edges. -/
def edgeCount (g : Digraph ν ε) : Nat := g.edges.length

/-- The data of a node. -/
def node? (g : Digraph ν ε) (n : NodeId) : Option ν := g.nodes[n]?

/-- The graph with one more node, and the number of that node. -/
def addNode (g : Digraph ν ε) (data : ν) : Digraph ν ε × NodeId :=
  ({ g with nodes := g.nodes ++ [data] }, g.nodeCount)

/-- The graph with other data on a node; nothing changes if there is no such node. -/
def setNode (g : Digraph ν ε) (n : NodeId) (data : ν) : Digraph ν ε :=
  { g with nodes := g.nodes.set n data }

/-- The graph with one more edge, and the number of that edge; both ends have to exist. -/
def addEdge (g : Digraph ν ε) (source target : NodeId) (label : ε) :
    Except Fault (Digraph ν ε × Nat) :=
  if g.nodeCount ≤ source then .error (.endpoint (.noSource source g.nodeCount))
  else if g.nodeCount ≤ target then .error (.endpoint (.noTarget target g.nodeCount))
  else .ok ({ g with edges := g.edges ++ [⟨source, target, label⟩] }, g.edgeCount)

/-- The edges that leave a node. -/
def outgoing (g : Digraph ν ε) (n : NodeId) : List (NodeId × ε) :=
  g.edges.filterMap fun e => if e.source = n then some (e.target, e.label) else none

/-- The edges that enter a node. -/
def incoming (g : Digraph ν ε) (n : NodeId) : List (NodeId × ε) :=
  g.edges.filterMap fun e => if e.target = n then some (e.source, e.label) else none

/-- The targets of the edges that leave a node. -/
def successors (g : Digraph ν ε) (n : NodeId) : List NodeId := (g.outgoing n).map (·.1)

/-- The sources of the edges that enter a node. -/
def predecessors (g : Digraph ν ε) (n : NodeId) : List NodeId := (g.incoming n).map (·.1)

/-- The number of edges that leave a node. -/
def outDegree (g : Digraph ν ε) (n : NodeId) : Nat := (g.outgoing n).length

/-- The number of edges that enter a node. -/
def inDegree (g : Digraph ν ε) (n : NodeId) : Nat := (g.incoming n).length

/-- The number of the first edge between two nodes whose label passes a test. -/
def findEdge? (g : Digraph ν ε) (source target : NodeId) (matching : ε → Bool) : Option Nat :=
  g.edges.findIdx? fun e => e.source == source && e.target == target && matching e.label

end Digraph

end Avm
