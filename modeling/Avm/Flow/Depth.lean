import Avm.Flow.Effect
import Avm.Flow.Graph

/-!
# Stack depths

An upper bound for the depths that the operand and scope stacks reach.  Straight runs of
instructions become blocks with a summary: the highest depth inside and the depth at the end, both
relative to the depth at the start.  The graph of blocks is made smaller by merging chains,
deleting what nothing reaches and joining parallel branches.  Then all paths that pass no block
twice are walked.  If that takes more steps than allowed, a coarser bound is given that sums up the
blocks instead.
-/

namespace Avm

/-- The effect of a run of instructions on the depth of one stack. -/
structure Delta where
  /-- The highest depth, relative to the start. -/
  peak : Int := 0
  /-- The depth at the end, relative to the start. -/
  net : Int := 0
deriving DecidableEq, Repr, Inhabited

namespace Delta

/-- A stack that starts at a given depth. -/
def fixed (depth : Int) : Delta := ⟨depth, depth⟩

/-- The effect of one instruction. -/
def step (net : Int) : Delta := ⟨max net 0, net⟩

/-- One run after another. -/
def andThen (a b : Delta) : Delta := ⟨max a.peak (a.net + b.peak), a.net + b.net⟩

/-- One run or another. -/
def join (a b : Delta) : Delta := ⟨max a.peak b.peak, max a.net b.net⟩

end Delta

/-- The effect of a run of instructions on both stacks. -/
structure Summary where
  /-- The operand stack. -/
  stack : Delta := {}
  /-- The scope stack. -/
  scope : Delta := {}
deriving DecidableEq, Repr, Inhabited

namespace Summary

/-- One run after another. -/
def andThen (a b : Summary) : Summary := ⟨a.stack.andThen b.stack, a.scope.andThen b.scope⟩

/-- One run or another. -/
def join (a b : Summary) : Summary := ⟨a.stack.join b.stack, a.scope.join b.scope⟩

end Summary

/-- Blocks of instructions with the ways between them. -/
structure BlockGraph where
  /-- The effect of each block. -/
  summaries : List Summary
  /-- The blocks that each block continues at. -/
  successors : List (List Nat)
  /-- The blocks at which control starts, with the depths at the start. -/
  roots : List (Nat × Summary)
deriving DecidableEq, Repr, Inhabited

namespace BlockGraph

/-- Control takes the edge inside the method and without an exception. -/
def isNormal (kind : EdgeKind) : Bool :=
  match kind with
  | .raise | .leave => false
  | _ => true

/-- The normal edges that leave a vertex. -/
def normalFrom (g : FlowGraph) (n : NodeId) : List (NodeId × EdgeKind) :=
  (g.edgesFrom n).filter fun e => isNormal e.2

/-- The normal edges that enter a vertex. -/
def normalTo (g : FlowGraph) (n : NodeId) : List (NodeId × EdgeKind) :=
  (g.edgesTo n).filter fun e => isNormal e.2

/-- A block starts at the vertex. -/
def isLeader (g : FlowGraph) (n : NodeId) : Bool :=
  g.isHandlerTarget n
    || ((normalTo g n).filter fun e => e.1 != FlowGraph.entry).length != 1
    || (g.edgesTo n).any (fun e => e.1 == FlowGraph.entry)
    || (normalTo g n).any fun e => e.2 != .fallthrough || (normalFrom g e.1).length != 1

/-- The vertices that follow in the block of a vertex, at most `fuel` of them. -/
def run (g : FlowGraph) : Nat → NodeId → List NodeId
  | 0, _ => []
  | fuel + 1, n =>
    match normalFrom g n with
    | [(next, .fallthrough)] => if isLeader g next then [] else next :: run g fuel next
    | _ => []

/-- The vertices of each block. -/
def members (g : FlowGraph) : List (List NodeId) :=
  (g.order.filter (isLeader g)).map fun n => n :: run g g.graph.nodeCount n

/-- The block of a vertex. -/
def blockOf? (blocks : List (List NodeId)) (n : NodeId) : Option Nat :=
  blocks.findIdx? (·.contains n)

/-- The effect of the instruction of a vertex. -/
def vertexSummary (g : FlowGraph) (code : Code) (pool : Pool) (n : NodeId) :
    Except Fault Summary :=
  match (g.instr? n).bind code.get? with
  | none => .ok {}
  | some i => do
    let effect ← i.effect pool
    return ⟨Delta.step effect.net, Delta.step effect.scope⟩

/-- The effect of a block. -/
def blockSummary (g : FlowGraph) (code : Code) (pool : Pool) (block : List NodeId) :
    Except Fault Summary := do
  let parts ← block.mapM (vertexSummary g code pool)
  return parts.foldl Summary.andThen {}

/-- The blocks that a block continues at, each once. -/
def blockSuccessors (g : FlowGraph) (blocks : List (List NodeId)) (block : List NodeId) :
    List Nat :=
  match block.getLast? with
  | none => []
  | some last =>
    ((normalFrom g last).filterMap fun e => blockOf? blocks e.1).foldl
      (fun seen b => if seen.contains b then seen else seen ++ [b]) []

/-- The blocks at which control starts: the first one, and those of the handlers, where the caught
exception is on the operand stack and the scope stack is empty. -/
def findRoots (g : FlowGraph) (blocks : List (List NodeId)) : List (Nat × Summary) :=
  let first := ((g.edgesFrom FlowGraph.entry).head?.bind fun e => blockOf? blocks e.1).map
    fun b => (b, ({} : Summary))
  let handlers := (g.order.filter g.isHandlerTarget).filterMap fun n =>
    (blockOf? blocks n).map fun b => (b, ({ stack := .fixed 1 } : Summary))
  first.toList ++ handlers

/-- The blocks of a control flow graph. -/
def build (g : FlowGraph) (code : Code) (pool : Pool) : Except Fault BlockGraph := do
  let blocks := members g
  let summaries ← blocks.mapM (blockSummary g code pool)
  return ⟨summaries, blocks.map (blockSuccessors g blocks), findRoots g blocks⟩

end BlockGraph

/-- A node of a graph of summaries that is being made smaller. -/
structure DepthNode where
  /-- The effect of the node. -/
  summary : Summary
  /-- The nodes that it continues at, in ascending order. -/
  succs : List Nat
deriving DecidableEq, Repr, Inhabited

/-- A graph of summaries with one root, which is node zero; deleted nodes leave a gap. -/
structure DepthGraph where
  /-- The nodes. -/
  nodes : Array (Option DepthNode)
deriving DecidableEq, Repr, Inhabited

namespace DepthGraph

/-- The graph of a root, a node for each start of control, and a node for each block. -/
def ofBlocks (b : BlockGraph) : DepthGraph :=
  let offset := 1 + b.roots.length
  let root : DepthNode := ⟨{}, (List.range b.roots.length).map (· + 1)⟩
  let starts := b.roots.map fun r => (⟨r.2, [offset + r.1]⟩ : DepthNode)
  let blocks := b.summaries.mapIdx fun i s =>
    (⟨s, Ascending.ofList ((b.successors[i]?.getD []).map (offset + ·))⟩ : DepthNode)
  ⟨((root :: starts ++ blocks).map some).toArray⟩

/-- The number of nodes, gaps included. -/
def size (g : DepthGraph) : Nat := g.nodes.size

/-- A node that was not deleted. -/
def node? (g : DepthGraph) (n : Nat) : Option DepthNode := g.nodes[n]?.join

/-- The nodes that a node continues at. -/
def succs (g : DepthGraph) (n : Nat) : List Nat := ((g.node? n).map (·.succs)).getD []

/-- The effect of a node. -/
def summary (g : DepthGraph) (n : Nat) : Summary := ((g.node? n).map (·.summary)).getD {}

/-- The numbers, from `i` on, of the nodes in a list that continue at a node. -/
def predsFrom (n : Nat) : Nat → List (Option DepthNode) → List Nat
  | _, [] => []
  | i, d :: rest =>
    if d.any (·.succs.contains n) then i :: predsFrom n (i + 1) rest else predsFrom n (i + 1) rest

/-- The nodes that continue at a node. -/
def preds (g : DepthGraph) (n : Nat) : List Nat := predsFrom n 0 g.nodes.toList

/-- Adds one to the counts of the given nodes. -/
def countUp (counts : Array Nat) (ns : List Nat) : Array Nat :=
  ns.foldl (fun counts n => counts.modify n (· + 1)) counts

/-- For each node the number of nodes that continue there. -/
def inDegrees (g : DepthGraph) : Array Nat :=
  g.nodes.toList.foldl (fun counts d => countUp counts ((d.map (·.succs)).getD []))
    (Array.replicate g.size 0)

/-- The node has one predecessor.  The degrees may be those of an earlier graph, which tell most nodes
apart at once; they are not relied on. -/
def hasOnePred (g : DepthGraph) (degrees : Array Nat) (n : Nat) : Bool :=
  degrees[n]?.getD 0 == 1 && (g.preds n).length == 1

/-- The nodes that were not deleted. -/
def live (g : DepthGraph) : List Nat := (List.range g.size).filter fun n => (g.node? n).isSome

/-- Puts a node in its place. -/
def setNode (g : DepthGraph) (n : Nat) (d : DepthNode) : DepthGraph := ⟨g.nodes.setIfInBounds n (some d)⟩

/-- Deletes a node with the edges at it. -/
def removeNode (g : DepthGraph) (n : Nat) : DepthGraph :=
  let without (d : DepthNode) : DepthNode := { d with succs := d.succs.filter (· != n) }
  ⟨((g.nodes.setIfInBounds n none).toList.map (Option.map without)).toArray⟩

/-- The number of nodes and edges that are left. -/
def weight (g : DepthGraph) : Nat :=
  g.nodes.toList.foldl (fun n d => n + d.elim 0 fun d => 1 + d.succs.length) 0

/-- The only successor of a node, if the node is its only predecessor. -/
def chainSucc? (g : DepthGraph) (degrees : Array Nat) (a : Nat) : Option Nat :=
  match g.succs a with
  | [b] => if b = a ∨ b = 0 ∨ !g.hasOnePred degrees b then none else some b
  | _ => none

/-- Merges a node with its only successor. -/
def mergeWith (g : DepthGraph) (a b : Nat) : DepthGraph :=
  let merged := (g.summary a).andThen (g.summary b)
  let next := Ascending.ofList ((g.succs b).map fun s => if s = b then a else s)
  (g.removeNode b).setNode a ⟨merged, next⟩

/-- Merges a node with its successors as long as it can, at most `fuel` times. -/
def mergeChain (degrees : Array Nat) (a : Nat) : Nat → DepthGraph → DepthGraph
  | 0, g => g
  | fuel + 1, g =>
    match g.chainSucc? degrees a with
    | none => g
    | some b => mergeChain degrees a fuel (g.mergeWith a b)

/-- Merges every chain.  Merging leaves the degrees of the nodes that stay as they are. -/
def mergeChains (g : DepthGraph) : DepthGraph :=
  let degrees := g.inDegrees
  (List.range g.size).foldl (fun g a => mergeChain degrees a g.size g) g

/-- Deletes the nodes other than the root that nothing continues at. -/
def deleteOrphans (g : DepthGraph) : DepthGraph :=
  let degrees := g.inDegrees
  (g.live.filter fun n => n != 0 && degrees[n]?.getD 0 == 0 && (g.preds n).isEmpty).foldl
    removeNode g

/-- The branches of a node that only it reaches and that continue at most at one place, grouped by
that place. -/
def branchGroups (g : DepthGraph) (degrees : Array Nat) (a : Nat) : List (Option Nat × List Nat) :=
  let branches := (g.succs a).filter fun b =>
    b != a && (g.succs b).length ≤ 1 && (g.succs b).head? != some b && g.hasOnePred degrees b
  branches.foldl (fun groups b =>
    let target := (g.succs b).head?
    if groups.any (·.1 == target) then
      groups.map fun e => if e.1 = target then (e.1, e.2 ++ [b]) else e
    else groups ++ [(target, [b])]) []

/-- The node also continues directly at the place where a group of its branches does. -/
def isDirect (g : DepthGraph) (a : Nat) (target : Option Nat) : Bool :=
  target.any fun t => (g.succs a).contains t

/-- Joins a group of branches of a node into one, and a direct edge with them. -/
def joinGroup (g : DepthGraph) (a : Nat) (target : Option Nat) (keep : Nat) (others : List Nat) :
    DepthGraph :=
  let direct := g.isDirect a target
  let joined := others.foldl (fun s b => s.join (g.summary b)) (g.summary keep)
  let joined := if direct then joined.join {} else joined
  let kept := g.succs keep
  let g := others.foldl removeNode g
  let g := if direct then
    g.setNode a ⟨g.summary a, (g.succs a).filter fun s => some s != target⟩ else g
  g.setNode keep ⟨joined, kept⟩

/-- Joins the first group of branches of a node that has two ways to one place. -/
def collapseAt (g : DepthGraph) (degrees : Array Nat) (a : Nat) : Option DepthGraph :=
  if (g.succs a).length < 2 then none
  else (g.branchGroups degrees a).findSome? fun (target, members) =>
    match members with
    | keep :: others =>
      if members.length + (g.isDirect a target).toNat < 2 then none
      else some (g.joinGroup a target keep others)
    | [] => none

/-- Joins one group of parallel branches. -/
def collapse (g : DepthGraph) : DepthGraph :=
  ((List.range g.size).findSome? (g.collapseAt g.inDegrees)).getD g

/-- Makes the graph smaller until nothing changes, at most `fuel` times. -/
def reduceLoop : Nat → DepthGraph → DepthGraph
  | 0, g => g
  | fuel + 1, g =>
    let g' := g.mergeChains.deleteOrphans.collapse
    if g'.weight < g.weight then reduceLoop fuel g' else g'

/-- Makes the graph as small as it gets. -/
def reduce (g : DepthGraph) : DepthGraph := reduceLoop g.weight g

/-- A walk along paths: the steps that are left, and the highest depths so far. -/
structure Progress where
  /-- The steps that may still be made. -/
  left : Nat
  /-- The highest depth of the operand stack. -/
  stack : Int := 0
  /-- The highest depth of the scope stack. -/
  scope : Int := 0
deriving DecidableEq, Repr, Inhabited

/-- Notes the highest depths inside a node that is entered at the given depths. -/
def Progress.note (p : Progress) (s : Summary) (stack scope : Int) : Progress :=
  { p with stack := max p.stack (stack + s.stack.peak), scope := max p.scope (scope + s.scope.peak) }

/-- Walks the paths on from the last node of a path, which is left at the given depths.  Nothing
comes out if more steps are needed than may be made. -/
def walk (g : DepthGraph) : Nat → List Nat → Nat → Int → Int → Progress → Option Progress
  | 0, _, _, _, _, p => some p
  | fuel + 1, path, node, stack, scope, p =>
    (g.succs node).reverse.foldlM (fun p next =>
      if path.contains next then some p
      else if p.left = 0 then none
      else
        let s := g.summary next
        walk g fuel (next :: path) next (stack + s.stack.net) (scope + s.scope.net)
          ({ p with left := p.left - 1 }.note s stack scope)) p

/-- The highest depths on paths from the root that pass no node twice, if walking them takes at most
the given number of steps. -/
def walkPaths (g : DepthGraph) (budget : Nat) : Option (Int × Int) :=
  let root := g.summary 0
  (g.walk g.size [0] 0 root.stack.net root.scope.net
    (({ left := budget } : Progress).note root 0 0)).map fun p => (p.stack, p.scope)

/-- The sum of what nodes add to the depths, and the highest depth inside a node on top. -/
def coarseBound (g : DepthGraph) : Int × Int :=
  let nodes := g.live.map g.summary
  let total (f : Summary → Delta) : Int := nodes.foldl (fun n s => n + max (f s).net 0) 0
  let peak (f : Summary → Delta) : Int := nodes.foldl (fun m s => max m (f s).peak) 0
  (total (·.stack) + peak (·.stack), total (·.scope) + peak (·.scope))

end DepthGraph

/-- Upper bounds for the depths of the stacks. -/
structure StackBounds where
  /-- The greatest depth of the operand stack. -/
  maxStack : Nat := 0
  /-- The greatest depth of the scope stack. -/
  maxScope : Nat := 0
deriving DecidableEq, Repr, Inhabited

namespace StackBounds

/-- A depth as a 32-bit number. -/
def clamp (depth : Int) : Nat := min depth.toNat 0xffffffff

/-- The bounds of a graph of blocks, before they are made 32-bit numbers. -/
def raw (b : BlockGraph) (budget : Nat) : Int × Int :=
  let g := (DepthGraph.ofBlocks b).reduce
  (g.walkPaths budget).getD g.coarseBound

/-- The bounds of a graph of blocks. -/
def ofBlocks (b : BlockGraph) (budget : Nat) : StackBounds :=
  let (stack, scope) := raw b budget
  ⟨clamp stack, clamp scope⟩

/-- The bounds of code. -/
def analyze (g : FlowGraph) (code : Code) (pool : Pool) (budget : Nat) :
    Except Fault StackBounds := do
  return ofBlocks (← BlockGraph.build g code pool) budget

end StackBounds

end Avm
