import Avm.Ir.Cleanup

/-!
# Live registers

Which registers may still be read.  A value is read where it is used, so what counts as a reading of
a register is every use of a value that reads it, directly or through phis.  Handlers may look at
registers between any two nodes of the blocks that they cover, so a node of such a block does not end
the life of a register that a handler reads.
-/

namespace Avm.Opt

open Avm.Ir

/-- What a node does to registers. -/
structure NodeAccess where
  /-- The node. -/
  node : ValueId
  /-- The registers that it sets. -/
  writes : List Nat
  /-- The registers that it reads. -/
  reads : List Nat
deriving DecidableEq, Repr, Inhabited

/-- What an edge does to registers. -/
structure EdgeAccess where
  /-- The block that the edge enters. -/
  target : BlockId
  /-- Exceptions take the edge. -/
  isRaise : Bool
  /-- The registers that the phis of the target read on the edge. -/
  reads : List Nat
deriving DecidableEq, Repr, Inhabited

/-- What a block does to registers. -/
structure BlockAccess where
  /-- The nodes, the last one first. -/
  nodes : List NodeAccess := []
  /-- The registers that the terminator reads. -/
  ending : List Nat := []
  /-- The edges that leave the block. -/
  edges : List EdgeAccess := []
deriving DecidableEq, Repr, Inhabited

/-- The registers that each node of a function graph reads through phis. -/
abbrev PhiReads := Array (List Nat)

namespace PhiReads

/-- The registers that the nodes of a function graph read through phis. -/
def of (f : Func) : PhiReads :=
  ((List.range f.nodes.size).map fun v => Ascending.ofList (f.registersRead (.node v))).toArray

/-- The registers that a value reads. -/
def value (reads : PhiReads) : Value → List Nat
  | .const _ => []
  | .reg register _ => [register]
  | .node v => reads[v]?.getD []

/-- The registers that values read. -/
def values (reads : PhiReads) (vs : List Value) : List Nat :=
  vs.foldl (fun acc v => Ascending.union acc (value reads v)) []

end PhiReads

namespace BlockAccess

/-- What a node does to registers. -/
def ofNode (reads : PhiReads) (v : ValueId) (kind : NodeKind) : NodeAccess :=
  let named := match kind with
    | .hasNext2 object index => Ascending.ofList [object, index]
    | _ => []
  { node := v, writes := kind.written
    reads := Ascending.union named (PhiReads.values reads kind.operands) }

/-- What an edge from a block does to registers. -/
def ofEdge (f : Func) (reads : PhiReads) (b : BlockId) (e : BlockId × EdgeKind) : EdgeAccess :=
  let inputs := (f.phis e.1).flatMap fun phi =>
    ((f.inputs? phi).getD []).filter fun i => i.source == b && i.kind == e.2
  { target := e.1, isRaise := e.2 == .raise
    reads := PhiReads.values reads (inputs.map (·.value)) }

/-- What a block does to registers. -/
def of (f : Func) (reads : PhiReads) (b : BlockId) : BlockAccess where
  nodes := (f.body b).reverse.filterMap fun v => (f.kind? v).map (ofNode reads v)
  ending := PhiReads.values reads (f.terminator b).operands
  edges := (f.succs b).map (ofEdge f reads b)

end BlockAccess

/-- The registers that are live at the start of each block, in ascending order. -/
abbrev Liveness := Array (List Nat)

namespace Liveness

/-- The registers that are live at the start of a block. -/
def atStart (l : Liveness) (b : BlockId) : List Nat := l[b]?.getD []

/-- The registers that are live on some of the given edges. -/
def onEdges (l : Liveness) (edges : List EdgeAccess) : List Nat :=
  edges.foldl (fun acc e => Ascending.union acc (Ascending.union (atStart l e.target) e.reads)) []

/-- The registers that the handlers of a block may look at. -/
def watched (l : Liveness) (b : BlockAccess) : List Nat := onEdges l (b.edges.filter (·.isRaise))

/-- The registers that are live behind the last node of a block, given those that its handlers may
look at. -/
def atEnd (l : Liveness) (b : BlockAccess) (watched : List Nat) : List Nat :=
  let leaving := onEdges l (b.edges.filter fun e => !e.isRaise)
  Ascending.union (Ascending.union watched leaving) b.ending

/-- The registers that are live before a node, given those that are live behind it. -/
def before (watched live : List Nat) (n : NodeAccess) : List Nat :=
  let lost := n.writes.filter fun r => !watched.contains r
  let live := if lost.isEmpty then live else live.filter fun r => !lost.contains r
  Ascending.union live n.reads

/-- The registers that are live at the start of a block, from what is known about its successors. -/
def start (l : Liveness) (b : BlockAccess) : List Nat :=
  let watched := watched l b
  b.nodes.foldl (before watched) (atEnd l b watched)

/-- The nodes of a block, the last one first, each with the registers that are live behind it. -/
def behind (watched : List Nat) : List NodeAccess → List Nat → List (ValueId × List Nat)
  | [], _ => []
  | n :: rest, live => (n.node, live) :: behind watched rest (before watched live n)

/-- The nodes of a block, the last one first, each with the registers that are live behind it. -/
def nodes (l : Liveness) (b : BlockAccess) : List (ValueId × List Nat) :=
  let watched := watched l b
  behind watched b.nodes (atEnd l b watched)

/-- Works out a block anew; the result says whether its start changed. -/
def update (acc : Liveness × Bool) (b : BlockId × BlockAccess) : Liveness × Bool :=
  let start := start acc.1 b.2
  if atStart acc.1 b.1 = start then acc else (acc.1.setIfInBounds b.1 start, true)

/-- Works out the given blocks until nothing changes, at most `fuel` times. -/
def loop (blocks : List (BlockId × BlockAccess)) : Nat → Liveness → Liveness
  | 0, l => l
  | fuel + 1, l =>
    let (l, changed) := blocks.foldl update (l, false)
    if changed then loop blocks fuel l else l

/-- The blocks in an order in which most of them come behind their successors. -/
def order (f : Func) : List BlockId :=
  let reached := (f.reversePostorder Func.entry).reverse
  let marks := Graph.Marks.ofList f.blocks.size reached
  reached ++ f.blockIds.filter fun b => !marks.has b

/-- What the blocks of a function graph do to registers. -/
def accesses (f : Func) : List (BlockId × BlockAccess) :=
  let reads := PhiReads.of f
  (order f).map fun b => (b, .of f reads b)

/-- A bound for the number of registers that the graph names. -/
def registerBound (f : Func) : Nat :=
  (f.allOperands.filterMap Value.register?).length + f.registerWrites.length

/-- The registers that are live, given what the blocks do to registers. -/
def of (f : Func) (blocks : List (BlockId × BlockAccess)) : Liveness :=
  loop blocks (f.blocks.size * registerBound f + 2) (Array.replicate f.blocks.size [])

end Liveness

end Avm.Opt
