import Avm.Graph.Component
import Avm.Graph.Order
import Avm.Ir.Node
import Avm.Method

/-!
# Function graphs

A method as a graph of blocks.  A block lists its phis and nodes, ends in a terminator, and knows
the handlers that cover it and the edges at it.  Blocks and nodes are numbered; what is removed
leaves a gap.  The first block is the entry, the second the exit, and both stay.
-/

namespace Avm.Ir

/-- A node and the block that it belongs to. -/
structure Node where
  /-- What the node does. -/
  kind : NodeKind
  /-- The block. -/
  block : BlockId
deriving DecidableEq, Repr, Inhabited

/-- An exception handler of a function graph. -/
structure Catch where
  /-- The block that handles the exception. -/
  target : BlockId
  /-- The name of the type of exceptions that are caught. -/
  excType : Nat
  /-- The name of the variable that holds the exception. -/
  varName : Nat
deriving DecidableEq, Repr, Inhabited

/-- A block. -/
structure Block where
  /-- The phis, which are evaluated together when the block is entered. -/
  phis : List ValueId := []
  /-- The other nodes, in the order in which they are evaluated. -/
  body : List ValueId := []
  /-- Where control goes at the end. -/
  terminator : Terminator := .none
  /-- The handlers that cover the block, the innermost first. -/
  handlers : List Nat := []
  /-- The edges that leave the block. -/
  succs : List (BlockId × EdgeKind) := []
  /-- The edges that enter the block. -/
  preds : List (BlockId × EdgeKind) := []
  /-- The depth of the scope stack at the end. -/
  scopeDepth : Nat := 0
deriving DecidableEq, Repr, Inhabited

namespace Block

/-- No handler covers the block. -/
def isUnprotected (b : Block) : Bool := b.handlers.isEmpty

/-- The phis and the other nodes. -/
def nodeIds (b : Block) : List ValueId := b.phis ++ b.body

end Block

/-- A function graph. -/
structure Func where
  /-- The method. -/
  method : MethodId
  /-- The number of parameters. -/
  params : Nat
  /-- What the method asks of its activation. -/
  flags : MethodFlags
  /-- The number of registers. -/
  locals : Nat
  /-- The blocks. -/
  blocks : Array (Option Block) := #[some {}, some {}]
  /-- The nodes. -/
  nodes : Array (Option Node) := #[]
  /-- The exception handlers. -/
  handlers : List Catch := []
  /-- The next version of a register. -/
  nextVersion : Nat := 1
deriving DecidableEq, Repr, Inhabited

namespace Func

/-- The block at which control starts. -/
def entry : BlockId := 0

/-- The block that stands for the end of the method. -/
def exit : BlockId := 1

/-- A block that exists. -/
def block? (f : Func) (b : BlockId) : Option Block := f.blocks[b]?.join

/-- A node that exists. -/
def node? (f : Func) (v : ValueId) : Option Node := f.nodes[v]?.join

/-- What a node does. -/
def kind? (f : Func) (v : ValueId) : Option NodeKind := (f.node? v).map (·.kind)

/-- The inputs of a phi. -/
def inputs? (f : Func) (v : ValueId) : Option (List PhiInput) := (f.kind? v).bind NodeKind.inputs?

/-- The blocks that exist, in the order of their numbers. -/
def blockIds (f : Func) : List BlockId :=
  (List.range f.blocks.size).filter fun b => (f.block? b).isSome

/-- The nodes that exist, in the order of their numbers. -/
def allNodes (f : Func) : List Node := f.nodes.toList.filterMap id

/-- The number of blocks that exist. -/
def blockCount (f : Func) : Nat := f.blockIds.length

/-- The number of nodes that exist. -/
def nodeCount (f : Func) : Nat := f.allNodes.length

/-- The edges that leave a block. -/
def succs (f : Func) (b : BlockId) : List (BlockId × EdgeKind) :=
  ((f.block? b).map (·.succs)).getD []

/-- The edges that enter a block. -/
def preds (f : Func) (b : BlockId) : List (BlockId × EdgeKind) :=
  ((f.block? b).map (·.preds)).getD []

/-- The phis of a block. -/
def phis (f : Func) (b : BlockId) : List ValueId := ((f.block? b).map (·.phis)).getD []

/-- The nodes of a block other than its phis. -/
def body (f : Func) (b : BlockId) : List ValueId := ((f.block? b).map (·.body)).getD []

/-- The handlers that cover a block. -/
def handlersOf (f : Func) (b : BlockId) : List Nat := ((f.block? b).map (·.handlers)).getD []

/-- The depth of the scope stack at the end of a block. -/
def scopeDepth (f : Func) (b : BlockId) : Nat := ((f.block? b).map (·.scopeDepth)).getD 0

/-- The nodes that a block lists, its phis first. -/
def nodesOf (f : Func) (b : BlockId) : List ValueId := f.phis b ++ f.body b

/-- The nodes that the blocks list, block by block. -/
def nodeIds (f : Func) : List ValueId := f.blockIds.flatMap f.nodesOf

/-- Where control goes at the end of a block. -/
def terminator (f : Func) (b : BlockId) : Terminator :=
  ((f.block? b).map (·.terminator)).getD .none

/-- The blocks that a block continues at. -/
def succIds (f : Func) (b : BlockId) : List BlockId := (f.succs b).map (·.1)

/-- The graph with a block changed; nothing changes if there is no such block. -/
def modifyBlock (f : Func) (b : BlockId) (g : Block → Block) : Func :=
  { f with blocks := f.blocks.modify b (Option.map g) }

/-- The graph with a node changed; nothing changes if there is no such node. -/
def modifyNode (f : Func) (v : ValueId) (g : Node → Node) : Func :=
  { f with nodes := f.nodes.modify v (Option.map g) }

/-- The graph with what a node does changed. -/
def modifyKind (f : Func) (v : ValueId) (g : NodeKind → NodeKind) : Func :=
  f.modifyNode v fun n => { n with kind := g n.kind }

/-- The graph with the inputs of a phi changed; nothing changes if the node is no phi. -/
def modifyInputs (f : Func) (v : ValueId) (g : List PhiInput → List PhiInput) : Func :=
  f.modifyKind v fun
    | .phi inputs => .phi (g inputs)
    | k => k

/-- The graph with the nodes of a phi list changed in their inputs. -/
def modifyPhis (f : Func) (vs : List ValueId) (g : List PhiInput → List PhiInput) : Func :=
  vs.foldl (fun f v => f.modifyInputs v g) f

/-- A node with every operand replaced, given the block that the operand belongs to. -/
def mapNodeOperands (g : BlockId → Value → Value) (n : Node) : Node :=
  { n with kind := n.kind.mapOperands (g n.block) }

/-- The graph with every operand replaced, given the block that the operand belongs to. -/
def mapOperands (f : Func) (g : BlockId → Value → Value) : Func :=
  { f with
    nodes := f.nodes.map (Option.map (mapNodeOperands g))
    blocks := f.blocks.mapIdx fun i b =>
      b.map fun b => { b with terminator := b.terminator.mapOperands (g i) } }

/-- Every operand of a node that exists. -/
def nodeOperands (f : Func) : List Value := f.allNodes.flatMap (·.kind.operands)

/-- Every operand of a terminator. -/
def endOperands (f : Func) : List Value := f.blockIds.flatMap fun b => (f.terminator b).operands

/-- Every operand of a node or terminator that exists. -/
def allOperands (f : Func) : List Value := f.nodeOperands ++ f.endOperands

/-- The number of operands that are the result of a node. -/
def useCount (f : Func) (v : ValueId) : Nat := f.allOperands.count (.node v)

/-- Some operand is the result of the node. -/
def isUsed (f : Func) (v : ValueId) : Bool := f.allOperands.contains (.node v)

/-- A place of a node with all uses of another node replaced by a value; what has no such use stays
as it is. -/
def replaceInNode (old : ValueId) (new : Value) (place : Option Node) : Option Node :=
  match place with
  | some n =>
    if n.kind.uses old then some { n with kind := n.kind.mapOperands (Value.replaceNode old new) }
    else place
  | none => place

/-- The graph with all uses of a node replaced by a value. -/
def replaceUses (f : Func) (old : ValueId) (new : Value) : Func :=
  { f with
    nodes := f.nodes.map (replaceInNode old new)
    blocks := f.blocks.map (Option.map fun b =>
      { b with terminator := b.terminator.mapOperands (Value.replaceNode old new) }) }

/-- The registers that nodes set, once for each time. -/
def registerWrites (f : Func) : List Nat := f.allNodes.flatMap (·.kind.written)

/-- The registers that some node sets. -/
def writtenRegisters (f : Func) : List Nat := f.registerWrites.eraseDups

/-- The nodes that operands refer to. -/
def usedNodes (f : Func) : Graph.Marks :=
  .ofList f.nodes.size (f.allOperands.filterMap Value.node?)

/-- The blocks that control can reach from the entry. -/
def reachable (f : Func) : List BlockId :=
  let bound := 1 + (f.blockIds.flatMap f.succIds).foldl max f.blocks.size
  Graph.reversePostorder bound f.succIds entry

/-- The strongly connected components of the blocks. -/
def components (f : Func) : List (List BlockId) :=
  Graph.components (List.range f.blocks.size) f.blocks.size f.succIds

/-- The blocks in reverse postorder from a block. -/
def reversePostorder (f : Func) (start : BlockId) : List BlockId :=
  Graph.reversePostorder f.blocks.size f.succIds start

/-- The lines of one block. -/
def blockText (f : Func) (id : BlockId) (b : Block) : String :=
  let handlers := if b.handlers.isEmpty then ""
    else " handlers " ++ Text.bracketed (b.handlers.map toString)
  let nodes := b.nodeIds.filterMap fun v =>
    (f.kind? v).map fun k => "    " ++ v.text ++ " = " ++ k.text ++ "\n"
  id.text ++ ":" ++ handlers ++ "\n" ++ String.join nodes ++ "    " ++ b.terminator.text ++ "\n"

/-- The whole graph as text. -/
def text (f : Func) : String :=
  "function " ++ MethodId.text f.method ++ s!" (params {f.params}, locals {f.locals})\n"
    ++ String.join (f.blockIds.map fun b => ((f.block? b).map (f.blockText b)).getD "")

end Func

end Avm.Ir
