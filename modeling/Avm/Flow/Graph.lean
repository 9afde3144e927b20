import Avm.Code
import Avm.Graph.Component
import Avm.Graph.Digraph
import Avm.Graph.Order

/-!
# Control flow graphs

The control flow graph of code has a vertex for each instruction that control can reach from the
first instruction or from a handler, and a vertex each for entry and exit.  Its edges are the ways
that the opcodes prescribe, and a way from each instruction that may raise an exception to the
handlers that cover it.  Between two vertices there is at most one edge of a kind.
-/

namespace Avm

/-- A vertex of a control flow graph. -/
inductive Vertex where
  | entry
  | exit
  | instr (id : InstrId)
deriving DecidableEq, Repr, Inhabited

/-- A control flow graph. -/
structure FlowGraph where
  /-- Vertices and edges; entry and exit come first. -/
  graph : Digraph Vertex EdgeKind
  /-- The vertices of instructions, in the order of the code. -/
  order : List NodeId
  /-- The handlers that cover a vertex, if any. -/
  covering : List (NodeId × List Nat)
  /-- The vertices at which the handlers start. -/
  handlerTargets : List NodeId
deriving DecidableEq, Repr

namespace FlowGraph

/-- The vertex of the entry. -/
def entry : NodeId := 0

/-- The vertex of the exit. -/
def exit : NodeId := 1

/-- The instruction of a vertex. -/
def instr? (g : FlowGraph) (n : NodeId) : Option InstrId :=
  match g.graph.node? n with
  | some (.instr id) => some id
  | _ => none

/-- The vertex of an instruction. -/
def vertex? (g : FlowGraph) (id : InstrId) : Option NodeId :=
  g.graph.nodes.findIdx? (· == .instr id)

/-- The instruction has a vertex. -/
def contains (g : FlowGraph) (id : InstrId) : Bool := (g.vertex? id).isSome

/-- The handlers that cover a vertex, in the order of the handlers. -/
def coveringHandlers (g : FlowGraph) (n : NodeId) : List Nat := (g.covering.lookup n).getD []

/-- One more than the number of handlers that cover a vertex. -/
def handlerDepth (g : FlowGraph) (n : NodeId) : Nat := 1 + (g.coveringHandlers n).length

/-- The vertex at which a handler starts. -/
def handlerTarget? (g : FlowGraph) (index : Nat) : Option NodeId := g.handlerTargets[index]?

/-- Some handler starts at the vertex. -/
def isHandlerTarget (g : FlowGraph) (n : NodeId) : Bool := g.handlerTargets.contains n

/-- The edges that leave a vertex. -/
def edgesFrom (g : FlowGraph) (n : NodeId) : List (NodeId × EdgeKind) := g.graph.outgoing n

/-- The edges that enter a vertex. -/
def edgesTo (g : FlowGraph) (n : NodeId) : List (NodeId × EdgeKind) := g.graph.incoming n

/-- How a vertex is shown. -/
def label (g : FlowGraph) (n : NodeId) : String :=
  match g.graph.node? n with
  | some .entry => "entry"
  | some .exit => "exit"
  | some (.instr id) => s!"i{id}"
  | none => s!"n{n}"

/-- A line for each edge. -/
def text (g : FlowGraph) : String :=
  String.join (g.graph.edges.map fun e =>
    g.label e.source ++ " -> " ++ g.label e.target ++ " [" ++ e.label.text ++ "]\n")

/-- The strongly connected components of the graph. -/
def components (g : FlowGraph) : List (List NodeId) :=
  Graph.components (List.range g.graph.nodeCount) g.graph.nodeCount g.graph.successors

/-- The vertices in reverse postorder from the entry. -/
def reversePostorder (g : FlowGraph) : List NodeId :=
  Graph.reversePostorder g.graph.nodeCount g.graph.successors entry

/-- A control flow graph under construction. -/
structure Builder where
  /-- Vertices and edges so far. -/
  graph : Digraph Vertex EdgeKind := { nodes := [.entry, .exit] }
  /-- The handlers that cover the vertices so far. -/
  covering : List (NodeId × List Nat) := []
  /-- The positions whose instructions were not looked at yet, the last one first. -/
  worklist : List Nat := []

namespace Builder

/-- The handlers whose range covers a position. -/
def handlersAt (handlers : List (Handler Nat)) (position : Nat) : List Nat :=
  (List.range handlers.length).filter fun i =>
    handlers[i]?.any fun h => h.start ≤ position && position < h.stop

/-- The vertex of the instruction at a position, made when it is first asked for. -/
def vertex (code : Code) (handlers : List (Handler Nat)) (b : Builder) (position : Nat) :
    Except Fault (Builder × NodeId) :=
  match code.at? position with
  | none => .error (.flow .fallsOffEnd)
  | some (id, _) =>
    match b.graph.nodes.findIdx? (· == .instr id) with
    | some n => .ok (b, n)
    | none =>
      let (graph, n) := b.graph.addNode (.instr id)
      let covering := handlersAt handlers position
      .ok ({ graph := graph
             covering := if covering.isEmpty then b.covering else (n, covering) :: b.covering
             worklist := position :: b.worklist }, n)

/-- Adds an edge unless there is one of that kind. -/
def connect (b : Builder) (source target : NodeId) (kind : EdgeKind) : Except Fault Builder :=
  match b.graph.findEdge? source target (· == kind) with
  | some _ => .ok b
  | none => do
    let (graph, _) ← b.graph.addEdge source target kind
    return { b with graph := graph }

/-- The position of a branch target. -/
def targetPosition (code : Code) (m : Marker) : Except Fault Nat :=
  match code.markers.target? m with
  | some (.instr id) =>
    match code.position? id with
    | some position => .ok position
    | none => .error (.flow (.branchToRemoved m))
  | some .codeEnd => .error (.flow (.branchToEnd m))
  | none => .error (.flow (.branchUnbound m))

/-- Adds an edge to the instruction at a position. -/
def follow (code : Code) (handlers : List (Handler Nat)) (b : Builder) (source : NodeId)
    (position : Nat) (kind : EdgeKind) : Except Fault Builder := do
  let (b, n) ← b.vertex code handlers position
  b.connect source n kind

/-- Adds an edge to a branch target. -/
def branch (code : Code) (handlers : List (Handler Nat)) (b : Builder) (source : NodeId)
    (m : Marker) (kind : EdgeKind) : Except Fault Builder := do
  b.follow code handlers source (← targetPosition code m) kind

/-- Adds the edges of the cases of a switch, the first of which has number `k`. -/
def cases (code : Code) (handlers : List (Handler Nat)) (source : NodeId) :
    Nat → List Marker → Builder → Except Fault Builder
  | _, [], b => .ok b
  | k, m :: rest, b => do
    cases code handlers source (k + 1) rest (← b.branch code handlers source m (.switchCase k))

/-- Adds the edges from an instruction to the handlers that cover it. -/
def raises (code : Code) (handlers : List (Handler Nat)) (source : NodeId) :
    List Nat → Builder → Except Fault Builder
  | [], b => .ok b
  | k :: rest, b => do
    match handlers[k]? with
    | none => raises code handlers source rest b
    | some h => raises code handlers source rest (← b.follow code handlers source h.target .raise)

/-- Adds the edges that an instruction prescribes by its flow. -/
def flow (code : Code) (handlers : List (Handler Nat)) (b : Builder) (n : NodeId) (position : Nat)
    (i : Instruction Marker) : Except Fault Builder :=
  match i.opcode.flow, i.operands with
  | .next, _ => b.follow code handlers n (position + 1) .fallthrough
  | .jump, .branch m => b.branch code handlers n m .jump
  | .conditional, .branch m => do
    let b ← b.branch code handlers n m .whenTrue
    b.follow code handlers n (position + 1) .whenFalse
  | .switch, .switch default ms => do
    let b ← b.branch code handlers n default .switchDefault
    cases code handlers n 0 ms b
  | .leave, _ => b.connect n exit .leave
  | .raise, _ =>
    if (b.covering.lookup n).isNone then b.connect n exit .raise else .ok b
  | _, operands => .error (.flow (.operandShape i.opcode operands.layout))

/-- Adds the edges of the instruction at a position. -/
def visit (code : Code) (handlers : List (Handler Nat)) (b : Builder) (position : Nat) :
    Except Fault Builder :=
  match code.at? position with
  | none => .ok b
  | some (id, i) =>
    match b.graph.nodes.findIdx? (· == .instr id) with
    | none => .ok b
    | some n => do
      let b ← b.flow code handlers n position i
      if i.opcode.canThrow then raises code handlers n ((b.covering.lookup n).getD []) b
      else return b

/-- Looks at all waiting instructions, at most `fuel` of them. -/
def run (code : Code) (handlers : List (Handler Nat)) : Nat → Builder → Except Fault Builder
  | 0, b => .ok b
  | fuel + 1, b =>
    match b.worklist with
    | [] => .ok b
    | position :: rest => do
      run code handlers fuel (← { b with worklist := rest }.visit code handlers position)

/-- Makes the vertices at which handlers start. -/
def targets (code : Code) (handlers : List (Handler Nat)) :
    List (Handler Nat) → Builder → Except Fault (Builder × List NodeId)
  | [], b => .ok (b, [])
  | h :: rest, b => do
    let (b, n) ← b.vertex code handlers h.target
    let (b, ns) ← targets code handlers rest b
    return (b, n :: ns)

end Builder

/-- The control flow graph of code. -/
def build (code : Code) : Except Fault FlowGraph := do
  if code.instrs.isEmpty then
    throw (.flow .emptyCode)
  let handlers ← code.resolvedHandlers
  match handlers.find? fun h => code.size ≤ h.target with
  | some h => throw (.flow (.handlerOutside h.target))
  | none =>
    let b : Builder := {}
    let b ← b.follow code handlers entry 0 .fallthrough
    let (b, targets) ← Builder.targets code handlers handlers b
    let b ← Builder.run code handlers code.size b
    return {
      graph := b.graph
      order := code.instrs.filterMap fun e => b.graph.nodes.findIdx? (· == .instr e.1)
      covering := b.covering
      handlerTargets := targets }

end FlowGraph

end Avm
