import Avm.Ir.Func

/-!
# Editing function graphs

The operations that change a function graph.  They keep the edges at both ends and the inputs of
phis in step with terminators and handlers.  An edit that fails leaves the graph as far as it got,
so an edit is a step from a graph to a graph, with a result or a fault.
-/

namespace Avm.Ir

/-- An edit of a function graph. -/
abbrev Edit := EStateM Fault Func

/-- An edit that only asks for something that may be at fault. -/
def Edit.ofExcept {α : Type} : Except Fault α → Edit α
  | .ok a => pure a
  | .error e => throw e

namespace Func

/-- The edges that the terminator and the handlers of a block call for. -/
def edgesOf (f : Func) (b : BlockId) : List (BlockId × EdgeKind) :=
  match f.block? b with
  | none => []
  | some block =>
    let leaving := match block.terminator with
      | .leave _ => [(exit, EdgeKind.leave)]
      | .raise _ => if block.handlers.isEmpty then [(exit, EdgeKind.raise)] else []
      | _ => []
    let caught := block.handlers.filterMap fun h => f.handlers[h]?.map fun c => (c.target, .raise)
    caught.foldl (fun es e => if es.contains e then es else es ++ [e])
      (block.terminator.targets ++ leaving)

/-- The inputs of a phi once the edges from one block are those of the given kinds.  An edge of a
kind that was there keeps its value, a new one takes the value of the first old one. -/
def reconcile (source : BlockId) (kinds : List EdgeKind) (inputs : List PhiInput) :
    List PhiInput :=
  match inputs.filter (·.source == source) with
  | [] => inputs
  | first :: more =>
    inputs.filter (·.source != source) ++ kinds.map fun kind =>
      let value := (((first :: more).find? (·.kind == kind)).getD first).value
      { value := value, source := source, kind := kind }

/-- Brings the phis of a block in line with the edges from another block. -/
def reconcilePhis (f : Func) (target source : BlockId) (kinds : List EdgeKind) : Func :=
  f.modifyPhis (f.phis target) (reconcile source kinds)

/-- The blocks of edges, each once and in ascending order. -/
def targetsOf (edges : List (BlockId × EdgeKind)) : List BlockId :=
  Ascending.ofList (edges.map (·.1))

/-- Brings the edges of a block in line with its terminator and handlers. -/
def rewire (f : Func) (b : BlockId) : Func :=
  let old := f.succs b
  let new := f.edgesOf b
  let f := old.foldl (fun f e =>
    f.modifyBlock e.1 fun t => { t with preds := t.preds.erase (b, e.2) }) f
  let f := new.foldl (fun f e =>
    f.modifyBlock e.1 fun t => { t with preds := t.preds ++ [(b, e.2)] }) f
  let f := (targetsOf (old ++ new)).foldl (fun f t =>
    f.reconcilePhis t b ((new.filter (·.1 == t)).map (·.2))) f
  f.modifyBlock b fun block => { block with succs := new }

/-- The graph with one more block. -/
def pushBlock (f : Func) (block : Block) : Func := { f with blocks := f.blocks.push (some block) }

/-- The graph without a node. -/
def dropNode (f : Func) (v : ValueId) : Func :=
  match f.node? v with
  | none => f
  | some node =>
    { f with nodes := f.nodes.setIfInBounds v none }.modifyBlock node.block fun b =>
      { b with phis := b.phis.filter (· != v), body := b.body.filter (· != v) }

end Func

namespace Edit

/-- A block that has to exist. -/
def block (b : BlockId) : Edit Block := do
  match (← get).block? b with
  | some block => return block
  | none => throw (.graph (.noBlock b))

/-- Changes a block, which has to exist. -/
def modifyBlock (b : BlockId) (g : Block → Block) : Edit Unit := do
  let _ ← block b
  modify fun f => f.modifyBlock b g

/-- Adds a block. -/
def addBlock : Edit BlockId := do
  let f ← get
  set (f.pushBlock {})
  return f.blocks.size

/-- Adds a handler. -/
def addHandler (c : Catch) : Edit Nat := do
  let f ← get
  set { f with handlers := f.handlers ++ [c] }
  return f.handlers.length

/-- Adds registers, and gives the first one. -/
def reserveRegisters (n : Nat) : Edit Nat := do
  let f ← get
  set { f with locals := f.locals + n }
  return f.locals

/-- A version that no register reading has yet. -/
def freshVersion : Edit Nat := do
  let f ← get
  set { f with nextVersion := f.nextVersion + 1 }
  return f.nextVersion

/-- Adds a node at a place in a block; a phi goes among the phis. -/
def insertNode (b : BlockId) (index : Nat) (kind : NodeKind) : Edit ValueId := do
  let target ← block b
  let list := if kind.isPhi then target.phis else target.body
  if list.length < index then
    throw (.graph (.nodePosition index b))
  let f ← get
  let id := f.nodes.size
  set ({ f with nodes := f.nodes.push (some ⟨kind, b⟩) }.modifyBlock b fun t =>
    if kind.isPhi then { t with phis := t.phis.insertIdx index id }
    else { t with body := t.body.insertIdx index id })
  return id

/-- Adds a node at the end of a block; a phi goes behind the other phis. -/
def appendNode (b : BlockId) (kind : NodeKind) : Edit ValueId := do
  let target ← block b
  insertNode b (if kind.isPhi then target.phis.length else target.body.length) kind

/-- Adds phis with the given inputs behind the other phis of a block. -/
def appendPhis (b : BlockId) (inputs : List (List PhiInput)) : Edit (List ValueId) := do
  let _ ← block b
  let first := (← get).nodes.size
  let ids := (List.range inputs.length).map (first + ·)
  modify fun f =>
    let phis : List (Option Node) := inputs.map fun i => some ⟨.phi i, b⟩
    { f with nodes := f.nodes ++ phis }.modifyBlock b fun t => { t with phis := t.phis ++ ids }
  return ids

/-- Removes a node, and gives back what it did. -/
def removeNode (v : ValueId) : Edit (Option NodeKind) := do
  let f ← get
  set (f.dropNode v)
  return f.kind? v

/-- Moves a node to a place in a block, or to its end if the place lies behind it. -/
def moveNode (v : ValueId) (b : BlockId) (index : Nat) : Edit Unit := do
  match (← get).node? v with
  | none => throw (.graph (.noNode v))
  | some node =>
    if node.kind.isPhi then
      throw (.graph (.phiMoved v))
    modifyBlock node.block fun s => { s with body := s.body.filter (· != v) }
    modifyBlock b fun t => { t with body := t.body.insertIdx (min index t.body.length) v }
    modify fun f => f.modifyNode v fun n => { n with block := b }

/-- Says where control goes at the end of a block; the targets have to exist. -/
def setTerminator (b : BlockId) (t : Terminator) : Edit Unit := do
  let f ← get
  match t.targets.find? fun e => (f.block? e.1).isNone with
  | some e => throw (.graph (.missingTarget b e.1))
  | none =>
    modifyBlock b fun block => { block with terminator := t }
    modify fun f => f.rewire b

/-- Says which handlers cover a block; they have to exist. -/
def setHandlers (b : BlockId) (handlers : List Nat) : Edit Unit := do
  let f ← get
  match handlers.find? fun h => f.handlers.length ≤ h with
  | some h => throw (.graph (.noHandler h))
  | none =>
    modifyBlock b fun block => { block with handlers := handlers }
    modify fun f => f.rewire b

/-- Removes a block with its nodes and the edges at it. -/
def removeBlock (b : BlockId) : Edit Unit := do
  if b = Func.entry ∨ b = Func.exit then
    throw (.graph (.fixedBlock b))
  let data ← block b
  modify fun f =>
    let f := { f with blocks := f.blocks.setIfInBounds b none }
    let f := data.succs.foldl (fun f e =>
      (f.modifyBlock e.1 fun t => { t with preds := t.preds.filter (· != (b, e.2)) }).reconcilePhis
        e.1 b []) f
    let f := data.preds.foldl (fun f e =>
      f.modifyBlock e.1 fun s => { s with succs := s.succs.filter (· != (b, e.2)) }) f
    { f with nodes := data.nodeIds.foldl (fun ns v => ns.setIfInBounds v none) f.nodes }

/-- Puts a new block on an edge that control takes without an exception. -/
def splitEdge (source target : BlockId) (kind : EdgeKind) : Edit BlockId := do
  let f ← get
  if !(f.succs source).contains (target, kind) || kind == .raise then
    throw (.graph (.notSplittable kind source target))
  let middle ← addBlock
  let from_ ← block source
  modifyBlock middle fun m => { m with scopeDepth := from_.scopeDepth }
  setHandlers middle from_.handlers
  modify fun f => f.modifyPhis (f.phis target) fun inputs => inputs.map fun i =>
    if i.source = source ∧ i.kind = kind then { i with source := middle, kind := .fallthrough }
    else i
  setTerminator middle (.goto target)
  let from_ ← block source
  setTerminator source ((from_.terminator.retarget? kind middle).getD from_.terminator)
  return middle

/-- The change of the scope stack by a node. -/
def scopeChange : NodeKind → Int
  | .scope .pop _ => -1
  | .scope _ _ => 1
  | _ => 0

/-- The change of the scope stack by nodes. -/
def scopeChanges (f : Func) (vs : List ValueId) : Int :=
  vs.foldl (fun n v => n + ((f.kind? v).map scopeChange).getD 0) 0

/-- The inputs of a phi once the block at the start of an edge was split.  Both halves lead to the
same handlers, and only the second half leads on. -/
def splitInputs (b tail : BlockId) (kind : EdgeKind) (inputs : List PhiInput) : List PhiInput :=
  if kind = .raise then
    inputs ++ (inputs.filter fun i => i.source == b && i.kind == kind).map fun i =>
      { i with source := tail }
  else inputs.map fun i =>
    if i.source = b ∧ i.kind = kind then { i with source := tail } else i

/-- Splits a block in two before the node at a place, and gives the second half. -/
def splitBlock (b : BlockId) (index : Nat) : Edit BlockId := do
  let source ← block b
  if source.body.length < index then
    throw (.graph (.splitPosition index b))
  let tail ← addBlock
  modifyBlock tail fun t => { t with scopeDepth := source.scopeDepth }
  setHandlers tail source.handlers
  let moved := source.body.drop index
  let f ← get
  let change := scopeChanges f moved
  modifyBlock b fun s => { s with body := s.body.take index }
  modify fun f => moved.foldl (fun f v => f.modifyNode v fun n => { n with block := tail }) f
  modifyBlock tail fun t => { t with body := moved }
  modifyBlock b fun s => { s with scopeDepth := ((source.scopeDepth : Int) - change).toNat }
  modify fun f => source.succs.foldl (fun f e =>
    f.modifyPhis (f.phis e.1) (splitInputs b tail e.2)) f
  let terminator := (← block b).terminator
  modifyBlock b fun s => { s with terminator := .none }
  setTerminator tail terminator
  setTerminator b (.goto tail)
  return tail

end Edit

namespace Func

/-- The order of edges, by block and then by kind. -/
def edgeLe (a b : BlockId × EdgeKind) : Bool := a.1 < b.1 || (a.1 == b.1 && a.2.ble b.2)

/-- Puts an edge in its place among edges in order. -/
def insertEdge (e : BlockId × EdgeKind) : List (BlockId × EdgeKind) → List (BlockId × EdgeKind)
  | [] => [e]
  | x :: rest => if edgeLe e x then e :: x :: rest else x :: insertEdge e rest

/-- Edges in order. -/
def sortEdges (es : List (BlockId × EdgeKind)) : List (BlockId × EdgeKind) :=
  es.foldr insertEdge []

/-- A phi has one input for each edge into its block. -/
def verifyPhi (f : Func) (id : BlockId) (b : Block) (v : ValueId) : Except Fault Unit :=
  match f.inputs? v with
  | none => .error (.graph (.notAPhi v))
  | some inputs =>
    let have_ := sortEdges (inputs.map fun i => (i.source, i.kind))
    let want := sortEdges b.preds
    if have_ = want then .ok () else .error (.graph (.phiInputs v have_ id want))

/-- A block is in order: its edges are those that it calls for and are known at their other end, its
nodes name it, and its phis have the right inputs. -/
def verifyBlock (f : Func) (id : BlockId) (b : Block) : Except Fault Unit := do
  if b.succs ≠ f.edgesOf id then
    throw (.graph (.staleEdges id))
  match b.succs.find? fun e => !(f.preds e.1).contains (id, e.2) with
  | some e => throw (.graph (.missingBackLink id e.1))
  | none =>
    match b.nodeIds.find? fun v => (f.node? v).map (·.block) != some id with
    | some v => throw (.graph (.notOwned v id))
    | none => b.phis.forM (f.verifyPhi id b)

/-- Every block is in order. -/
def verify (f : Func) : Except Fault Unit :=
  f.blockIds.forM fun id =>
    match f.block? id with
    | some b => f.verifyBlock id b
    | none => .ok ()

end Func

end Avm.Ir
