import Avm.Config
import Avm.Flow.Depth
import Avm.Flow.Sweep
import Avm.Code.Decode
import Avm.Ir.Cleanup
import Avm.Ir.Frame

/-!
# Lifting

Instructions become a function graph by following them with a frame that holds, for each stack slot
and register, the value that it has at that place.  Where several ways meet, each slot becomes a
phi.  A write to a register first pins every other slot that reads it, so that a value read from a
register always means the content of the register at the place where it is used.
-/

namespace Avm.Ir.Lift

/-- The index that an instruction has to have. -/
def indexOf (i : Instruction Marker) : Edit Nat :=
  match i.index? with
  | some n => pure n
  | none => throw (.lift (.missingIndex i.text))

/-- A constant that has to be in the pool. -/
def pooled (pool : Pool) (opcode : Opcode) (k : PoolKind) (index : Nat) : Except Fault k.Entry :=
  match pool.get? k index with
  | some entry => .ok entry
  | none => .error (.lift (.missingConstant opcode index))

/-- The constant that an instruction pushes. -/
def constant (pool : Pool) (i : Instruction Marker) : Except Fault Constant :=
  match i.opcode, i.operands with
  | .pushNull, _ => .ok .null
  | .pushUndefined, _ => .ok .undefined
  | .pushTrue, _ => .ok (.bool true)
  | .pushFalse, _ => .ok (.bool false)
  | .pushNaN, _ => .ok (.double Double.nan)
  | .pushByte, .byte value => .ok (.int (Int32.ofInt value.toInt8.toInt))
  | .pushShort, .index value => .ok (.int (Int32.ofInt (Int16.ofInt value).toInt))
  | .pushInt, .index index => do return .int (← pooled pool i.opcode .int index)
  | .pushUInt, .index index => do return .uint (← pooled pool i.opcode .uint index)
  | .pushDouble, .index index => do return .double (← pooled pool i.opcode .double index)
  | .pushString, .index index => do return .string (← pooled pool i.opcode .string index)
  | .pushNamespace, .index index => do
    let _ ← pooled pool i.opcode .ns index
    return .ns index
  | _, _ => .error (.lift (.notAConstant i.text))

/-- Pins the slots of a list, which stand from place `k` on, that read a register; the slot of the
register itself stands at place `own`.  Equal values share a copy. -/
def spillSlots (b : BlockId) (register own : Nat) :
    Nat → List (Value × ValueId) → List Value → Edit (List Value)
  | _, _, [] => pure []
  | k, pinned, v :: rest => do
    if k = own ∨ (← get).readsRegister v register = false then
      return v :: (← spillSlots b register own (k + 1) pinned rest)
    match pinned.lookup v with
    | some copy => return .node copy :: (← spillSlots b register own (k + 1) pinned rest)
    | none =>
      let copy ← Edit.appendNode b (.copy v)
      return .node copy :: (← spillSlots b register own (k + 1) (pinned ++ [(v, copy)]) rest)

/-- Pins every slot other than its own that reads a register. -/
def spill (b : BlockId) (register : Nat) (frame : Frame) : Edit Frame := do
  let own := frame.stack.length + frame.scope.length + register
  return frame.withSlots (← spillSlots b register own 0 [] frame.slots)

/-- Sets a register to a value. -/
def store (b : BlockId) (register : Nat) (value : Value) (frame : Frame) : Edit Frame := do
  let _ ← Edit.ofExcept (frame.getLocal register)
  let frame ← spill b register frame
  let _ ← Edit.appendNode b (.store register value)
  Edit.ofExcept (frame.setLocal register value)

/-- The opcode is a call. -/
def isCall : Opcode → Bool
  | .call | .construct | .callMethod | .callStatic | .callSuper | .callProperty | .constructSuper
  | .constructProp | .callPropLex | .callSuperVoid | .callPropVoid => true
  | _ => false

/-- The node of an instruction that takes its operands from the stack and may push a result. -/
def genericKind (i : Instruction Marker) (operands : List Value) : Edit NodeKind :=
  if isCall i.opcode then
    match i.operands with
    | .pair index argCount => pure (.call i.opcode index argCount operands)
    | .index argCount => pure (.call i.opcode 0 argCount operands)
    | _ => throw (.lift (.noArgCount i.text))
  else if i.opcode.takesMultiname || i.opcode == .getLex || i.opcode == .findDef then do
    return .property i.opcode (← indexOf i) operands
  else pure (.operation i operands)

/-- Follows an instruction that takes its operands from the stack and may push a result. -/
def generic (pool : Pool) (b : BlockId) (i : Instruction Marker) (frame : Frame) :
    Edit Frame := do
  if i.opcode.flow ≠ .next then
    throw (.lift (.notPlain i.opcode))
  let effect ← Edit.ofExcept (i.effect pool)
  let (operands, frame) ← Edit.ofExcept (frame.popN effect.pops)
  let kind ← genericKind i operands
  let id ← Edit.appendNode b kind
  return if kind.producesValue then frame.push (.node id) else frame

/-- Follows an instruction that adds to a register or subtracts from it. -/
def stepRegister (b : BlockId) (op : UnaryOp) (i : Instruction Marker) (frame : Frame) :
    Edit Frame := do
  let register ← indexOf i
  let operand ← Edit.ofExcept (frame.getLocal register)
  let id ← Edit.appendNode b (.unary op operand)
  store b register (.node id) frame

/-- Follows an instruction that advances an iteration. -/
def stepHasNext2 (b : BlockId) (i : Instruction Marker) (frame : Frame) : Edit Frame := do
  match i.operands with
  | .pair object index =>
    let _ ← Edit.ofExcept (frame.getLocal object)
    let _ ← Edit.ofExcept (frame.getLocal index)
    let frame ← spill b object frame
    let frame ← spill b index frame
    let id ← Edit.appendNode b (.hasNext2 object index)
    let version ← Edit.freshVersion
    let frame ← Edit.ofExcept (frame.setLocal object (.reg object version))
    let frame ← Edit.ofExcept (frame.setLocal index (.reg index version))
    return frame.push (.node id)
  | _ => throw (.lift (.needsTwoRegisters i.text))

/-- Follows an instruction that pushes a scope. -/
def stepPushScope (b : BlockId) (op : ScopeOp) (i : Instruction Marker) (frame : Frame) :
    Edit Frame := do
  let (value, frame) ← Edit.ofExcept frame.pop
  if (value.const?.map Constant.isNullish).getD false then
    throw (.lift (.nullishScope i.opcode value.text))
  let _ ← Edit.appendNode b (.scope op (some value))
  return { frame with scope := frame.scope ++ [value] }

/-- Follows an instruction that pops a scope. -/
def stepPopScope (b : BlockId) (frame : Frame) : Edit Frame := do
  if frame.scope.isEmpty then
    throw (.lift .emptyScope)
  let _ ← Edit.appendNode b (.scope .pop none)
  return { frame with scope := frame.scope.dropLast }

/-- Follows an instruction that pushes a scope object. -/
def stepScopeObject (i : Instruction Marker) (frame : Frame) : Edit Frame :=
  match i.operands with
  | .byte index =>
    match frame.scope[index.toNat]? with
    | some value => pure (frame.push value)
    | none => throw (.lift (.scopeIndex index.toNat frame.scope.length))
  | _ => throw (.lift (.needsScopeIndex i.text))

/-- Follows an operator, or an instruction without rules of its own. -/
def stepOperator (pool : Pool) (b : BlockId) (i : Instruction Marker) (frame : Frame) :
    Edit Frame :=
  match TypeOp.ofOpcode? i.opcode, UnaryOp.ofOpcode? i.opcode, BinaryOp.ofOpcode? i.opcode with
  | some op, _, _ => do
    let name ← indexOf i
    let (operand, frame) ← Edit.ofExcept frame.pop
    let id ← Edit.appendNode b (.type op name operand)
    return frame.push (.node id)
  | none, some op, _ => do
    let (operand, frame) ← Edit.ofExcept frame.pop
    let id ← Edit.appendNode b (.unary op operand)
    return frame.push (.node id)
  | none, none, some op => do
    let (rhs, frame) ← Edit.ofExcept frame.pop
    let (lhs, frame) ← Edit.ofExcept frame.pop
    let id ← Edit.appendNode b (.binary op lhs rhs)
    return frame.push (.node id)
  | none, none, none => generic pool b i frame

/-- Follows an instruction that hands control to the next one. -/
def step (pool : Pool) (b : BlockId) (i : Instruction Marker) (frame : Frame) : Edit Frame :=
  match i.opcode with
  | .nop | .label => pure frame
  | .bkpt | .bkptLine | .debug | .debugLine | .debugFile | .timestamp => do
    let _ ← Edit.appendNode b (.debug i)
    return frame
  | .pushNull | .pushUndefined | .pushTrue | .pushFalse | .pushNaN | .pushByte | .pushShort
  | .pushInt | .pushUInt | .pushDouble | .pushString | .pushNamespace => do
    return frame.push (.const (← Edit.ofExcept (constant pool i)))
  | .pop => do
    let (_, frame) ← Edit.ofExcept frame.pop
    return frame
  | .dup => do
    return frame.push (← Edit.ofExcept frame.peek)
  | .swap => do
    let (top, frame) ← Edit.ofExcept frame.pop
    let (below, frame) ← Edit.ofExcept frame.pop
    return (frame.push top).push below
  | .getLocal | .getLocal0 | .getLocal1 | .getLocal2 | .getLocal3 =>
    match i.localRead? with
    | some register => do
      return frame.push (← Edit.ofExcept (frame.getLocal register))
    | none => throw (.lift (.namesNoRegister i.text))
  | .setLocal | .setLocal0 | .setLocal1 | .setLocal2 | .setLocal3 =>
    match i.localWrite? with
    | some register => do
      let (value, frame) ← Edit.ofExcept frame.pop
      store b register value frame
    | none => throw (.lift (.namesNoRegister i.text))
  | .kill => do
    store b (← indexOf i) (.const .undefined) frame
  | .incLocal => stepRegister b .increment i frame
  | .decLocal => stepRegister b .decrement i frame
  | .incLocalI => stepRegister b .incrementI i frame
  | .decLocalI => stepRegister b .decrementI i frame
  | .hasNext2 => stepHasNext2 b i frame
  | .getScopeObject => stepScopeObject i frame
  | .pushScope => stepPushScope b .push i frame
  | .pushWith => stepPushScope b .pushWith i frame
  | .popScope => stepPopScope b frame
  | _ => stepOperator pool b i frame

/-- What lifting works on. -/
structure Source where
  /-- The instructions. -/
  code : Code
  /-- The control flow between them. -/
  graph : FlowGraph
  /-- The constants. -/
  pool : Pool

/-- The vertices at which blocks start, and what they start. -/
structure Partition where
  /-- The block of each leader. -/
  blocks : List (NodeId × BlockId) := []
  /-- The blocks that several normal edges enter. -/
  joins : List BlockId := []
deriving Inhabited

/-- A block is to be entered at a vertex, with the frame there and the edge by which it is entered.
A handler is entered without either. -/
structure Pending where
  /-- The vertex. -/
  leader : NodeId
  /-- The frame and the edge. -/
  entry : Option (Frame × BlockId × EdgeKind) := none
deriving Inhabited

/-- The phis of a join: one for each slot of the frame. -/
structure JoinPhis where
  /-- The depth of the operand stack. -/
  stack : Nat
  /-- The depth of the scope stack. -/
  scope : Nat
  /-- The phis, in the order of the slots. -/
  slots : List ValueId
deriving Inhabited

/-- The edges into a vertex that are taken without an exception. -/
def normalEdges (g : FlowGraph) (n : NodeId) : List (NodeId × EdgeKind) :=
  (g.edgesTo n).filter (·.2 != .raise)

/-- A block starts at the vertex. -/
def isLeader (g : FlowGraph) (n : NodeId) : Bool :=
  g.isHandlerTarget n ||
    match normalEdges g n with
    | [(source, .fallthrough)] =>
      source == FlowGraph.entry || g.coveringHandlers source != g.coveringHandlers n
    | _ => true

/-- Makes a block for each leader. -/
def partitionFrom (g : FlowGraph) : List NodeId → Partition → Edit Partition
  | [], p => pure p
  | n :: rest, p => do
    let normal := normalEdges g n
    if g.isHandlerTarget n && !normal.isEmpty then
      throw (.unsupported (.handlerEntered (g.instr? n)))
    if isLeader g n then
      let b ← Edit.addBlock
      partitionFrom g rest {
        blocks := p.blocks ++ [(n, b)]
        joins := if 1 < normal.length then b :: p.joins else p.joins }
    else partitionFrom g rest p

/-- The block that starts at a vertex. -/
def blockOf (p : Partition) (n : NodeId) : Edit BlockId :=
  match p.blocks.lookup n with
  | some b => pure b
  | none => throw (.lift (.notALeader n))

/-- Adds the handlers, and gives their starts. -/
def addHandlers (s : Source) (p : Partition) : Nat → List (Handler Marker) → Edit (List Pending)
  | _, [] => pure []
  | k, h :: rest => do
    match s.graph.handlerTarget? k with
    | none => addHandlers s p (k + 1) rest
    | some n =>
      let _ ← Edit.addHandler ⟨← blockOf p n, h.excType, h.varName⟩
      return { leader := n } :: (← addHandlers s p (k + 1) rest)

/-- Says which of the handlers of the code cover the blocks. -/
def coverBlocks (s : Source) (p : Partition) : List NodeId → Edit Unit
  | [] => pure ()
  | n :: rest => do
    match p.blocks.lookup n with
    | none => pure ()
    | some b =>
      let covering := (s.graph.coveringHandlers n).filter (· < s.code.handlers.length)
      if !covering.isEmpty then
        Edit.setHandlers b covering
    coverBlocks s p rest

/-- The registers when the method starts: the arguments, and nothing in the others. -/
def initialLocals (arguments count : Nat) : List Value :=
  (List.range count).map fun r => if r < arguments then .reg r 0 else .const .undefined

/-- Leads the entry to the first block, and gives what is to be entered, last first. -/
def seed (s : Source) (p : Partition) (body : MethodBody) : Edit (List Pending) := do
  let handlers ← addHandlers s p 0 s.code.handlers
  coverBlocks s p s.graph.order
  match (s.graph.edgesFrom FlowGraph.entry).head? with
  | none => throw (.lift .noEntryEdge)
  | some (first, _) =>
    let b ← blockOf p first
    Edit.setTerminator Func.entry (.goto b)
    let frame : Frame := { locals := initialLocals body.argumentRegisters (← get).locals }
    return { leader := first, entry := some (frame, Func.entry, .fallthrough) } :: handlers.reverse

/-- The vertex that an edge of a kind leads to. -/
def successor (g : FlowGraph) (n : NodeId) (kind : EdgeKind) : Edit NodeId :=
  match (g.edgesFrom n).find? (·.2 == kind) with
  | some e => pure e.1
  | none => throw (.lift (.missingEdge n kind))

/-- Ends a block. -/
def close (b : BlockId) (t : Terminator) (frame : Frame) : Edit Unit := do
  Edit.modifyBlock b fun block => { block with scopeDepth := frame.scope.length }
  Edit.setTerminator b t

/-- The block that an edge leads to, and that it is to be entered by that edge. -/
def follow (s : Source) (p : Partition) (b : BlockId) (n : NodeId) (kind : EdgeKind)
    (frame : Frame) : Edit (BlockId × Pending) := do
  let target ← successor s.graph n kind
  let block ← blockOf p target
  return (block, { leader := target, entry := some (frame, b, kind) })

/-- Follows the cases of a switch, the first of which has number `k`. -/
def followCases (s : Source) (p : Partition) (b : BlockId) (n : NodeId) (frame : Frame) :
    Nat → List Marker → Edit (List (BlockId × Pending))
  | _, [] => pure []
  | k, _ :: rest => do
    let e ← follow s p b n (.switchCase k) frame
    return e :: (← followCases s p b n frame (k + 1) rest)

/-- Follows an instruction that ends a block, and gives what is to be entered then, first to last. -/
def terminate (s : Source) (p : Partition) (b : BlockId) (n : NodeId) (i : Instruction Marker)
    (frame : Frame) : Edit (List Pending) :=
  match i.opcode.flow with
  | .jump => do
    let (target, e) ← follow s p b n .jump frame
    close b (.jump target) frame
    return [e]
  | .conditional =>
    match BranchKind.ofOpcode? i.opcode with
    | none => throw (.lift (.notTwoWay i.opcode))
    | some kind => do
      let (operands, frame) ← Edit.ofExcept (frame.popN kind.arity)
      let (onFalse, e) ← follow s p b n .whenFalse frame
      let (onTrue, e') ← follow s p b n .whenTrue frame
      close b (.branch kind operands onTrue onFalse) frame
      return [e, e']
  | .switch =>
    match i.operands with
    | .switch _ cases => do
      let (index, frame) ← Edit.ofExcept frame.pop
      let (default, e) ← follow s p b n .switchDefault frame
      let es ← followCases s p b n frame 0 cases
      close b (.switch index default (es.map (·.1))) frame
      return e :: es.map (·.2)
    | _ => throw (.lift .noCaseTable)
  | .leave => do
    if i.opcode = .returnValue then
      let (value, frame) ← Edit.ofExcept frame.pop
      close b (.leave (some value)) frame
    else close b (.leave none) frame
    return []
  | .raise => do
    let (value, frame) ← Edit.ofExcept frame.pop
    close b (.raise value) frame
    return []
  | .next => throw (.lift (.notTerminating i.opcode))

/-- Follows the instructions of a block from a vertex on, at most `fuel` of them, and gives what is
to be entered then, first to last. -/
def interpret (s : Source) (p : Partition) (b : BlockId) :
    Nat → NodeId → Frame → Edit (List Pending)
  | 0, n, _ => throw (.lift (.noInstruction n))
  | fuel + 1, n, frame => do
    match (s.graph.instr? n).bind s.code.get? with
    | none => throw (.lift (.noInstruction n))
    | some i =>
      if i.opcode.flow ≠ .next then
        terminate s p b n i frame
      else
        let frame ← step s.pool b i frame
        let next ← successor s.graph n .fallthrough
        match p.blocks.lookup next with
        | some target =>
          close b (.goto target) frame
          return [{ leader := next, entry := some (frame, b, .fallthrough) }]
        | none => interpret s p b fuel next frame

/-- Makes the phis of a join, and the frame that holds them. -/
def openJoin (b source : BlockId) (kind : EdgeKind) (frame : Frame) : Edit (Frame × JoinPhis) := do
  let phis ← Edit.appendPhis b (frame.slots.map fun v => [⟨v, source, kind⟩])
  return (frame.withSlots (phis.map .node), ⟨frame.stack.length, frame.scope.length, phis⟩)

/-- Adds the slots of a frame to the phis of a join. -/
def merge (b source : BlockId) (kind : EdgeKind) (frame : Frame) (join : Option JoinPhis) :
    Edit Unit :=
  match join with
  | none => throw (.lift (.enteredTwice b))
  | some join => do
    if frame.stack.length ≠ join.stack ∨ frame.scope.length ≠ join.scope then
      throw (.lift
        (.depthMismatch b join.stack frame.stack.length join.scope frame.scope.length))
    modify fun f => (join.slots.zip frame.slots).foldl (fun f e =>
      f.modifyInputs e.1 fun inputs => inputs ++ [⟨e.2, source, kind⟩]) f

/-- The frame at the start of a handler: the exception on the stack, and in each register whatever
it holds then. -/
def handlerFrame (b : BlockId) : Edit Frame := do
  let version ← Edit.freshVersion
  let caught ← Edit.appendNode b .caught
  let locals := (List.range (← get).locals).map fun r => Value.reg r version
  return { stack := [.node caught], locals := locals }

/-- What is known between two entries of blocks. -/
structure Progress where
  /-- The blocks that were entered. -/
  started : List BlockId := []
  /-- The phis of the joins that were entered. -/
  phis : List (BlockId × JoinPhis) := []
  /-- What is to be entered, the last one first. -/
  worklist : List Pending := []
deriving Inhabited

/-- Enters a block for the first time. -/
def enter (s : Source) (p : Partition) (b : BlockId) (e : Pending) (w : Progress) :
    Edit Progress := do
  let w := { w with started := b :: w.started }
  let fuel := s.graph.graph.nodeCount
  match e.entry with
  | none =>
    let es ← interpret s p b fuel e.leader (← handlerFrame b)
    return { w with worklist := es.reverse ++ w.worklist }
  | some (frame, source, kind) =>
    if b ∈ p.joins then
      let (frame, phis) ← openJoin b source kind frame
      let es ← interpret s p b fuel e.leader frame
      return { w with phis := (b, phis) :: w.phis, worklist := es.reverse ++ w.worklist }
    else
      let es ← interpret s p b fuel e.leader frame
      return { w with worklist := es.reverse ++ w.worklist }

/-- Enters what is to be entered, at most `fuel` times. -/
def run (s : Source) (p : Partition) : Nat → Progress → Edit Progress
  | 0, w => pure w
  | fuel + 1, w =>
    match w.worklist with
    | [] => pure w
    | e :: rest => do
      let w := { w with worklist := rest }
      let b ← blockOf p e.leader
      if b ∈ w.started then
        match e.entry with
        | some (frame, source, kind) => merge b source kind frame (w.phis.lookup b)
        | none => pure ()
        run s p fuel w
      else run s p fuel (← enter s p b e w)

/-- Removes the given blocks. -/
def removeBlocks : List BlockId → Edit Unit
  | [] => pure ()
  | b :: rest => do
    Edit.removeBlock b
    removeBlocks rest

/-- Fills an empty function graph with the instructions of a method. -/
def build (s : Source) (body : MethodBody) : Edit Unit := do
  let p ← partitionFrom s.graph s.graph.order {}
  let worklist ← seed s p body
  let fuel := s.code.handlers.length + s.graph.graph.edgeCount + 2
  let w ← run s p fuel { worklist := worklist }
  removeBlocks ((p.blocks.map (·.2)).filter (· ∉ w.started))
  modify fun f => f.removeTrivialPhis.1.removeRedundantCopies.1.removeDeadNodes.1
  Edit.ofExcept (← get).verify

end Avm.Ir.Lift

namespace Avm

/-- The function graph of instructions with their control flow. -/
def Ir.Func.ofCode (body : MethodBody) (code : Code) (g : FlowGraph) (pool : Pool) :
    Except Fault Ir.Func :=
  let locals := max body.locals (code.localCount body.params body.flags)
  let empty : Ir.Func :=
    { method := body.method, params := body.params, flags := body.flags, locals := locals }
  match (Ir.Lift.build ⟨code, g, pool⟩ body).run empty with
  | .ok _ f => .ok f
  | .error fault _ => .error fault

/-- The function graph of a method body. -/
def MethodBody.lift (body : MethodBody) (pool : Pool) (config : Config) : Except Fault Ir.Func := do
  let code ← Code.decode body.code body.exceptions
  let g ← FlowGraph.build code
  if config.removeUnreachable then
    let (swept, removed) ← code.sweep g
    let g' ← if removed = 0 then pure g else FlowGraph.build swept
    let _ ← StackBounds.analyze g' swept pool config.maxStackPaths
    Ir.Func.ofCode body swept g' pool
  else
    let _ ← StackBounds.analyze g code pool config.maxStackPaths
    Ir.Func.ofCode body code g pool

end Avm
