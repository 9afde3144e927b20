import Avm.Emit.Plan
import Avm.Pool

/-!
# Writing instructions

Writes the instructions of a function graph, block by block.  A result that does not stay on the
stack goes to a register above those of the method, and the values of phis are moved to such
registers at the end of the blocks before.  Constants are entered into the pool, which stays as it is
then even if writing fails.
-/

namespace Avm.Emit

open Avm.Ir

/-- How far writing has come. -/
structure Draft where
  /-- The constants. -/
  pool : Pool
  /-- The instructions so far. -/
  code : Code := {}
  /-- The markers of the next instruction. -/
  pending : List Marker := []
  /-- The registers that hold results of nodes. -/
  temps : List (ValueId × Nat) := []
  /-- The next register for such a result, which is a word. -/
  nextTemp : Nat
  /-- The positions at which blocks start. -/
  starts : List Nat := []
deriving DecidableEq, Repr, Inhabited

/-- A step of writing. -/
abbrev Write := EStateM Fault Draft

namespace Write

/-- A step that only asks for something that may be at fault. -/
def ofExcept {α : Type} : Except Fault α → Write α
  | .ok a => pure a
  | .error e => throw e

/-- Writes an instruction, and binds the markers that wait for it. -/
def push (i : Instruction Marker) : Write Unit :=
  modify fun d =>
    let (code, id) := d.code.push i
    { d with
      code := { code with
        markers := d.pending.foldl (fun t m => t.bind m (.instr id)) code.markers }
      pending := [] }

/-- Writes an instruction whose operands have to suit its opcode. -/
def pushChecked (i : Instruction Marker) : Write Unit := do
  ofExcept i.check
  push i

/-- The number of a constant in the pool, which may grow. -/
def intern (k : PoolKind) (value : k.Entry) : Write Nat := do
  let d ← get
  let (pool, index) := d.pool.intern k value
  set { d with pool := pool }
  return index

/-- The register for the result of a node.  Behind the last register that a word numbers comes the first one
again. -/
def temp (v : ValueId) : Write Nat := do
  let d ← get
  match d.temps.lookup v with
  | some register => return register
  | none =>
    set { d with temps := (v, d.nextTemp) :: d.temps, nextTemp := addWords d.nextTemp 1 }
    return d.nextTemp

/-- The shortest instruction that pushes a constant. -/
def constant : Constant → Write (Instruction Marker)
  | .undefined => return ⟨.pushUndefined, .none⟩
  | .null => return ⟨.pushNull, .none⟩
  | .bool true => return ⟨.pushTrue, .none⟩
  | .bool false => return ⟨.pushFalse, .none⟩
  | .int n =>
    if -128 ≤ n.toInt ∧ n.toInt < 128 then return .withByte .pushByte n.toUInt32.toUInt8
    else if -32768 ≤ n.toInt ∧ n.toInt < 32768 then
      return .withIndex .pushShort (n.toUInt32.toNat % 65536)
    else return .withIndex .pushInt (← intern .int n)
  | .uint n => return .withIndex .pushUInt (← intern .uint n)
  | .double d =>
    if d.isNaN then return ⟨.pushNaN, .none⟩
    else return .withIndex .pushDouble (← intern .double d)
  | .string s => return .withIndex .pushString (← intern .string s)
  | .ns index => return .withIndex .pushNamespace index

/-- Pushes a value, unless it is on the stack already. -/
def value (p : Plan) : Value → Write Unit
  | .const c => do push (← constant c)
  | .reg register _ => push (.getLocal register)
  | .node v => do
    if p.onStack.contains v then return ()
    match (← get).temps.lookup v with
    | some register => push (.getLocal register)
    | none => throw (.emit (.usedBeforeComputed v))

/-- Pushes values, the first one first. -/
def values (p : Plan) : List Value → Write Unit
  | [] => return ()
  | v :: rest => do
    value p v
    values p rest

/-- Writes what a node does, up to its result. -/
def effect (p : Plan) (v : ValueId) : NodeKind → Write Unit
  | .phi _ => throw (.emit (.phiInBody v))
  | .caught => return ()
  | .store register (.const .undefined) => push (.withIndex .kill register)
  | .store register operand => do
    value p operand
    push (.setLocal register)
  | .hasNext2 object index => push (.withPair .hasNext2 object index)
  | .unary op operand => do
    value p operand
    push ⟨op.opcode, .none⟩
  | .type op name operand => do
    value p operand
    push (.withIndex op.opcode name)
  | .binary op lhs rhs => do
    values p [lhs, rhs]
    push ⟨op.opcode, .none⟩
  | .copy operand => value p operand
  | .property opcode name operands => do
    values p operands
    pushChecked (.withIndex opcode name)
  | .call opcode index argCount operands => do
    values p operands
    pushChecked (if opcode.layout = .pair then .withPair opcode index argCount
      else .withIndex opcode argCount)
  | .operation instruction operands => do
    values p operands
    push instruction
  | .scope op operand => do
    values p operand.toList
    push ⟨op.opcode, .none⟩
  | .debug instruction => push instruction

/-- Writes a node; its result stays on the stack, goes to a register, or is dropped. -/
def node (p : Plan) (v : ValueId) : Write Unit := do
  match p.func.kind? v with
  | none => throw (.graph (.noNode v))
  | some kind =>
    effect p v kind
    if kind.producesValue && !p.onStack.contains v then
      if p.isUsed v then push (.setLocal (← temp v)) else push ⟨.pop, .none⟩

/-- Pops values into the registers of nodes, the first one first. -/
def popInto : List ValueId → Write Unit
  | [] => return ()
  | v :: rest => do
    push (.setLocal (← temp v))
    popInto rest

/-- Gives the phis of a block their values on an edge.  All values are read before any phi is
set. -/
def moves (p : Plan) (source : BlockId) (kind : EdgeKind) (target : BlockId) : Write Unit := do
  let ms ← ofExcept (p.phiMoves source kind target)
  values p (ms.map (·.2))
  popInto (ms.map (·.1)).reverse

/-- The marker of a block: they are numbered in the order of the blocks. -/
def label (p : Plan) (b : BlockId) : Write Marker :=
  match p.order.findIdx? (· == b) with
  | some m => return m
  | none => throw (.emit (.notPlaced b))

/-- The markers of blocks. -/
def labels (p : Plan) : List BlockId → Write (List Marker)
  | [] => return []
  | b :: rest => do
    let m ← label p b
    return m :: (← labels p rest)

/-- Jumps to a block, unless it comes next. -/
def jumpTo (p : Plan) (source target : BlockId) : Write Unit := do
  if next? p.order source != some target then
    push (.branch .jump (← label p target))

/-- Writes the end of a block. -/
def terminator (p : Plan) (b : BlockId) : Terminator → Write Unit
  | .goto target => do
    moves p b .fallthrough target
    jumpTo p b target
  | .jump target => do
    moves p b .jump target
    jumpTo p b target
  | .branch kind operands onTrue onFalse => do
    values p operands
    match kind.opcode.inverseBranch, next? p.order b == some onTrue with
    | some inverse, true => push (.branch inverse (← label p onFalse))
    | _, _ =>
      push (.branch kind.opcode (← label p onTrue))
      jumpTo p b onFalse
  | .switch index default cases => do
    value p index
    let default ← label p default
    let cases ← labels p cases
    pushChecked (.switch default cases)
  | .leave none => push ⟨.returnVoid, .none⟩
  | .leave (some v) => do
    value p v
    push ⟨.returnValue, .none⟩
  | .raise v => do
    value p v
    push ⟨.throw, .none⟩
  | .none => throw (.emit (.noTerminator b))

/-- The node takes the exception that was caught. -/
def catches (f : Func) (v : ValueId) : Bool := f.kind? v == some .caught

/-- Writes nodes behind the first one of a block, where no exception can be taken. -/
def laterNodes (p : Plan) (b : BlockId) : List ValueId → Write Unit
  | [] => return ()
  | v :: rest => do
    if catches p.func v then
      throw (.emit (.lateCatch v b))
    node p v
    laterNodes p b rest

/-- Writes the nodes of a block. -/
def nodes (p : Plan) (b : BlockId) : List ValueId → Write Unit
  | [] => return ()
  | v :: rest => do
    node p v
    laterNodes p b rest

/-- Writes a block.  An exception that the block does not take is dropped. -/
def block (p : Plan) (b : BlockId) : Write Unit := do
  match p.func.block? b with
  | none => throw (.graph (.noBlock b))
  | some block =>
    if isBackwardTarget p.func p.order b then
      push ⟨.label, .none⟩
    if p.func.handlers.any (·.target == b) && !(block.body.head?.map (catches p.func)).getD false then
      push ⟨.pop, .none⟩
    nodes p b block.body
    terminator p b block.terminator

/-- Writes blocks, each at its marker. -/
def blocks (p : Plan) : List BlockId → Write Unit
  | [] => return ()
  | b :: rest => do
    let m ← label p b
    modify fun d => { d with starts := d.starts ++ [d.code.size], pending := d.pending ++ [m] }
    block p b
    blocks p rest

/-- Binds the markers behind the last instruction. -/
def finish : Write Unit :=
  modify fun d =>
    { d with
      code := { d.code with
        markers := d.pending.foldl (fun t m => t.bind m .codeEnd) d.code.markers }
      pending := [] }

end Write

end Avm.Emit
