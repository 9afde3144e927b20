import Avm.Instruction
import Avm.Ir.Operator
import Avm.Ir.Value

/-!
# Nodes and terminators

A node of a function graph computes a value, has an effect, or both.  A phi stands for the value
that comes in on the edge by which its block was entered.  A terminator says where control goes at
the end of a block.
-/

namespace Avm.Ir

/-- The value of a phi on one edge into its block. -/
structure PhiInput where
  /-- The value. -/
  value : Value
  /-- The block that the edge leaves. -/
  source : BlockId
  /-- The kind of the edge. -/
  kind : EdgeKind
deriving DecidableEq, Repr, Inhabited

/-- What a node does. -/
inductive NodeKind where
  /-- Applies an operator to one operand. -/
  | unary (op : UnaryOp) (operand : Value)
  /-- Applies an operator with the name of a type. -/
  | type (op : TypeOp) (name : Nat) (operand : Value)
  /-- Applies an operator to two operands. -/
  | binary (op : BinaryOp) (lhs rhs : Value)
  /-- Keeps a value as it is now. -/
  | copy (value : Value)
  /-- Takes the value that belongs to the edge into the block. -/
  | phi (inputs : List PhiInput)
  /-- The exception that a handler caught. -/
  | caught
  /-- Sets a register. -/
  | store (register : Nat) (value : Value)
  /-- Advances an iteration, whose object and index are in registers. -/
  | hasNext2 (object index : Nat)
  /-- Works on a named property. -/
  | property (opcode : Opcode) (name : Nat) (operands : List Value)
  /-- Calls a function. -/
  | call (opcode : Opcode) (index argCount : Nat) (operands : List Value)
  /-- Does what an instruction does. -/
  | operation (instruction : Instruction Marker) (operands : List Value)
  /-- Changes the scope stack. -/
  | scope (op : ScopeOp) (operand : Option Value)
  /-- Tells a debugger something. -/
  | debug (instruction : Instruction Marker)
deriving DecidableEq, Repr, Inhabited

namespace NodeKind

/-- The node has a result. -/
def producesValue : NodeKind → Bool
  | unary .. | type .. | binary .. | copy _ | phi _ | caught | hasNext2 .. => true
  | store .. | scope .. | debug _ => false
  | property opcode .. | call opcode .. => 0 < opcode.info.pushes
  | operation instruction _ => 0 < instruction.opcode.info.pushes

/-- The node has to stay even if nothing uses its result. -/
def hasSideEffects : NodeKind → Bool
  | unary .. | type .. | binary .. | copy _ | phi _ => false
  | operation instruction _ =>
    instruction.opcode != .getGlobalScope && instruction.opcode != .newFunction
  | _ => true

/-- The node is a phi. -/
def isPhi : NodeKind → Bool
  | phi _ => true
  | _ => false

/-- The inputs of a phi. -/
def inputs? : NodeKind → Option (List PhiInput)
  | phi inputs => some inputs
  | _ => none

/-- The registers that the node sets. -/
def written : NodeKind → List Nat
  | store register _ => [register]
  | hasNext2 object index => [object, index]
  | _ => []

/-- The operands of the node. -/
def operands : NodeKind → List Value
  | unary _ operand | type _ _ operand | copy operand | store _ operand => [operand]
  | binary _ lhs rhs => [lhs, rhs]
  | phi inputs => inputs.map (·.value)
  | property _ _ operands | call _ _ _ operands | operation _ operands => operands
  | scope _ operand => operand.toList
  | caught | hasNext2 .. | debug _ => []

/-- The node uses the result of another node. -/
def uses (v : ValueId) : NodeKind → Bool
  | unary _ operand | type _ _ operand | copy operand | store _ operand => operand.isNode v
  | binary _ lhs rhs => lhs.isNode v || rhs.isNode v
  | phi inputs => inputs.any fun i => i.value.isNode v
  | property _ _ operands | call _ _ _ operands | operation _ operands =>
    operands.any fun o => o.isNode v
  | scope _ operand => operand.any fun o => o.isNode v
  | caught | hasNext2 .. | debug _ => false

/-- The node with each operand replaced. -/
def mapOperands (f : Value → Value) : NodeKind → NodeKind
  | unary op operand => unary op (f operand)
  | type op name operand => type op name (f operand)
  | binary op lhs rhs => binary op (f lhs) (f rhs)
  | copy value => copy (f value)
  | phi inputs => phi (inputs.map fun i => { i with value := f i.value })
  | caught => caught
  | store register value => store register (f value)
  | hasNext2 object index => hasNext2 object index
  | property opcode name operands => property opcode name (operands.map f)
  | call opcode index argCount operands => call opcode index argCount (operands.map f)
  | operation instruction operands => operation instruction (operands.map f)
  | scope op operand => scope op (operand.map f)
  | debug instruction => debug instruction

/-- A debug record with its register renumbered, if the new number fits into a byte. -/
def remapDebug (f : Nat → Nat) (i : Instruction Marker) : Instruction Marker :=
  match i.operands with
  | .debug kind name register extra =>
    let r := f register.toNat
    { i with operands := .debug kind name (if r < 256 then r.toUInt8 else register) extra }
  | _ => i

/-- The node with its registers renumbered. -/
def remapRegisters (f : Nat → Nat) (k : NodeKind) : NodeKind :=
  let k := match k with
    | store register value => store (f register) value
    | hasNext2 object index => hasNext2 (f object) (f index)
    | debug instruction => debug (remapDebug f instruction)
    | k => k
  k.mapOperands (Value.mapRegister f)

/-- Operands in listings. -/
def operandText (vs : List Value) : String := ", ".intercalate (vs.map Value.text)

/-- The node in listings. -/
def text : NodeKind → String
  | unary op operand => op.text ++ " " ++ operand.text
  | type op name operand => op.opcode.mnemonic ++ s!" #{name} " ++ operand.text
  | binary op lhs rhs => op.text ++ " " ++ lhs.text ++ ", " ++ rhs.text
  | copy value => "copy " ++ value.text
  | phi inputs => "phi " ++ ", ".intercalate (inputs.map fun i =>
      "[" ++ i.value.text ++ " " ++ i.source.text ++ " " ++ i.kind.text ++ "]")
  | caught => "caught"
  | store register value => s!"store r{register}, " ++ value.text
  | hasNext2 object index => s!"hasnext2 r{object}, r{index}"
  | property opcode name operands =>
    opcode.mnemonic ++ s!" #{name} (" ++ operandText operands ++ ")"
  | call opcode index argCount operands =>
    opcode.mnemonic ++ s!" #{index}/{argCount} (" ++ operandText operands ++ ")"
  | operation instruction operands => instruction.text ++ " (" ++ operandText operands ++ ")"
  | scope op (some value) => op.text ++ " " ++ value.text
  | scope op none => op.text
  | debug instruction => instruction.text

end NodeKind

/-- Where control goes at the end of a block. -/
inductive Terminator where
  /-- On to a block. -/
  | goto (target : BlockId)
  /-- To a block, by a jump. -/
  | jump (target : BlockId)
  /-- To one of two blocks. -/
  | branch (kind : BranchKind) (operands : List Value) (onTrue onFalse : BlockId)
  /-- To one of several blocks. -/
  | switch (index : Value) (default : BlockId) (cases : List BlockId)
  /-- Out of the method, possibly with a value. -/
  | leave (value : Option Value)
  /-- To the handlers, or out of the method. -/
  | raise (value : Value)
  /-- Not said yet. -/
  | none
deriving DecidableEq, Repr, Inhabited

namespace Terminator

/-- The blocks that control may go to, with the kinds of the edges. -/
def targets : Terminator → List (BlockId × EdgeKind)
  | goto target => [(target, .fallthrough)]
  | jump target => [(target, .jump)]
  | branch _ _ onTrue onFalse => [(onTrue, .whenTrue), (onFalse, .whenFalse)]
  | switch _ default cases =>
    (default, .switchDefault) :: cases.mapIdx fun i c => (c, .switchCase i)
  | leave _ | raise _ | none => []

/-- The terminator with the edge of one kind led to another block, if there is such an edge. -/
def retarget? (t : Terminator) (kind : EdgeKind) (target : BlockId) : Option Terminator :=
  match t, kind with
  | goto _, .fallthrough => some (goto target)
  | jump _, .jump => some (jump target)
  | branch k ops _ onFalse, .whenTrue => some (branch k ops target onFalse)
  | branch k ops onTrue _, .whenFalse => some (branch k ops onTrue target)
  | switch index _ cases, .switchDefault => some (switch index target cases)
  | switch index default cases, .switchCase i =>
    if i < cases.length then some (switch index default (cases.set i target)) else Option.none
  | _, _ => Option.none

/-- The terminator with each target replaced. -/
def mapTargets (f : BlockId → BlockId) : Terminator → Terminator
  | goto target => goto (f target)
  | jump target => jump (f target)
  | branch kind ops onTrue onFalse => branch kind ops (f onTrue) (f onFalse)
  | switch index default cases => switch index (f default) (cases.map f)
  | leave value => leave value
  | raise value => raise value
  | none => none

/-- The operands of the terminator. -/
def operands : Terminator → List Value
  | branch _ operands _ _ => operands
  | switch index _ _ => [index]
  | leave value => value.toList
  | raise value => [value]
  | goto _ | jump _ | none => []

/-- The terminator with each operand replaced. -/
def mapOperands (f : Value → Value) : Terminator → Terminator
  | branch kind operands onTrue onFalse => branch kind (operands.map f) onTrue onFalse
  | switch index default cases => switch (f index) default cases
  | leave value => leave (value.map f)
  | raise value => raise (f value)
  | goto target => goto target
  | jump target => jump target
  | none => none

/-- Control leaves the method, unless a handler catches it. -/
def exits : Terminator → Bool
  | leave _ | raise _ => true
  | _ => false

/-- The terminator in listings. -/
def text : Terminator → String
  | goto target => "goto " ++ target.text
  | jump target => "jump " ++ target.text
  | branch kind operands onTrue onFalse =>
    kind.text ++ String.join (operands.map fun v => " " ++ v.text) ++ " ? " ++ onTrue.text
      ++ " : " ++ onFalse.text
  | switch index default cases =>
    "switch " ++ index.text ++ " default " ++ default.text ++ " " ++
      Text.bracketed (cases.map BlockId.text)
  | leave (some value) => "return " ++ value.text
  | leave Option.none => "return"
  | raise value => "throw " ++ value.text
  | none => "<none>"

end Terminator

end Avm.Ir
