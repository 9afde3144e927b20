import Avm.EdgeKind
import Avm.Opcode
import Avm.Text.Quoted

/-!
# Faults

Everything that can be wrong with a method, as data: one constructor for each cause, with what it
concerns.  The wording of a fault is a function of its cause, and stands here alone.  Instructions,
markers, blocks and values are named in messages by a letter and their number.
-/

namespace Avm

/-- Why bytes do not decode, or instructions do not encode, at some place. -/
inductive CodecDefect where
  /-- The code has more bytes than a 32-bit number counts. -/
  | codeTooLarge (length : Nat)
  /-- No opcode is encoded by this byte. -/
  | unknownOpcode (byte : UInt8)
  /-- The bytes end before the operands do. -/
  | truncated (start : Nat)
  /-- A branch leads out of the code. -/
  | targetOutside (target : Int) (length : Nat)
  /-- A switch claims more cases than the code has bytes. -/
  | tooManyCases (count length : Nat)
  /-- A protected range or its handler lies outside the code. -/
  | handlerOutside (offset : Nat)
  /-- A branch leads into the middle of an instruction. -/
  | notABoundary (offset : Nat)
  /-- The operands do not have the shape that the opcode asks for. -/
  | operandShape (opcode : Opcode) (layout : Layout)
  /-- An operand has more than thirty bits. -/
  | operandTooLarge (value : Nat) (opcode : Opcode)
  /-- A switch has no cases. -/
  | noCases
deriving DecidableEq, Repr

namespace CodecDefect

/-- A byte as two hexadecimal digits. -/
def hexByte (b : UInt8) : String :=
  String.ofList ("0x".toList ++ [Nat.digitChar (b.toNat / 16), Nat.digitChar (b.toNat % 16)])

/-- The wording of a defect. -/
def text : CodecDefect → String
  | codeTooLarge length => s!"code of {length} bytes is too large"
  | unknownOpcode byte => "unknown opcode " ++ hexByte byte
  | truncated start => s!"stream ends inside the instruction at {start}"
  | targetOutside target length =>
    s!"branch target {target} is outside the code (length {length})"
  | tooManyCases count length =>
    s!"lookupswitch declares {count} cases in {length} bytes of code"
  | handlerOutside offset => s!"exception handler offset {offset} is outside the code"
  | notABoundary offset => s!"branch target {offset} is not an instruction boundary"
  | operandShape opcode layout => s!"{opcode.mnemonic} carries {layout.name} operands"
  | operandTooLarge value opcode =>
    s!"operand {value} of {opcode.mnemonic} does not fit into a u30"
  | noCases => "lookupswitch without cases"

end CodecDefect

/-- Why a marker cannot be turned into an offset. -/
inductive RelocationDefect where
  /-- A branch leads nowhere. -/
  | unresolvedBranch (marker : Nat)
  /-- A protected range or its handler is nowhere. -/
  | unresolvedHandler (marker : Nat)
  /-- A branch is too long for its field. -/
  | tooFar (marker field : Nat) (distance : Int)
deriving DecidableEq, Repr

/-- The wording of a defect. -/
def RelocationDefect.text : RelocationDefect → String
  | unresolvedBranch marker => s!"marker L{marker} does not resolve to an instruction"
  | unresolvedHandler marker => s!"exception handler marker L{marker} does not resolve"
  | tooFar marker field distance =>
    s!"branch to L{marker} at byte {field} is out of 24-bit range ({distance})"

/-- What is wrong with a stream of instructions. -/
inductive CodeDefect where
  /-- The operands do not have the shape that the opcode asks for. -/
  | operandShape (opcode : Opcode) (layout : Layout)
  /-- A switch has no cases. -/
  | noCases
  /-- A label stands in two places. -/
  | duplicateLabel (name : String)
  /-- Labels are used and stand nowhere. -/
  | undefinedLabels (names : List String)
  /-- There is no such instruction. -/
  | noInstruction (id : Nat)
  /-- A protected range or its handler is nowhere. -/
  | unboundHandler (marker : Nat)
  /-- A branch leads nowhere. -/
  | unboundBranch (opcode : Opcode) (id marker : Nat)
deriving DecidableEq, Repr

/-- The wording of a defect. -/
def CodeDefect.text : CodeDefect → String
  | operandShape opcode layout =>
    s!"{opcode.mnemonic} expects {opcode.layout.name} operands, got {layout.name}"
  | noCases => "lookupswitch needs at least one case"
  | duplicateLabel name => "label '" ++ name ++ "' is defined twice"
  | undefinedLabels names => "undefined labels: " ++ Text.bracketed (names.map Text.quote)
  | noInstruction id => s!"instruction i{id} does not exist"
  | unboundHandler marker => s!"exception handler marker L{marker} is unbound"
  | unboundBranch opcode id marker =>
    s!"{opcode.mnemonic} at i{id} branches to unbound marker L{marker}"

/-- Why instructions have no control flow graph or no stack effect. -/
inductive FlowDefect where
  /-- There are no instructions. -/
  | emptyCode
  /-- A handler starts outside the code. -/
  | handlerOutside (position : Nat)
  /-- Control runs past the last instruction. -/
  | fallsOffEnd
  /-- A branch leads to an instruction that is gone. -/
  | branchToRemoved (marker : Nat)
  /-- A branch leads past the last instruction. -/
  | branchToEnd (marker : Nat)
  /-- A branch leads nowhere. -/
  | branchUnbound (marker : Nat)
  /-- A branch instruction has no targets. -/
  | operandShape (opcode : Opcode) (layout : Layout)
  /-- A name is not in the pool, so what it takes from the stack is unknown. -/
  | unknownName (opcode : Opcode) (index : Nat)
deriving DecidableEq, Repr

/-- The wording of a defect. -/
def FlowDefect.text : FlowDefect → String
  | emptyCode => "method body has no instructions"
  | handlerOutside position => s!"exception handler target {position} is outside the code"
  | fallsOffEnd => "control falls off the end of the code"
  | branchToRemoved marker => s!"branch target L{marker} was removed from the code"
  | branchToEnd marker => s!"branch target L{marker} is the end of the code"
  | branchUnbound marker => s!"branch target L{marker} is unbound"
  | operandShape opcode layout =>
    s!"{opcode.mnemonic} with {opcode.flow.name} flow carries {layout.name} operands"
  | unknownName opcode index =>
    s!"{opcode.mnemonic} refers to multiname {index} outside the constant pool"

/-- What is wrong with the stacks and registers at an instruction. -/
inductive FrameDefect where
  /-- The operand stack is empty. -/
  | underflow
  /-- The operand stack has too few values. -/
  | tooShort (need have_ : Nat)
  /-- There is no such register. -/
  | noRegister (register : Nat)
deriving DecidableEq, Repr

/-- The wording of a defect. -/
def FrameDefect.text : FrameDefect → String
  | underflow => "operand stack underflow"
  | tooShort need have_ => s!"operand stack underflow: need {need}, have {have_}"
  | noRegister register => s!"register {register} is out of range"

/-- What is wrong with a function graph, or with a request to edit it. -/
inductive GraphDefect where
  /-- There is no such block. -/
  | noBlock (block : Nat)
  /-- A node was to be placed past the end of a block. -/
  | nodePosition (index block : Nat)
  /-- There is no such node. -/
  | noNode (node : Nat)
  /-- A phi belongs to the edges of its block and cannot leave it. -/
  | phiMoved (node : Nat)
  /-- A block was to continue at a block that does not exist. -/
  | missingTarget (block target : Nat)
  /-- There is no such handler. -/
  | noHandler (index : Nat)
  /-- The first and the last block stay. -/
  | fixedBlock (block : Nat)
  /-- There is no such edge, or only exceptions take it. -/
  | notSplittable (kind : EdgeKind) (source target : Nat)
  /-- A block was to be split past its end. -/
  | splitPosition (index block : Nat)
  /-- The edges of a block are not those of its terminator and handlers. -/
  | staleEdges (block : Nat)
  /-- An edge is not known to the block that it enters. -/
  | missingBackLink (source target : Nat)
  /-- A block lists a node that names another block. -/
  | notOwned (node block : Nat)
  /-- The node has no place among the phis. -/
  | notAPhi (node : Nat)
  /-- The inputs of a phi are not the edges into its block. -/
  | phiInputs (node : Nat) (inputs : List (Nat × EdgeKind)) (block : Nat)
      (edges : List (Nat × EdgeKind))
deriving DecidableEq, Repr

namespace GraphDefect

/-- A list of edges, each by the block at its other end and its kind. -/
def edgesText (edges : List (Nat × EdgeKind)) : String :=
  Text.bracketed (edges.map fun e => s!"(BlockId({e.1}), " ++ e.2.name ++ ")")

/-- The wording of a defect. -/
def text : GraphDefect → String
  | noBlock block => s!"block b{block} does not exist"
  | nodePosition index block => s!"node position {index} is past the end of block b{block}"
  | noNode node => s!"node v{node} does not exist"
  | phiMoved node => s!"phi v{node} cannot be moved"
  | missingTarget block target => s!"block b{block} jumps to missing block b{target}"
  | noHandler index => s!"handler {index} does not exist"
  | fixedBlock block => s!"block b{block} cannot be removed"
  | notSplittable kind source target =>
    s!"no splittable {kind.text} edge from b{source} to b{target}"
  | splitPosition index block => s!"split position {index} is past the end of block b{block}"
  | staleEdges block => s!"edges of b{block} are stale"
  | missingBackLink source target => s!"edge b{source} -> b{target} is missing its back link"
  | notOwned node block => s!"node v{node} is not owned by b{block}"
  | notAPhi node => s!"v{node} in the phi list is not a phi"
  | phiInputs node inputs block edges =>
    s!"phi v{node} has inputs for " ++ edgesText inputs ++ s!" but b{block} has edges "
      ++ edgesText edges

end GraphDefect

/-- Why instructions cannot be lifted to a function graph. -/
inductive LiftDefect where
  /-- An instruction lacks an index. -/
  | missingIndex (instruction : String)
  /-- An instruction does not start a block. -/
  | notALeader (vertex : Nat)
  /-- The flow graph has no first instruction. -/
  | noEntryEdge
  /-- A join was reached without an edge. -/
  | joinWithoutEdge (block : Nat)
  /-- A state was merged without an edge. -/
  | mergeWithoutEdge (block : Nat)
  /-- A block with one predecessor was reached twice. -/
  | enteredTwice (block : Nat)
  /-- Two ways into a block disagree on the depth of a stack. -/
  | depthMismatch (block stack stack' scope scope' : Nat)
  /-- The flow graph lacks an edge. -/
  | missingEdge (vertex : Nat) (kind : EdgeKind)
  /-- A vertex stands for no instruction. -/
  | noInstruction (vertex : Nat)
  /-- An opcode is no conditional branch. -/
  | notTwoWay (opcode : Opcode)
  /-- A switch has no case table. -/
  | noCaseTable
  /-- An opcode does not end a block. -/
  | notTerminating (opcode : Opcode)
  /-- A constant is not in the pool. -/
  | missingConstant (opcode : Opcode) (index : Nat)
  /-- An instruction pushes no constant. -/
  | notAConstant (instruction : String)
  /-- An instruction names no register. -/
  | namesNoRegister (instruction : String)
  /-- An instruction lacks its two registers. -/
  | needsTwoRegisters (instruction : String)
  /-- An instruction lacks its scope index. -/
  | needsScopeIndex (instruction : String)
  /-- There is no such scope. -/
  | scopeIndex (index depth : Nat)
  /-- Neither null nor undefined is a scope. -/
  | nullishScope (opcode : Opcode) (value : String)
  /-- The scope stack is empty. -/
  | emptyScope
  /-- An opcode hands on control. -/
  | notPlain (opcode : Opcode)
  /-- A call lacks its argument count. -/
  | noArgCount (instruction : String)
deriving DecidableEq, Repr

/-- The wording of a defect. -/
def LiftDefect.text : LiftDefect → String
  | missingIndex instruction => s!"{instruction} is missing its index operand"
  | notALeader vertex => s!"vertex n{vertex} does not start a block"
  | noEntryEdge => "the CFG has no entry edge"
  | joinWithoutEdge block => s!"join b{block} entered without an edge"
  | mergeWithoutEdge block => s!"b{block} is merged without an incoming edge"
  | enteredTwice block => s!"block b{block} is entered twice but has a single predecessor"
  | depthMismatch block stack stack' scope scope' =>
    s!"stack depth mismatch at b{block}: operand stack {stack} vs " ++ toString stack' ++
      s!", scope stack {scope} vs " ++ toString scope'
  | missingEdge vertex kind => s!"vertex n{vertex} has no {kind.text} edge"
  | noInstruction vertex => s!"vertex n{vertex} has no instruction"
  | notTwoWay opcode => s!"{opcode.mnemonic} is not a two-way branch"
  | noCaseTable => "lookupswitch without a case table"
  | notTerminating opcode => s!"{opcode.mnemonic} does not end a block"
  | missingConstant opcode index => s!"{opcode.mnemonic} refers to missing constant {index}"
  | notAConstant instruction => s!"{instruction} is not a constant push"
  | namesNoRegister instruction => s!"{instruction} names no register"
  | needsTwoRegisters instruction => s!"{instruction} needs two registers"
  | needsScopeIndex instruction => s!"{instruction} needs a scope index"
  | scopeIndex index depth => s!"getscopeobject {index} with a scope stack of depth {depth}"
  | nullishScope opcode value => s!"{opcode.mnemonic} of {value}"
  | emptyScope => "popscope on an empty scope stack"
  | notPlain opcode => s!"{opcode.mnemonic} cannot be lifted as a plain operation"
  | noArgCount instruction => s!"{instruction} has no argument count"

/-- Why a function graph cannot be turned into instructions, or a call not into a jump. -/
inductive EmitDefect where
  /-- A phi has no input for an edge. -/
  | noPhiInput (phi block : Nat)
  /-- A block that is branched to has no place in the code. -/
  | notPlaced (block : Nat)
  /-- An exception is caught after the start of a block. -/
  | lateCatch (node block : Nat)
  /-- A node is used before it is computed. -/
  | usedBeforeComputed (node : Nat)
  /-- A phi stands among the nodes of a block. -/
  | phiInBody (node : Nat)
  /-- A block does not say where control goes next. -/
  | noTerminator (block : Nat)
  /-- The first block does not say where control goes next. -/
  | noEntrySuccessor (method : Nat)
deriving DecidableEq, Repr

/-- The wording of a defect. -/
def EmitDefect.text : EmitDefect → String
  | noPhiInput phi block => s!"phi v{phi} has no input from b{block}"
  | notPlaced block => s!"block b{block} is branched to but never placed"
  | lateCatch node block => s!"v{node} catches an exception in the middle of b{block}"
  | usedBeforeComputed node => s!"v{node} is used before it is computed"
  | phiInBody node => s!"phi v{node} in a block body"
  | noTerminator block => s!"block b{block} has no terminator"
  | noEntrySuccessor method => s!"the entry block of method#{method} has no successor"

/-- What no conforming program contains. -/
inductive Malformation where
  | code (defect : CodeDefect)
  | flow (defect : FlowDefect)
  | frame (defect : FrameDefect)
  | graph (defect : GraphDefect)
  | lift (defect : LiftDefect)
  | emit (defect : EmitDefect)
deriving DecidableEq, Repr

/-- The wording of a malformation. -/
def Malformation.text : Malformation → String
  | code d => d.text
  | flow d => d.text
  | frame d => d.text
  | graph d => d.text
  | lift d => d.text
  | emit d => d.text

/-- What a conforming program may contain and this library does not model. -/
inductive Limitation where
  /-- A handler is also entered without an exception. -/
  | handlerEntered (instruction : Option Nat)
  /-- Handlers overlap without one lying inside the other. -/
  | handlersCross (method : Nat)
deriving DecidableEq, Repr

/-- The wording of a limitation. -/
def Limitation.text : Limitation → String
  | handlerEntered instruction =>
    "exception handler at " ++ (instruction.elim "" fun id => s!"i{id}")
      ++ " is also entered by normal control flow"
  | handlersCross method => s!"exception handlers of method#{method} do not nest"

/-- An edge between nodes that do not both exist. -/
inductive EndpointDefect where
  | noSource (node count : Nat)
  | noTarget (node count : Nat)
deriving DecidableEq, Repr

/-- The wording of a defect. -/
def EndpointDefect.text : EndpointDefect → String
  | noSource node count => s!"source node n{node} does not exist in graph with {count} nodes"
  | noTarget node count => s!"target node n{node} does not exist in graph with {count} nodes"

/-- Everything that can be wrong. -/
inductive Fault where
  /-- Bytes and instructions do not fit together at an offset or position. -/
  | codec (at_ : Nat) (defect : CodecDefect)
  /-- A marker cannot be turned into an offset; the code is shown as well. -/
  | relocation (defect : RelocationDefect) (dump : String)
  /-- No conforming program contains this. -/
  | malformed (defect : Malformation)
  /-- A position lies outside. -/
  | outOfBounds
  /-- A conforming program may contain this, but it is not modelled. -/
  | unsupported (limitation : Limitation)
  /-- An edge between nodes that do not both exist. -/
  | endpoint (defect : EndpointDefect)
deriving DecidableEq, Repr

namespace Fault

/-- A fault of a stream of instructions. -/
def code (d : CodeDefect) : Fault := .malformed (.code d)

/-- A fault of control flow. -/
def flow (d : FlowDefect) : Fault := .malformed (.flow d)

/-- A fault of stacks and registers. -/
def frame (d : FrameDefect) : Fault := .malformed (.frame d)

/-- A fault of a function graph. -/
def graph (d : GraphDefect) : Fault := .malformed (.graph d)

/-- A fault found while lifting. -/
def lift (d : LiftDefect) : Fault := .malformed (.lift d)

/-- A fault found while emitting. -/
def emit (d : EmitDefect) : Fault := .malformed (.emit d)

/-- The sort of fault, as reports show it. -/
def category : Fault → String
  | codec .. | outOfBounds => "codec"
  | relocation .. => "relocation"
  | malformed _ => "malformed"
  | unsupported _ => "unsupported"
  | endpoint _ => "graph"

/-- Every fault concerns one method and leaves the others alone. -/
def isMethodLocal (_ : Fault) : Bool := true

/-- The text of a fault.  The words `FILE:LINE` hold the place of a position in the program text. -/
def text : Fault → String
  | codec at_ defect => s!"Codec error at {at_}: " ++ defect.text
  | relocation defect dump => "Relocation error: " ++ defect.text ++ "\n" ++ dump
  | malformed defect => "Malformed - FILE:LINE: " ++ defect.text
  | outOfBounds => "Out of Bound read would have occurred - FILE:LINE"
  | unsupported limitation => "Unsupported construct: " ++ limitation.text
  | endpoint defect => defect.text

end Fault

end Avm
