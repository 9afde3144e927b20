import Avm.Fault
import Avm.Double.Decimal

/-!
# Values

What an operand of a function graph can be: a constant, the content of a register, or the result of
a node.  A register is named together with a version, which says where the reading came from and
plays no part in its meaning.
-/

namespace Avm.Ir

/-- The number of a node. -/
abbrev ValueId := Nat

/-- The number of a block. -/
abbrev BlockId := Nat

/-- How a node is shown. -/
def ValueId.text (v : ValueId) : String := s!"v{v}"

/-- How a block is shown. -/
def BlockId.text (b : BlockId) : String := s!"b{b}"

/-- A constant. -/
inductive Constant where
  | undefined
  | null
  | bool (value : Bool)
  | int (value : Int32)
  | uint (value : UInt32)
  | double (value : Double)
  | string (value : String)
  /-- A namespace, by its number in the pool. -/
  | ns (index : Nat)
deriving DecidableEq, Repr, Inhabited

namespace Constant

/-- The constant is null or undefined. -/
def isNullish : Constant → Bool
  | undefined | null => true
  | _ => false

/-- How a constant is shown. -/
def text : Constant → String
  | undefined => "undefined"
  | null => "null"
  | bool value => toString value
  | int value => toString value.toInt
  | uint value => s!"{value.toNat}u"
  | double value => value.text
  | string value => Text.quote value
  | ns index => s!"ns#{index}"

end Constant

/-- An operand. -/
inductive Value where
  /-- A constant. -/
  | const (constant : Constant)
  /-- The content of a register. -/
  | reg (register version : Nat)
  /-- The result of a node. -/
  | node (id : ValueId)
deriving DecidableEq, Repr, Inhabited

namespace Value

/-- The node whose result the operand is. -/
def node? : Value → Option ValueId
  | node id => some id
  | _ => none

/-- The constant that the operand is. -/
def const? : Value → Option Constant
  | const constant => some constant
  | _ => none

/-- The register whose content the operand is. -/
def register? : Value → Option Nat
  | reg register _ => some register
  | _ => none

/-- How an operand is shown. -/
def text : Value → String
  | const constant => constant.text
  | reg register version => s!"r{register}.{version}"
  | node id => id.text

/-- The operand is the result of the node. -/
def isNode (id : ValueId) : Value → Bool
  | node v => v == id
  | _ => false

/-- The operand with one node replaced by a value. -/
def replaceNode (old : ValueId) (new : Value) (v : Value) : Value :=
  if v = .node old then new else v

/-- The operand with its register renumbered. -/
def mapRegister (f : Nat → Nat) : Value → Value
  | reg register version => .reg (f register) version
  | v => v

/-- The operand with its node renumbered. -/
def mapNode (f : ValueId → ValueId) : Value → Value
  | node id => .node (f id)
  | v => v

end Value

end Avm.Ir
