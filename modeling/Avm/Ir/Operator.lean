import Avm.Opcode

/-!
# Operators

The opcodes that function graphs treat as operators: one operand, two operands, a name and an
operand, and conditions.  Each operator belongs to one opcode, which also names it in listings.
-/

namespace Avm.Ir

/-- An operator with one operand. -/
inductive UnaryOp where
  | negate | increment | decrement | typeOf | not | bitNot | negateI | incrementI | decrementI
  | convertS | convertI | convertU | convertD | convertB | convertO | coerceB | coerceA | coerceI
  | coerceD | coerceS | coerceU | coerceO | escXElem | escXAttr | checkFilter | sxi1 | sxi8
  | sxi16
deriving DecidableEq, Repr, Inhabited

namespace UnaryOp

/-- The opcode of an operator. -/
def opcode : UnaryOp → Opcode
  | .negate => .negate
  | .increment => .increment
  | .decrement => .decrement
  | .typeOf => .typeOf
  | .not => .not
  | .bitNot => .bitNot
  | .negateI => .negateI
  | .incrementI => .incrementI
  | .decrementI => .decrementI
  | .convertS => .convertS
  | .convertI => .convertI
  | .convertU => .convertU
  | .convertD => .convertD
  | .convertB => .convertB
  | .convertO => .convertO
  | .coerceB => .coerceB
  | .coerceA => .coerceA
  | .coerceI => .coerceI
  | .coerceD => .coerceD
  | .coerceS => .coerceS
  | .coerceU => .coerceU
  | .coerceO => .coerceO
  | .escXElem => .escXElem
  | .escXAttr => .escXAttr
  | .checkFilter => .checkFilter
  | .sxi1 => .sxi1
  | .sxi8 => .sxi8
  | .sxi16 => .sxi16

/-- Every operator of this sort. -/
def all : List UnaryOp :=
  [.negate, .increment, .decrement, .typeOf, .not, .bitNot, .negateI, .incrementI, .decrementI,
   .convertS, .convertI, .convertU, .convertD, .convertB, .convertO, .coerceB, .coerceA,
   .coerceI, .coerceD, .coerceS, .coerceU, .coerceO, .escXElem, .escXAttr, .checkFilter, .sxi1,
   .sxi8, .sxi16]

/-- The operator of an opcode. -/
def ofOpcode? (o : Opcode) : Option UnaryOp := all.find? (·.opcode == o)

/-- The name of an operator in listings. -/
def text (op : UnaryOp) : String := op.opcode.mnemonic

end UnaryOp

/-- An operator with two operands. -/
inductive BinaryOp where
  | add | subtract | multiply | divide | modulo | lShift | rShift | uRShift | bitAnd | bitOr
  | bitXor | equals | strictEquals | lessThan | lessEquals | greaterThan | greaterEquals
  | instanceOf | isTypeLate | asTypeLate | isIn | addI | subtractI | multiplyI
deriving DecidableEq, Repr, Inhabited

namespace BinaryOp

/-- The opcode of an operator. -/
def opcode : BinaryOp → Opcode
  | .add => .add
  | .subtract => .subtract
  | .multiply => .multiply
  | .divide => .divide
  | .modulo => .modulo
  | .lShift => .lShift
  | .rShift => .rShift
  | .uRShift => .uRShift
  | .bitAnd => .bitAnd
  | .bitOr => .bitOr
  | .bitXor => .bitXor
  | .equals => .equals
  | .strictEquals => .strictEquals
  | .lessThan => .lessThan
  | .lessEquals => .lessEquals
  | .greaterThan => .greaterThan
  | .greaterEquals => .greaterEquals
  | .instanceOf => .instanceOf
  | .isTypeLate => .isTypeLate
  | .asTypeLate => .asTypeLate
  | .isIn => .isIn
  | .addI => .addI
  | .subtractI => .subtractI
  | .multiplyI => .multiplyI

/-- Every operator of this sort. -/
def all : List BinaryOp :=
  [.add, .subtract, .multiply, .divide, .modulo, .lShift, .rShift, .uRShift, .bitAnd, .bitOr,
   .bitXor, .equals, .strictEquals, .lessThan, .lessEquals, .greaterThan, .greaterEquals,
   .instanceOf, .isTypeLate, .asTypeLate, .isIn, .addI, .subtractI, .multiplyI]

/-- The operator of an opcode. -/
def ofOpcode? (o : Opcode) : Option BinaryOp := all.find? (·.opcode == o)

/-- The name of an operator in listings. -/
def text (op : BinaryOp) : String := op.opcode.mnemonic

end BinaryOp

/-- The condition of a two-way branch. -/
inductive BranchKind where
  | truthy | falsy | eq | ne | lt | le | gt | ge | nlt | nle | ngt | nge | strictEq | strictNe
deriving DecidableEq, Repr, Inhabited

namespace BranchKind

/-- The opcode of an operator. -/
def opcode : BranchKind → Opcode
  | .truthy => .ifTrue
  | .falsy => .ifFalse
  | .eq => .ifEq
  | .ne => .ifNe
  | .lt => .ifLt
  | .le => .ifLe
  | .gt => .ifGt
  | .ge => .ifGe
  | .nlt => .ifNlt
  | .nle => .ifNle
  | .ngt => .ifNgt
  | .nge => .ifNge
  | .strictEq => .ifStrictEq
  | .strictNe => .ifStrictNe

/-- Every operator of this sort. -/
def all : List BranchKind :=
  [.truthy, .falsy, .eq, .ne, .lt, .le, .gt, .ge, .nlt, .nle, .ngt, .nge, .strictEq, .strictNe]

/-- The operator of an opcode. -/
def ofOpcode? (o : Opcode) : Option BranchKind := all.find? (·.opcode == o)

/-- The name of an operator in listings. -/
def text (op : BranchKind) : String := op.opcode.mnemonic

end BranchKind

/-- The number of operands of a condition. -/
def BranchKind.arity : BranchKind → Nat
  | .truthy | .falsy => 1
  | _ => 2

/-- An operator with the name of a type and one operand. -/
inductive TypeOp where
  | coerce | asType | isType
deriving DecidableEq, Repr, Inhabited

namespace TypeOp

/-- The opcode of an operator. -/
def opcode : TypeOp → Opcode
  | coerce => .coerce
  | asType => .asType
  | isType => .isType

/-- Every operator of this sort. -/
def all : List TypeOp := [.coerce, .asType, .isType]

/-- The operator of an opcode. -/
def ofOpcode? (o : Opcode) : Option TypeOp := all.find? (·.opcode == o)

end TypeOp

/-- A change of the scope stack. -/
inductive ScopeOp where
  | push | pushWith | pop
deriving DecidableEq, Repr, Inhabited

namespace ScopeOp

/-- The opcode of a change of the scope stack. -/
def opcode : ScopeOp → Opcode
  | push => .pushScope
  | pushWith => .pushWith
  | pop => .popScope

/-- The name of a change of the scope stack in listings. -/
def text : ScopeOp → String
  | push => "Push"
  | pushWith => "PushWith"
  | pop => "Pop"

end ScopeOp

end Avm.Ir
