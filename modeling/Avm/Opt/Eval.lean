import Avm.Ir.Operator
import Avm.Ir.Value

/-!
# Evaluating operators

The results of operators and conditions on constants, as far as they are known without running the
program.  Numbers are doubles; a result that is an integer of 32 bits is given as one.  Strings are
not read as numbers, and only integers below `10 ^ 15` in magnitude are written as strings.
-/

namespace Avm.Ir.Eval

/-- The number that a constant counts as. -/
def toNumber : Constant → Option Double
  | .undefined => some Double.nan
  | .null => some (Double.ofInt 0)
  | .bool b => some (Double.ofInt b.toInt)
  | .int n => some (Double.ofInt n.toInt)
  | .uint n => some (Double.ofInt n.toNat)
  | .double d => some d
  | .string _ | .ns _ => none

/-- The signed integer that a constant counts as. -/
def toInt32 (c : Constant) : Option Int32 := (toNumber c).map Double.toInt32

/-- The unsigned integer that a constant counts as. -/
def toUInt32 (c : Constant) : Option UInt32 := (toNumber c).map Double.toUInt32

/-- The truth value that a constant counts as. -/
def toBoolean : Constant → Bool
  | .undefined | .null => false
  | .bool b => b
  | .int n => n != 0
  | .uint n => n != 0
  | .double d => !(d.isNaN || d.isZero)
  | .string s => !s.isEmpty
  | .ns _ => true

/-- The text of a double, if it is an integer below `10 ^ 15` in magnitude or no finite number. -/
def numberText (d : Double) : Option String :=
  if d.isNaN then some "NaN"
  else if d.isInfinite then some (if d.isNegative then "-Infinity" else "Infinity")
  else if d.isZero then some "0"
  else if d.isIntegral && d.truncate.natAbs < 1000000000000000 then some (toString d.truncate)
  else none

/-- The text that a constant counts as. -/
def toText : Constant → Option String
  | .undefined => some "undefined"
  | .null => some "null"
  | .bool b => some (toString b)
  | .int n => some (toString n.toInt)
  | .uint n => some (toString n.toNat)
  | .double d => numberText d
  | .string s => some s
  | .ns _ => none

/-- The constant of a number: an integer if it is one of 32 bits and not the negative zero. -/
def ofNumber (d : Double) : Constant :=
  if d.isIntegral && !(d.isZero && d.isNegative) && -0x80000000 ≤ d.truncate && d.truncate < 0x80000000
  then .int (Int32.ofInt d.truncate) else .double d

/-- The constant is a number. -/
def isNumeric : Constant → Bool
  | .int _ | .uint _ | .double _ => true
  | _ => false

/-- The name of the type of a constant. -/
def typeName : Constant → String
  | .undefined => "undefined"
  | .null | .ns _ => "object"
  | .bool _ => "boolean"
  | .int _ | .uint _ | .double _ => "number"
  | .string _ => "string"

/-- The remainder of an integer by a power of two, from the negative half of it up. -/
def signExtend (modulus : Nat) (n : Int32) : Int32 := Int32.ofInt (n.toInt.bmod modulus)

/-- The result of an operator on a constant. -/
def unary (op : UnaryOp) (c : Constant) : Option Constant :=
  match op with
  | .negate => (toNumber c).map fun d => ofNumber d.neg
  | .increment => (toNumber c).map fun d => ofNumber (d.add (Double.ofInt 1))
  | .decrement => (toNumber c).map fun d => ofNumber (d.sub (Double.ofInt 1))
  | .negateI => (toInt32 c).map fun n => .int (-n)
  | .incrementI => (toInt32 c).map fun n => .int (n + 1)
  | .decrementI => (toInt32 c).map fun n => .int (n - 1)
  | .bitNot => (toInt32 c).map fun n => .int (~~~n)
  | .not => some (.bool !toBoolean c)
  | .typeOf => some (.string (typeName c))
  | .convertI | .coerceI => (toInt32 c).map .int
  | .convertU | .coerceU => (toUInt32 c).map .uint
  | .convertD | .coerceD => (toNumber c).map ofNumber
  | .convertB | .coerceB => some (.bool (toBoolean c))
  | .convertS => (toText c).map .string
  | .coerceS => if c.isNullish then some .null else (toText c).map .string
  | .coerceA => some c
  | .convertO => if c.isNullish then none else some c
  | .coerceO => if c.isNullish then some .null else none
  | .sxi1 => (toInt32 c).map fun n => .int (-(n &&& 1))
  | .sxi8 => (toInt32 c).map fun n => .int (signExtend 0x100 n)
  | .sxi16 => (toInt32 c).map fun n => .int (signExtend 0x10000 n)
  | .escXElem | .escXAttr | .checkFilter => none

/-- The constants are equal after conversion. -/
def looseEquals (a b : Constant) : Option Bool :=
  if a.isNullish && b.isNullish then some true
  else if a.isNullish || b.isNullish then some false
  else match a, b with
    | .string s, .string t => some (s == t)
    | .ns _, _ | _, .ns _ => none
    | .string _, _ | _, .string _ => none
    | _, _ => do return (← toNumber a).numEq (← toNumber b)

/-- The constants are equal without conversion; numbers are compared as numbers. -/
def strictEquals (a b : Constant) : Option Bool :=
  match a, b with
  | .undefined, .undefined | .null, .null => some true
  | .bool s, .bool t => some (s == t)
  | .string s, .string t => some (s == t)
  | .ns _, _ | _, .ns _ => none
  | _, _ =>
    if isNumeric a && isNumeric b then do return (← toNumber a).numEq (← toNumber b)
    else some false

/-- The sixteen-bit units of a character. -/
def units16 (c : Char) : List Nat :=
  if c.toNat < 0x10000 then [c.toNat]
  else [0xd800 + (c.toNat - 0x10000) / 0x400, 0xdc00 + (c.toNat - 0x10000) % 0x400]

/-- The order of two lists of numbers, the first difference decides. -/
def compareUnits : List Nat → List Nat → Ordering
  | [], [] => .eq
  | [], _ :: _ => .lt
  | _ :: _, [] => .gt
  | a :: as, b :: bs => if a < b then .lt else if b < a then .gt else compareUnits as bs

/-- The order of two strings by their sixteen-bit units. -/
def compareText (s t : String) : Ordering :=
  compareUnits (s.toList.flatMap units16) (t.toList.flatMap units16)

/-- The order of two constants, if it is known; there may be none. -/
def order (a b : Constant) : Option (Option Ordering) :=
  match a, b with
  | .string s, .string t => some (some (compareText s t))
  | .string _, _ | .ns _, _ | _, .string _ | _, .ns _ => none
  | _, _ => do return (← toNumber a).compare? (← toNumber b)

/-- The first constant is less, if that is known. -/
def less (a b : Constant) : Option Bool := (order a b).map (· == some .lt)

/-- The first constant is greater, if that is known. -/
def greater (a b : Constant) : Option Bool := (order a b).map (· == some .gt)

/-- The first constant is less or equal, if that is known. -/
def lessEq (a b : Constant) : Option Bool :=
  (order a b).map fun o => o == some .lt || o == some .eq

/-- The first constant is greater or equal, if that is known. -/
def greaterEq (a b : Constant) : Option Bool :=
  (order a b).map fun o => o == some .gt || o == some .eq

/-- The result of an operation on the numbers of two constants. -/
def onNumbers (f : Double → Double → Double) (a b : Constant) : Option Constant := do
  return ofNumber (f (← toNumber a) (← toNumber b))

/-- The result of an operation on the integers of two constants. -/
def onInts (f : Int32 → Int32 → Int32) (a b : Constant) : Option Constant := do
  return .int (f (← toInt32 a) (← toInt32 b))

/-- The number of places of a shift, which is taken modulo 32. -/
def shiftCount (c : Constant) : Option Nat := (toUInt32 c).map fun n => n.toNat % 32

/-- The sum of two numbers, or two texts in a row if one of the constants is a string. -/
def sum (a b : Constant) : Option Constant :=
  match a, b with
  | .string _, _ | _, .string _ => do return .string ((← toText a) ++ (← toText b))
  | _, _ => onNumbers Double.add a b

/-- The result of an operator on two constants. -/
def binary (op : BinaryOp) (a b : Constant) : Option Constant :=
  match op with
  | .add => sum a b
  | .subtract => onNumbers Double.sub a b
  | .multiply => onNumbers Double.mul a b
  | .divide => onNumbers Double.div a b
  | .modulo => onNumbers Double.rem a b
  | .addI => onInts (· + ·) a b
  | .subtractI => onInts (· - ·) a b
  | .multiplyI => onInts (· * ·) a b
  | .bitAnd => onInts (· &&& ·) a b
  | .bitOr => onInts (· ||| ·) a b
  | .bitXor => onInts (· ^^^ ·) a b
  | .lShift => do return .int ((← toInt32 a) <<< Int32.ofNat (← shiftCount b))
  | .rShift => do return .int ((← toInt32 a) >>> Int32.ofNat (← shiftCount b))
  | .uRShift => do return .uint ((← toUInt32 a) >>> UInt32.ofNat (← shiftCount b))
  | .equals => (looseEquals a b).map .bool
  | .strictEquals => (strictEquals a b).map .bool
  | .lessThan => (less a b).map .bool
  | .lessEquals => (lessEq a b).map .bool
  | .greaterThan => (greater a b).map .bool
  | .greaterEquals => (greaterEq a b).map .bool
  | .instanceOf | .isTypeLate | .asTypeLate | .isIn => none

/-- The branch is taken, if that is known.  The negated comparisons also hold where there is no
order. -/
def branch (kind : BranchKind) (operands : List Constant) : Option Bool :=
  match kind, operands with
  | .truthy, [c] => some (toBoolean c)
  | .falsy, [c] => some (!toBoolean c)
  | .eq, [a, b] => looseEquals a b
  | .ne, [a, b] => (looseEquals a b).map not
  | .strictEq, [a, b] => strictEquals a b
  | .strictNe, [a, b] => (strictEquals a b).map not
  | .lt, [a, b] => less a b
  | .le, [a, b] => lessEq a b
  | .gt, [a, b] => greater a b
  | .ge, [a, b] => greaterEq a b
  | .nlt, [a, b] => (less a b).map not
  | .nle, [a, b] => (lessEq a b).map not
  | .ngt, [a, b] => (greater a b).map not
  | .nge, [a, b] => (greaterEq a b).map not
  | _, _ => none

/-- The case that a switch takes, if that is known; there may be none, which means the default. -/
def switchCase (index : Constant) (count : Nat) : Option (Option Nat) := do
  let d ← toNumber index
  return if d.isIntegral && 0 ≤ d.truncate && d.truncate < count then some d.truncate.toNat
    else none

end Avm.Ir.Eval
