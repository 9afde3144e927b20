/-!
# Doubles

A double precision number is held as its 64 bits, so that two doubles are equal exactly when their
bits are.  This module takes the bits apart and puts them together: a finite double stands for its
sign and the magnitude `significand * 2 ^ scale`.

Sums, differences, products and quotients are rounded to the nearest double.  The remainder is
exact and has the sign of the dividend.  What is not a number is handed on with its bits.  Parts of
doubles that are integers are given as integers.
-/

namespace Avm

/-- An IEEE 754 double precision number, held as its bits. -/
structure Double where
  /-- Sign, exponent field and fraction field, from the highest bit down. -/
  bits : UInt64
deriving DecidableEq, Repr, Inhabited

namespace Double

/-- The double of a floating point number. -/
def ofFloat (x : Float) : Double := ⟨x.toBits⟩

/-- The floating point number of a double. -/
def toFloat (d : Double) : Float := Float.ofBits d.bits

/-- The sign bit is set. -/
def isNegative (d : Double) : Bool := d.bits.toNat >>> 63 == 1

/-- The eleven exponent bits. -/
def exponentField (d : Double) : Nat := (d.bits.toNat >>> 52) % 0x800

/-- One past the largest number that the fifty-two fraction bits hold. -/
def fractionBound : Nat := 0x10000000000000

/-- The fifty-two fraction bits. -/
def fractionField (d : Double) : Nat := d.bits.toNat % fractionBound

/-- The double is not a number. -/
def isNaN (d : Double) : Bool := d.exponentField == 2047 && d.fractionField != 0

/-- The double is positive or negative infinity. -/
def isInfinite (d : Double) : Bool := d.exponentField == 2047 && d.fractionField == 0

/-- The double is a number other than the infinities. -/
def isFinite (d : Double) : Bool := d.exponentField != 2047

/-- The integer `m` in the magnitude `m * 2 ^ scale` of a finite double. -/
def significand (d : Double) : Nat :=
  if d.exponentField = 0 then d.fractionField else fractionBound + d.fractionField

/-- The power of two in the magnitude `significand * 2 ^ scale` of a finite double. -/
def scale (d : Double) : Int := (Nat.max d.exponentField 1 : Int) - 1075

/-- The double is positive or negative zero. -/
def isZero (d : Double) : Bool := d.exponentField == 0 && d.fractionField == 0

/-- The canonical double that is not a number. -/
def nan : Double := ⟨0x7ff8000000000000⟩

/-- The double with the given sign and the magnitude `m * 2 ^ q`, which has to be that of a double. -/
def ofScaled (negative : Bool) (m : Nat) (q : Int) : Double :=
  let sign := if negative then 0x8000000000000000 else 0
  if m = 0 then ⟨sign.toUInt64⟩
  else
    let length := Nat.log2 m + 1
    let field : Int := q + length + 1022
    if 1 ≤ field then
      let significand := if length ≤ 53 then m <<< (53 - length) else m >>> (length - 53)
      ⟨(sign + field.toNat * fractionBound + (significand - fractionBound)).toUInt64⟩
    else
      let shift := q + 1074
      let fraction := if 0 ≤ shift then m <<< shift.toNat else m >>> (-shift).toNat
      ⟨(sign + fraction).toUInt64⟩

/-- The double of an integer below `2 ^ 53` in magnitude. -/
def ofInt (n : Int) : Double := ofScaled (n < 0) n.natAbs 0

/-- What an operation without a result gives, such as zero divided by zero. -/
def invalid : Double := ⟨0xfff8000000000000⟩

/-- The same double with the top fraction bit set, as an operation hands on what is not a number. -/
def quiet (a : Double) : Double := ⟨a.bits ||| 0x0008000000000000⟩

/-- Operates on two doubles.  The first of them that is not a number is handed on. -/
def operate (op : Float → Float → Float) (a b : Double) : Double :=
  if a.isNaN then a.quiet
  else if b.isNaN then b.quiet
  else
    let r := ofFloat (op a.toFloat b.toFloat)
    if r.isNaN then invalid else r

/-- The sum, rounded to nearest. -/
def add (a b : Double) : Double := operate (· + ·) a b

/-- The difference, rounded to nearest. -/
def sub (a b : Double) : Double := operate (· - ·) a b

/-- The product, rounded to nearest. -/
def mul (a b : Double) : Double := operate (· * ·) a b

/-- The quotient, rounded to nearest. -/
def div (a b : Double) : Double := operate (· / ·) a b

/-- The double with the other sign. -/
def neg (a : Double) : Double := ⟨a.bits ^^^ 0x8000000000000000⟩

/-- The remainder of a division whose quotient is cut to an integer. -/
def rem (a b : Double) : Double :=
  if a.isNaN then a.quiet
  else if b.isNaN then b.quiet
  else if a.isInfinite || b.isZero then invalid
  else if b.isInfinite || a.isZero then a
  else
    let q := min a.scale b.scale
    let m := a.significand <<< (a.scale - q).toNat
    let n := b.significand <<< (b.scale - q).toNat
    ofScaled a.isNegative (m % n) q

/-- The order of two doubles; one that is not a number has no place in it. -/
def compare? (a b : Double) : Option Ordering :=
  if a.toFloat < b.toFloat then some .lt
  else if b.toFloat < a.toFloat then some .gt
  else if a.toFloat == b.toFloat then some .eq
  else none

/-- The doubles are equal as numbers. -/
def numEq (a b : Double) : Bool := a.compare? b == some .eq

/-- The integer part of a finite double, cut towards zero. -/
def truncate (a : Double) : Int :=
  let magnitude := if 0 ≤ a.scale then a.significand <<< a.scale.toNat
    else a.significand >>> (-a.scale).toNat
  if a.isNegative then -(magnitude : Int) else magnitude

/-- The double is finite and has no fractional part. -/
def isIntegral (a : Double) : Bool :=
  a.isFinite && (0 ≤ a.scale || a.significand % (1 <<< (-a.scale).toNat) == 0)

/-- The integer part modulo `2 ^ 32`; an infinity, or what is not a number, counts as zero. -/
def toUInt32 (a : Double) : UInt32 :=
  if a.isFinite then UInt32.ofNat (a.truncate % 0x100000000).toNat else 0

/-- The integer part modulo `2 ^ 32`, as a signed number. -/
def toInt32 (a : Double) : Int32 := a.toUInt32.toInt32

end Double

end Avm
