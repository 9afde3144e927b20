import Avm.Double.Basic

/-!
# Decimal text of doubles

The text of a double has the fewest significant digits that read back as the same double; of two
such decimals the nearer one is taken, and the larger one if both are equally near.  The digits are
written positionally while the decimal exponent lies between `-4` and `15`, with at least one place
after the point, and with an exponent otherwise.
-/

namespace Avm

/-- The decimal number `digits * 10 ^ exponent`. -/
structure Decimal where
  /-- The significant digits, read as one number. -/
  digits : Nat
  /-- The power of ten. -/
  exponent : Int
deriving DecidableEq, Repr, Inhabited

namespace Decimal

/-- A positive fraction `num / den`. -/
structure Ratio where
  /-- The numerator. -/
  num : Nat
  /-- The denominator. -/
  den : Nat
deriving DecidableEq, Repr, Inhabited

namespace Ratio

/-- The fraction `n * base ^ e`. -/
def scaled (n base : Nat) (e : Int) : Ratio :=
  if 0 ≤ e then ⟨n * base.pow e.toNat, 1⟩ else ⟨n, base.pow (-e).toNat⟩

/-- Strict order of fractions. -/
def lt (a b : Ratio) : Bool := a.num * b.den < b.num * a.den

/-- Order of fractions. -/
def le (a b : Ratio) : Bool := a.num * b.den ≤ b.num * a.den

/-- The number of leading zero places of a fraction below one, looked for in at most `fuel` places. -/
def leadingZeros : Nat → Ratio → Nat
  | 0, _ => 0
  | fuel + 1, r => if r.den ≤ r.num * 10 then 0 else 1 + leadingZeros fuel ⟨r.num * 10, r.den⟩

/-- The exponent `e` with `10 ^ e ≤ r < 10 ^ (e + 1)`. -/
def decimalExponent (r : Ratio) : Int :=
  if r.den ≤ r.num then ((Nat.toDigits 10 (r.num / r.den)).length : Int) - 1
  else -(leadingZeros 400 r : Int) - 1

end Ratio

/-- The reals that read back as one double: those between the ends, which belong to it or not. -/
structure Span where
  /-- The lower end. -/
  low : Ratio
  /-- The upper end. -/
  high : Ratio
  /-- The ends read back as the double too. -/
  closed : Bool

/-- The span of the double with magnitude `m * 2 ^ q`; below a power of two the gap is half as wide. -/
def Span.of (m : Nat) (q : Int) (narrowBelow : Bool) : Span where
  low := if narrowBelow then Ratio.scaled (4 * m - 1) 2 (q - 2) else Ratio.scaled (2 * m - 1) 2 (q - 1)
  high := Ratio.scaled (2 * m + 1) 2 (q - 1)
  closed := m % 2 == 0

/-- The decimal reads back as the double of the span. -/
def Span.holds (s : Span) (c : Nat) (e : Int) : Bool :=
  let r := Ratio.scaled c 10 e
  if s.closed then s.low.le r && r.le s.high else s.low.lt r && r.lt s.high

/-- The decimal with the given number of digits that reads back, the nearer of two, the larger of
two equally near. -/
def withDigits? (s : Span) (v : Ratio) (e : Int) (n : Nat) : Option Decimal :=
  let k := e - (n : Int) + 1
  let unit := Ratio.scaled 1 10 k
  let down := v.num * unit.den / (v.den * unit.num)
  let rest := v.num * unit.den % (v.den * unit.num)
  match s.holds down k, s.holds (down + 1) k with
  | true, true => if 2 * rest < v.den * unit.num then some ⟨down, k⟩ else some ⟨down + 1, k⟩
  | true, false => some ⟨down, k⟩
  | false, true => some ⟨down + 1, k⟩
  | false, false => none

/-- The same number without zeros at the end of its digits, at most `fuel` of them. -/
def trim : Nat → Decimal → Decimal
  | 0, d => d
  | fuel + 1, d =>
    if d.digits % 10 = 0 ∧ d.digits ≠ 0 then trim fuel ⟨d.digits / 10, d.exponent + 1⟩ else d

/-- The shortest decimal that reads back as the given finite positive double. -/
def shortest (d : Double) : Decimal :=
  let m := d.significand
  let v := Ratio.scaled m 2 d.scale
  let s := Span.of m d.scale (d.fractionField == 0 && 1 < d.exponentField)
  let e := v.decimalExponent
  trim 20 (((List.range 17).findSome? fun n => withDigits? s v e (n + 1)).getD ⟨0, 0⟩)

/-- The digits with a point, or with a point and an exponent if the number is very large or small. -/
def text (d : Decimal) : String :=
  let ds := Nat.toDigits 10 d.digits
  let point : Int := ds.length + d.exponent
  if -4 ≤ point - 1 ∧ point - 1 ≤ 15 then
    if point ≤ 0 then
      String.ofList ("0.".toList ++ List.replicate (-point).toNat '0' ++ ds)
    else if (ds.length : Int) ≤ point then
      String.ofList (ds ++ List.replicate d.exponent.toNat '0' ++ ".0".toList)
    else
      String.ofList (ds.take point.toNat ++ ['.'] ++ ds.drop point.toNat)
  else
    let places := if ds.length = 1 then [] else '.' :: ds.tail
    String.ofList (ds.take 1 ++ places ++ ['e']) ++ toString (point - 1)

end Decimal

/-- The decimal text of a double. -/
def Double.text (d : Double) : String :=
  if d.isNaN then "NaN"
  else
    let magnitude :=
      if d.isInfinite then "inf" else if d.isZero then "0.0" else (Decimal.shortest d).text
    if d.isNegative then "-" ++ magnitude else magnitude

end Avm
