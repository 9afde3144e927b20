/-!
# Numbers in code

Code stores indices as variable-length numbers of up to thirty bits, seven to a byte with the low
ones first and the top bit set on all bytes but the last, and branch offsets as signed 24-bit
numbers, low byte first.  A reader takes the bytes that are left and gives the number and the bytes
that are left then, or nothing if the bytes end too early.
-/

namespace Avm

/-- One past the largest number that an index holds. -/
def u30Bound : Nat := 0x40000000

/-- The number fits into a signed 24-bit field. -/
def fitsS24 (v : Int) : Bool := -0x800000 ≤ v && v < 0x800000

namespace Wire

/-- Reads one byte. -/
def readU8 : List UInt8 → Option (UInt8 × List UInt8)
  | [] => none
  | b :: rest => some (b, rest)

/-- Reads groups of seven bits up to the first byte without the top bit, at most `groups` of them. -/
def readGroups : Nat → List UInt8 → Option (Nat × List UInt8)
  | 0, rest => some (0, rest)
  | _ + 1, [] => none
  | groups + 1, b :: rest =>
    if b.toNat < 128 then some (b.toNat, rest)
    else (readGroups groups rest).map fun r => (b.toNat % 128 + 128 * r.1, r.2)

/-- Reads a variable-length number of at most five bytes; bits past the thirtieth are dropped. -/
def readU30 (bytes : List UInt8) : Option (Nat × List UInt8) :=
  (readGroups 5 bytes).map fun r => (r.1 % u30Bound, r.2)

/-- Reads a signed 24-bit number. -/
def readS24 : List UInt8 → Option (Int × List UInt8)
  | a :: b :: c :: rest =>
    let raw : Int := a.toNat + 256 * b.toNat + 65536 * c.toNat
    some (if raw < 0x800000 then raw else raw - 0x1000000, rest)
  | _ => none

/-- Writes at most `groups` groups of seven bits. -/
def writeGroups : Nat → Nat → List UInt8
  | 0, _ => []
  | groups + 1, v =>
    if v < 128 then [v.toUInt8] else (v % 128 + 128).toUInt8 :: writeGroups groups (v / 128)

/-- Writes the low thirty bits of a number, in as few bytes as possible. -/
def writeU30 (v : Nat) : List UInt8 := writeGroups 5 (v % u30Bound)

/-- The number of bytes that `writeU30` takes. -/
def u30Length (v : Nat) : Nat :=
  let v := v % u30Bound
  if v < 0x80 then 1 else if v < 0x4000 then 2 else if v < 0x200000 then 3
  else if v < 0x10000000 then 4 else 5

/-- Writes the low twenty-four bits of a number. -/
def writeS24 (v : Int) : List UInt8 :=
  let raw := (v % 0x1000000).toNat
  [(raw % 256).toUInt8, (raw / 256 % 256).toUInt8, (raw / 65536).toUInt8]

/-- Overwrites a 24-bit field; nothing comes out if the field reaches past the end. -/
def patchS24 (bytes : List UInt8) (position : Nat) (v : Int) : Option (List UInt8) :=
  if position + 3 ≤ bytes.length then
    some (bytes.take position ++ writeS24 v ++ bytes.drop (position + 3))
  else none

/-- A reading position in a block of bytes. -/
structure Cursor where
  /-- The whole block. -/
  bytes : List UInt8
  /-- The number of bytes that lie before the position. -/
  position : Nat := 0
deriving DecidableEq, Repr, Inhabited

namespace Cursor

/-- The bytes from the position on. -/
def rest (c : Cursor) : List UInt8 := c.bytes.drop c.position

/-- Some bytes are left. -/
def hasMore (c : Cursor) : Bool := c.position < c.bytes.length

/-- Moves to another position; the end is the last one allowed. -/
def seek (c : Cursor) (position : Nat) : Option Cursor :=
  if c.bytes.length < position then none else some { c with position := position }

/-- Runs a reader at the position.  A reader that fails has used up all bytes. -/
def read {α : Type} (c : Cursor) (reader : List UInt8 → Option (α × List UInt8)) :
    Option α × Cursor :=
  match reader c.rest with
  | some (value, left) => (some value, { c with position := c.bytes.length - left.length })
  | none => (none, { c with position := c.bytes.length })

end Cursor

end Wire

end Avm
