/-!
# Sets of numbers

Sets of numbers come in two forms.  Numbers below a bound are marked, for searches that ask often
whether a number was seen before.  Other sets are lists in ascending order, each number once.
-/

namespace Avm.Graph

/-- A set of numbers below a bound. -/
structure Marks where
  /-- For each number whether it is in the set. -/
  bits : Array Bool
deriving DecidableEq, Repr, Inhabited

namespace Marks

/-- No number below the bound. -/
def none (bound : Nat) : Marks := ⟨Array.replicate bound false⟩

/-- The number is in the set. -/
def has (s : Marks) (n : Nat) : Bool := s.bits[n]?.getD false

/-- The set with one more number; nothing changes if it is not below the bound. -/
def add (s : Marks) (n : Nat) : Marks := ⟨s.bits.setIfInBounds n true⟩

/-- The set with more numbers. -/
def addAll (s : Marks) (ns : List Nat) : Marks := ns.foldl add s

/-- The numbers of a list that are below the bound. -/
def ofList (bound : Nat) (ns : List Nat) : Marks := (none bound).addAll ns

end Marks

end Avm.Graph

namespace Avm.Ascending

/-- The list with one more number in its place. -/
def insert (n : Nat) : List Nat → List Nat
  | [] => [n]
  | m :: rest => if n < m then n :: m :: rest else if n = m then m :: rest else m :: insert n rest

/-- The numbers of a list in ascending order, each once. -/
def ofList (ns : List Nat) : List Nat := ns.foldl (fun acc n => insert n acc) []

/-- Merges two lists in at most `fuel` steps. -/
def merge : Nat → List Nat → List Nat → List Nat
  | 0, a, b => a ++ b
  | _, [], b => b
  | _, a, [] => a
  | fuel + 1, x :: xs, y :: ys =>
    if x < y then x :: merge fuel xs (y :: ys)
    else if y < x then y :: merge fuel (x :: xs) ys
    else x :: merge fuel xs ys

/-- The numbers of two lists. -/
def union (a b : List Nat) : List Nat :=
  if b.isEmpty then a else if a.isEmpty then b else merge (a.length + b.length) a b

end Avm.Ascending
