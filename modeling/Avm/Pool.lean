import Avm.Double.Decimal
import Avm.Text.Quoted

/-!
# Constant pools

A constant pool has one table for each kind of constant.  Entries are numbered from one; number
zero stands for "none" in every table.  Interning a constant gives the number of the entry that
holds it, adding an entry only if there is none, so numbers once given stay good.
-/

namespace Avm

/-- What a namespace is for. -/
inductive NamespaceKind where
  | priv | plain | package | packageInternal | prot | explicit | staticProt
deriving DecidableEq, Repr, Inhabited

/-- Every kind of namespace. -/
def NamespaceKind.all : List NamespaceKind :=
  [.priv, .plain, .package, .packageInternal, .prot, .explicit, .staticProt]

/-- The name of a kind of namespace. -/
def NamespaceKind.name : NamespaceKind → String
  | .priv => "Private"
  | .plain => "Namespace"
  | .package => "Package"
  | .packageInternal => "PackageInternal"
  | .prot => "Protected"
  | .explicit => "Explicit"
  | .staticProt => "StaticProtected"

/-- A namespace: its kind and the string that names it. -/
structure Namespace where
  /-- What the namespace is for. -/
  kind : NamespaceKind
  /-- The number of its name among the strings. -/
  name : Nat
deriving DecidableEq, Repr, Inhabited

/-- A name of a property, possibly completed at run time. -/
inductive Multiname where
  /-- A name in one namespace. -/
  | qualified (ns name : Nat) (isAttribute : Bool)
  /-- A name whose namespace is found on the stack. -/
  | runtimeQualified (name : Nat) (isAttribute : Bool)
  /-- Name and namespace are found on the stack. -/
  | runtimeQualifiedLate (isAttribute : Bool)
  /-- A name in one of several namespaces. -/
  | multi (name nsSet : Nat) (isAttribute : Bool)
  /-- One of several namespaces, with the name found on the stack. -/
  | multiLate (nsSet : Nat) (isAttribute : Bool)
  /-- A generic type applied to parameters. -/
  | typeName (base : Nat) (parameters : List Nat)
deriving DecidableEq, Repr, Inhabited

namespace Multiname

/-- The number of stack slots that complete the name at run time. -/
def runtimeArity : Multiname → Nat
  | runtimeQualified .. | multiLate .. => 1
  | runtimeQualifiedLate .. => 2
  | qualified .. | multi .. | typeName .. => 0

/-- The number of the string that the name holds. -/
def name? : Multiname → Option Nat
  | qualified _ name _ | runtimeQualified name _ | multi name _ _ => some name
  | _ => none

/-- The parts of a name, spelt out. -/
def describe : Multiname → String
  | qualified ns name a =>
    record "QName" [("namespace", toString ns), ("name", toString name), ("attribute", toString a)]
  | runtimeQualified name a => record "RtqName" [("name", toString name), ("attribute", toString a)]
  | runtimeQualifiedLate a => record "RtqNameLate" [("attribute", toString a)]
  | multi name nsSet a =>
    record "Multiname"
      [("name", toString name), ("ns_set", toString nsSet), ("attribute", toString a)]
  | multiLate nsSet a =>
    record "MultinameLate" [("ns_set", toString nsSet), ("attribute", toString a)]
  | typeName base parameters =>
    record "TypeName"
      [("base", toString base), ("parameters", Text.bracketed (parameters.map toString))]
where
  record (head : String) (fields : List (String × String)) : String :=
    head ++ " \x7b " ++ ", ".intercalate (fields.map fun f => f.1 ++ ": " ++ f.2) ++ " \x7d"

end Multiname

/-- The kinds of constants, one table each. -/
inductive PoolKind where
  | int | uint | double | string | ns | nsSet | multiname
deriving DecidableEq, Repr, Inhabited

/-- The constants of one kind. -/
abbrev PoolKind.Entry : PoolKind → Type
  | .int => Int32
  | .uint => UInt32
  | .double => Double
  | .string => String
  | .ns => Namespace
  | .nsSet => List Nat
  | .multiname => Multiname

instance (k : PoolKind) : DecidableEq k.Entry :=
  match k with
  | .int => inferInstanceAs (DecidableEq Int32)
  | .uint => inferInstanceAs (DecidableEq UInt32)
  | .double => inferInstanceAs (DecidableEq Double)
  | .string => inferInstanceAs (DecidableEq String)
  | .ns => inferInstanceAs (DecidableEq Namespace)
  | .nsSet => inferInstanceAs (DecidableEq (List Nat))
  | .multiname => inferInstanceAs (DecidableEq Multiname)

/-- A constant pool; each table holds the entries from number one on. -/
structure Pool where
  /-- Signed integers. -/
  ints : List Int32 := []
  /-- Unsigned integers. -/
  uints : List UInt32 := []
  /-- Doubles, told apart by their bits. -/
  doubles : List Double := []
  /-- Strings. -/
  strings : List String := []
  /-- Namespaces. -/
  namespaces : List Namespace := []
  /-- Sets of namespaces. -/
  nsSets : List (List Nat) := []
  /-- Names of properties. -/
  multinames : List Multiname := []
deriving DecidableEq, Repr, Inhabited

namespace Pool

/-- The table of one kind. -/
def table (pool : Pool) : (k : PoolKind) → List k.Entry
  | .int => pool.ints
  | .uint => pool.uints
  | .double => pool.doubles
  | .string => pool.strings
  | .ns => pool.namespaces
  | .nsSet => pool.nsSets
  | .multiname => pool.multinames

/-- The pool with another table of one kind. -/
def setTable (pool : Pool) : (k : PoolKind) → List k.Entry → Pool
  | .int, t => { pool with ints := t }
  | .uint, t => { pool with uints := t }
  | .double, t => { pool with doubles := t }
  | .string, t => { pool with strings := t }
  | .ns, t => { pool with namespaces := t }
  | .nsSet, t => { pool with nsSets := t }
  | .multiname, t => { pool with multinames := t }

/-- The entry with a given number. -/
def get? (pool : Pool) (k : PoolKind) (index : Nat) : Option k.Entry :=
  if index = 0 then none else (pool.table k)[index - 1]?

/-- The number of the entry that holds a constant. -/
def find? (pool : Pool) (k : PoolKind) (value : k.Entry) : Option Nat :=
  ((pool.table k).findIdx? (· == value)).map (· + 1)

/-- The number of a constant, and the pool in which it has that number. -/
def intern (pool : Pool) (k : PoolKind) (value : k.Entry) : Pool × Nat :=
  match pool.find? k value with
  | some index => (pool, index)
  | none => (pool.setTable k (pool.table k ++ [value]), (pool.table k).length + 1)

/-- The number of stack slots that complete a name at run time; no name needs none. -/
def runtimeArity? (pool : Pool) (index : Nat) : Option Nat :=
  if index = 0 then some 0 else (pool.get? .multiname index).map Multiname.runtimeArity

/-- How a name is shown: by its string if it has one, else by its parts. -/
def showName (pool : Pool) (index : Nat) : String :=
  match pool.get? .multiname index with
  | none => s!"multiname#{index}"
  | some name =>
    match name.name?.bind (pool.get? .string) with
    | some text => text
    | none => name.describe

end Pool

end Avm
