/-!
# Kinds of control flow edges

An edge of a control flow graph says under which circumstances control takes it.  The same kinds
label the edges between instructions and the edges between blocks.
-/

namespace Avm

/-- Why control passes along an edge. -/
inductive EdgeKind where
  /-- Control falls through to the next instruction. -/
  | fallthrough
  /-- A conditional branch is taken. -/
  | whenTrue
  /-- A conditional branch is not taken. -/
  | whenFalse
  /-- An unconditional jump. -/
  | jump
  /-- A numbered case of a switch. -/
  | switchCase (index : Nat)
  /-- The default case of a switch. -/
  | switchDefault
  /-- An exception is raised. -/
  | raise
  /-- The method returns. -/
  | leave
deriving DecidableEq, Repr, Inhabited

namespace EdgeKind

/-- The kind in listings. -/
def text : EdgeKind → String
  | fallthrough => "default"
  | whenTrue => "true"
  | whenFalse => "false"
  | jump => "jump"
  | switchCase index => s!"case {index}"
  | switchDefault => "default case"
  | raise => "throw"
  | leave => "return"

/-- The kind in messages that list edges. -/
def name : EdgeKind → String
  | fallthrough => "Default"
  | whenTrue => "True"
  | whenFalse => "False"
  | jump => "Jump"
  | switchCase index => s!"Case({index})"
  | switchDefault => "DefaultCase"
  | raise => "Throw"
  | leave => "Return"

/-- One of the two ways out of a conditional branch. -/
def isConditional : EdgeKind → Bool
  | whenTrue | whenFalse => true
  | _ => false

/-- An edge that only exceptions take. -/
def isExceptional : EdgeKind → Bool
  | raise => true
  | _ => false

/-- One of the ways out of a switch. -/
def isSwitch : EdgeKind → Bool
  | switchCase _ | switchDefault => true
  | _ => false

/-- The place of a kind in the order of kinds; cases are ordered by their number. -/
def rank : EdgeKind → Nat × Nat
  | fallthrough => (0, 0)
  | whenTrue => (1, 0)
  | whenFalse => (2, 0)
  | jump => (3, 0)
  | switchCase index => (4, index)
  | switchDefault => (5, 0)
  | raise => (6, 0)
  | leave => (7, 0)

/-- The order of kinds. -/
def ble (a b : EdgeKind) : Bool :=
  a.rank.1 < b.rank.1 || (a.rank.1 == b.rank.1 && a.rank.2 ≤ b.rank.2)

end EdgeKind

end Avm
