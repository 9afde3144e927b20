import Avm.Method

/-!
# Events

A record of what was done to methods, in the order in which it was done, with counts and a summary.
-/

namespace Avm.Opt

/-- What happened. -/
inductive EventKind where
  | constantFolded | branchSimplified | nodeRemoved | blockRemoved | phiSimplified | copyPropagated
  | codeHoisted | tailCallEliminated | methodInlined | instructionRemoved | codeRegenerated
  | info | warning | error
deriving DecidableEq, Repr, Inhabited

namespace EventKind

/-- Every kind of event. -/
def all : List EventKind :=
  [.constantFolded, .branchSimplified, .nodeRemoved, .blockRemoved, .phiSimplified,
   .copyPropagated, .codeHoisted, .tailCallEliminated, .methodInlined, .instructionRemoved,
   .codeRegenerated, .info, .warning, .error]

/-- The kind in words. -/
def description : EventKind → String
  | constantFolded => "constant folded"
  | branchSimplified => "branch simplified"
  | nodeRemoved => "node removed"
  | blockRemoved => "block removed"
  | phiSimplified => "phi simplified"
  | copyPropagated => "copy propagated"
  | codeHoisted => "code hoisted"
  | tailCallEliminated => "tail call eliminated"
  | methodInlined => "method inlined"
  | instructionRemoved => "instruction removed"
  | codeRegenerated => "code regenerated"
  | info => "info"
  | warning => "warning"
  | error => "error"

/-- The event only tells something. -/
def isDiagnostic : EventKind → Bool
  | info | warning | error => true
  | _ => false

/-- The event changed a function graph. -/
def isTransformation : EventKind → Bool
  | codeRegenerated | info | warning | error => false
  | _ => true

end EventKind

/-- Something that happened. -/
structure Event where
  /-- What happened. -/
  kind : EventKind
  /-- The method that it happened to. -/
  method : Option MethodId := none
  /-- The node or block that it happened to. -/
  location : Option Nat := none
  /-- What happened, in detail. -/
  message : String
  /-- The optimization that did it. -/
  source : Option String := none
deriving DecidableEq, Repr, Inhabited

/-- The event as a line. -/
def Event.text (e : Event) : String :=
  "[" ++ e.kind.description ++ "]" ++ ((e.method.map fun m => " " ++ m.text).getD "") ++ " "
    ++ e.message

namespace EventLog

/-- The number of events of a kind. -/
def count (log : List Event) (kind : EventKind) : Nat := log.countP (·.kind == kind)

/-- The kinds that occur, with the number of their events. -/
def counts (log : List Event) : List (EventKind × Nat) :=
  (EventKind.all.filter fun k => 0 < count log k).map fun k => (k, count log k)

/-- The number of events that changed a function graph. -/
def transformations (log : List Event) : Nat := log.countP (·.kind.isTransformation)

/-- The number of methods that events happened to. -/
def methodCount (log : List Event) : Nat := (log.filterMap (·.method)).eraseDups.length

/-- The events of a method. -/
def ofMethod (log : List Event) (m : MethodId) : List Event := log.filter (·.method == some m)

/-- The warnings. -/
def warnings (log : List Event) : List Event := log.filter (·.kind == .warning)

/-- The number of changes of each kind, or the number of events if nothing changed. -/
def summary (log : List Event) : String :=
  if log.isEmpty then "no events"
  else
    let parts := ((counts log).filter (·.1.isTransformation)).map fun e =>
      s!"{e.2} {e.1.description}"
    if parts.isEmpty then s!"{log.length} events"
    else ", ".intercalate (parts.mergeSort fun a b => decide (a ≤ b))

end EventLog

end Avm.Opt
