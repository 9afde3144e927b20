import Avm.Ir.Lift
import Avm.Opt.Event

/-!
# Optimizations and what they work with

An optimization is an edit of a function graph that reports what it did.  It may ask for constants,
for the methods that calls reach, and for the function graphs of callees.
-/

namespace Avm.Opt

/-- What optimizations of a method may ask for. -/
structure Context where
  /-- The method. -/
  method : MethodId
  /-- The constants. -/
  pool : Pool
  /-- The other methods. -/
  env : Environment
  /-- What may be done. -/
  config : Config

/-- The function graph of another method, if it has one. -/
def Context.callee? (ctx : Context) (m : MethodId) : Option Ir.Func :=
  (ctx.env.body? m).bind fun body => (body.lift ctx.pool ctx.config).toOption

/-- What an optimization did. -/
structure Report where
  /-- What it noticed and changed. -/
  events : List Event := []
  /-- The callees that it asked for. -/
  callees : List MethodId := []
deriving DecidableEq, Repr, Inhabited

namespace Report

/-- Something was changed. -/
def changed (r : Report) : Bool := r.events.any (·.kind.isTransformation)

/-- One report after another. -/
def andThen (a b : Report) : Report := ⟨a.events ++ b.events, a.callees ++ b.callees⟩

/-- The report of one event. -/
def event (e : Event) : Report := { events := [e] }

/-- The report with what was noticed before what was changed. -/
def noticedFirst (r : Report) : Report :=
  let (notes, changes) := r.events.partition (·.kind.isDiagnostic)
  { r with events := notes ++ changes }

/-- The report of a number of changes, if there are any. -/
def counted (n : Nat) (kind : EventKind) (method : MethodId) (message : String) : Report :=
  if n = 0 then {} else event { kind := kind, method := some method, message := message }

end Report

/-- An optimization. -/
structure Pass where
  /-- Its name. -/
  name : String
  /-- What it does, in words. -/
  description : String
  /-- It can be applied to a function graph. -/
  applies : Ir.Func → Bool := fun _ => true
  /-- Applies it. -/
  run : Context → Ir.Edit Report

end Avm.Opt
