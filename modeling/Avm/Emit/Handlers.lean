import Avm.Emit.Writer

/-!
# Writing handlers

A handler covers every block that names it, so it is written once for each run of such blocks.  The
first handler that applies is taken, so an inner handler has to come before the outer ones.
-/

namespace Avm.Emit

open Avm.Ir

/-- Each element with the one behind it. -/
def neighbours (hs : List Nat) : List (Nat × Nat) := hs.zip (hs.drop 1)

/-- The pairs of different handlers of which the first lies inside the second. -/
def nesting (p : Plan) : List (Nat × Nat) :=
  (p.order.flatMap fun b => neighbours (p.func.handlersOf b)).filter fun e => e.1 != e.2

/-- Puts handlers in order, each time the first one of those that wait for no other, at most `fuel`
of them. -/
def orderFrom (nesting : List (Nat × Nat)) : Nat → List Nat → List Nat
  | 0, _ => []
  | fuel + 1, left =>
    match left.find? fun h => !nesting.any fun e => e.2 == h && left.contains e.1 with
    | none => []
    | some h => h :: orderFrom nesting fuel (left.filter (· != h))

/-- The handlers in an order in which inner ones come first. -/
def handlerOrder (p : Plan) : Except Fault (List Nat) :=
  let count := p.func.handlers.length
  let order := orderFrom (nesting p) count (List.range count)
  if order.length = count then .ok order
  else .error (.unsupported (.handlersCross p.func.method))

/-- The runs of elements that are set, as pairs of first and behind last; `start` is the first
element of a run that is open, and `i` the number of elements that came before. -/
def runsFrom (start : Option Nat) (i : Nat) : List Bool → List (Nat × Nat)
  | [] => (start.map fun s => (s, i)).toList
  | true :: rest => runsFrom (start.or (some i)) (i + 1) rest
  | false :: rest => (start.map fun s => (s, i)).toList ++ runsFrom none (i + 1) rest

/-- The runs of blocks that name a handler. -/
def coveredRuns (p : Plan) (handler : Nat) : List (Nat × Nat) :=
  runsFrom none 0 (p.order.map fun b => (p.func.handlersOf b).contains handler)

namespace Write

/-- The marker behind a run of blocks. -/
def stopLabel (p : Plan) (i : Nat) : Write Marker := do
  match p.order[i]? with
  | some b => label p b
  | none =>
    let d ← get
    let (markers, m) := d.code.markers.mark .codeEnd
    set { d with code := { d.code with markers := markers } }
    return m

/-- Writes a handler for runs of blocks, unless they are empty. -/
def handlerRuns (p : Plan) (c : Catch) (target : Marker) : List (Nat × Nat) → Write Unit
  | [] => return ()
  | (first, stop) :: rest => do
    let d ← get
    let bounds := d.starts ++ [d.code.size]
    if bounds[first]? != bounds[stop]? then
      let stop ← stopLabel p stop
      modify fun d =>
        { d with code := { d.code with
            handlers := d.code.handlers ++ [⟨first, stop, target, c.excType, c.varName⟩] } }
    handlerRuns p c target rest

/-- Writes handlers. -/
def handlers (p : Plan) : List Nat → Write Unit
  | [] => return ()
  | h :: rest => do
    match p.func.handlers[h]? with
    | none => handlers p rest
    | some c =>
      let target ← label p c.target
      handlerRuns p c target (coveredRuns p h)
      handlers p rest

/-- Writes a function graph. -/
def all (p : Plan) : Write Unit := do
  blocks p p.order
  finish
  handlers p (← ofExcept (handlerOrder p))

end Write

/-- The draft before anything is written: one marker for each block, bound to nothing. -/
def Draft.start (p : Plan) (pool : Pool) : Draft :=
  { pool := pool, nextTemp := p.func.locals
    code := { markers := { bindings := p.order.map fun _ => .unbound } } }

/-- Writes a function graph, with critical edges split.  The pool grows by the constants that are
needed, also if writing fails. -/
def emit (f : Func) (pool : Pool) : Except Fault Code × Pool :=
  match splitCriticalEdges.run f with
  | .error e _ => (.error e, pool)
  | .ok _ f =>
    let p := Plan.ofFunc f
    match (Write.all p).run (Draft.start p pool) with
    | .ok _ d => (.ok d.code, d.pool)
    | .error e d => (.error e, d.pool)

end Avm.Emit
