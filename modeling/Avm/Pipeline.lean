import Avm.Code.Encode
import Avm.Emit.Handlers
import Avm.Opt.Schedule

/-!
# From bodies to bodies

A method body is lifted to a function graph, optimized, and written again, with the sizes of its
stacks and registers measured anew.  A batch does this for many methods: all are optimized with the
same constants, then they are written one after another into a growing pool.  A method that fails
leaves the others alone.
-/

namespace Avm

open Opt (Event Outcome)

/-- A method that was optimized. -/
structure Optimized where
  /-- The function graph. -/
  func : Ir.Func
  /-- What was done. -/
  outcome : Outcome
deriving DecidableEq, Repr, Inhabited

namespace MethodBody

/-- The optimized function graph of a method body. -/
def optimize (body : MethodBody) (pool : Pool) (env : Environment) (config : Config) :
    Except Fault Optimized := do
  let f ← body.lift pool config
  match ((Opt.Schedule.ofConfig config).run ⟨body.method, pool, env, config⟩).run f with
  | .ok outcome f => return ⟨f, outcome⟩
  | .error fault _ => throw fault

/-- The method body with other code.  The greatest depth of the scope stack is a sum of words. -/
def withCode (body : MethodBody) (code : Code) (pool : Pool) (config : Config) :
    Except Fault MethodBody := do
  let g ← FlowGraph.build code
  let bounds ← StackBounds.analyze g code pool config.maxStackPaths
  let encoded ← code.encode
  return { body with
    maxStack := bounds.maxStack
    locals := code.localCount body.params body.flags
    maxScope := addWords body.initScope bounds.maxScope
    code := encoded.bytes
    exceptions := encoded.exceptions }

/-- The method body with the code of a function graph, and the pool with the constants that the code
needs. -/
def emit (body : MethodBody) (f : Ir.Func) (pool : Pool) (config : Config) :
    Except Fault MethodBody × Pool :=
  let (code, pool) := Emit.emit f pool
  (code.bind fun code => body.withCode code pool config, pool)

/-- The optimized method body. -/
def process (body : MethodBody) (pool : Pool) (env : Environment) (config : Config) :
    Except Fault MethodBody × Pool :=
  match body.optimize pool env config with
  | .ok o => body.emit o.func pool config
  | .error fault => (.error fault, pool)

end MethodBody

/-- A method that could not be optimized or written. -/
structure MethodFailure where
  /-- The method. -/
  method : MethodId
  /-- Why. -/
  fault : Fault
deriving DecidableEq, Repr

/-- How a failure is shown. -/
def MethodFailure.text (f : MethodFailure) : String :=
  f.method.text ++ " [" ++ f.fault.category ++ "]: " ++ f.fault.text

/-- The result of a batch. -/
structure Batch where
  /-- The bodies of the methods that succeeded. -/
  bodies : List MethodBody := []
  /-- The methods that failed. -/
  failures : List MethodFailure := []
  /-- What was done, method by method. -/
  events : List Event := []
  /-- The constants. -/
  pool : Pool := {}
deriving DecidableEq, Repr

namespace Batch

/-- No method failed. -/
def isComplete (b : Batch) : Bool := b.failures.isEmpty

/-- The number of methods. -/
def total (b : Batch) : Nat := b.bodies.length + b.failures.length

/-- The result in words. -/
def text (b : Batch) : String :=
  s!"{b.bodies.length} of {b.total} methods rewritten (" ++ Opt.EventLog.summary b.events ++ ")"
    ++ String.join (b.failures.map fun f => "\n  failed " ++ f.text)

/-- Adds the body of a method, or its failure. -/
def add (b : Batch) (method : MethodId) (result : Except Fault MethodBody) : Batch :=
  match result with
  | .ok body => { b with bodies := b.bodies ++ [body] }
  | .error fault => { b with failures := b.failures ++ [⟨method, fault⟩] }

/-- Writes a method that was optimized. -/
def write (config : Config) (b : Batch) (body : MethodBody) (optimized : Except Fault Optimized) :
    Batch :=
  match optimized with
  | .error fault => b.add body.method (.error fault)
  | .ok o =>
    let (result, pool) := body.emit o.func b.pool config
    { b with events := b.events ++ o.outcome.events, pool := pool }.add body.method result

end Batch

/-- Optimizes and writes many methods. -/
def processBatch (bodies : List MethodBody) (pool : Pool) (env : Environment) (config : Config) :
    Batch :=
  bodies.foldl (fun b body => b.write config body (body.optimize pool env config)) { pool := pool }

end Avm
