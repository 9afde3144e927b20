import Avm.Opt.Context

/-!
# Hoisting

Moves operators whose operands do not change in a loop to the place before the loop.  A loop is a
component of the blocks with a cycle, entered by a single edge.  The loops inside a loop are those of
its blocks once the edges back to its header are cut.
-/

namespace Avm.Opt.Hoisting

open Avm.Ir

/-- The successors of a block that are among the given blocks and are not the one that is cut. -/
def innerSuccs (f : Func) (members : Graph.Marks) (cut : Option BlockId) (b : BlockId) :
    List BlockId :=
  (f.succIds b).filter fun t => members.has t && some t != cut

/-- The loops among the given blocks, each with its blocks in ascending order. -/
def loops (f : Func) (members : List BlockId) (cut : Option BlockId) : List (List BlockId) :=
  let succ := innerSuccs f (.ofList f.blocks.size members) cut
  ((Graph.components members f.blocks.size succ).filter (Graph.isCyclic succ)).map
    Ascending.ofList

/-- An edge by which a loop is entered. -/
structure Entrance where
  /-- The block before the loop. -/
  source : BlockId
  /-- The block of the loop at which it is entered. -/
  header : BlockId
  /-- The kind of the edge. -/
  kind : EdgeKind
deriving DecidableEq, Repr, Inhabited

/-- The edges by which a loop is entered. -/
def entrances (f : Func) (loop : List BlockId) : List Entrance :=
  let inside := Graph.Marks.ofList f.blocks.size loop
  loop.flatMap fun b =>
    ((f.preds b).filter fun e => !inside.has e.1).map fun e => ⟨e.1, b, e.2⟩

/-- The only edge by which a loop is entered, if no exception takes it. -/
def entrance? (f : Func) (loop : List BlockId) : Option Entrance :=
  match entrances f loop with
  | [e] => if e.kind = .raise then none else some e
  | _ => none

/-- The registers that a loop sets. -/
def writtenIn (f : Func) (loop : List BlockId) : List Nat :=
  (loop.flatMap f.body).flatMap fun v => ((f.kind? v).map NodeKind.written).getD []

/-- The value is the same in every round of a loop, given the nodes known to be so. -/
def isInvariant (f : Func) (loop : List BlockId) (written : List Nat) (known : List ValueId) :
    Value → Bool
  | .const _ => true
  | .reg register _ => !written.contains register
  | .node id =>
    known.contains id ||
      (((f.node? id).map fun n => !loop.contains n.block).getD false &&
        !(f.registersRead (.node id)).any written.contains)

/-- The operators of a loop. -/
def operators (f : Func) (loop : List BlockId) : List ValueId :=
  (loop.flatMap f.body).filter fun v =>
    match f.kind? v with
    | some (.unary ..) | some (.binary ..) => true
    | _ => false

/-- Adds to the invariant nodes those found in one look at the candidates. -/
def invariantStep (f : Func) (loop : List BlockId) (written : List Nat)
    (candidates known : List ValueId) : List ValueId :=
  candidates.foldl (fun known v =>
    let operands := ((f.kind? v).map NodeKind.operands).getD []
    if !known.contains v && operands.all (isInvariant f loop written known) then known ++ [v]
    else known) known

/-- Looks for invariant nodes until none is found, at most `fuel` times. -/
def invariantLoop (f : Func) (loop : List BlockId) (written : List Nat)
    (candidates : List ValueId) : Nat → List ValueId → List ValueId
  | 0, known => known
  | fuel + 1, known =>
    let next := invariantStep f loop written candidates known
    if next.length = known.length then known
    else invariantLoop f loop written candidates fuel next

/-- The invariant operators of a loop, each after those that it needs. -/
def invariants (f : Func) (loop : List BlockId) : List ValueId :=
  let candidates := operators f loop
  invariantLoop f loop (writtenIn f loop) candidates (candidates.length + 1) []

/-- The block before a loop that leads nowhere else, made if there is none. -/
def preheader (e : Entrance) : Edit BlockId := do
  if e.source != Func.entry && ((← get).succs e.source).length == 1 then return e.source
  else Edit.splitEdge e.source e.header e.kind

/-- Moves nodes to the end of the block before a loop. -/
def moveAll (method : MethodId) (header target : BlockId) : List ValueId → Report → Edit Report
  | [], report => pure report
  | v :: rest, report => do
    let f ← get
    let event : Event :=
      { kind := .codeHoisted, method := some method, location := some v
        message := v.text ++ " = " ++ ((f.kind? v).map NodeKind.text).getD ""
          ++ " hoisted out of the loop at " ++ header.text }
    Edit.moveNode v target (f.body target).length
    moveAll method header target rest (report.andThen (.event event))

/-- Moves what is invariant out of a loop. -/
def hoist (method : MethodId) (loop : List BlockId) : Edit Report := do
  let f ← get
  match entrance? f loop with
  | none => return {}
  | some e =>
    if f.handlersOf e.header ≠ f.handlersOf e.source then return {}
    match invariants f loop with
    | [] => return {}
    | vs =>
      let target ← preheader e
      moveAll method e.header target vs {}

/-- Moves what is invariant out of the loops among the given blocks, the outer loops first, at most
`fuel` loops one inside the other. -/
def hoistAll (method : MethodId) : Nat → List BlockId → Option BlockId → Edit Report
  | 0, _, _ => return {}
  | fuel + 1, members, cut => do
    let visit (report : Report) (loop : List BlockId) : Edit Report := do
      let outer ← hoist method loop
      match entrance? (← get) loop with
      | none => return report.andThen outer
      | some e =>
        let inner ← hoistAll method fuel loop (some e.header)
        return report.andThen (outer.andThen inner)
    (loops (← get) members cut).foldlM visit {}

/-- Hoists invariant operators. -/
def pass : Pass where
  name := "licm"
  description := "Moves loop-invariant operators into loop preheaders"
  run ctx := do
    let blocks := (← get).blockIds
    hoistAll ctx.method (blocks.length + 1) blocks none

end Avm.Opt.Hoisting
