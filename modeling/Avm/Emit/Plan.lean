import Avm.Emit.Layout

/-!
# The plan

What is decided before instructions are written: the order of the blocks, the nodes that are used,
and the nodes whose result stays on the operand stack because the next thing to be written takes it
first.
-/

namespace Avm.Emit

open Avm.Ir

/-- The plan for a function graph. -/
structure Plan where
  /-- The function graph. -/
  func : Func
  /-- The order of the blocks. -/
  order : List BlockId
  /-- The nodes that operands refer to, once for each operand. -/
  uses : List ValueId
  /-- The nodes whose result stays on the stack. -/
  onStack : List ValueId := []
deriving DecidableEq, Repr, Inhabited

namespace Plan

/-- Some operand refers to the node. -/
def isUsed (p : Plan) (v : ValueId) : Bool := p.uses.contains v

/-- The values that the phis of a block take on an edge, as far as the phis are used. -/
def phiMoves (p : Plan) (source : BlockId) (kind : EdgeKind) (target : BlockId) :
    Except Fault (List (ValueId × Value)) :=
  let phis := ((p.func.phis target).filter p.isUsed).filterMap fun v =>
    (p.func.inputs? v).map fun inputs => (v, inputs)
  phis.mapM fun phi =>
    match phi.2.find? fun i => i.source == source && i.kind == kind with
    | some input => .ok (phi.1, input.value)
    | none => .error (.emit (.noPhiInput phi.1 source))

/-- The edge of a terminator that does not choose. -/
def onlyEdge? : Terminator → Option (EdgeKind × BlockId)
  | .goto target => some (.fallthrough, target)
  | .jump target => some (.jump, target)
  | _ => none

/-- What the end of a block takes from the stack. -/
def endOperands (p : Plan) (b : BlockId) (t : Terminator) : List Value :=
  match onlyEdge? t with
  | some (kind, target) => ((p.phiMoves b kind target).toOption.getD []).map (·.2)
  | none => t.operands

/-- The node may leave its result on the stack for its only use. -/
def mayStay (p : Plan) (v : ValueId) : Bool :=
  match p.func.kind? v with
  | none | some (.hasNext2 ..) | some .caught => false
  | some kind => kind.producesValue && p.uses.count v == 1

/-- The nodes of a body whose result stays on the stack, where `last` is taken behind the body. -/
def staying (p : Plan) (last : List Value) : List ValueId → List ValueId
  | [] => []
  | v :: rest =>
    let taken := match rest with
      | next :: _ => ((p.func.kind? next).map NodeKind.operands).getD []
      | [] => last
    if p.mayStay v && taken.head? == some (.node v) then v :: p.staying last rest
    else p.staying last rest

/-- The plan for a function graph. -/
def ofFunc (f : Func) : Plan :=
  let p : Plan :=
    { func := f, order := Emit.order f, uses := f.allOperands.filterMap Value.node? }
  { p with
    onStack := p.order.flatMap fun b =>
      match f.block? b with
      | none => []
      | some block => p.staying (p.endOperands b block.terminator) block.body }

end Plan

end Avm.Emit
