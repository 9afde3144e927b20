import Avm.Ir.Edit

/-!
# Readings and clean-up

What a value reads, looking through phis, and three ways to make a function graph smaller without
changing it otherwise: phis that merge a single value, copies of values that cannot change, and
nodes that nothing uses.
-/

namespace Avm.Ir.Func

/-- The values that a phi merges; none if the node is no phi. -/
def merged (f : Func) (v : ValueId) : List Value := ((f.inputs? v).getD []).map (·.value)

/-- The phis and other nodes that a node stands for, looking through phis. -/
def throughPhis (f : Func) (v : ValueId) : List ValueId :=
  Graph.reversePostorder f.nodes.size (fun p => (f.merged p).filterMap Value.node?) v

/-- The registers that a value reads directly or through phis. -/
def registersRead (f : Func) : Value → List Nat
  | .const _ => []
  | .reg register _ => [register]
  | .node v =>
    if (f.inputs? v).isNone then []
    else (f.throughPhis v).flatMap fun p => (f.merged p).filterMap Value.register?

/-- The value reads a register directly or through phis. -/
def readsRegister (f : Func) (v : Value) (register : Nat) : Bool :=
  (f.registersRead v).contains register

/-- The only value of a phi other than the phi itself. -/
def trivialValue? (f : Func) (v : ValueId) : Option Value :=
  match (f.merged v).filter (· != .node v) with
  | [] => none
  | first :: more => if more.all (· == first) then some first else none

/-- Removes a phi that merges a single value, and counts it. -/
def removeTrivialPhi (acc : Func × Nat) (v : ValueId) : Func × Nat :=
  match acc.1.trivialValue? v with
  | some value => ((acc.1.replaceUses v value).dropNode v, acc.2 + 1)
  | none => acc

/-- Removes phis that merge a single value, at most `fuel` times over, and counts them. -/
def removeTrivialPhisLoop : Nat → Func × Nat → Func × Nat
  | 0, acc => acc
  | fuel + 1, acc =>
    let next := acc.1.nodeIds.foldl removeTrivialPhi acc
    if next.2 = acc.2 then next else removeTrivialPhisLoop fuel next

/-- Removes phis that merge a single value, and counts them. -/
def removeTrivialPhis (f : Func) : Func × Nat := removeTrivialPhisLoop (f.nodes.size + 1) (f, 0)

/-- The value that a copy can be replaced by: a constant, or a node whose value cannot change. -/
def copiedValue? (f : Func) (v : ValueId) : Option Value :=
  match f.kind? v with
  | some (.copy (.const c)) => some (.const c)
  | some (.copy (.node id)) => if id = v ∨ (f.inputs? id).isSome then none else some (.node id)
  | _ => none

/-- Removes a copy that is not needed, and counts it. -/
def removeCopy (acc : Func × Nat) (v : ValueId) : Func × Nat :=
  match acc.1.copiedValue? v with
  | some value => ((acc.1.replaceUses v value).dropNode v, acc.2 + 1)
  | none => acc

/-- Removes copies that are not needed, and counts them. -/
def removeRedundantCopies (f : Func) : Func × Nat := f.nodeIds.foldl removeCopy (f, 0)

/-- The nodes without effect that nothing uses. -/
def deadNodes (f : Func) : List ValueId :=
  let used := f.usedNodes
  f.nodeIds.filter fun v => (f.kind? v).any fun k => !k.hasSideEffects && !used.has v

/-- Removes nodes without effect that nothing uses, at most `fuel` times over, and counts them. -/
def removeDeadLoop : Nat → Func × Nat → Func × Nat
  | 0, acc => acc
  | fuel + 1, acc =>
    let dead := acc.1.deadNodes
    if dead.isEmpty then acc
    else removeDeadLoop fuel (dead.foldl dropNode acc.1, acc.2 + dead.length)

/-- Removes nodes without effect that nothing uses, and counts them. -/
def removeDeadNodes (f : Func) : Func × Nat := removeDeadLoop (f.nodes.size + 1) (f, 0)

end Avm.Ir.Func
