import Avm.Flow.Effect
import Avm.Ir.Edit
import Avm.Proofs.Sequence
import Avm.Wire

/-!
# What nodes are written as

A node is written as one instruction behind its operands.  A node is `Writable` if that instruction
takes as many values from the stack as the node has operands, leaves a result exactly if the node has
one, changes the scope stack as the node does, and names no constant of the pool.  `scopeWalk` follows
the depth of the scope stack through nodes, and stops where a scope is left that was not entered.
-/

namespace Avm

/-- The opcode pushes a constant of the pool that may have another number in another pool. -/
def Opcode.isLiteral : Opcode → Bool
  | .pushInt | .pushUInt | .pushDouble | .pushString => true
  | _ => false

/-- The number of arguments is among the operands. -/
def Opcode.takesArguments : Opcode → Bool
  | .call | .construct | .constructSuper | .applyType | .newObject | .newArray | .callMethod
  | .callStatic | .callSuper | .callProperty | .constructProp | .callPropLex | .callSuperVoid
  | .callPropVoid => true
  | _ => false

/-- The effect on the stacks does not depend on the operands. -/
def Opcode.isFixed (o : Opcode) : Bool := !o.takesMultiname && !o.takesArguments

namespace Instruction

variable {α : Type} {i : Instruction α} {pool : Pool}

lemma argCount?_eq_none (h : i.opcode.takesArguments = false) : i.argCount? = none := by
  rw [argCount?]
  split <;> simp_all [Opcode.takesArguments]

lemma argumentSlots_eq_zero (h : i.opcode.takesArguments = false) : i.argumentSlots = 0 := by
  rw [argumentSlots, argCount?_eq_none h]

/-- The effect of an instruction is that of its opcode, unless the operands have a part in it. -/
lemma effect_of_isFixed {o : Opcode} (here : i.opcode = o) (fixed : o.isFixed = true) :
    i.effect pool = .ok ⟨o.info.pops, o.info.pushes, o.info.scope⟩ := by
  subst here
  obtain ⟨name, arguments⟩ : i.opcode.takesMultiname = false ∧ i.opcode.takesArguments = false := by
    simpa [Opcode.isFixed] using fixed
  simp [effect, nameSlots, name, argumentSlots_eq_zero arguments]

lemma effect_setLocal (r : Register) : (setLocal r : Instruction α).effect pool = .ok ⟨1, 0, 0⟩ := by
  match r with
  | 0 | 1 | 2 | 3 => exact effect_of_isFixed rfl rfl
  | r + 4 => exact effect_of_isFixed rfl rfl

lemma effect_getLocal (r : Register) : (getLocal r : Instruction α).effect pool = .ok ⟨0, 1, 0⟩ := by
  match r with
  | 0 | 1 | 2 | 3 => exact effect_of_isFixed rfl rfl
  | r + 4 => exact effect_of_isFixed rfl rfl

lemma pushes_of_effect {e : StackEffect} (effect : i.effect pool = .ok e) :
    e.pushes = i.opcode.info.pushes ∧ e.scope = i.opcode.info.scope := by
  obtain ⟨slots, -, made⟩ := bind_eq_ok.1 effect
  cases made
  exact ⟨rfl, rfl⟩

lemma argumentSlots_le {i : Instruction α} (few : ∀ n ∈ i.argCount?, n < u30Bound) :
    i.argumentSlots ≤ 2 * u30Bound := by
  rw [argumentSlots]
  cases counted : i.argCount? with
  | none => exact Nat.zero_le _
  | some n =>
    have small := few n counted
    dsimp only
    split <;> omega

lemma nameSlots_le {i : Instruction α} {pool : Pool} {n : Nat} (named : i.nameSlots pool = .ok n) :
    n ≤ 2 := by
  rw [nameSlots] at named
  split at named
  · cases found : pool.runtimeArity? (i.index?.getD 0) with
    | none => simp [found] at named
    | some arity =>
      obtain rfl : arity = n := by simpa [found] using named
      rw [Pool.runtimeArity?] at found
      split at found
      · simp [← Option.some.inj found]
      · obtain ⟨name, -, rfl⟩ := Option.map_eq_some_iff.mp found
        cases name <;> simp [Multiname.runtimeArity]
  · simp [← Except.ok.inj named]

/-- An instruction whose number of arguments is one of code takes a word of values. -/
theorem pops_lt_of_effect {i : Instruction α} {pool : Pool} {e : StackEffect}
    (few : ∀ n ∈ i.argCount?, n < u30Bound) (known : i.effect pool = .ok e) :
    e.pops < wordBound := by
  have fixed : i.opcode.info.pops ≤ 4 := by cases i.opcode <;> decide
  have arguments : i.argumentSlots ≤ 2 * 1073741824 := argumentSlots_le few
  obtain ⟨arity, named, made⟩ := bind_eq_ok.1 known
  have arity_le := nameSlots_le named
  cases made
  change i.opcode.info.pops + i.argumentSlots + arity < 4294967296
  omega

end Instruction

namespace Ir.NodeKind

/-- The instruction that stands behind the operands of a node. -/
def instruction? : NodeKind → Option (Instruction Marker)
  | unary op _ => some ⟨op.opcode, .none⟩
  | type op name _ => some (.withIndex op.opcode name)
  | binary op _ _ => some ⟨op.opcode, .none⟩
  | store register _ => some (.setLocal register)
  | hasNext2 object index => some (.withPair .hasNext2 object index)
  | property opcode name _ => some (.withIndex opcode name)
  | call opcode index argCount _ =>
    some (if opcode.layout = .pair then .withPair opcode index argCount
      else .withIndex opcode argCount)
  | operation instruction _ => some instruction
  | scope op _ => some ⟨op.opcode, .none⟩
  | debug instruction => some instruction
  | copy _ | phi _ | caught => none

/-- The effect on the stacks that a node asks of its instruction. -/
def demand (k : NodeKind) : StackEffect :=
  ⟨k.operands.length, k.producesValue.toNat, Edit.scopeChange k⟩

/-- The instruction of a node does to the stacks what the node says, hands control on, and means the
same in every pool that has the same names. -/
def Writable (pool : Pool) (k : NodeKind) : Prop :=
  ∀ i, k.instruction? = some i →
    i.opcode.flow = .next ∧ i.opcode.isLiteral = false ∧ i.effect pool = .ok k.demand

/-- The depth of the scope stack behind a node; a scope that is left was entered before. -/
def depthAfter : NodeKind → Nat → Option Nat
  | scope .pop _, d => if d = 0 then none else some (d - 1)
  | scope _ _, d => some (d + 1)
  | _, d => some d

/-- The depth of the scope stack behind nodes. -/
def scopeWalk (d : Nat) (ks : List NodeKind) : Option Nat := ks.foldlM (fun d k => k.depthAfter d) d

variable {pool : Pool} {k : NodeKind} {g : Value → Value} {d : Nat} {ks ls : List NodeKind}

@[simp] lemma scopeWalk_nil : scopeWalk d [] = some d := rfl

@[simp] lemma scopeWalk_cons : scopeWalk d (k :: ks) = (k.depthAfter d).bind fun d => scopeWalk d ks := rfl

lemma scopeWalk_append : scopeWalk d (ks ++ ls) = (scopeWalk d ks).bind fun d => scopeWalk d ls := by
  rw [scopeWalk, List.foldlM_append]
  rfl

lemma scopeWalk_of_forall (h : ∀ k ∈ ks, ∀ d, k.depthAfter d = some d) : scopeWalk d ks = some d := by
  induction ks with
  | nil => rfl
  | cons k ks ih =>
    rw [scopeWalk_cons, h k List.mem_cons_self]
    exact ih fun k mem => h k (List.mem_cons_of_mem _ mem)

@[simp] lemma instruction?_mapOperands : (k.mapOperands g).instruction? = k.instruction? := by
  cases k <;> rfl

@[simp] lemma demand_mapOperands : (k.mapOperands g).demand = k.demand := by
  cases k with
  | scope op operand => cases op <;> cases operand <;> rfl
  | _ => simp [demand, mapOperands, operands, producesValue, Edit.scopeChange]

lemma Writable.mapOperands (h : k.Writable pool) : (k.mapOperands g).Writable pool := by
  intro i here
  rw [instruction?_mapOperands] at here
  rw [demand_mapOperands]
  exact h i here

lemma writable_of_none (h : k.instruction? = none) : k.Writable pool := by
  intro i here
  rw [h] at here
  cases here

lemma writable_copy (v : Value) : (copy v).Writable pool := writable_of_none rfl

lemma writable_phi (inputs : List PhiInput) : (phi inputs).Writable pool := writable_of_none rfl

lemma writable_caught : caught.Writable pool := writable_of_none rfl

lemma writable_of_isFixed {i : Instruction Marker} (here : k.instruction? = some i)
    (next : i.opcode.flow = .next) (names : i.opcode.isLiteral = false)
    (fixed : i.opcode.isFixed = true)
    (same : (⟨i.opcode.info.pops, i.opcode.info.pushes, i.opcode.info.scope⟩ : StackEffect) = k.demand) :
    k.Writable pool := by
  intro j there
  obtain rfl := Option.some.inj (here.symm.trans there)
  refine ⟨next, names, ?_⟩
  rw [Instruction.effect_of_isFixed rfl fixed, same]

lemma writable_unary (op : UnaryOp) (v : Value) : (unary op v).Writable pool := by
  cases op <;> exact writable_of_isFixed rfl rfl rfl rfl rfl

lemma writable_type (op : TypeOp) (name : Nat) (v : Value) : (type op name v).Writable pool := by
  cases op <;> exact writable_of_isFixed rfl rfl rfl rfl rfl

lemma writable_binary (op : BinaryOp) (v w : Value) : (binary op v w).Writable pool := by
  cases op <;> exact writable_of_isFixed rfl rfl rfl rfl rfl

lemma writable_store (register : Nat) (v : Value) : (store register v).Writable pool := by
  intro i here
  obtain rfl := Option.some.inj here
  refine ⟨?_, ?_, Instruction.effect_setLocal register⟩
  · match register with
    | 0 | 1 | 2 | 3 => rfl
    | r + 4 => rfl
  · match register with
    | 0 | 1 | 2 | 3 => rfl
    | r + 4 => rfl

lemma writable_hasNext2 (object index : Nat) : (hasNext2 object index).Writable pool :=
  writable_of_isFixed rfl rfl rfl rfl rfl

lemma writable_pop : (scope .pop none).Writable pool := writable_of_isFixed rfl rfl rfl rfl rfl

lemma writable_scope {op : ScopeOp} (enters : op ≠ .pop) (v : Value) :
    (scope op (some v)).Writable pool := by
  cases op with
  | push => exact writable_of_isFixed rfl rfl rfl rfl rfl
  | pushWith => exact writable_of_isFixed rfl rfl rfl rfl rfl
  | pop => exact absurd rfl enters

end Ir.NodeKind

/-- A condition has as many operands as it compares. -/
def Ir.Terminator.Writable : Ir.Terminator → Prop
  | .branch kind operands _ _ => operands.length = kind.arity
  | _ => True

end Avm
