import Avm.Proofs.Depth.Attaining
import Avm.Proofs.Lift.Acceptance

/-!
# Depths that agree are small

An instruction makes a stack deeper by one at most.  So where the depths before instructions agree
with each other, control comes by all smaller depths before it gets to a depth, and each of them
belongs to another instruction.  No stack gets deeper than there are instructions then, and the
bounds that are computed for the code are at least its depths.

The main statement is `StackBounds.allows_of_comes`.
-/

namespace Avm

open Ir (Level)

variable {code : Code} {pool : Pool} {depth : Nat → Level} {g : FlowGraph} {handlers : List (Handler Nat)}
  {i : Instruction Marker} {e : StackEffect} {l : Level} {k : StackKind} {p : Nat}

/-- The depth of one of the stacks. -/
def Ir.Level.on (l : Level) : StackKind → Nat
  | .operand => l.operand
  | .scope => l.scope

lemma Ir.Level.on_after (affords : l.Affords e) (k : StackKind) : ((l.after e).on k : Int) = l.on k + e.on k := by
  obtain ⟨pops, scope⟩ := affords
  cases k with
  | operand =>
    simp only [on, after, StackEffect.on, StackEffect.net]
    omega
  | scope =>
    simp only [on, after, StackEffect.on]
    omega

/-- An instruction puts one more value on the operand stack than it takes, at most, and enters one scope at most. -/
lemma Opcode.grows_le (op : Opcode) : op.info.pushes ≤ op.info.pops + 1 ∧ op.info.scope ≤ 1 := by
  cases op <;> decide

lemma Instruction.on_effect_le_one (effect : i.effect pool = .ok e) (k : StackKind) : e.on k ≤ 1 := by
  obtain ⟨slots, -, h⟩ := bind_eq_ok.1 effect
  obtain rfl := Except.ok.inj h
  obtain ⟨pushes, scope⟩ := i.opcode.grows_le
  cases k with
  | operand =>
    rw [StackEffect.on, StackEffect.net]
    dsimp only
    omega
  | scope => exact scope

lemma Code.Reachable.lt_size (spec : FlowGraph.Spec code handlers g) (reach : code.Reachable p) : p < code.size := by
  obtain ⟨n, e, here, -⟩ := spec.vertex p reach
  exact Code.lt_size_of_at? here

namespace Code.Levelled

variable (h : code.Levelled pool depth)
include h

lemma exists_on_eq (reach : code.Reachable p) {n : Nat} (le : n ≤ (depth p).on k) :
    ∃ q, code.Reachable q ∧ (depth q).on k = n := by
  have empty : (depth 0).on k = 0 := by
    rw [h.first]
    cases k <;> rfl
  induction reach with
  | first => exact ⟨0, .first, by omega⟩
  | @handler handlers' c resolved mem =>
    -- A handler starts with the exception, and a method with nothing.
    rcases Nat.eq_or_lt_of_le le with same | less
    · exact ⟨_, .handler resolved mem, same.symm⟩
    · rw [h.handler _ resolved c mem] at less
      refine ⟨0, .first, ?_⟩
      cases k with
      | operand =>
        have less : n < 1 := less
        omega
      | scope => exact absurd less (Nat.not_lt_zero n)
  | next reach here way ih =>
    obtain ⟨e, effect, affords, goes⟩ := h.next _ _ _ reach here
    rcases Nat.eq_or_lt_of_le le with same | less
    · exact ⟨_, .next reach here way, same.symm⟩
    · refine ih ?_
      have step := Ir.Level.on_after affords k
      rw [← goes _ _ way] at step
      have one := Instruction.on_effect_le_one effect k
      omega

lemma on_lt_size (spec : FlowGraph.Spec code handlers g) (reach : code.Reachable p) (k : StackKind) :
    (depth p).on k < code.size := by
  have comes (n : Fin ((depth p).on k + 1)) : ∃ q : Fin code.size, (depth q).on k = n := by
    obtain ⟨q, there, same⟩ := h.exists_on_eq reach (Nat.le_of_lt_succ n.isLt)
    exact ⟨⟨q, there.lt_size spec⟩, same⟩
  choose place known using comes
  have injective : Function.Injective place := fun m n same => Fin.ext (by rw [← known m, ← known n, same])
  have count := Fintype.card_le_of_injective place injective
  rwa [Fintype.card_fin, Fintype.card_fin] at count

/-- Depths that agree with each other are consistent for code with few instructions. -/
lemma depths (spec : FlowGraph.Spec code handlers g) (few : code.size ≤ 0xffffffff) :
    code.Depths pool fun k p => (depth p).on k where
  first k := by
    rw [h.first]
    cases k <;> rfl
  handler hs resolved c mem := by
    rw [h.handler hs resolved c mem]
    exact ⟨rfl, rfl⟩
  next p q id i kind e reach here way effect k := by
    obtain ⟨e', effect', affords, goes⟩ := h.next p id i reach here
    obtain rfl := Except.ok.inj (effect.symm.trans effect')
    rw [goes kind q way, Ir.Level.on_after affords]
  small k p reach := by
    have less := h.on_lt_size spec reach k
    omega

end Code.Levelled

/-- Control comes to a position with depths of the stacks: the method starts with empty stacks, a handler with the
exception on the operand stack, and each instruction on the way changes the depths by its effect. -/
inductive Code.Comes (code : Code) (pool : Pool) : Nat → Int → Int → Prop
  | first : Comes code pool 0 0 0
  | handler {handlers h} : code.resolvedHandlers = .ok handlers → h ∈ handlers → Comes code pool h.target 1 0
  | next {p q id i kind e operand scope} : Comes code pool p operand scope → code.at? p = some (id, i) →
    code.Way p i kind q → i.effect pool = .ok e → Comes code pool q (operand + e.net) (scope + e.scope)

section Comes

variable {operand scope : Int}

lemma Code.Comes.reachable (comes : code.Comes pool p operand scope) : code.Reachable p := by
  induction comes with
  | first => exact .first
  | handler resolved mem => exact .handler resolved mem
  | next _ here way _ ih => exact .next ih here way

lemma Code.Comes.eq_of_levelled (comes : code.Comes pool p operand scope) (levelled : code.Levelled pool depth) :
    operand = (depth p).on .operand ∧ scope = (depth p).on .scope := by
  induction comes with
  | first =>
    rw [levelled.first]
    exact ⟨rfl, rfl⟩
  | handler resolved mem =>
    rw [levelled.handler _ resolved _ mem]
    exact ⟨rfl, rfl⟩
  | next before here way effect ih =>
    obtain ⟨e, effect', affords, goes⟩ := levelled.next _ _ _ before.reachable here
    obtain rfl := Except.ok.inj (effect.symm.trans effect')
    obtain ⟨rfl, rfl⟩ := ih
    rw [goes _ _ way, Ir.Level.on_after affords, Ir.Level.on_after affords]
    exact ⟨rfl, rfl⟩

/-- An instruction finds what it takes, and the stacks stay within the bounds before and behind it. -/
structure StackBounds.Allows (b : StackBounds) (e : StackEffect) (operand scope : Int) : Prop where
  finds : e.pops ≤ operand
  operand : operand ≤ b.maxStack ∧ operand + e.net ≤ b.maxStack
  leaves : 0 ≤ scope ∧ 0 ≤ scope + e.scope
  scope : scope ≤ b.maxScope ∧ scope + e.scope ≤ b.maxScope

/-- Of code whose depths agree with each other, the computed bounds allow each instruction that
control comes to, whatever path it takes. -/
theorem StackBounds.allows_of_comes {budget : Nat} {bounds : StackBounds} (built : FlowGraph.build code = .ok g)
    (analyzed : analyze g code pool budget = .ok bounds) (levelled : code.Levelled pool depth)
    (few : code.size ≤ 0xffffffff) (comes : code.Comes pool p operand scope) :
    ∃ id i e, code.at? p = some (id, i) ∧ i.effect pool = .ok e ∧ bounds.Allows e operand scope := by
  obtain ⟨handlers, spec⟩ := FlowGraph.build_sound built
  obtain ⟨b, blocks, h⟩ := bind_eq_ok.1 analyzed
  obtain rfl := Except.ok.inj h
  have depths := levelled.depths spec few
  have reach := comes.reachable
  obtain ⟨n, ⟨id, i⟩, here, -⟩ := spec.vertex p reach
  obtain ⟨e, effect, ⟨pops, stays⟩, -⟩ := levelled.next p id i reach here
  obtain ⟨e', effect', deep⟩ := BlockGraph.depth_le_raw spec depths blocks budget reach here
  obtain rfl := Except.ok.inj (effect.symm.trans effect')
  obtain ⟨rfl, rfl⟩ := comes.eq_of_levelled levelled
  have within (k : StackKind) : ((depth p).on k : Int) ≤ (ofBlocks b budget).on k ∧
      ((depth p).on k : Int) + e.on k ≤ (ofBlocks b budget).on k := by
    rw [on_ofBlocks]
    exact ⟨le_clamp (deep k).1 (depths.small k p reach),
      le_clamp (deep k).2 (depths.small_after spec reach here effect k)⟩
  exact ⟨id, i, e, here, effect, Int.ofNat_le.2 pops, within .operand, ⟨Int.natCast_nonneg _, stays⟩, within .scope⟩

end Comes

end Avm
