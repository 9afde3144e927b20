import Avm.Proofs.Opt.Clearing
import Avm.Proofs.Opt.Draining
import Avm.Proofs.Opt.Ending
import Avm.Proofs.Opt.Exposing

/-!
# Passes that are run again

Folding, hoisting and the elimination of tail calls come to an end, and leave a graph in which they find nothing more to
do.  For tail calls this needs that what a phi of the exit takes from a block is not the result of a call that another
block returns: when that block makes way for a jump, the phi no longer takes the result, and the
call, which was passed by as one with two uses, is left with one.

The main statement is `idempotentOn_of_verify`.
-/

namespace Avm.Opt

open Avm.Ir Avm.Ir.Func Avm.Ir.Edit DeadCode

variable {f : Func}

/-- On what a run of a pass leaves, a second run changes nothing and has nothing to tell of. -/
def Pass.IdempotentOn (p : Pass) (ctx : Context) (f : Func) : Prop :=
  ∀ r g, (p.run ctx).run f = .ok r g → (p.run ctx).run g = .ok {} g

/-- In a graph that passes the check, whose exit leads nowhere, folding and hoisting end and are
done with it in one run, and so is the elimination of tail calls if phis of the exit tell them apart. -/
theorem idempotentOn_of_verify (lawful : Lawful f) (verified : f.verify = .ok ())
    (ended : (f.block? exit).map (·.terminator) = some .none) (ctx : Context) :
    (Folding.Ends ctx f ∧ Folding.pass.IdempotentOn ctx f) ∧ (Hoisting.Ends ctx f ∧ Hoisting.pass.IdempotentOn ctx f) ∧
      (f.Discerns → TailCall.pass.IdempotentOn ctx f) := by
  have work : Workable f := .of_verify lawful verified ended
  refine ⟨⟨Folding.pass_ends ctx f, ?_⟩, ⟨Hoisting.pass_ends ctx f, ?_⟩, ?_⟩
  · exact fun _ _ run => Folding.pass_rests run
  · exact fun _ _ run => Hoisting.pass_drains work run
  · exact fun discerns _ _ run => TailCall.pass_rests work discerns run

/-- A graph with a sum of constants, a loop in which `this` is negated, and two calls of the method
by itself, of which a phi of the exit takes the second from the block that returns it. -/
def busy : Func :=
  [Change.addBlock, .addBlock, .addBlock, .addBlock, .setTerminator 0 (.goto 2),
    .appendNode 2 (.binary .add (.const (.int 1)) (.const (.int 2))), .appendNode 2 (.unary .negate (.reg 0 0)),
    .appendNode 2 (.store 1 (.node 0)), .setTerminator 2 (.branch .truthy [.node 1] 2 3),
    .setTerminator 3 (.branch .truthy [.reg 1 0] 4 5),
    .appendNode 4 (.call .callStatic 0 0 [.reg 0 0]), .setTerminator 4 (.leave (some (.node 3))),
    .appendNode 5 (.call .callStatic 0 0 [.reg 0 0]), .setTerminator 5 (.leave (some (.node 4))),
    .appendNode 1 (.phi [⟨.const .null, 4, .leave⟩, ⟨.node 4, 5, .leave⟩])].foldl Change.after (.new 0 0 {} 2)

lemma discerns_busy : busy.Discerns := by
  intro w mem s kind c comes calls t other ends
  have phis : ∀ w ∈ busy.phis exit, ∀ i ∈ (busy.inputs? w).getD [], ∀ t < busy.blocks.size,
      busy.terminator t = .leave (some i.value) → t = i.source := by decide +kernel
  obtain ⟨is, inputs, comes⟩ := Option.bind_eq_some_iff.1 comes
  obtain ⟨i, into, rfl, -, value⟩ := exists_of_incoming? comes
  have small : t < busy.blocks.size := by
    refine lt_size_of_block? (isSome_of_operand (x := .node c) ?_)
    rw [ends]
    exact List.mem_singleton_self _
  exact other (phis w mem i (by rwa [inputs]) t small (by rw [ends, value]))

/-- Each of the passes does something to the graph, and then no more. -/
theorem idempotentOn_of_verify_busy : busy.verify = .ok () ∧ busy.Discerns ∧
    ∀ p ∈ [Folding.pass, Hoisting.pass, TailCall.pass], ∃ r g,
      (p.run alone).run busy = .ok r g ∧ r.changed = true ∧ (p.run alone).run g = .ok {} g := by
  have facts : ∀ p ∈ [Folding.pass, Hoisting.pass, TailCall.pass],
      (p.run alone).succeedsWith busy fun r _ => r.changed := by decide +kernel
  have lawful : busy.Lawful := lawful_of_changes _ 0 0 {} 2
  have verified : busy.verify = .ok () := by decide +kernel
  obtain ⟨⟨-, folding⟩, ⟨-, hoisting⟩, calls⟩ := idempotentOn_of_verify lawful verified (by decide +kernel) alone
  refine ⟨verified, discerns_busy, fun p mem => ?_⟩
  obtain ⟨r, g, run, changed⟩ := exists_of_succeedsWith (facts p mem)
  refine ⟨r, g, run, changed, ?_⟩
  simp only [List.mem_cons, List.not_mem_nil, or_false] at mem
  obtain rfl | rfl | rfl := mem
  · exact folding r g run
  · exact hoisting r g run
  · exact calls discerns_busy r g run

/-- A graph in which a phi of the exit takes the result of a call from another block than the one
that returns it: from a block that control does not reach. -/
def entangled : Func :=
  [Change.addBlock, .addBlock, .setTerminator 0 (.goto 2), .appendNode 2 (.call .callStatic 0 0 [.reg 0 0]),
    .setTerminator 2 (.leave (some (.node 0))), .appendNode 3 (.call .callStatic 0 0 [.reg 0 0]),
    .setTerminator 3 (.leave (some (.node 1))),
    .appendNode 1 (.phi [⟨.const .null, 2, .leave⟩, ⟨.node 0, 3, .leave⟩])].foldl Change.after (.new 0 0 {} 1)

/-- A second run may find a call of which the first one took a use away. -/
theorem not_idempotentOn : ¬∀ (f : Func) (ctx : Context), Lawful f → f.verify = .ok () →
    (f.block? exit).map (·.terminator) = some .none → TailCall.pass.IdempotentOn ctx f := by
  intro all
  have again : (TailCall.pass.run alone).succeedsWith entangled fun _ g =>
      (TailCall.pass.run alone).succeedsWith g fun r _ => r.changed := by decide +kernel
  obtain ⟨r, g, run, again⟩ := exists_of_succeedsWith again
  obtain ⟨r', g', run', changed⟩ := exists_of_succeedsWith again
  have lawful : entangled.Lawful := lawful_of_changes _ 0 0 {} 1
  have none := all entangled alone lawful (by decide +kernel) (by decide +kernel) r g run
  obtain ⟨rfl, -⟩ : r' = {} ∧ g' = g := by
    rw [none] at run'
    cases run'
    exact ⟨rfl, rfl⟩
  cases changed

end Avm.Opt
