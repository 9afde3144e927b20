import Avm.Proofs.Opt.Renumbering

/-!
# Optimized graphs keep to their registers

An optimization leaves a graph that names only registers that it has, if it got one.  Folding, the
removal of dead code and hoisting add nothing that names a register.  Copy propagation puts values
that were stored in place of readings.  A tail call sets registers for the parameters, and others
that the method sets anyway.  An expansion names the registers that it adds.

The main statement is `confined_of_reaches`.
-/

namespace Avm.Opt

open Avm.Ir Avm.Ir.Func Avm.Ir.Edit

variable {V : Vocabulary} {f f' : Func} {ctx : Context} {m : MethodId} {b : BlockId} {params n : Nat}

/-- The optimization leaves a graph that names only its registers, if it got one. -/
def Pass.Confines (p : Pass) : Prop := ∀ ctx, (p.run ctx).Retains Confined

lemma Pass.confines_of_retains {p : Pass}
    (retains : ∀ ctx params n, params < n → (p.run ctx).Retains (Speaks (.below params n))) : p.Confines :=
  fun ctx => retains_of_run fun f _ _ start run =>
    .of_speaks ((retains ctx f.params f.locals start.arguments).of_ok start.speaks run) start.arguments

namespace DeadCode

lemma removeUnreachable_speaks (stable : V.Stable) : removeUnreachable.Retains (Speaks V) :=
  retains_removeUnreachable fun _ _ _ h _ => h.without stable

lemma once_speaks (stable : V.Stable) : (once m).Retains (Speaks V) := by
  rw [once]
  refine (removeUnreachable_speaks stable).bind fun n => retains_get fun f h => ?_
  have trimmed := h.removeTrivialPhis stable
  generalize f.removeTrivialPhis = p at trimmed ⊢
  exact meets_set (meets_pure (trimmed.foldl (fun _ _ speaks => speaks.dropNode) _))

lemma pass_confines : pass.Confines :=
  Pass.confines_of_retains fun _ _ _ _ _ h => meets_loop (once_speaks Vocabulary.stable_among) h

end DeadCode

namespace Folding

lemma speaks_foldNodes (h : f.Speaks V) (stable : V.Stable) : (foldNodes m f).1.Speaks V := by
  refine List.foldlRecOn (motive := fun acc : Func × Report => acc.1.Speaks V) _ _ h fun acc speaks v _ => ?_
  rw [foldNode]
  split
  · exact speaks
  · exact (speaks.replaceUses stable (.inl rfl)).dropNode

lemma once_speaks (stable : V.Stable) : (once m).Retains (Speaks V) := by
  rw [once]
  refine retains_get fun f h => ?_
  have folded := speaks_foldNodes (m := m) h stable
  generalize foldNodes m f = p at folded ⊢
  have trimmed := folded.removeTrivialPhis stable
  dsimp only
  generalize p.1.removeTrivialPhis = q at trimmed ⊢
  have branches {l} : (foldBranches m l {}).Retains (Speaks V) :=
    retains_foldBranches fun _ _ => speaks_setTerminator stable (List.forall_mem_nil _)
  refine meets_set (meets_of_retains (branches.bind fun _ => ?_) trimmed)
  exact (DeadCode.removeUnreachable_speaks stable).bind fun _ => retains_pure

lemma pass_confines : pass.Confines :=
  Pass.confines_of_retains fun _ _ _ _ => retains_get fun _ h => meets_loop (once_speaks Vocabulary.stable_among) h

end Folding

namespace Copying

/-- What registers are known to hold may be said. -/
def Sayable (V : Vocabulary) (stores : Stores) : Prop := ∀ e ∈ stores, V.ends e.2

variable {stores : Stores} {out : OutStores} {k : NodeKind}

lemma Sayable.forwardValue (h : Sayable V stores) {x : Value} (old : V.ends x) : V.ends (forwardValue stores x) := by
  cases x with
  | const | node => exact old
  | reg r version =>
    rw [Copying.forwardValue]
    cases found : stores.lookup r with
    | none => exact old
    | some y => exact h _ (mem_of_lookup found)

lemma Sayable.forget (h : Sayable V stores) {rs : List Nat} : Sayable V (forget f rs stores) := by
  induction rs generalizing stores with
  | nil => exact h
  | cons r rs ih => exact ih fun e mem => h e (List.mem_of_mem_filter mem)

lemma Sayable.learn (h : Sayable V stores) (spoken : ∀ x ∈ k.operands, V.ends x) : Sayable V (learn f k stores) := by
  have less : Sayable V (Copying.forget f k.written stores) := h.forget
  cases k with
  | store r x =>
    rw [Copying.learn]
    split
    · exact less
    · exact List.forall_mem_cons.2 ⟨spoken _ List.mem_cons_self, fun e mem => less e (List.mem_of_mem_filter mem)⟩
  | _ => exact less

section Forwarding

variable (h : f.Speaks (.below params n))
include h

lemma speaks_forwardBody (vs : List ValueId) (count : Nat) (known : Sayable (.below params n) stores) :
    (forwardBody vs f stores count).1.Speaks (.below params n) ∧
      Sayable (.below params n) (forwardBody vs f stores count).2.1 := by
  induction vs generalizing f stores count with
  | nil => exact ⟨h, known⟩
  | cons v vs ih =>
    rw [forwardBody]
    split
    · exact ih h count known
    · rename_i k here
      have spoken := Vocabulary.kinds_mapOperands (h.kinds v k here) fun x _ old => known.forwardValue old
      refine ih (h.modifyKind fun k' here' => ?_) _ (known.learn fun x mem =>
        Vocabulary.ends_of_mem_operands spoken mem)
      obtain rfl := Option.some.inj (here.symm.trans here')
      exact spoken

lemma speaks_forwardEnd (known : Sayable (.below params n) stores) :
    (forwardEnd f b stores).1.Speaks (.below params n) := by
  rw [forwardEnd]
  split
  · exact h
  · rename_i x here
    dsimp only
    split
    · exact h
    · split
      · rename_i f' run
        refine (speaks_setTerminator Vocabulary.stable_among fun y mem => ?_).of_ok h run
        rw [Terminator.operands_mapOperands] at mem
        obtain ⟨z, there, rfl⟩ := List.mem_map.1 mem
        rw [← terminator_of_block? here] at there
        exact known.forwardValue (h.ends b z there)
      · rename_i fault f' run
        rwa [setTerminator_eq_error run]

lemma speaks_forwardBlocks (bs : List BlockId) (count : Nat) (known : ∀ b, Sayable (.below params n) (out.at b)) :
    (forwardBlocks bs f out count).1.Speaks (.below params n) ∧
      ∀ b, Sayable (.below params n) (OutStores.at (forwardBlocks bs f out count).2.1 b) := by
  induction bs generalizing f out count with
  | nil => exact ⟨h, known⟩
  | cons b bs ih =>
    have starts : Sayable (.below params n) (inStores f out b) := by
      rw [inStores]
      split
      · split
        · exact List.forall_mem_nil _
        · exact known _
      · exact List.forall_mem_nil _
    obtain ⟨nodes, stores⟩ := speaks_forwardBody h (f.body b) count starts
    rw [forwardBlocks]
    refine ih (speaks_forwardEnd nodes stores) _ fun t => ?_
    rw [OutStores.at, Array.getElem?_setIfInBounds]
    split
    · split
      · exact stores
      · exact List.forall_mem_nil _
    · exact known t

lemma speaks_forward : (forward f).1.Speaks (.below params n) := by
  rw [forward]
  have none (b : BlockId) : Sayable (.below params n) (OutStores.at (Array.replicate f.blocks.size []) b) := by
    intro e mem
    rw [OutStores.at, Array.getElem?_replicate] at mem
    split at mem <;> cases mem
  obtain ⟨blocks, known⟩ := speaks_forwardBlocks h (f.reversePostorder Func.entry) 0 none
  dsimp only
  generalize forwardBlocks _ f _ 0 = p at blocks known ⊢
  refine List.foldlRecOn (motive := fun acc : Func × Nat => acc.1.Speaks (.below params n)) _ _ blocks
    fun acc speaks v _ => ?_
  rw [forwardPhis]
  split
  · exact speaks
  · refine speaks.modifyInputs fun is here => Vocabulary.kinds_phi.2 fun j mem => ?_
    obtain ⟨i, there, rfl⟩ := List.mem_map.1 mem
    have old := Vocabulary.kinds_phi.1 (speaks.kinds v _ here) i there
    rw [forwardInput]
    split
    · exact old
    · exact (known i.source).forwardValue old

lemma speaks_once : (once m f).1.Speaks (.below params n) := by
  have forwarded := speaks_forward h
  rw [once]
  generalize forward f = p at forwarded ⊢
  have stores : (removeDeadStores p.1).1.Speaks (.below params n) :=
    forwarded.foldl (fun _ _ speaks => speaks.dropNode) _
  dsimp only
  generalize removeDeadStores p.1 = q at stores ⊢
  exact (stores.removeRedundantCopies Vocabulary.stable_among).removeDeadNodes

end Forwarding

lemma pass_confines : pass.Confines := by
  refine Pass.confines_of_retains fun ctx params n _ => retains_get fun f h => ?_
  have looped : (loop ctx.method 100 f {}).1.Speaks (.below params n) :=
    keeps_loop (Func.Speaks (.below params n)) (fun _ => speaks_once) 100 {} h
  generalize loop ctx.method 100 f {} = p at looped ⊢
  exact meets_set (meets_pure looped)

end Copying

namespace Hoisting

lemma pass_confines : pass.Confines :=
  Pass.confines_of_retains fun _ _ _ _ => retains_get fun _ h =>
    meets_hoistAll (retains_hoist (fun _ _ _ => speaks_moveNode)
    fun _ _ _ => speaks_splitEdge Vocabulary.stable_among Vocabulary.loose_among) h

end Hoisting

namespace TailCall

lemma saveArgs_speaks {targets : List Nat} {position : Nat} {args : List Value} (h : f.Speaks (.below params n))
    (spoken : ∀ x ∈ args, (Vocabulary.below params n).ends x) : (saveArgs b targets position args).Meets f
      (fun xs f' => (∀ x ∈ xs, (Vocabulary.below params n).ends x) ∧ f'.Speaks (.below params n)) fun _ => True := by
  induction args generalizing f position with
  | nil => exact meets_pure ⟨List.forall_mem_nil _, h⟩
  | cons x args ih =>
    obtain ⟨first, others⟩ := List.forall_mem_cons.1 spoken
    rw [saveArgs]
    refine meets_get ?_
    split
    · refine (meets_of_retains (speaks_insertNode (Vocabulary.admits_copy first)) h).bind fun copy f₁ h₁ => ?_
      refine (ih h₁ others).bind fun xs f₂ rest => meets_pure ⟨List.forall_mem_cons.2 ⟨?_, rest.1⟩, rest.2⟩
      exact fun r none => by cases none
    · refine (ih h others).bind fun xs f₂ rest => meets_pure ⟨List.forall_mem_cons.2 ⟨first, rest.1⟩, rest.2⟩

lemma eliminate_speaks {call : ReceiverCall} (h : f.Speaks (.below params n)) (arguments : params < n)
    (spoken : ∀ x ∈ call.args, (Vocabulary.below params n).ends x) :
    (eliminate call).Meets f (fun _ f' => f'.Speaks (.below params n)) fun _ => True := by
  rw [eliminate]
  refine meets_get ((saveArgs_speaks h spoken).bind fun args f₁ saved => ?_)
  refine (meets_of_retains speaks_removeNode saved.2).bind fun _ f₂ h₂ => ?_
  refine (meets_of_retains (retains_storeAll fun e mem => speaks_appendNode ?_) h₂).bind fun _ f₃ h₃ => ?_
  · obtain ⟨parameter, argument⟩ := List.of_mem_zip mem
    obtain ⟨i, below, same⟩ := List.mem_map.1 parameter
    rw [List.mem_range, h.params] at below
    exact Vocabulary.admits_store (same ▸ Nat.lt_of_le_of_lt below arguments) (saved.1 _ argument)
  refine (meets_of_retains (retains_storeAll fun e mem => speaks_appendNode ?_) h₃).bind fun _ f₄ h₄ => meets_get ?_
  · obtain ⟨r, reset, rfl⟩ := List.mem_map.1 mem
    exact Vocabulary.admits_store (h.names (Inlining.mem_resets reset)) fun r none => by cases none
  refine meets_of_retains ((retains_popScopes (speaks_appendNode Vocabulary.admits_pop) _).bind fun _ => ?_) h₄
  refine Retains.bind (speaks_modifyBlock fun _ => rfl) fun _ => ?_
  refine (retains_start fun _ _ _ => speaks_splitEdge Vocabulary.stable_among Vocabulary.loose_among).bind fun _ => ?_
  exact (speaks_setTerminator Vocabulary.stable_among (List.forall_mem_nil _)).bind fun _ => retains_pure

lemma pass_confines : pass.Confines := by
  refine Pass.confines_of_retains fun _ params n arguments => retains_get fun f start =>
    meets_eliminateAll (fun f b call h found => ?_) start
  obtain ⟨v, -, -, -, -, node, -⟩ := selfCall?_eq_some_iff.1 found
  obtain ⟨-, opcode, index, here, -⟩ := Inlining.ofNode?_eq_some node
  refine eliminate_speaks h arguments fun x mem => ?_
  exact Vocabulary.ends_of_mem_operands (h.kinds v _ here) (List.mem_cons_of_mem _ mem)

end TailCall

namespace Inlining

/-- What a graph becomes when calls are expanded one after another. -/
inductive Chain (ctx : Context) (f : Func) : Func → Prop where
  | refl : Chain ctx f f
  | step {g g' callee : Func} {v : ValueId} {call : ReceiverCall} {tail : BlockId} : Chain ctx f g →
    ReceiverCall.ofNode? g ctx.pool v = some call → (candidate ctx g call).1 = some callee →
      (expand call callee).run g = .ok tail g' → Chain ctx f g'

lemma Chain.confined (h : Chain ctx f f') (start : f.Confined) : f'.Confined := by
  induction h with
  | refl => exact start
  | step _ calls chosen run ih => exact (expands_of_expand ih calls chosen run).2

lemma pass_chain : (pass.run ctx).Meets f (fun _ f' => Chain ctx f f') fun _ => True := by
  refine meets_get (Meets.bind (P := fun _ g => Chain ctx f g) ?_ fun _ _ chain => meets_pure chain)
  exact meets_expandAll (fun g v call callee h calls chosen =>
    meets_of_forall (fun _ _ run => h.step calls chosen run) fun _ _ _ => trivial) .refl

lemma pass_confines : pass.Confines :=
  fun _ _ start => pass_chain.imp (fun _ _ chain => chain.confined start) fun _ _ => trivial

end Inlining

lemma Pass.confines_of_mem {p : Pass} (mem : p ∈ Pass.all) : p.Confines :=
  of_mem_all mem Folding.pass_confines Copying.pass_confines DeadCode.pass_confines Hoisting.pass_confines
    TailCall.pass_confines Inlining.pass_confines

/-- Whatever a lifted graph becomes by optimizations names only registers that it has. -/
theorem confined_of_reaches {body : MethodBody} {pool : Pool} {config : Config} (lifted : body.lift pool config = .ok f)
    (reached : Reaches ctx f f') : f'.Confined := by
  induction reached with
  | refl => exact body.confined_of_lift lifted
  | step _ mem run ih => exact (Pass.confines_of_mem mem _).of_ok ih run

end Avm.Opt
