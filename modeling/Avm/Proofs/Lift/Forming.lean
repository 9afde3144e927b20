import Avm.Proofs.Code.Shrinking
import Avm.Proofs.Lift.Acceptance
import Avm.Proofs.Opt.Steadiness

/-!
# Lifted graphs can be written

Decoded instructions have operands of the shape that their opcodes ask for, and sweeping only takes
instructions away.  Each node of a lifted graph comes of such an instruction, and can be written.

The main statement is `MethodBody.writable_of_lift`.
-/

namespace Avm

lemma Operands.Rel.layout_eq {α β : Type} {R : α → β → Prop} {a : Operands α} {b : Operands β}
    (h : Operands.Rel R a b) : a.layout = b.layout := by
  cases h <;> rfl

namespace Code

variable {c c' : Code} {g : FlowGraph}

/-- The operands of every instruction have the shape that its opcode asks for. -/
def Formed (c : Code) : Prop := ∀ e ∈ c.instrs, e.2.operands.layout = e.2.opcode.layout

lemma formed_of_decode {bytes : List UInt8} {exceptions : List (Handler Nat)}
    (decoded : decode bytes exceptions = .ok c) : c.Formed := by
  obtain ⟨is, known⟩ := decode_eq_ok decoded
  intro e mem
  obtain ⟨r, listed, opcode, rel⟩ := exists_mem_of_mem_left known.instrs mem
  rw [rel.layout_eq, ← opcode]
  exact (known.cut.fits r listed).1

lemma sublist_of_removeAll {ids : List InstrId} (removed : removeAll ids c = .ok c') :
    c'.instrs.Sublist c.instrs := by
  induction ids generalizing c with
  | nil =>
    obtain rfl := Except.ok.inj removed
    exact .refl _
  | cons id ids ih =>
    obtain ⟨⟨d, i⟩, first, removed⟩ := bind_eq_ok.1 removed
    refine (ih removed).trans ?_
    rw [remove] at first
    split at first
    · obtain ⟨rfl, -⟩ := Prod.mk.inj (Except.ok.inj first)
      exact List.eraseIdx_sublist _ _
    · cases first

lemma sublist_of_sweepOnce {n : Nat} (swept : c.sweepOnce g = .ok (c', n)) :
    c'.instrs.Sublist c.instrs := by
  obtain ⟨d, removed, swept⟩ := bind_eq_ok.1 swept
  obtain ⟨rfl, -⟩ := Prod.mk.inj (Except.ok.inj swept)
  exact sublist_of_removeAll removed

lemma sublist_of_sweepHandlers {fuel removed n : Nat}
    (swept : sweepHandlers fuel c removed = .ok (c', n)) : c'.instrs.Sublist c.instrs := by
  induction fuel generalizing c removed with
  | zero =>
    obtain ⟨rfl, -⟩ := Prod.mk.inj (Except.ok.inj swept)
    exact .refl _
  | succ fuel ih =>
    obtain ⟨⟨d, dropped⟩, trimmed, swept⟩ := bind_eq_ok.1 swept
    obtain ⟨resolved, -, trimmed⟩ := bind_eq_ok.1 trimmed
    obtain ⟨rfl, -⟩ := Prod.mk.inj (Except.ok.inj trimmed)
    dsimp only at swept
    split at swept
    · obtain ⟨rfl, -⟩ := Prod.mk.inj (Except.ok.inj swept)
      exact .refl _
    · obtain ⟨g, -, swept⟩ := bind_eq_ok.1 swept
      obtain ⟨⟨d, more⟩, once, swept⟩ := bind_eq_ok.1 swept
      have fewer := sublist_of_sweepOnce once
      exact (ih swept).trans fewer

lemma sublist_of_sweep {n : Nat} (swept : c.sweep g = .ok (c', n)) : c'.instrs.Sublist c.instrs := by
  obtain ⟨⟨d, removed⟩, once, swept⟩ := bind_eq_ok.1 swept
  exact (sublist_of_sweepHandlers swept).trans (sublist_of_sweepOnce once)

end Code

namespace MethodBody

variable {body : MethodBody} {config : Config} {code : Code} {g : FlowGraph}

/-- The code is the decoded code, swept if that is asked for, and the graph is built from it, or before
it was swept if no instruction was removed. -/
lemma exists_of_pairing (paired : body.pairing config = .ok (code, g)) :
    ∃ c g₀, Code.decode body.code body.exceptions = .ok c ∧ FlowGraph.build c = .ok g₀ ∧
      ((code = c ∧ g = g₀) ∨ ∃ n, c.sweep g₀ = .ok (code, n) ∧
        (n = 0 ∧ g = g₀ ∨ FlowGraph.build code = .ok g)) := by
  obtain ⟨c, decoded, paired⟩ := bind_eq_ok.1 paired
  obtain ⟨g₀, built, paired⟩ := bind_eq_ok.1 paired
  refine ⟨c, g₀, decoded, built, ?_⟩
  split at paired
  · obtain ⟨⟨swept, n⟩, sweep, paired⟩ := bind_eq_ok.1 paired
    dsimp only at paired
    split at paired
    · rename_i none
      obtain ⟨rfl, rfl⟩ := Prod.mk.inj (Except.ok.inj paired)
      exact .inr ⟨n, sweep, .inl ⟨none, rfl⟩⟩
    · obtain ⟨g', built', paired⟩ := bind_eq_ok.1 paired
      obtain ⟨rfl, rfl⟩ := Prod.mk.inj (Except.ok.inj paired)
      exact .inr ⟨n, sweep, .inr built'⟩
  · obtain ⟨rfl, rfl⟩ := Prod.mk.inj (Except.ok.inj paired)
    exact .inl ⟨rfl, rfl⟩

lemma formed_of_pairing (paired : body.pairing config = .ok (code, g)) : code.Formed := by
  obtain ⟨c, g₀, decoded, -, same | ⟨n, sweep, -⟩⟩ := exists_of_pairing paired
  · rw [same.1]
    exact Code.formed_of_decode decoded
  · exact fun e mem => Code.formed_of_decode decoded e ((Code.sublist_of_sweep sweep).subset mem)

/-- A graph from before the code was swept is kept only if all instructions are still there. -/
lemma paired_of_pairing (paired : body.pairing config = .ok (code, g)) (pool : Pool) :
    ∃ code' handlers, Ir.Lift.Source.Paired ⟨code, g, pool⟩ code' handlers := by
  have fresh {code : Code} {g : FlowGraph} (built : FlowGraph.build code = .ok g) :
      ∃ code' handlers, Ir.Lift.Source.Paired ⟨code, g, pool⟩ code' handlers := by
    obtain ⟨handlers, spec⟩ := FlowGraph.build_sound built
    exact ⟨code, handlers, Ir.Lift.paired_of_build pool spec⟩
  obtain ⟨c, g₀, -, built, ⟨rfl, rfl⟩ | ⟨n, sweep, ⟨rfl, rfl⟩ | rebuilt⟩⟩ := exists_of_pairing paired
  · exact fresh built
  · obtain ⟨handlers, spec⟩ := FlowGraph.build_sound built
    obtain ⟨rfl, -⟩ := (Code.sweep_eq_ok_zero spec.resolved).1 sweep
    refine ⟨c, handlers, spec, fun _ => rfl, ?_⟩
    rw [Code.length_resolvedHandlers (Code.resolvedHandlers_trimmed spec.resolved)]
    exact List.length_filter_le _ _
  · exact fresh rebuilt

end MethodBody

namespace Ir.Lift

open Edit Func

variable {s : Source} {code : Code} {handlers : List (Handler Nat)} {p : Partition} {b : BlockId}
  {n : NodeId} {pool : Pool} {i : Instruction Marker} {frame : Frame} {f f' : Func}

lemma formed_of_code (formed : s.code.Formed) : s.Formed := by
  intro n i here
  obtain ⟨id, -, found⟩ := Option.bind_eq_some_iff.1 here
  obtain ⟨l₁, l₂, eq, -⟩ := List.lookup_eq_some_iff.1 found
  refine formed (id, i) ?_
  rw [eq]
  simp

lemma Appends.writable {ks : List NodeKind} (h : Appends b ks f f') (old : f.Writable pool)
    (new : ∀ k ∈ ks, k.Writable pool) : f'.Writable pool := by
  refine ⟨fun v k here => ?_, fun t => ?_⟩
  · obtain ⟨node, found, rfl⟩ := Option.map_eq_some_iff.1 here
    have kind : f'.kind? v = some node.kind := by rw [kind?, found]; rfl
    rw [NodeKind.writable_shape]
    obtain there | there := h.new v _ kind
    · exact old.kind there
    · exact new _ there
  · have same : f'.terminator t = f.terminator t := by
      by_cases here : t = b
      · obtain ⟨vs, block, -⟩ := h.here
        rw [here, terminator, block, Option.map_map]
        rfl
      · rw [terminator, h.other t here, ← terminator]
    rw [same]
    exact old.ends t

lemma Closes.writable {t : Terminator} {depth : Nat} (h : Closes b t depth f f') (old : f.Writable pool)
    (new : t.Writable) : f'.Writable pool := by
  obtain ⟨live, -, rfl⟩ := h
  refine Func.Writable.reend (old.modifyBlock fun _ same => same) ?_ new
  rwa [isSome_block?_modifyBlock]

section Steps

variable {P : Func → Prop}

lemma retains_blockOf : (blockOf p n).Retains P := by
  rw [blockOf]
  split
  · exact retains_pure
  · exact retains_throw

lemma retains_partitionFrom {g : FlowGraph} {ns : List NodeId} (add : addBlock.Retains P) :
    (partitionFrom g ns p).Retains P := by
  induction ns generalizing p with
  | nil => exact retains_pure
  | cons n ns ih =>
    rw [partitionFrom]
    dsimp only
    split
    · exact fun f _ => meets_throw_bind trivial
    · split
      · exact add.bind fun _ => ih
      · exact ih

lemma retains_addHandlers {k : Nat} {hs : List (Handler Marker)} (add : ∀ c, (addHandler c).Retains P) :
    (addHandlers s p k hs).Retains P := by
  induction hs generalizing k with
  | nil => exact retains_pure
  | cons h hs ih =>
    rw [addHandlers]
    split
    · exact ih
    · refine retains_blockOf.bind fun b => (add _).bind fun _ => ?_
      exact ih.bind fun _ => retains_pure

lemma retains_coverBlocks {ns : List NodeId} (set : ∀ b hs, (setHandlers b hs).Retains P) :
    (coverBlocks s p ns).Retains P := by
  induction ns with
  | nil => exact retains_pure
  | cons n ns ih =>
    rw [coverBlocks]
    split
    · exact ih
    · dsimp only
      split
      · exact (set _ _).bind fun _ => ih
      · exact ih

lemma retains_removeBlocks {bs : List BlockId} (remove : ∀ b, (removeBlock b).Retains P) :
    (removeBlocks bs).Retains P := by
  induction bs with
  | nil => exact retains_pure
  | cons b bs ih => exact (remove b).bind fun _ => ih

lemma retains_seed {body : MethodBody} : (seed s p body).Retains (Func.Writable pool) := by
  rw [seed]
  refine (retains_addHandlers fun _ => retains_addHandler).bind fun hs => ?_
  refine (retains_coverBlocks fun _ _ => retains_setHandlers).bind fun _ => ?_
  split
  · exact retains_throw
  · refine retains_blockOf.bind fun b => Retains.bind (retains_setTerminator trivial) fun _ => ?_
    exact retains_get fun f start => meets_pure start

lemma retains_merge {source : BlockId} {kind : EdgeKind} {join : Option JoinPhis} :
    (merge b source kind frame join).Retains (Func.Writable pool) := by
  cases join with
  | none => exact retains_throw
  | some join =>
    rw [merge]
    split
    · exact fun f _ => meets_throw_bind trivial
    · refine retains_modify fun f start => ?_
      generalize join.slots.zip frame.slots = l
      induction l generalizing f with
      | nil => exact start
      | cons e l ih =>
        exact ih _ (start.of_blocks rfl fun v => shape?_modifyInputs)

end Steps

section Filling

variable (paired : s.Paired code handlers) (formed : s.Formed)

include paired formed

lemma retains_interpret {fuel : Nat} : (interpret s p b fuel n frame).Retains (Func.Writable s.pool) := by
  induction fuel generalizing n frame with
  | zero => exact retains_throw
  | succ fuel ih =>
    rw [interpret]
    split
    · exact retains_throw
    · rename_i i found
      have here : s.instr? n = some i := found
      split
      · refine retains_of_run fun f es f' start run => ?_
        obtain ⟨t, closes, writable, -⟩ := ((meets_terminate paired here).of_ok run).ends
        exact closes.writable start writable
      · refine Retains.bind (retains_of_run fun f fr f' start run => ?_) fun fr => ?_
        · obtain ⟨ks, appends, -, kinds⟩ := (meets_step.of_ok run).nodes
          exact appends.writable start fun k mem => (kinds k mem).2.2 (formed n i here)
        · refine Retains.bind ?_ fun next => ?_
          · rw [successor]
            split
            · exact retains_pure
            · exact retains_throw
          · split
            · refine Retains.bind ?_ fun _ => retains_pure
              refine Retains.bind (retains_modifyBlock fun _ same => same) fun _ => ?_
              exact retains_setTerminator trivial
            · exact ih

lemma retains_enter {e : Pending} {w : Progress} :
    (enter s p b e w).Retains (Func.Writable s.pool) := by
  rw [enter]
  dsimp only
  split
  · refine Retains.bind ?_ fun fr => (retains_interpret paired formed).bind fun _ => retains_pure
    refine retains_freshVersion.bind fun _ => ?_
    refine (retains_appendNode NodeKind.writable_caught).bind fun _ => ?_
    exact retains_get fun f start => meets_pure start
  · split
    · refine Retains.bind (retains_appendPhis.bind fun _ => retains_pure) fun opened => ?_
      exact (retains_interpret paired formed).bind fun _ => retains_pure
    · exact (retains_interpret paired formed).bind fun _ => retains_pure

lemma retains_run {fuel : Nat} {w : Progress} : (run s p fuel w).Retains (Func.Writable s.pool) := by
  induction fuel generalizing w with
  | zero => exact retains_pure
  | succ fuel ih =>
    rw [run]
    split
    · exact retains_pure
    · dsimp only
      refine Retains.bind retains_blockOf fun b => ?_
      split
      · split
        · exact Retains.bind retains_merge fun _ => ih
        · exact ih
      · exact Retains.bind (retains_enter paired formed) fun _ => ih

end Filling

lemma writable_of_build (paired : s.Paired code handlers) (formed : s.Formed) {body : MethodBody}
    (start : f.Writable s.pool) (run : (build s body).run f = .ok () f') : f'.Writable s.pool := by
  refine Retains.of_ok (x := build s body) ?_ start run
  rw [build]
  refine (retains_partitionFrom retains_addBlock).bind fun p => retains_seed.bind fun es => ?_
  refine (retains_run paired formed).bind fun w => (retains_removeBlocks fun _ => retains_removeBlock).bind fun _ => ?_
  refine Retains.bind (retains_modify fun f start => ?_) fun _ => retains_get fun f start => ?_
  · exact (((steady_removeTrivialPhis f).trans (steady_removeRedundantCopies _)).trans
      (steady_removeDeadNodes _)).writable _ start
  · exact retains_ofExcept f start

end Ir.Lift

lemma MethodBody.writable_of_lift {body : MethodBody} {pool : Pool} {config : Config} {f : Ir.Func}
    (lifted : body.lift pool config = .ok f) : f.Writable pool := by
  rw [MethodBody.lift_eq] at lifted
  obtain ⟨⟨code, g⟩, paired, lifted⟩ := bind_eq_ok.1 lifted
  obtain ⟨_, -, lifted⟩ := bind_eq_ok.1 lifted
  obtain ⟨code', handlers, belongs⟩ := MethodBody.paired_of_pairing paired pool
  have formed := Ir.Lift.formed_of_code (s := ⟨code, g, pool⟩) (MethodBody.formed_of_pairing paired)
  rw [Ir.Func.ofCode] at lifted
  split at lifted
  · rename_i f' run
    obtain rfl := Except.ok.inj lifted
    exact Ir.Lift.writable_of_build belongs formed (Ir.Func.writable_empty rfl rfl) run
  · cases lifted

end Avm
