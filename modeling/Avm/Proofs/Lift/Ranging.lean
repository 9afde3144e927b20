import Avm.Proofs.Lift.Pinning
import Avm.Proofs.Lift.Refusing

/-!
# The registers that lifted graphs name

A frame has a slot for each register of the graph, and an instruction that names a register is followed only if there
is a slot for it.  What slots hold is read from registers, or is a node or a constant.  So the nodes that are made name
only registers that the graph has, and the same holds of what is handed on from block to block.

The main statement is `MethodBody.confined_of_lift`.
-/

namespace Avm.Ir

/-- The value is no register from a number on. -/
def Value.Below (n : Nat) (x : Value) : Prop := ∀ r, x.register? = some r → r < n

/-- There is a slot for each register, and no slot reads another one. -/
abbrev Frame.Ranges (n : Nat) (frame : Frame) : Prop := Lift.Holds (Value.Below n) n frame

variable {n params : Nat} {x y : Value} {k : NodeKind} {frame frame' : Frame}

lemma Value.below_const {c : Constant} : (Value.const c).Below n := nofun

lemma Value.below_node {v : ValueId} : (Value.node v).Below n := nofun

lemma Value.below_reg {r version : Nat} (inside : r < n) : (Value.reg r version).Below n := by
  rintro _ ⟨⟩
  exact inside

/-- A node may be added if it sets and reads only registers that there are. -/
lemma Vocabulary.admits_below (own : k.SetsOwn) (set : ∀ r ∈ k.written, r < n) (read : ∀ x ∈ k.operands, x.Below n) :
    (below params n).Admits k := by
  refine fun v _ => ⟨own, fun r mem => ?_⟩
  rcases NodeKind.mem_registers.1 mem with old | ⟨x, listed, found⟩
  · exact set r old
  · exact read x listed r found

namespace Lift

open Edit Func

variable {f f' : Func} {b : BlockId} {pool : Pool} {i : Instruction Marker} {s : Source} {p : Partition}

lemma suits_ranges : Suits (Value.Below n) n (Speaks (.below params n)) where
  const _ _ := Value.below_const
  append speaks own set read run :=
    ⟨Value.below_node, (speaks_appendNode (Vocabulary.admits_below own set read)).of_ok speaks run⟩
  fresh speaks run := ⟨fun _ inside => Value.below_reg inside, speaks_freshVersion.of_ok speaks run⟩
  close speaks read closes := by
    obtain ⟨-, -, rfl⟩ := closes
    refine Speaks.reend ?_ Vocabulary.stable_among read
    exact speaks.relist fun _ => rfl

/-- The frame behind has the slots that it should have, and the graph names only registers that it has. -/
def Framed (params n : Nat) (frame : Frame) (f : Func) : Prop := frame.Ranges n ∧ f.Speaks (.below params n)

/-- The frame that a block is to be entered with, if there is one, has the slots that it should have. -/
def Pends (n : Nat) (e : Pending) : Prop := ∀ frame source kind, e.entry = some (frame, source, kind) → frame.Ranges n

/-- Blocks are to be entered with frames behind that have the slots that they should have. -/
def Handed (params n : Nat) (es : List Pending) (f : Func) : Prop :=
  (∀ e ∈ es, Pends n e) ∧ f.Speaks (.below params n)

lemma ranges_interpret {fuel : Nat} {m : NodeId} (h : frame.Ranges n) (speaks : f.Speaks (.below params n)) :
    (interpret s p b fuel m frame).Meets f (fun es f' => Handed params n es f') fun _ => True :=
  (suits_ranges.interpret h speaks).imp (fun _ _ hands => ⟨hands.pends, hands.graph⟩) fun _ _ => trivial

section Entering

variable {source : BlockId} {kind : EdgeKind} {e : Pending} {w : Progress}

lemma ranges_openJoin (h : frame.Ranges n) (speaks : f.Speaks (.below params n)) :
    (openJoin b source kind frame).Meets f (fun r f' => Framed params n r.1 f') fun _ => True := by
  rw [openJoin]
  refine Meets.bind (P := fun vs f' => vs.length = frame.slots.length ∧ f'.Speaks (.below params n)) ?_ ?_
  · refine meets_of_forall (fun vs f' run => ?_) fun _ _ _ => trivial
    obtain ⟨-, rfl, rfl⟩ := appendPhis_eq_ok.1 run
    refine ⟨by simp, speaks.putPhis fun is mem v _ => ⟨NodeKind.setsOwn_phi, fun r named => ?_⟩⟩
    obtain ⟨x, slot, rfl⟩ := List.mem_map.1 mem
    rcases NodeKind.mem_registers.1 named with none | ⟨y, listed, found⟩
    · cases none
    · obtain rfl := List.mem_singleton.1 listed
      exact h.each _ slot r found
  · rintro vs f₁ ⟨length, speaks₁⟩
    refine meets_pure ⟨⟨?_, fun x mem => ?_⟩, speaks₁⟩
    · rw [← h.count]
      simp only [Frame.slots, List.length_append] at length
      simp only [Frame.withSlots, List.length_drop, List.length_map]
      omega
    · rw [slots_withSlots] at mem
      obtain ⟨v, -, rfl⟩ := List.mem_map.1 mem
      exact Value.below_node

lemma ranges_merge {join : Option JoinPhis} (h : frame.Ranges n) (speaks : f.Speaks (.below params n)) :
    (merge b source kind frame join).Meets f (fun _ f' => f'.Speaks (.below params n)) fun _ => True := by
  cases join with
  | none => exact meets_throw trivial
  | some join =>
    rw [merge]
    split
    · exact meets_throw_bind trivial
    · refine meets_modify (meets_pure ?_)
      refine List.foldlRecOn _ _ speaks fun g speaks d mem => speaks.modifyInputs fun is here => ?_
      have old := (speaks.kinds d.1 _ here).2
      refine ⟨NodeKind.setsOwn_phi, fun r named => ?_⟩
      rcases NodeKind.mem_registers.1 named with none | ⟨x, listed, found⟩
      · cases none
      · rw [NodeKind.operands, List.map_append, List.mem_append] at listed
        rcases listed with listed | new
        · exact old r (NodeKind.mem_registers.2 (.inr ⟨x, listed, found⟩))
        · obtain rfl := List.mem_singleton.1 new
          exact h.each d.2 (List.of_mem_zip mem).2 r found

lemma ranges_handlerFrame (speaks : f.Speaks (.below params n)) :
    (handlerFrame b).Meets f (fun frame f' => Framed params n frame f') fun _ => True := by
  rw [handlerFrame]
  refine (meets_of_retains speaks_freshVersion speaks).bind fun version f₁ speaks₁ => ?_
  refine suits_ranges.appendNode speaks₁ NodeKind.setsOwn_caught (List.forall_mem_nil _) (List.forall_mem_nil _)
    fun v f₂ _ speaks₂ => ?_
  refine meets_get (meets_pure ⟨⟨?_, fun x mem => ?_⟩, speaks₂⟩)
  · rw [List.length_map, List.length_range]
    exact speaks₂.locals
  · rw [mem_slots] at mem
    rcases mem with caught | none | own
    · obtain rfl := List.mem_singleton.1 caught
      exact Value.below_node
    · cases none
    · obtain ⟨r, inside, rfl⟩ := List.mem_map.1 own
      rw [List.mem_range, speaks₂.locals] at inside
      exact Value.below_reg inside

lemma ranges_enter (pends : Pends n e) (waiting : ∀ e ∈ w.worklist, Pends n e) (speaks : f.Speaks (.below params n)) :
    (enter s p b e w).Meets f (fun w' f' => Handed params n w'.worklist f') fun _ => True := by
  have more {es : List Pending} {f' : Func} (handed : Handed params n es f') :
      Handed params n (es.reverse ++ w.worklist) f' := by
    refine ⟨fun d mem => ?_, handed.2⟩
    rcases List.mem_append.1 mem with new | old
    · exact handed.1 d (List.mem_reverse.1 new)
    · exact waiting d old
  rw [enter]
  dsimp only
  split
  · refine (ranges_handlerFrame speaks).bind fun fr f₁ framed => ?_
    exact (ranges_interpret framed.1 framed.2).bind fun es f₂ handed => meets_pure (more handed)
  · rename_i entry
    have h := pends _ _ _ entry
    split
    · refine (ranges_openJoin h speaks).bind fun opened f₁ framed => ?_
      exact (ranges_interpret framed.1 framed.2).bind fun es f₂ handed => meets_pure (more handed)
    · exact (ranges_interpret h speaks).bind fun es f₁ handed => meets_pure (more handed)

lemma ranges_run {fuel : Nat} (waiting : ∀ e ∈ w.worklist, Pends n e) (speaks : f.Speaks (.below params n)) :
    (run s p fuel w).Meets f (fun _ f' => f'.Speaks (.below params n)) fun _ => True := by
  induction fuel generalizing w f with
  | zero => exact meets_pure speaks
  | succ fuel ih =>
    rw [run]
    split
    · exact meets_pure speaks
    · rename_i e rest same
      rw [same] at waiting
      obtain ⟨pends, waiting⟩ := List.forall_mem_cons.1 waiting
      dsimp only
      refine meets_blockOf trivial fun b _ => ?_
      split
      · split
        · rename_i entry
          exact (ranges_merge (pends _ _ _ entry) speaks).bind fun _ f₁ speaks₁ => ih waiting speaks₁
        · exact ih waiting speaks
      · exact (ranges_enter pends waiting speaks).bind fun w' f₁ handed => ih handed.1 handed.2

end Entering

section Building

variable {body : MethodBody}

lemma waits_addHandlers {k : Nat} {hs : List (Handler Marker)} : (addHandlers s p k hs).Meets f
    (fun es _ => ∀ e ∈ es, e.entry = none) fun _ => True := by
  induction hs generalizing f k with
  | nil => exact meets_pure (List.forall_mem_nil _)
  | cons h hs ih =>
    rw [addHandlers]
    split
    · exact ih
    · refine meets_blockOf trivial fun c _ => ?_
      refine (meets_of_forall (P := fun _ _ => True) (fun _ _ _ => trivial) fun _ _ _ => trivial).bind fun _ f₁ _ => ?_
      exact ih.bind fun es f₂ waits => meets_pure (List.forall_mem_cons.2 ⟨rfl, waits⟩)

/-- The first block is entered with arguments in registers, and with nothing in the others. -/
lemma ranges_seed (speaks : f.Speaks (.below params n)) :
    (seed s p body).Meets f (fun es f' => Handed params n es f') fun _ => True := by
  rw [seed]
  have add : (addHandlers s p 0 s.code.handlers).Meets f
      (fun es f' => (∀ e ∈ es, e.entry = none) ∧ f'.Speaks (.below params n)) fun _ => True := by
    refine meets_of_forall (fun es f' run => ⟨waits_addHandlers.of_ok run, ?_⟩) fun _ _ _ => trivial
    exact (retains_addHandlers fun _ => speaks_addHandler).of_ok speaks run
  refine add.bind ?_
  rintro es f₁ ⟨waits, speaks₁⟩
  refine (meets_of_retains (retains_coverBlocks fun _ _ => speaks_setHandlers Vocabulary.stable_among) speaks₁).bind
    fun _ f₂ speaks₂ => ?_
  split
  · exact meets_throw trivial
  · refine meets_blockOf trivial fun c _ => ?_
    refine (meets_of_retains (speaks_setTerminator Vocabulary.stable_among (List.forall_mem_nil _)) speaks₂).bind
      fun _ f₃ speaks₃ => ?_
    refine meets_get (meets_pure ⟨List.forall_mem_cons.2 ⟨?_, fun e mem frame source kind entry => ?_⟩, speaks₃⟩)
    · rintro _ _ _ ⟨⟩
      refine ⟨?_, fun x mem => ?_⟩
      · rw [initialLocals, List.length_map, List.length_range]
        exact speaks₃.locals
      · rw [mem_slots] at mem
        rcases mem with none | none | own
        · cases none
        · cases none
        · obtain ⟨r, inside, rfl⟩ := List.mem_map.1 own
          rw [List.mem_range, speaks₃.locals] at inside
          split
          · exact Value.below_reg inside
          · exact Value.below_const
    · rw [waits e (List.mem_reverse.1 mem)] at entry
      cases entry

lemma speaks_of_build (speaks : f.Speaks (.below params n)) (run : (build s body).run f = .ok () f') :
    f'.Speaks (.below params n) := by
  have stable : (Vocabulary.below params n).Stable := Vocabulary.stable_among
  have meets : (build s body).Meets f (fun _ f' => f'.Speaks (.below params n)) fun _ => True := by
    rw [build]
    refine (meets_of_retains (retains_partitionFrom speaks_addBlock) speaks).bind fun p f₁ speaks₁ => ?_
    refine (ranges_seed speaks₁).bind fun es f₂ handed => ?_
    refine (ranges_run handed.1 handed.2).bind fun w f₃ speaks₃ => ?_
    refine (meets_of_retains (retains_removeBlocks fun _ => speaks_removeBlock stable) speaks₃).bind
      fun _ f₄ speaks₄ => meets_modify ?_
    refine meets_get (meets_of_retains retains_ofExcept ?_)
    exact ((speaks₄.removeTrivialPhis stable).removeRedundantCopies stable).removeDeadNodes
  exact meets.of_ok run

end Building

end Lift

lemma Func.speaks_blank {f : Func} (blocks : f.blocks = #[some {}, some {}]) (nodes : f.nodes = #[]) :
    f.Speaks (.below f.params f.locals) := by
  have empty (v : ValueId) (k : NodeKind) : f.kind? v ≠ some k := by simp [kind?, node?, nodes]
  refine Func.speaks_among (fun v k here => absurd here (empty v k)) fun r named => ?_
  rcases named with ⟨v, k, here, -⟩ | ⟨b, x, mem, -⟩
  · exact absurd here (empty v k)
  · rw [terminator, block?, blocks] at mem
    obtain _ | _ | b := b <;> cases mem

end Avm.Ir

namespace Avm

lemma Code.lt_localCount (c : Code) (params : Nat) (flags : MethodFlags) : params < c.localCount params flags := by
  refine Nat.lt_of_lt_of_le ?_ start_le_foldl_max
  rw [argumentRegisters]
  omega

/-- Lifted graphs name only registers that they have, and have one for the receiver and for each parameter. -/
lemma MethodBody.confined_of_lift {body : MethodBody} {pool : Pool} {config : Config} {f : Ir.Func}
    (lifted : body.lift pool config = .ok f) : f.Confined := by
  rw [MethodBody.lift_eq] at lifted
  obtain ⟨⟨code, g⟩, -, lifted⟩ := bind_eq_ok.1 lifted
  obtain ⟨_, -, lifted⟩ := bind_eq_ok.1 lifted
  rw [Ir.Func.ofCode] at lifted
  split at lifted
  · rename_i f' run
    obtain rfl := Except.ok.inj lifted
    have speaks := Ir.Lift.speaks_of_build (Ir.Func.speaks_blank rfl rfl) run
    refine .of_speaks speaks ?_
    exact Nat.lt_of_lt_of_le (code.lt_localCount body.params body.flags) (Nat.le_max_right _ _)
  · cases lifted

end Avm
