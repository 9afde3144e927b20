import Avm.Proofs.Ir.Vocabulary
import Avm.Proofs.Lift.Ending
import Avm.Proofs.Run.Meaning

/-!
# Readings that outlive a write

When lifting follows an instruction that sets a register, every slot of the frame that reads the register then is
pinned by a copy, other than the slot of the register itself.  So a value that reads the register at that time is
not used behind the write any more, unless it is the value that is stored.  Whether a phi reads the register may
become known only later, when another way into its block is followed.

That a value is used no more follows from what slots hold, as other things do: an instruction is followed by taking
values from slots, adding nodes that have them as operands, and putting values or the nodes in slots.

The main statement is `unused_of_sets`.
-/

namespace Avm.Ir

namespace Func

variable {f g : Func} {b : BlockId} {v w : ValueId} {x : Value} {k : NodeKind} {n : Nat}

/-- The value is a register in a version that there is, or a node that there is. -/
def Has (f : Func) : Value → Prop
  | .const _ => False
  | .reg _ version => version < f.nextVersion
  | .node v => v < f.nodes.size

/-- No node from a number on has the value among its operands. -/
structure Unused (x : Value) (n : Nat) (f : Func) : Prop where
  has : f.Has x
  free : ∀ w k, n ≤ w → f.kind? w = some k → x ∉ k.operands

lemma kind?_putNode {index : Nat} : (f.putNode b index k).kind? w = if w = f.nodes.size then some k else f.kind? w := by
  rw [kind?, node?_putNode]
  split
  · rfl
  · rfl

lemma Has.putNode {index : Nat} (has : f.Has x) : (f.putNode b index k).Has x := by
  cases x with
  | const => exact has
  | reg r version => exact has
  | node v =>
    show v < (f.nodes.push (some ⟨k, b⟩)).size
    rw [Array.size_push]
    exact Nat.lt_succ_of_lt has

lemma Has.ne_node (has : f.Has x) : x ≠ .node f.nodes.size := by
  rintro rfl
  exact Nat.lt_irrefl _ has

lemma Has.freshVersion (has : f.Has x) : Func.Has { f with nextVersion := f.nextVersion + 1 } x := by
  cases x with
  | const => exact has
  | reg r version => exact Nat.lt_succ_of_lt has
  | node v => exact has

lemma Reads.putNode {index r : Nat} (read : f.Reads x r) : (f.putNode b index k).Reads x r := by
  refine read.mono fun v is inputs i mem => ⟨is, ?_, i, mem, rfl⟩
  have inside : v < f.nodes.size := lt_size_of_inputs? (by rw [inputs]; rfl)
  rw [inputs?, kind?_putNode, if_neg (Nat.ne_of_lt inside)]
  exact inputs

lemma Unused.putNode {index : Nat} (h : Unused x n f) (free : x ∉ k.operands) : Unused x n (f.putNode b index k) := by
  refine ⟨h.has.putNode, fun w k' above here => ?_⟩
  rw [kind?_putNode] at here
  split at here
  · rw [← Option.some.inj here]
    exact free
  · exact h.free w k' above here

/-- Every operand of a node was one of its operands before. -/
def Recalls (f g : Func) : Prop :=
  ∀ w k x, g.kind? w = some k → x ∈ k.operands → ∃ k', f.kind? w = some k' ∧ x ∈ k'.operands

lemma Recalls.trans {h : Func} (first : Recalls f g) (second : Recalls g h) : Recalls f h := by
  intro w k x here mem
  obtain ⟨k₁, here, mem⟩ := second w k x here mem
  exact first w k₁ x here mem

lemma recalls_of_nodes (same : g.nodes = f.nodes) : Recalls f g := by
  intro w k x here mem
  refine ⟨k, ?_, mem⟩
  rwa [kind?, node?, same] at here

lemma recalls_modifyInputs {u : List PhiInput → List PhiInput}
    (values : ∀ is, ∀ i ∈ u is, ∃ j ∈ is, j.value = i.value) :
    Recalls f (f.modifyInputs v u) := by
  intro w k x here mem
  rw [modifyInputs_eq, kind?, node?_modifyNode] at here
  split at here
  · obtain ⟨n, there, rfl⟩ := Option.map_eq_some_iff.1 here
    obtain ⟨n, before, rfl⟩ := Option.map_eq_some_iff.1 there
    refine ⟨n.kind, by rw [kind?, before]; rfl, ?_⟩
    dsimp only at mem
    cases kind : n.kind with
    | phi is =>
      rw [kind] at mem
      obtain ⟨i, there, rfl⟩ := List.mem_map.1 mem
      obtain ⟨j, before, same⟩ := values is i there
      exact List.mem_map.2 ⟨j, before, same⟩
    | _ =>
      rw [kind] at mem
      exact mem
  · exact ⟨k, here, mem⟩

lemma recalls_reend {t : Terminator} {hs : List Nat} : Recalls f (f.reend b t hs) :=
  rewire_keeps (P := Recalls f) (fun _ _ _ old => old) (fun _ _ old => old)
    (fun _ _ _ old => old.trans (recalls_modifyInputs fun _ _ mem =>
      (exists_of_mem_reconcile mem).imp fun _ here => ⟨here.1, here.2.1⟩)) (recalls_of_nodes rfl)

lemma nextVersion_reend {t : Terminator} {hs : List Nat} : (f.reend b t hs).nextVersion = f.nextVersion :=
  rewire_keeps (P := fun g => g.nextVersion = f.nextVersion) (fun _ _ _ same => same) (fun _ _ same => same)
    (fun _ _ _ same => same) rfl

lemma Unused.reend {t : Terminator} {hs : List Nat} (h : Unused x n f) : Unused x n (f.reend b t hs) := by
  refine ⟨?_, fun w k above here mem => ?_⟩
  · cases x with
    | const => exact h.has
    | reg r version =>
      show version < (f.reend b t hs).nextVersion
      rw [nextVersion_reend]
      exact h.has
    | node v => exact Nat.lt_of_lt_of_le h.has (ages_reend f b t hs).nodes
  · obtain ⟨k', before, mem⟩ := recalls_reend w k x here mem
    exact h.free w k' above before mem

end Func

namespace Lift

open Edit Func

variable {f f' f'' : Func} {b : BlockId} {frame frame' : Frame} {pool : Pool} {i : Instruction Marker} {x y : Value}
  {n r : Nat} {s : Source} {p : Partition}

/-! ## What slots hold -/

lemma mem_slots : x ∈ frame.slots ↔ x ∈ frame.stack ∨ x ∈ frame.scope ∨ x ∈ frame.locals := by
  rw [Frame.slots, List.mem_append, List.mem_append, or_assoc]

lemma slots_withSlots {ws : List Value} : (frame.withSlots ws).slots = ws := by
  rw [Frame.slots, Frame.withSlots, List.append_assoc, ← List.drop_drop, List.take_append_drop, List.take_append_drop]

/-- A frame has a number of registers, and what its slots hold has a property. -/
structure Holds (P : Value → Prop) (n : Nat) (frame : Frame) : Prop where
  count : frame.locals.length = n
  each : ∀ x ∈ frame.slots, P x

/-- A property of values and one of graphs are kept when an instruction is followed: by nodes that
set only registers that there are, and whose operands have the property. -/
structure Suits (P : Value → Prop) (n : Nat) (G : Func → Prop) : Prop where
  const : ∀ {f}, G f → ∀ c, P (.const c)
  append : ∀ {f b k v f'}, G f → k.SetsOwn → (∀ r ∈ k.written, r < n) → (∀ x ∈ k.operands, P x) →
    (appendNode b k).run f = .ok v f' → P (.node v) ∧ G f'
  fresh : ∀ {f version f'}, G f → freshVersion.run f = .ok version f' → (∀ r < n, P (.reg r version)) ∧ G f'
  close : ∀ {f b t depth f'}, G f → (∀ x ∈ t.operands, P x) → Closes b t depth f f' → G f'

section Rules

variable {α β : Type} {Q : β → Func → Prop} {P : Value → Prop}

namespace Holds

lemma reframe (h : Holds P n frame) (count : frame'.locals.length = frame.locals.length)
    (from_ : ∀ y ∈ frame'.slots, y ∈ frame.slots ∨ P y) : Holds P n frame' := by
  refine ⟨count.trans h.count, fun y mem => ?_⟩
  rcases from_ y mem with old | new
  · exact h.each y old
  · exact new

lemma push (h : Holds P n frame) (new : P y) : Holds P n (frame.push y) := by
  refine h.reframe rfl fun z mem => ?_
  rw [mem_slots, Frame.push, List.mem_append, List.mem_singleton] at mem
  rw [mem_slots]
  rcases mem with (old | rfl) | rest
  · exact .inl (.inl old)
  · exact .inr new
  · exact .inl (.inr rest)

lemma pop {g : Value × Frame → Edit β} (h : Holds P n frame)
    (next : ∀ y fr, P y → Holds P n fr → (g (y, fr)).Meets f Q fun _ => True) :
    (ofExcept frame.pop >>= g).Meets f Q fun _ => True := by
  rw [Frame.pop]
  split
  · rename_i y last
    have mem : y ∈ frame.slots := mem_slots.2 (.inl (List.mem_of_getLast? last))
    refine next y _ (h.each y mem) (h.reframe rfl fun z there => .inl ?_)
    rw [mem_slots] at there ⊢
    exact there.imp_left fun there => List.mem_of_mem_dropLast there
  · exact meets_throw_bind trivial

lemma popN {count : Nat} {g : List Value × Frame → Edit β} (h : Holds P n frame)
    (next : ∀ ys fr, (∀ y ∈ ys, P y) → Holds P n fr → (g (ys, fr)).Meets f Q fun _ => True) :
    (ofExcept (frame.popN count) >>= g).Meets f Q fun _ => True := by
  rw [Frame.popN]
  split
  · exact meets_throw_bind trivial
  · refine next _ _ (fun y mem => h.each y ?_) (h.reframe rfl fun z there => .inl ?_)
    · exact mem_slots.2 (.inl (List.mem_of_mem_drop mem))
    · rw [mem_slots] at there ⊢
      exact there.imp_left fun there => List.mem_of_mem_take there

lemma peek {g : Value → Edit β} (h : Holds P n frame) (next : ∀ y, P y → (g y).Meets f Q fun _ => True) :
    (ofExcept frame.peek >>= g).Meets f Q fun _ => True := by
  rw [Frame.peek]
  split
  · rename_i y last
    exact next y (h.each y (mem_slots.2 (.inl (List.mem_of_getLast? last))))
  · exact meets_throw_bind trivial

lemma getLocal {register : Nat} {g : Value → Edit β} (h : Holds P n frame)
    (next : ∀ y, P y → register < n → (g y).Meets f Q fun _ => True) :
    (ofExcept (frame.getLocal register) >>= g).Meets f Q fun _ => True := by
  rw [Frame.getLocal]
  split
  · rename_i y found
    refine next y (h.each y (mem_slots.2 (.inr (.inr (List.mem_of_getElem? found))))) ?_
    rw [← h.count]
    exact (List.getElem?_eq_some_iff.1 found).1
  · exact meets_throw_bind trivial

lemma setLocal {register : Nat} (h : Holds P n frame) (new : P y) :
    (ofExcept (frame.setLocal register y)).Meets f (fun fr f' => Holds P n fr ∧ f' = f) fun _ => True := by
  rw [Frame.setLocal]
  split
  · refine meets_pure ⟨h.reframe (List.length_set ..) fun z mem => ?_, rfl⟩
    rw [mem_slots] at mem
    rw [mem_slots]
    rcases mem with stack | scope | set
    · exact .inl (.inl stack)
    · exact .inl (.inr (.inl scope))
    · rcases List.mem_or_eq_of_mem_set set with old | rfl
      · exact .inl (.inr (.inr old))
      · exact .inr new
  · exact meets_throw trivial

end Holds

lemma meets_index {g : Nat → Edit β} (next : ∀ k, (g k).Meets f Q fun _ => True) :
    (indexOf i >>= g).Meets f Q fun _ => True :=
  meets_indexOf trivial fun k _ => next k

lemma meets_beside {e : Except Fault α} {g : α → Edit β} (next : ∀ a, (g a).Meets f Q fun _ => True) :
    (ofExcept e >>= g).Meets f Q fun _ => True := by
  refine Meets.bind (P := fun _ f' => f' = f) (meets_ofExcept (fun _ _ => rfl) fun _ _ => trivial) ?_
  rintro a _ rfl
  exact next a

end Rules

lemma isSetter_of_isSpecial {o : Opcode} (plain : isSpecial o = false) : o.isSetter = false := by
  revert plain
  cases o <;> decide

namespace Suits

variable {P : Value → Prop} {G : Func → Prop}

section Following

variable (suits : Suits P n G) (h : Holds P n frame) (start : G f)
include suits start

lemma appendNode {β : Type} {Q : β → Func → Prop} {k : NodeKind} {g : ValueId → Edit β} (own : k.SetsOwn)
    (set : ∀ r ∈ k.written, r < n) (read : ∀ x ∈ k.operands, P x)
    (next : ∀ v f', P (.node v) → G f' → (g v).Meets f' Q fun _ => True) :
    (Edit.appendNode b k >>= g).Meets f Q fun _ => True := by
  refine Meets.bind (P := fun v f' => P (.node v) ∧ G f') ?_ fun v f' after => next v f' after.1 after.2
  exact meets_of_forall (fun v f' run => suits.append start own set read run) fun _ _ _ => trivial

lemma spillSlots {register own k : Nat} {pinned : List (Value × ValueId)} {vs : List Value} (old : ∀ x ∈ vs, P x)
    (copies : ∀ e ∈ pinned, P (.node e.2)) : (Lift.spillSlots b register own k pinned vs).Meets f
      (fun ws f' => ws.length = vs.length ∧ (∀ x ∈ ws, P x) ∧ G f') fun _ => True := by
  induction vs generalizing f k pinned with
  | nil => exact meets_pure ⟨rfl, List.forall_mem_nil _, start⟩
  | cons v vs ih =>
    obtain ⟨first, rest⟩ := List.forall_mem_cons.1 old
    have more {w : Value} (new : P w) (ws : List Value) (f' : Func)
        (after : ws.length = vs.length ∧ (∀ x ∈ ws, P x) ∧ G f') :
        (w :: ws).length = (v :: vs).length ∧ (∀ x ∈ w :: ws, P x) ∧ G f' :=
      ⟨congrArg (· + 1) after.1, List.forall_mem_cons.2 ⟨new, after.2.1⟩, after.2.2⟩
    rw [Lift.spillSlots]
    refine meets_get ?_
    split
    · exact (ih start rest copies).bind fun ws f' after => meets_pure (more first ws f' after)
    · split
      · rename_i copy found
        refine (ih start rest copies).bind fun ws f' after => meets_pure (more ?_ ws f' after)
        exact copies (v, copy) (mem_of_lookup found)
      · refine suits.appendNode start NodeKind.setsOwn_copy (List.forall_mem_nil _) (List.forall_mem_singleton.2 first)
          fun copy f₁ new start₁ => ?_
        refine (ih start₁ rest ?_).bind fun ws f' after => meets_pure (more new ws f' after)
        exact List.forall_mem_append.2 ⟨copies, List.forall_mem_singleton.2 new⟩

include h

lemma spill {register : Nat} :
    (Lift.spill b register frame).Meets f (fun frame' f' => Holds P n frame' ∧ G f') fun _ => True := by
  rw [Lift.spill]
  refine (suits.spillSlots start h.each (List.forall_mem_nil _)).bind ?_
  rintro ws f' ⟨length, each, after⟩
  refine meets_pure ⟨⟨?_, ?_⟩, after⟩
  · rw [← h.count]
    simp only [Frame.slots, List.length_append] at length
    simp only [Frame.withSlots, List.length_drop]
    omega
  · rwa [slots_withSlots]

lemma store {register : Nat} (new : P y) :
    (Lift.store b register y frame).Meets f (fun frame' f' => Holds P n frame' ∧ G f') fun _ => True := by
  rw [Lift.store]
  refine h.getLocal fun _ _ inside => (suits.spill h start).bind ?_
  rintro fr f₁ ⟨h₁, start₁⟩
  refine suits.appendNode start₁ NodeKind.setsOwn_store (List.forall_mem_singleton.2 inside)
    (List.forall_mem_singleton.2 new) fun _ f₂ _ start₂ => ?_
  exact (h₁.setLocal new).imp (fun _ _ set => ⟨set.1, set.2 ▸ start₂⟩) fun _ _ => trivial

lemma stepRegister {op : UnaryOp} :
    (Lift.stepRegister b op i frame).Meets f (fun frame' f' => Holds P n frame' ∧ G f') fun _ => True := by
  rw [Lift.stepRegister]
  refine meets_index fun register => h.getLocal fun y has _ => ?_
  refine suits.appendNode start NodeKind.setsOwn_unary (List.forall_mem_nil _) (List.forall_mem_singleton.2 has)
    fun v f₁ new start₁ => ?_
  exact suits.store h start₁ new

lemma stepHasNext2 :
    (Lift.stepHasNext2 b i frame).Meets f (fun frame' f' => Holds P n frame' ∧ G f') fun _ => True := by
  rw [Lift.stepHasNext2]
  split
  · rename_i object index operands
    refine h.getLocal fun _ _ first => h.getLocal fun _ _ second => (suits.spill h start).bind ?_
    rintro fr₁ f₁ ⟨h₁, start₁⟩
    refine (suits.spill h₁ start₁).bind ?_
    rintro fr₂ f₂ ⟨h₂, start₂⟩
    have set : ∀ r ∈ [object, index], r < n := List.forall_mem_cons.2 ⟨first, List.forall_mem_singleton.2 second⟩
    refine suits.appendNode start₂ NodeKind.setsOwn_hasNext2 set (List.forall_mem_nil _) fun id f₃ new start₃ => ?_
    refine Meets.bind (P := fun version f₄ => (∀ r < n, P (.reg r version)) ∧ G f₄) ?_ ?_
    · exact meets_of_forall (fun version f₄ run => suits.fresh start₃ run) fun _ _ _ => trivial
    rintro version f₄ ⟨fresh, start₄⟩
    refine (h₂.setLocal (fresh object first)).bind ?_
    rintro fr₃ _ ⟨h₃, rfl⟩
    refine (h₃.setLocal (fresh index second)).bind ?_
    rintro fr₄ _ ⟨h₄, rfl⟩
    exact meets_pure ⟨h₄.push new, start₄⟩
  · exact meets_throw trivial

lemma generic (plain : i.opcode.isSetter = false) :
    (Lift.generic pool b i frame).Meets f (fun frame' f' => Holds P n frame' ∧ G f') fun _ => True := by
  have own {k : NodeKind} (same : ∀ j, k.instruction? = some j → j.opcode = i.opcode) : k.SetsOwn :=
    NodeKind.setsOwn_of_isSetter fun j here => by rwa [same j here]
  have kinds {operands : List Value} (each : ∀ x ∈ operands, P x) : (genericKind i operands).Meets f
      (fun k f' => k.SetsOwn ∧ (∀ r ∈ k.written, r < n) ∧ (∀ x ∈ k.operands, P x) ∧ f' = f) fun _ => True := by
    have call {index count : Nat} : (NodeKind.call i.opcode index count operands).SetsOwn := by
      refine own fun j here => ?_
      rw [← Option.some.inj here]
      split <;> rfl
    rw [genericKind]
    split
    · split
      · exact meets_pure ⟨call, List.forall_mem_nil _, each, rfl⟩
      · exact meets_pure ⟨call, List.forall_mem_nil _, each, rfl⟩
      · exact meets_throw trivial
    · split
      · exact meets_index fun name => meets_pure ⟨own (by rintro j ⟨⟩; rfl), List.forall_mem_nil _, each, rfl⟩
      · exact meets_pure ⟨own (by rintro j ⟨⟩; rfl), List.forall_mem_nil _, each, rfl⟩
  rw [Lift.generic]
  split
  · exact meets_throw_bind trivial
  · refine meets_beside fun effect => h.popN fun operands fr each h₁ => (kinds each).bind ?_
    rintro k _ ⟨own, set, read, rfl⟩
    refine suits.appendNode start own set read fun v f₁ new start₁ => meets_pure ⟨?_, start₁⟩
    split
    · exact h₁.push new
    · exact h₁

lemma stepOperator (plain : i.opcode.isSetter = false) :
    (Lift.stepOperator pool b i frame).Meets f (fun frame' f' => Holds P n frame' ∧ G f') fun _ => True := by
  rw [Lift.stepOperator]
  split
  · refine meets_index fun name => h.pop fun y fr has h₁ => ?_
    refine suits.appendNode start NodeKind.setsOwn_type (List.forall_mem_nil _) (List.forall_mem_singleton.2 has)
      fun v f₁ new start₁ => ?_
    exact meets_pure ⟨h₁.push new, start₁⟩
  · refine h.pop fun y fr has h₁ => ?_
    refine suits.appendNode start NodeKind.setsOwn_unary (List.forall_mem_nil _) (List.forall_mem_singleton.2 has)
      fun v f₁ new start₁ => ?_
    exact meets_pure ⟨h₁.push new, start₁⟩
  · refine h.pop fun y fr has h₁ => h₁.pop fun z fr' has' h₂ => ?_
    have read : ∀ x ∈ [z, y], P x := List.forall_mem_cons.2 ⟨has', List.forall_mem_singleton.2 has⟩
    refine suits.appendNode start NodeKind.setsOwn_binary (List.forall_mem_nil _) read fun v f₁ new start₁ => ?_
    exact meets_pure ⟨h₂.push new, start₁⟩
  · exact suits.generic h start plain

omit suits in
lemma stepScopeObject :
    (Lift.stepScopeObject i frame).Meets f (fun frame' f' => Holds P n frame' ∧ G f') fun _ => True := by
  rw [Lift.stepScopeObject]
  split
  · split
    · rename_i y found
      have mem : y ∈ frame.slots := mem_slots.2 (.inr (.inl (List.mem_of_getElem? found)))
      exact meets_pure ⟨h.push (h.each y mem), start⟩
    · exact meets_throw trivial
  · exact meets_throw trivial

lemma stepPushScope {op : ScopeOp} :
    (Lift.stepPushScope b op i frame).Meets f (fun frame' f' => Holds P n frame' ∧ G f') fun _ => True := by
  rw [Lift.stepPushScope]
  refine h.pop fun y fr has h₁ => ?_
  dsimp only
  split
  · exact meets_throw_bind trivial
  · refine suits.appendNode start NodeKind.setsOwn_scope (List.forall_mem_nil _) (List.forall_mem_singleton.2 has)
      fun v f₁ _ start₁ => ?_
    refine meets_pure ⟨h₁.reframe rfl fun z mem => ?_, start₁⟩
    rw [mem_slots, List.mem_append, List.mem_singleton] at mem
    rw [mem_slots]
    rcases mem with stack | (old | rfl) | locals
    · exact .inl (.inl stack)
    · exact .inl (.inr (.inl old))
    · exact .inr has
    · exact .inl (.inr (.inr locals))

lemma stepPopScope : (Lift.stepPopScope b frame).Meets f (fun frame' f' => Holds P n frame' ∧ G f') fun _ => True := by
  rw [Lift.stepPopScope]
  split
  · exact meets_throw_bind trivial
  · refine suits.appendNode start NodeKind.setsOwn_scope (List.forall_mem_nil _) (List.forall_mem_nil _)
      fun v f₁ _ start₁ => ?_
    refine meets_pure ⟨h.reframe rfl fun z mem => .inl ?_, start₁⟩
    rw [mem_slots] at mem ⊢
    exact mem.imp_right fun mem => mem.imp_left fun mem => List.mem_of_mem_dropLast mem

lemma step : (Lift.step pool b i frame).Meets f (fun frame' f' => Holds P n frame' ∧ G f') fun _ => True := by
  have debug (plain : i.opcode.isSetter = false) :
      (Edit.appendNode b (.debug i) >>= fun _ => pure frame).Meets f (fun frame' f' => Holds P n frame' ∧ G f')
        fun _ => True := by
    have own : (NodeKind.debug i).SetsOwn := NodeKind.setsOwn_of_isSetter fun j same => by rwa [← Option.some.inj same]
    exact suits.appendNode start own (List.forall_mem_nil _) (List.forall_mem_nil _) fun _ _ _ start₁ =>
      meets_pure ⟨h, start₁⟩
  have push : (do return frame.push (.const (← ofExcept (constant pool i)))).Meets f
      (fun frame' f' => Holds P n frame' ∧ G f') fun _ => True :=
    meets_beside fun c => meets_pure ⟨h.push (suits.const start c), start⟩
  rw [Lift.step]
  split
  -- Instructions without effect, those for debuggers, and constants.
  iterate 2 exact meets_pure ⟨h, start⟩
  iterate 6
    rename_i here
    exact debug (by rw [here]; rfl)
  iterate 12 exact push
  -- The operand stack.
  · exact h.pop fun _ _ _ h₁ => meets_pure ⟨h₁, start⟩
  · exact h.peek fun _ has => meets_pure ⟨h.push has, start⟩
  · refine h.pop fun y fr has h₁ => h₁.pop fun z fr' has' h₂ => ?_
    exact meets_pure ⟨(h₂.push has).push has', start⟩
  -- Registers.
  iterate 5
    split
    · exact h.getLocal fun _ has _ => meets_pure ⟨h.push has, start⟩
    · exact meets_throw trivial
  iterate 5
    split
    · exact h.pop fun _ _ has h₁ => suits.store h₁ start has
    · exact meets_throw trivial
  · exact meets_index fun register => suits.store h start (suits.const start _)
  iterate 4 exact suits.stepRegister h start
  · exact suits.stepHasNext2 h start
  -- The scope stack.
  · exact stepScopeObject h start
  iterate 2 exact suits.stepPushScope h start
  · exact suits.stepPopScope h start
  · refine suits.stepOperator h start (isSetter_of_isSpecial ?_)
    rw [isSpecial] <;> assumption

end Following

/-- What is handed on from a block holds what slots may hold, and so do the operands of its end. -/
structure Hands (P : Value → Prop) (n : Nat) (G : Func → Prop) (b : BlockId) (es : List Pending) (f : Func) : Prop where
  pends : ∀ e ∈ es, ∀ frame source kind, e.entry = some (frame, source, kind) → Holds P n frame
  graph : G f
  ends : ∀ x ∈ (f.terminator b).operands, P x

section Closing

variable {t : Terminator} {m : NodeId} (suits : Suits P n G) (h : Holds P n frame) (start : G f)
include suits h start

lemma closing {es : List Pending} (edges : List (NodeId × EdgeKind)) (read : ∀ x ∈ t.operands, P x)
    (same : es = edges.map (enterBy frame b)) :
    (Lift.close b t frame >>= fun _ => pure es).Meets f (fun es f' => Hands P n G b es f') fun _ => True := by
  refine (meets_close fun _ _ => trivial).bind fun _ f' closes => meets_pure ⟨?_, suits.close start read closes, ?_⟩
  · rw [same]
    intro e mem frame' source kind entry
    obtain ⟨d, -, rfl⟩ := List.mem_map.1 mem
    cases entry
    exact h
  · obtain ⟨live, -, rfl⟩ := closes
    rwa [terminator_reend (by rwa [isSome_block?_modifyBlock]), if_pos rfl]

lemma terminate : (Lift.terminate s p b m i frame).Meets f (fun es f' => Hands P n G b es f') fun _ => True := by
  rw [Lift.terminate]
  split
  · exact meets_follow (fun _ _ => trivial) fun m' c _ _ => suits.closing h start [_] (List.forall_mem_nil _) rfl
  · split
    · exact meets_throw trivial
    · refine h.popN fun ys fr each h₁ => ?_
      refine meets_follow (fun _ _ => trivial) fun m₁ c₁ _ _ => ?_
      refine meets_follow (fun _ _ => trivial) fun m₂ c₂ _ _ => ?_
      exact suits.closing h₁ start [(m₁, _), (m₂, _)] each rfl
  · split
    · refine h.pop fun y fr has h₁ => ?_
      refine meets_follow (fun _ _ => trivial) fun m₁ c₁ _ _ => ?_
      refine (meets_followCases fun _ _ => trivial).bind ?_
      rintro rs _ ⟨rfl, edges, same, -⟩
      refine suits.closing h₁ start ((m₁, .switchDefault) :: edges) (List.forall_mem_singleton.2 has) ?_
      rw [same]
      rfl
    · exact meets_throw trivial
  · split
    · exact h.pop fun y fr has h₁ => suits.closing h₁ start [] (List.forall_mem_singleton.2 has) rfl
    · exact suits.closing h start [] (List.forall_mem_nil _) rfl
  · exact h.pop fun y fr has h₁ => suits.closing h₁ start [] (List.forall_mem_singleton.2 has) rfl
  · exact meets_throw trivial

lemma interpret {fuel : Nat} :
    (Lift.interpret s p b fuel m frame).Meets f (fun es f' => Hands P n G b es f') fun _ => True := by
  induction fuel generalizing f m frame with
  | zero => exact meets_throw trivial
  | succ fuel ih =>
    rw [Lift.interpret]
    split
    · exact meets_throw trivial
    · split
      · exact suits.terminate h start
      · refine (suits.step h start).bind ?_
        rintro fr f₁ ⟨h₁, start₁⟩
        refine meets_successor (fun _ => trivial) fun next _ => ?_
        split
        · exact suits.closing h₁ start₁ [(next, .fallthrough)] (List.forall_mem_nil _) rfl
        · exact ih h₁ start₁

end Closing

end Suits

/-! ## What is not used any more -/

/-- A value is not used from a number on, and no slot of the frame holds it. -/
structure Idle (x : Value) (n : Nat) (frame : Frame) (f : Func) : Prop extends Unused x n f where
  away : x ∉ frame.slots

lemma suits_unused (x : Value) (n registers : Nat) : Suits (· ≠ x) registers (Unused x n) where
  const h c := by
    rintro rfl
    exact h.has
  append h _ _ other run := by
    obtain ⟨-, rfl, rfl⟩ := appendNode_eq_ok.1 run
    exact ⟨h.has.ne_node.symm, h.putNode fun mem => other x mem rfl⟩
  fresh h run := by
    obtain ⟨rfl, rfl⟩ := freshVersion_eq_ok.1 run
    refine ⟨?_, h.has.freshVersion, h.free⟩
    rintro r - rfl
    exact Nat.lt_irrefl _ h.has
  close h _ closes := by
    obtain ⟨-, -, rfl⟩ := closes
    exact Unused.reend ⟨h.has, h.free⟩

section Spilling

variable {register own k : Nat} {pinned : List (Value × ValueId)} {vs ws : List Value} {y : Value}

/-- What pinning does to slots, as far as one value goes: it stays only where it was, and if it reads the register
only in the slot of the register. -/
structure Spilled (x : Value) (register own k : Nat) (vs : List Value) (f : Func) (ws : List Value) (f' : Func) :
    Prop where
  has : f'.Has x
  length : ws.length = vs.length
  old : ∀ j : Nat, ws[j]? = some x → vs[j]? = some x
  reads : ∀ r, f.Reads x r → f'.Reads x r
  pins : f.Reads x register → ∀ j : Nat, ws[j]? = some x → k + j = own
  unused : ∀ n, Unused x n f → x ∉ vs → Unused x n f'

lemma Spilled.cons {f₁ : Func} {v w : Value} (rest : Spilled x register own (k + 1) vs f₁ ws f')
    (reads : ∀ r, f.Reads x r → f₁.Reads x r) (unused : ∀ n, Unused x n f → v ≠ x → Unused x n f₁)
    (here : w = x → v = x ∧ (f.Reads x register → k = own)) : Spilled x register own k (v :: vs) f (w :: ws) f' where
  has := rest.has
  length := by rw [List.length_cons, List.length_cons, rest.length]
  old j found := by
    cases j with
    | zero =>
      obtain ⟨rfl, -⟩ := here (Option.some.inj found)
      rfl
    | succ j => exact rest.old j found
  reads r read := rest.reads r (reads r read)
  pins read j found := by
    cases j with
    | zero => exact (here (Option.some.inj found)).2 read
    | succ j =>
      rw [← rest.pins (reads _ read) j found]
      omega
  unused n free away :=
    rest.unused n (unused n free fun same => away (same ▸ List.mem_cons_self)) fun mem =>
      away (List.mem_cons_of_mem v mem)

lemma spilled_spillSlots (has : f.Has x) (other : ∀ e ∈ pinned, .node e.2 ≠ x) :
    (spillSlots b register own k pinned vs).Meets f (fun ws f' => Spilled x register own k vs f ws f') fun _ =>
      True := by
  induction vs generalizing f k pinned with
  | nil =>
    exact meets_pure ⟨has, rfl, fun _ none => none, fun _ read => read, fun _ _ none => by simp at none,
      fun _ unused _ => unused⟩
  | cons v rest ih =>
    rw [spillSlots]
    refine meets_get ?_
    split
    · rename_i stays
      refine (ih has other).bind fun ws f' spilled => meets_pure ?_
      refine spilled.cons (fun _ read => read) (fun _ unused _ => unused) fun same => ⟨same, fun read => ?_⟩
      rw [same, readsRegister_iff.2 read] at stays
      exact stays.resolve_right (by rintro ⟨⟩)
    · split
      · rename_i copy found
        refine (ih has other).bind fun ws f' spilled => meets_pure ?_
        refine spilled.cons (fun _ read => read) (fun _ unused _ => unused) fun same => ?_
        exact absurd same (other (v, copy) (mem_of_lookup found))
      · -- The copy is a node that was not there before.
        refine Meets.bind (P := fun copy f₁ => .node copy ≠ x ∧ f₁.Has x ∧ (∀ r, f.Reads x r → f₁.Reads x r) ∧
          ∀ n, Unused x n f → v ≠ x → Unused x n f₁) ?_ ?_
        · refine meets_of_forall (fun copy f₁ run => ?_) fun _ _ _ => trivial
          obtain ⟨-, rfl, rfl⟩ := appendNode_eq_ok.1 run
          refine ⟨has.ne_node.symm, has.putNode, fun r read => read.putNode, fun n unused ne => unused.putNode ?_⟩
          exact fun mem => ne (List.mem_singleton.1 mem).symm
        · rintro copy f₁ ⟨new, has₁, reads, unused⟩
          have other' : ∀ e ∈ pinned ++ [(v, copy)], .node e.2 ≠ x := by
            intro e mem
            rcases List.mem_append.1 mem with old | last
            · exact other e old
            · rw [List.mem_singleton.1 last]
              exact new
          refine (ih has₁ other').bind fun ws f' spilled => meets_pure (spilled.cons reads unused fun same => ?_)
          exact absurd same new

/-- The slot of a register. -/
def ownSlot (frame : Frame) (register : Nat) : Nat := frame.stack.length + frame.scope.length + register

lemma spilled_spill (has : f.Has x) : (spill b register frame).Meets f (fun frame' f' =>
    (∀ r, ownSlot frame' r = ownSlot frame r) ∧
      Spilled x register (ownSlot frame register) 0 frame.slots f frame'.slots f')
    fun _ => True := by
  rw [spill]
  refine (spilled_spillSlots has fun e none => absurd none List.not_mem_nil).bind fun ws f' spilled =>
    meets_pure ⟨fun r => ?_, ?_⟩
  · have length := spilled.length
    rw [Frame.slots, List.length_append, List.length_append] at length
    simp only [ownSlot, Frame.withSlots, List.length_take, List.length_drop]
    omega
  · rw [slots_withSlots]
    exact spilled

lemma meets_setLocal_slots : (ofExcept (frame.setLocal register y)).Meets f
    (fun frame' f' => frame'.slots = frame.slots.set (ownSlot frame register) y ∧
      (∀ r, ownSlot frame' r = ownSlot frame r) ∧ f' = f) fun _ => True := by
  rw [Frame.setLocal]
  split
  · refine meets_pure ⟨?_, fun r => rfl, rfl⟩
    rw [Frame.slots, Frame.slots, ownSlot, List.set_append_right _ _ (by rw [List.length_append]; omega),
      List.length_append,
      Nat.add_sub_cancel_left]
  · exact meets_throw trivial

lemma exists_of_getElem?_set {j own : Nat} (found : (ws.set own y)[j]? = some x) (other : y ≠ x) :
    j ≠ own ∧ ws[j]? = some x := by
  rw [List.getElem?_set] at found
  split at found
  · split at found
    · exact absurd (Option.some.inj found) other
    · cases found
  · rename_i apart
    exact ⟨Ne.symm apart, found⟩

/-- A store leaves no value in a frame that read the register before, unless it is the one that is stored. -/
lemma clears_store (has : f.Has x) (other : y ≠ x) : (store b register y frame).Meets f
    (fun frame' f' => f'.Has x ∧ (f.Reads x register ∨ x ∉ frame.slots → x ∉ frame'.slots) ∧
      ∀ n, Idle x n frame f → Unused x n f') fun _ => True := by
  rw [store]
  refine Meets.bind (P := fun _ f' => f' = f) (meets_ofExcept (fun _ _ => rfl) fun _ _ => trivial) ?_
  rintro _ _ rfl
  refine (spilled_spill has).bind ?_
  rintro fr f₁ ⟨own, spilled⟩
  refine Meets.bind (P := fun _ f₂ => f₂.Has x ∧ ∀ n, Unused x n f₁ → Unused x n f₂) ?_ ?_
  · refine meets_of_forall (fun v f₂ run => ?_) fun _ _ _ => trivial
    obtain ⟨-, rfl, rfl⟩ := appendNode_eq_ok.1 run
    exact ⟨spilled.has.putNode, fun n unused => unused.putNode fun mem => other (List.mem_singleton.1 mem).symm⟩
  · rintro _ f₂ ⟨has₂, unused⟩
    refine meets_setLocal_slots.imp ?_ fun _ same => same
    rintro frame' _ ⟨slots, -, rfl⟩
    refine ⟨has₂, fun free => ?_, fun n idle => unused n (spilled.unused n idle.toUnused idle.away)⟩
    rw [slots, own]
    intro mem
    obtain ⟨j, found⟩ := List.mem_iff_getElem?.1 mem
    obtain ⟨apart, found⟩ := exists_of_getElem?_set found other
    rcases free with read | away
    · have here := spilled.pins read j found
      rw [Nat.zero_add] at here
      exact apart here
    · exact away (List.mem_of_getElem? (spilled.old j found))

/-- Advancing an iteration leaves no value in a frame that read one of its registers before. -/
lemma clears_stepHasNext2 (has : f.Has x) : (stepHasNext2 b i frame).Meets f
    (fun frame' f' => f'.Has x ∧ (∀ object index, i.operands = .pair object index →
      f.Reads x object ∨ f.Reads x index ∨ x ∉ frame.slots → x ∉ frame'.slots) ∧
      ∀ n, Idle x n frame f → Unused x n f') fun _ => True := by
  rw [stepHasNext2]
  split
  · rename_i object index operands
    have looked {r : Nat} : (ofExcept (frame.getLocal r)).Meets f (fun _ f' => f' = f) fun _ => True :=
      meets_ofExcept (fun _ _ => rfl) fun _ _ => trivial
    refine looked.bind ?_
    rintro _ _ rfl
    refine looked.bind ?_
    rintro _ _ rfl
    refine (spilled_spill has).bind ?_
    rintro fr₁ f₁ ⟨own₁, first⟩
    refine (spilled_spill first.has).bind ?_
    rintro fr₂ f₂ ⟨own₂, second⟩
    refine Meets.bind (P := fun v f₃ => .node v ≠ x ∧ f₃.Has x ∧ ∀ n, Unused x n f₂ → Unused x n f₃) ?_ ?_
    · refine meets_of_forall (fun v f₃ run => ?_) fun _ _ _ => trivial
      obtain ⟨-, rfl, rfl⟩ := appendNode_eq_ok.1 run
      exact ⟨second.has.ne_node.symm, second.has.putNode, fun n unused => unused.putNode (by rintro ⟨⟩)⟩
    rintro id f₃ ⟨new, has₃, unused₃⟩
    refine Meets.bind (P := fun version f₄ => (∀ r, .reg r version ≠ x) ∧ f₄.Has x ∧ ∀ n, Unused x n f₃ →
      Unused x n f₄) ?_ ?_
    · refine meets_of_forall (fun version f₄ run => ?_) fun _ _ _ => trivial
      obtain ⟨rfl, rfl⟩ := freshVersion_eq_ok.1 run
      refine ⟨?_, has₃.freshVersion, fun n unused => ⟨has₃.freshVersion, unused.free⟩⟩
      rintro r rfl
      exact Nat.lt_irrefl _ has₃
    rintro version f₄ ⟨fresh, has₄, unused₄⟩
    refine meets_setLocal_slots.bind ?_
    rintro fr₃ _ ⟨slots₃, own₃, rfl⟩
    refine meets_setLocal_slots.bind ?_
    rintro fr₄ _ ⟨slots₄, -, rfl⟩
    refine meets_pure ⟨has₄, fun object' index' same free mem => ?_, fun n idle => ?_⟩
    · obtain ⟨rfl, rfl⟩ := Operands.pair.inj (operands.symm.trans same)
      have there : x ∈ fr₄.slots := by
        rw [mem_slots, Frame.push, List.mem_append, List.mem_singleton] at mem
        rw [mem_slots]
        rcases mem with (stack | same) | rest
        · exact .inl stack
        · exact absurd same.symm new
        · exact .inr rest
      rw [slots₄, slots₃] at there
      obtain ⟨j, found⟩ := List.mem_iff_getElem?.1 there
      obtain ⟨notIndex, found⟩ := exists_of_getElem?_set found (fresh index)
      obtain ⟨notObject, found⟩ := exists_of_getElem?_set found (fresh object)
      rcases free with read | read | away
      · have here := first.pins read j (second.old j found)
        rw [Nat.zero_add, ← own₁, ← own₂] at here
        exact notObject here
      · have here := second.pins (first.reads index read) j found
        rw [Nat.zero_add, ← own₂, ← own₃] at here
        exact notIndex here
      · exact away (List.mem_of_getElem? (first.old j (second.old j found)))
    · have away : x ∉ fr₁.slots := by
        intro mem
        obtain ⟨j, found⟩ := List.mem_iff_getElem?.1 mem
        exact idle.away (List.mem_of_getElem? (first.old j found))
      exact unused₄ n (unused₃ n (second.unused n (first.unused n idle.toUnused idle.away) away))
  · exact meets_throw trivial

end Spilling

/-- A value is not used from a number on, not used at the end of the block, and not handed on. -/
structure Spent (x : Value) (n : Nat) (b : BlockId) (es : List Pending) (f : Func) : Prop extends Unused x n f where
  ends : x ∉ (f.terminator b).operands
  hands : ∀ e ∈ es, ∀ frame source kind, e.entry = some (frame, source, kind) → x ∉ frame.slots

/-- Following the rest of a block, a value that no slot holds does not come to be used. -/
lemma idle_interpret {fuel : Nat} {m : NodeId} (idle : Idle x n frame f) :
    (interpret s p b fuel m frame).Meets f (fun es f' => Spent x n b es f') fun _ => True := by
  have holds : Holds (· ≠ x) frame.locals.length frame := ⟨rfl, fun y mem same => idle.away (same ▸ mem)⟩
  refine ((suits_unused x n _).interpret holds idle.toUnused).imp (fun es f' hands => ?_) fun _ _ => trivial
  refine ⟨hands.graph, fun mem => hands.ends x mem rfl, fun e mem frame source kind entry slot => ?_⟩
  exact (hands.pends e mem frame source kind entry).each x slot rfl

/-- An instruction that sets a register is followed: a store of a value, or an advance of an iteration. -/
inductive Sets (b : BlockId) (r : Nat) : Option Value → Frame → Func → Frame → Func → Prop
  | store {y : Value} {frame frame' : Frame} {f f' : Func} : (store b r y frame).run f = .ok frame' f' →
    Sets b r (some y) frame f frame' f'
  | advance {i : Instruction Marker} {object index : Nat} {frame frame' : Frame} {f f' : Func} :
    i.operands = .pair object index → r = object ∨ r = index → (stepHasNext2 b i frame).run f = .ok frame' f' →
    Sets b r none frame f frame' f'

/-- No slot is left with a value that reads the register, other than one that is stored. -/
lemma Sets.idle {stored : Option Value} (sets : Sets b r stored frame f frame' f') (has : f.Has x)
    (read : f.readsRegister x r = true) (other : stored ≠ some x) : Idle x f'.nodes.size frame' f' := by
  have beyond (has : f'.Has x) : Unused x f'.nodes.size f' := by
    refine ⟨has, fun w k above here => ?_⟩
    refine absurd above (Nat.not_le.2 (lt_size_of_node? (Option.isSome_iff_exists.2 ?_)))
    obtain ⟨node, found, -⟩ := Option.map_eq_some_iff.1 here
    exact ⟨node, found⟩
  rw [readsRegister_iff] at read
  cases sets with
  | @store y _ _ _ _ run =>
    have cleared := (clears_store has fun same => other (congrArg some same)).of_ok run
    exact ⟨beyond cleared.1, cleared.2.1 (.inl read)⟩
  | @advance i object index _ _ _ _ operands which run =>
    have cleared := (clears_stepHasNext2 has).of_ok run
    refine ⟨beyond cleared.1, cleared.2.1 object index operands ?_⟩
    rcases which with rfl | rfl
    · exact .inl read
    · exact .inr (.inl read)

/-- A value that reads a register when an instruction that sets it is followed is not used behind that instruction,
in the rest of the block or as what is handed on to others, unless the instruction stores it. -/
theorem unused_of_sets {stored : Option Value} {fuel : Nat} {m : NodeId} {es : List Pending}
    (sets : Sets b r stored frame f frame' f') (has : f.Has x) (read : f.readsRegister x r = true)
    (other : stored ≠ some x) (rest : (interpret s p b fuel m frame').run f' = .ok es f'') :
    Spent x f'.nodes.size b es f'' :=
  (idle_interpret (sets.idle has read other)).of_ok rest

/-- The argument of a method was pushed, its register is set to a constant, and what was pushed is returned. -/
theorem unused_of_sets_returning :
    ∃ (s : Source) (f f' f'' : Func) (frame' : Frame) (es : List Pending),
      Sets 2 1 (some (.const (.int 7))) { stack := [.reg 1 0], locals := [.reg 0 0, .reg 1 0] } f frame' f' ∧
      f.Has (.reg 1 0) ∧ f.readsRegister (.reg 1 0) 1 = true ∧
      (interpret s {} 2 1 2 frame').run f' = .ok es f'' ∧ Spent (.reg 1 0) f'.nodes.size 2 es f'' := by
  let s : Except Fault Source := do
    let code ← Code.decode [0x48] []
    return ⟨code, ← FlowGraph.build code, {}⟩
  let f : Func := (Func.new 0 1 {} 2).pushBlock {}
  let frame : Frame := { stack := [.reg 1 0], locals := [.reg 0 0, .reg 1 0] }
  let follow (s : Source) : Edit (List Pending) := do
    let frame' ← store 2 1 (.const (.int 7)) frame
    interpret s {} 2 1 2 frame'
  have facts : s.toOption.any (fun s => (follow s).succeedsWith f fun _ _ => true) = true := by
    decide +kernel
  obtain ⟨s, -, ran⟩ := (Option.any_eq_true _ _).1 facts
  obtain ⟨es, f'', run, -⟩ := Edit.exists_of_succeedsWith ran
  obtain ⟨frame', f', set, rest⟩ := Edit.bind_eq_ok.1 run
  have sets : Sets 2 1 (some (.const (.int 7))) frame f frame' f' := .store set
  have has : f.Has (.reg 1 0) := Nat.zero_lt_one
  exact ⟨s, f, f', f'', frame', es, sets, has, rfl, rest, unused_of_sets sets has rfl (by rintro ⟨⟩) rest⟩

end Lift

/-- Lifting does not keep readings apart from writes: what a phi reads may become known behind the write. -/
theorem not_unbroken : ¬∀ (body : MethodBody) (pool : Pool) (config : Config) (f : Func),
    body.lift pool config = .ok f → f.Unbroken := by
  intro all
  have facts : (MethodBody.readBeforeWrite.lift {} {}).toOption.any (fun f =>
      f.body Func.entry == [] && (f.terminator Func.entry).targets == [(2, .fallthrough)] &&
      f.body 2 == [] && (f.terminator 2).targets == [(4, .whenTrue), (3, .whenFalse)] &&
      f.body 4 == [] && (f.terminator 4).targets == [(5, .fallthrough)] &&
      f.phis 5 == [0] && f.body 5 == [3] && f.sets 3 1 && f.readsRegister (.node 0) 1 &&
      (f.terminator 5).operands == [.node 0]) = true := by
    decide +kernel
  obtain ⟨f, lifted, ok⟩ := (Option.any_eq_true _ _).1 facts
  simp only [Bool.and_eq_true, beq_iff_eq] at ok
  obtain ⟨⟨⟨⟨⟨⟨⟨⟨⟨⟨body₀, out₀⟩, body₂⟩, out₂⟩, body₄⟩, out₄⟩, phis₅⟩, body₅⟩, write⟩, read⟩, used⟩ := ok
  have ok : MethodBody.readBeforeWrite.lift {} {} = .ok f := by
    cases run : MethodBody.readBeforeWrite.lift {} {} with
    | ok g =>
      rw [run] at lifted
      rw [Option.some.inj lifted]
    | error e =>
      rw [run] at lifted
      cases lifted
  have edge {b t : BlockId} {kind : EdgeKind} (reached : f.Reached b (f.body b)) (empty : f.body b = [])
      (out : (t, kind) ∈ (f.terminator b).targets) : f.Reached t (f.body t) := by
    rw [empty] at reached
    exact .edge reached out fun _ _ => id
  have reached₂ := edge .start body₀ (by rw [out₀]; exact List.mem_cons_self)
  have reached₄ := edge reached₂ body₂ (by rw [out₂]; exact List.mem_cons_self)
  have reached₅ := edge reached₄ body₄ (by rw [out₄]; exact List.mem_cons_self)
  have since : f.Since 5 1 false 5 (f.body 5) := .start
  rw [body₅] at reached₅ since
  have behind := since.node
  rw [write] at behind
  refine all _ _ _ f ok 0 5 1 5 [] (by rw [phis₅]; exact List.mem_cons_self) (Func.readsRegister_iff.1 read)
    (reached₅.node id)
    (.last ?_) behind
  rw [used]
  exact List.mem_cons_self

end Avm.Ir
