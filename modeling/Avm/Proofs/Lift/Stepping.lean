import Avm.Proofs.Ir.Outcomes
import Avm.Proofs.Ir.Written
import Avm.Proofs.Lift.Growing

/-!
# One instruction

What lifting does with one instruction that hands control to the next one: it changes the depths of the
stacks as the effect of the instruction says, adds nodes to its block that do the same to the scopes,
and complains about a depth only if a stack is not deep enough for the effect.

The main statement is `meets_step`.
-/

namespace Avm

/-- The fault is that a stack is not deep enough, or not equally deep on two ways into a block. -/
def Fault.isDepth : Fault → Bool
  | .malformed (.frame .underflow) | .malformed (.frame (.tooShort ..))
  | .malformed (.lift .emptyScope) | .malformed (.lift (.depthMismatch ..)) => true
  | _ => false

namespace Ir

namespace Lift

open Edit

variable {f f' f'' f₀ : Func} {b t : BlockId} {k : NodeKind} {ks ls : List NodeKind} {pool : Pool}
  {i : Instruction Marker} {frame frame' : Frame} {bad : Fault → Prop}

/-- Nodes of the given kinds are added to a block, and nothing else happens to nodes and blocks. -/
structure Appends (b : BlockId) (ks : List NodeKind) (f f' : Func) : Prop where
  catches : f'.handlers = f.handlers
  kept : ∀ v, (f.node? v).isSome → f'.node? v = f.node? v
  new : ∀ v k, f'.kind? v = some k → f.kind? v = some k ∨ k ∈ ks
  other : ∀ t, t ≠ b → f'.block? t = f.block? t
  here : ∃ vs, f'.block? b = (f.block? b).map (fun x => { x with body := x.body ++ vs }) ∧
    vs.map f'.kind? = ks.map some

namespace Appends

lemma refl (f : Func) : Appends b [] f f := by
  refine ⟨rfl, fun v _ => rfl, fun v k same => .inl same, fun t _ => rfl, [], ?_, rfl⟩
  cases f.block? b with
  | none => rfl
  | some x => simp

lemma kind (h : Appends b ks f f') {v : ValueId} (found : f.kind? v = some k) :
    f'.kind? v = some k := by
  obtain ⟨n, there, same⟩ := Option.map_eq_some_iff.1 found
  rw [Func.kind?, h.kept v (by rw [there]; rfl), there, Option.map_some, same]

lemma trans (h : Appends b ks f f') (h' : Appends b ls f' f'') : Appends b (ks ++ ls) f f'' := by
  obtain ⟨vs, here, kinds⟩ := h.here
  obtain ⟨ws, here', kinds'⟩ := h'.here
  refine ⟨h'.catches.trans h.catches, fun v there => ?_, fun v k found => ?_, fun t ne => ?_, vs ++ ws,
    ?_, ?_⟩
  · rw [h'.kept v (by rw [h.kept v there]; exact there), h.kept v there]
  · obtain old | new := h'.new v k found
    · exact (h.new v k old).imp_right (List.mem_append_left _)
    · exact .inr (List.mem_append_right _ new)
  · rw [h'.other t ne, h.other t ne]
  · rw [here', here, Option.map_map]
    congr 1
    funext x
    simp
  · have stay : vs.map f''.kind? = vs.map f'.kind? := by
      refine List.map_congr_left fun v mem => ?_
      have listed : f'.kind? v ∈ ks.map some := by
        rw [← kinds]
        exact List.mem_map_of_mem mem
      obtain ⟨k, -, found⟩ := List.mem_map.1 listed
      rw [← found]
      exact h'.kind found.symm
    rw [List.map_append, List.map_append, stay, kinds, kinds']

end Appends

lemma block?_putNode_place (plain : k.isPhi = false) (live : (f.block? b).isSome) :
    (f.putNode b (f.place b k) k).block? b =
      (f.block? b).map fun x => { x with body := x.body ++ [f.nodes.size] } := by
  obtain ⟨x, here⟩ := Option.isSome_iff_exists.1 live
  have same : ({ f with nodes := f.nodes.push (some ⟨k, b⟩) } : Func).block? b = some x := here
  rw [Func.putNode, Func.block?_modifyBlock, if_pos rfl, same, here, Func.place]
  simp only [plain, Bool.false_eq_true, if_false, Option.map_some]
  rw [Func.body_of_block? here, List.insertIdx_length_self]

lemma appends_putNode (plain : k.isPhi = false) (live : (f.block? b).isSome) :
    Appends b [k] f (f.putNode b (f.place b k) k) := by
  refine ⟨rfl, fun v there => Func.node?_putNode_of_isSome there, fun v k' found => ?_, fun t ne => ?_,
    [f.nodes.size], ?_, ?_⟩
  · rw [Func.kind?, Func.node?_putNode] at found
    split at found
    · exact .inr (List.mem_singleton.2 (Option.some.inj found).symm)
    · exact .inl found
  · rw [Func.putNode, Func.block?_modifyBlock, if_neg (Ne.symm ne)]
    rfl
  · exact block?_putNode_place plain live
  · simp [Func.kind?, Func.node?_putNode]

/-- Nodes that change no stack but may pin a value. -/
def Quiet (pool : Pool) (ks : List NodeKind) : Prop :=
  ∀ k ∈ ks, k.isPhi = false ∧ k ≠ .caught ∧ (∀ d, k.depthAfter d = some d) ∧ k.Writable pool

lemma quiet_nil : Quiet pool [] := fun _ mem => absurd mem List.not_mem_nil

lemma Quiet.append (h : Quiet pool ks) (h' : Quiet pool ls) : Quiet pool (ks ++ ls) := by
  intro k mem
  obtain mem | mem := List.mem_append.1 mem
  · exact h k mem
  · exact h' k mem

lemma quiet_copy (v : Value) : Quiet pool [.copy v] := by
  intro k mem
  rw [List.mem_singleton.1 mem]
  exact ⟨rfl, nofun, fun _ => rfl, NodeKind.writable_copy v⟩

lemma quiet_store (r : Nat) (v : Value) : Quiet pool [.store r v] := by
  intro k mem
  rw [List.mem_singleton.1 mem]
  exact ⟨rfl, nofun, fun _ => rfl, NodeKind.writable_store r v⟩

lemma quiet_unary (op : UnaryOp) (v : Value) : Quiet pool [.unary op v] := by
  intro k mem
  rw [List.mem_singleton.1 mem]
  exact ⟨rfl, nofun, fun _ => rfl, NodeKind.writable_unary op v⟩

end Lift

/-- The depths of the operand stack and of the scope stack. -/
structure Level where
  operand : Nat
  scope : Nat
deriving DecidableEq, Repr

/-- The stacks are deep enough for an effect. -/
def Level.Affords (l : Level) (e : StackEffect) : Prop :=
  e.pops ≤ l.operand ∧ 0 ≤ (l.scope : Int) + e.scope

/-- The depths behind an effect. -/
def Level.after (l : Level) (e : StackEffect) : Level :=
  ⟨l.operand - e.pops + e.pushes, ((l.scope : Int) + e.scope).toNat⟩

/-- The depths of the stacks of a frame. -/
def Frame.level (frame : Frame) : Level := ⟨frame.stack.length, frame.scope.length⟩

lemma Frame.level_eq_after {frame frame' : Frame} {e : StackEffect}
    (stack : frame'.stack.length = frame.stack.length - e.pops + e.pushes)
    (scope : (frame'.scope.length : Int) = frame.scope.length + e.scope) :
    frame'.level = frame.level.after e := by
  rw [level, level, Level.after, ← stack, ← scope, Int.toNat_natCast]

namespace Lift

open Edit

variable {f f' f'' f₀ f₁ : Func} {b t : BlockId} {k : NodeKind} {ks ls : List NodeKind} {pool : Pool}
  {i : Instruction Marker} {frame frame' : Frame} {bad : Fault → Prop}

/-- What following an instruction does to the frame and to the block: the stacks are deep enough for
the effect and change by it, and the new nodes do to the scopes what the instruction does.  If the
operands of the instruction have the shape that its opcode asks for, the nodes can be written. -/
structure Follows (pool : Pool) (b : BlockId) (i : Instruction Marker) (frame : Frame) (f : Func)
    (frame' : Frame) (f' : Func) : Prop where
  effect : ∃ e, i.effect pool = .ok e ∧ frame.level.Affords e ∧ frame'.level = frame.level.after e
  nodes : ∃ ks, Appends b ks f f' ∧
    NodeKind.scopeWalk frame.scope.length ks = some frame'.scope.length ∧
    ∀ k ∈ ks, k.isPhi = false ∧ k ≠ .caught ∧
      (i.operands.layout = i.opcode.layout → k.Writable pool)

/-- A fault about a depth means that the stacks are not deep enough for the instruction. -/
def Excused (pool : Pool) (i : Instruction Marker) (frame : Frame) (fault : Fault) : Prop :=
  fault.isDepth = true → ∀ e, i.effect pool = .ok e → ¬frame.level.Affords e

lemma excused_of_isDepth {fault : Fault} (h : fault.isDepth = false) : Excused pool i frame fault := by
  intro depth
  rw [h] at depth
  cases depth

lemma excused_underflow {e : StackEffect} {fault : Fault} (effect : i.effect pool = .ok e)
    (short : frame.stack.length < e.pops) : Excused pool i frame fault := by
  intro _ e' effect' affords
  obtain rfl := Except.ok.inj (effect.symm.trans effect')
  exact absurd affords.1 (Nat.not_le.2 short)

section Rules

variable {α β : Type} {g : α → Edit β} {Q : β → Func → Prop}

lemma meets_pop {g : Value × Frame → Edit β} (short : frame.stack.length = 0 → bad (.frame .underflow))
    (next : ∀ v fr, fr.stack.length + 1 = frame.stack.length → fr.scope = frame.scope →
      (g (v, fr)).Meets f Q bad) : (ofExcept frame.pop >>= g).Meets f Q bad := by
  rw [Frame.pop]
  split
  · rename_i v last
    refine next v _ ?_ rfl
    have nonempty : frame.stack ≠ [] := by
      rintro empty
      rw [empty] at last
      cases last
    have := List.length_pos_iff.2 nonempty
    simp only [List.length_dropLast]
    omega
  · rename_i none
    refine meets_throw_bind (short ?_)
    rw [List.getLast?_eq_none_iff.1 none]
    rfl

lemma meets_popN {n : Nat} {g : List Value × Frame → Edit β}
    (short : frame.stack.length < n → bad (.frame (.tooShort n frame.stack.length)))
    (next : ∀ vs fr, vs.length = n → fr.stack.length = frame.stack.length - n → fr.scope = frame.scope →
      n ≤ frame.stack.length → (g (vs, fr)).Meets f Q bad) :
    (ofExcept (frame.popN n) >>= g).Meets f Q bad := by
  rw [Frame.popN]
  split
  · rename_i less
    exact meets_throw_bind (short less)
  · rename_i enough
    refine next _ _ ?_ ?_ rfl (Nat.le_of_not_lt enough)
    · rw [List.length_drop]
      omega
    · rw [List.length_take]
      omega

lemma meets_peek {g : Value → Edit β} (short : frame.stack.length = 0 → bad (.frame .underflow))
    (next : ∀ v, 0 < frame.stack.length → (g v).Meets f Q bad) :
    (ofExcept frame.peek >>= g).Meets f Q bad := by
  rw [Frame.peek]
  split
  · rename_i v last
    refine next v (List.length_pos_iff.2 ?_)
    rintro empty
    rw [empty] at last
    cases last
  · rename_i none
    refine meets_throw_bind (short ?_)
    rw [List.getLast?_eq_none_iff.1 none]
    rfl

lemma meets_getLocal {r : Nat} {g : Value → Edit β} (short : bad (.frame (.noRegister r)))
    (next : ∀ v, (g v).Meets f Q bad) : (ofExcept (frame.getLocal r) >>= g).Meets f Q bad := by
  rw [Frame.getLocal]
  split
  · exact next _
  · exact meets_throw_bind short

lemma meets_setLocal {r : Nat} {v : Value} {P : Frame → Func → Prop}
    (short : bad (.frame (.noRegister r)))
    (next : ∀ fr, fr.stack = frame.stack → fr.scope = frame.scope → P fr f) :
    (ofExcept (frame.setLocal r v)).Meets f P bad := by
  rw [Frame.setLocal]
  split
  · exact meets_pure (next _ rfl rfl)
  · exact meets_throw short

lemma meets_indexOf {g : Nat → Edit β} (missing : bad (.lift (.missingIndex i.text)))
    (next : ∀ n, i.index? = some n → (g n).Meets f Q bad) : (indexOf i >>= g).Meets f Q bad := by
  rw [indexOf]
  split
  · rename_i n found
    exact next n found
  · exact meets_throw_bind missing

lemma meets_appendNode {g : ValueId → Edit β} (plain : k.isPhi = false)
    (missing : bad (.graph (.noBlock b)))
    (next : ∀ v f', Appends b [k] f f' → (g v).Meets f' Q bad) :
    (appendNode b k >>= g).Meets f Q bad := by
  refine Meets.bind (P := fun _ f' => Appends b [k] f f') ?_ next
  refine meets_of_forall (fun v f' run => ?_) fun e f' run => ?_
  · obtain ⟨live, -, rfl⟩ := appendNode_eq_ok.1 run
    exact appends_putNode plain live
  · cases here : f.block? b with
    | some x =>
      have live : (f.block? b).isSome := by
        rw [here]
        rfl
      have put : (appendNode b k).run f = .ok f.nodes.size (f.putNode b (f.place b k) k) :=
        appendNode_eq_ok.2 ⟨live, rfl, rfl⟩
      rw [run] at put
      cases put
    | none =>
      have faults : (appendNode b k).Meets f (fun _ _ => True) bad := by
        refine meets_block missing fun x there => ?_
        rw [here] at there
        cases there
      exact faults.of_error run

lemma meets_freshVersion {g : Nat → Edit β} (next : ∀ v f', Appends b [] f f' → (g v).Meets f' Q bad) :
    (freshVersion >>= g).Meets f Q bad := by
  refine Meets.bind (P := fun _ f' => Appends b [] f f') (meets_get (meets_set (meets_pure ?_))) next
  refine ⟨rfl, fun v _ => rfl, fun v k same => .inl same, fun t _ => rfl, [], ?_, rfl⟩
  change f.block? b = _
  cases f.block? b with
  | none => rfl
  | some x => simp

end Rules

section Registers

variable {register : Nat} {value : Value} (pool) (missing : bad (.graph (.noBlock b)))

include missing

lemma meets_spillSlots {own k : Nat} {pinned : List (Value × ValueId)} {vs : List Value} :
    (spillSlots b register own k pinned vs).Meets f
      (fun ws f' => ws.length = vs.length ∧ ∃ ks, Appends b ks f f' ∧ Quiet pool ks) bad := by
  induction vs generalizing f k pinned with
  | nil => exact meets_pure ⟨rfl, [], .refl f, quiet_nil⟩
  | cons v rest ih =>
    rw [spillSlots]
    refine meets_get ?_
    split
    · refine ih.bind ?_
      rintro ws f' ⟨length, more⟩
      refine meets_pure ⟨?_, more⟩
      simp [length]
    · split
      · refine ih.bind ?_
        rintro ws f' ⟨length, more⟩
        refine meets_pure ⟨?_, more⟩
        simp [length]
      · refine meets_appendNode rfl missing fun copy f₁ first => ?_
        refine ih.bind ?_
        rintro ws f' ⟨length, ks, more, quiet⟩
        refine meets_pure ⟨?_, _, first.trans more, ?_⟩
        · simp [length]
        · exact (quiet_copy v).append quiet

lemma meets_spill : (spill b register frame).Meets f
    (fun frame' f' => frame'.stack.length = frame.stack.length ∧
      frame'.scope.length = frame.scope.length ∧ ∃ ks, Appends b ks f f' ∧ Quiet pool ks) bad := by
  rw [spill]
  refine (meets_spillSlots pool missing).bind fun ws f' ⟨length, more⟩ => meets_pure ⟨?_, ?_, more⟩
  · simp only [Frame.slots, List.length_append] at length
    simp only [Frame.withSlots, List.length_take]
    omega
  · simp only [Frame.slots, List.length_append] at length
    simp only [Frame.withSlots, List.length_take, List.length_drop]
    omega

lemma meets_store (range : ∀ r, bad (.frame (.noRegister r))) :
    (store b register value frame).Meets f
      (fun frame' f' => frame'.stack.length = frame.stack.length ∧
        frame'.scope.length = frame.scope.length ∧ ∃ ks, Appends b ks f f' ∧ Quiet pool ks) bad := by
  rw [store]
  refine meets_getLocal (range _) fun _ => ?_
  refine (meets_spill pool missing).bind fun spilled f₁ ⟨stack, scope, ks, first, quiet⟩ => ?_
  refine meets_appendNode rfl missing fun v f₂ second => ?_
  refine meets_setLocal (range _) fun fr sameStack sameScope => ⟨?_, ?_, _, first.trans second, ?_⟩
  · rw [sameStack, stack]
  · rw [sameScope, scope]
  · exact quiet.append (quiet_store register value)

end Registers

section Cases

lemma follows_quiet {pops pushes : Nat} (effect : i.effect pool = .ok ⟨pops, pushes, 0⟩)
    (enough : pops ≤ frame.stack.length)
    (stack : frame'.stack.length = frame.stack.length - pops + pushes)
    (scope : frame'.scope.length = frame.scope.length) (appends : Appends b ks f f')
    (quiet : Quiet pool ks) : Follows pool b i frame f frame' f' := by
  refine ⟨⟨_, effect, ⟨enough, ?_⟩, Frame.level_eq_after stack (by simp [scope])⟩, ks, appends, ?_,
    fun k mem => ?_⟩
  · change 0 ≤ (frame.scope.length : Int) + 0
    omega
  · rw [scope]
    exact NodeKind.scopeWalk_of_forall fun k mem => (quiet k mem).2.2.1
  · obtain ⟨plain, normal, -, writable⟩ := quiet k mem
    exact ⟨plain, normal, fun _ => writable⟩

lemma meets_debug (effect : i.effect pool = .ok ⟨0, 0, 0⟩) (next : i.opcode.flow = .next)
    (names : i.opcode.isLiteral = false) :
    (do let _ ← appendNode b (.debug i)
        return frame).Meets f (Follows pool b i frame f) (Excused pool i frame) := by
  refine meets_appendNode rfl (excused_of_isDepth rfl) fun v f₁ first => meets_pure ?_
  refine follows_quiet effect (Nat.zero_le _) rfl rfl first fun k mem => ?_
  rw [List.mem_singleton.1 mem]
  refine ⟨rfl, nofun, fun _ => rfl, fun j here => ?_⟩
  obtain rfl := Option.some.inj here
  exact ⟨next, names, effect⟩

lemma follows_push (effect : i.effect pool = .ok ⟨0, 1, 0⟩) (v : Value) :
    Follows pool b i frame f (frame.push v) f :=
  follows_quiet effect (Nat.zero_le _) (by simp [Frame.push]) rfl (.refl f) quiet_nil

lemma exists_index (index : i.operands.layout = .index) : ∃ n, i.operands = .index n ∧ i.index? = some n := by
  rw [Instruction.index?]
  cases ops : i.operands with
  | index n => exact ⟨n, rfl, rfl⟩
  | _ =>
    rw [ops] at index
    cases index

lemma exists_byte (byte : i.operands.layout = .byte) : ∃ n, i.operands = .byte n := by
  cases ops : i.operands with
  | byte n => exact ⟨n, rfl⟩
  | _ =>
    rw [ops] at byte
    cases byte

/-- The opcodes that push a constant. -/
def pushesConstant : Opcode → Bool
  | .pushNull | .pushUndefined | .pushTrue | .pushFalse | .pushNaN | .pushByte | .pushShort | .pushInt
  | .pushUInt | .pushDouble | .pushString | .pushNamespace => true
  | _ => false

/-- A constant is refused because the pool does not hold it, or because the instruction pushes none. -/
lemma constant_eq_error {e : Fault} (h : constant pool i = .error e) :
    (∃ n, e = .lift (.missingConstant i.opcode n)) ∨ e = .lift (.notAConstant i.text) ∧
      ¬(pushesConstant i.opcode = true ∧ i.operands.layout = i.opcode.layout) := by
  have looked {k : PoolKind} {n : Nat} {c : k.Entry → Constant}
      (h : (do return c (← pooled pool i.opcode k n)) = Except.error e) : e = .lift (.missingConstant i.opcode n) := by
    rw [pooled] at h
    split at h
    · cases h
    · exact (Except.error.inj h).symm
  rw [constant] at h
  split at h
  iterate 7 cases h
  iterate 4 exact .inl ⟨_, looked h⟩
  · exact .inl ⟨_, looked (c := fun _ => .ns _) h⟩
  · refine .inr ⟨(Except.error.inj h).symm, fun ⟨pushes, shape⟩ => ?_⟩
    clear h looked
    have byte := exists_byte (i := i)
    have index := exists_index (i := i)
    rw [shape] at byte index
    unfold pushesConstant at pushes
    split at pushes
    iterate 5 contradiction
    · rename_i here
      obtain ⟨n, ops⟩ := byte (here ▸ rfl)
      simp_all
    iterate 6
      rename_i here
      obtain ⟨n, ops⟩ := index (here ▸ rfl)
      simp_all
    cases pushes

lemma isDepth_of_constant {e : Fault} (h : constant pool i = .error e) : e.isDepth = false := by
  obtain ⟨n, rfl⟩ | ⟨rfl, -⟩ := constant_eq_error h
  · rfl
  · rfl

lemma meets_constant (effect : i.effect pool = .ok ⟨0, 1, 0⟩) :
    (do return frame.push (.const (← ofExcept (constant pool i)))).Meets f
      (Follows pool b i frame f) (Excused pool i frame) := by
  refine (meets_ofExcept (P := fun _ f' => f' = f) (fun _ _ => rfl) fun e failed => ?_).bind ?_
  · exact excused_of_isDepth (isDepth_of_constant failed)
  · rintro c f' rfl
    exact meets_pure (follows_push effect _)

lemma meets_stepRegister {op : UnaryOp} (effect : i.effect pool = .ok ⟨0, 0, 0⟩) :
    (stepRegister b op i frame).Meets f (Follows pool b i frame f) (Excused pool i frame) := by
  rw [stepRegister]
  refine meets_indexOf (excused_of_isDepth rfl) fun r _ => ?_
  refine meets_getLocal (excused_of_isDepth rfl) fun v => ?_
  refine meets_appendNode rfl (excused_of_isDepth rfl) fun id f₁ first => ?_
  refine (meets_store pool (excused_of_isDepth rfl) fun _ => excused_of_isDepth rfl).imp ?_
    fun _ same => same
  rintro frame' f₂ ⟨stack, scope, ks, second, quiet⟩
  exact follows_quiet effect (Nat.zero_le _) stack scope (first.trans second)
    ((quiet_unary op v).append quiet)

lemma meets_stepHasNext2 (effect : i.effect pool = .ok ⟨0, 1, 0⟩) :
    (stepHasNext2 b i frame).Meets f (Follows pool b i frame f) (Excused pool i frame) := by
  have fine : Excused pool i frame (.graph (.noBlock b)) := excused_of_isDepth rfl
  rw [stepHasNext2]
  split
  · rename_i object index operands
    refine meets_getLocal (excused_of_isDepth rfl) fun _ => ?_
    refine meets_getLocal (excused_of_isDepth rfl) fun _ => ?_
    refine (meets_spill pool fine).bind ?_
    rintro fr₁ f₁ ⟨stack₁, scope₁, ks₁, first, quiet₁⟩
    refine (meets_spill pool fine).bind ?_
    rintro fr₂ f₂ ⟨stack₂, scope₂, ks₂, second, quiet₂⟩
    refine meets_appendNode rfl fine fun id f₃ third => ?_
    refine meets_freshVersion (b := b) fun version f₄ fourth => ?_
    refine (meets_setLocal (P := fun fr f' => fr.stack = fr₂.stack ∧ fr.scope = fr₂.scope ∧ f' = f₄)
      (excused_of_isDepth rfl) fun fr stack scope => ⟨stack, scope, rfl⟩).bind ?_
    rintro fr₃ f₅ ⟨stack₃, scope₃, rfl⟩
    refine (meets_setLocal (P := fun fr f' => fr.stack = fr₃.stack ∧ fr.scope = fr₃.scope ∧ f' = f₅)
      (excused_of_isDepth rfl) fun fr stack scope => ⟨stack, scope, rfl⟩).bind ?_
    rintro fr₄ _ ⟨stack₄, scope₄, rfl⟩
    have advance : Quiet pool [.hasNext2 object index] := by
      intro k mem
      rw [List.mem_singleton.1 mem]
      exact ⟨rfl, by rintro ⟨⟩, fun _ => rfl, NodeKind.writable_hasNext2 object index⟩
    refine meets_pure (follows_quiet effect (Nat.zero_le _) ?_ ?_
      (((first.trans second).trans third).trans fourth)
      (((quiet₁.append quiet₂).append advance).append quiet_nil))
    · simp [Frame.push, stack₄, stack₃, stack₂, stack₁]
    · simp [Frame.push, scope₄, scope₃, scope₂, scope₁]
  · exact meets_throw (excused_of_isDepth rfl)

lemma meets_stepPushScope {op : ScopeOp} (enters : op ≠ .pop)
    (effect : i.effect pool = .ok ⟨1, 0, 1⟩) :
    (stepPushScope b op i frame).Meets f (Follows pool b i frame f) (Excused pool i frame) := by
  rw [stepPushScope]
  refine meets_pop (fun empty => ?_) fun v fr stack scope => ?_
  · exact excused_underflow effect (by simp [empty])
  · dsimp only
    split
    · exact meets_throw_bind (excused_of_isDepth rfl)
    · refine meets_appendNode rfl (excused_of_isDepth rfl) fun id f₁ first => meets_pure ?_
      refine ⟨⟨_, effect, ⟨?_, ?_⟩, Frame.level_eq_after ?_ ?_⟩, _, first, ?_, fun k mem => ?_⟩
      · change 1 ≤ frame.stack.length
        omega
      · change 0 ≤ (frame.scope.length : Int) + 1
        omega
      · change fr.stack.length = frame.stack.length - 1 + 0
        omega
      · simp [scope]
      · cases op with
        | pop => exact absurd rfl enters
        | _ => simp [NodeKind.depthAfter, scope]
      · rw [List.mem_singleton.1 mem]
        exact ⟨rfl, nofun, fun _ => NodeKind.writable_scope enters v⟩

lemma meets_stepPopScope (effect : i.effect pool = .ok ⟨0, 0, -1⟩) :
    (stepPopScope b frame).Meets f (Follows pool b i frame f) (Excused pool i frame) := by
  rw [stepPopScope]
  split
  · rename_i empty
    refine meets_throw_bind fun _ e effect' affords => ?_
    obtain rfl := Except.ok.inj (effect.symm.trans effect')
    have deep : 0 ≤ (frame.scope.length : Int) + -1 := affords.2
    rw [List.isEmpty_iff.1 empty] at deep
    exact absurd deep (by decide)
  · rename_i nonempty
    have deep : 0 < frame.scope.length := by
      refine List.length_pos_iff.2 fun empty => nonempty ?_
      rw [empty]
      rfl
    refine meets_appendNode rfl (excused_of_isDepth rfl) fun id f₁ first => meets_pure ?_
    refine ⟨⟨_, effect, ⟨Nat.zero_le _, ?_⟩, Frame.level_eq_after ?_ ?_⟩, _, first, ?_, fun k mem => ?_⟩
    · change 0 ≤ (frame.scope.length : Int) + -1
      omega
    · rfl
    · simp only [List.length_dropLast]
      omega
    · simp [NodeKind.depthAfter, Nat.ne_of_gt deep]
    · rw [List.mem_singleton.1 mem]
      exact ⟨rfl, by rintro ⟨⟩, fun _ => NodeKind.writable_pop⟩

lemma meets_stepScopeObject (effect : i.effect pool = .ok ⟨0, 1, 0⟩) :
    (stepScopeObject i frame).Meets f (Follows pool b i frame f) (Excused pool i frame) := by
  rw [stepScopeObject]
  split
  · split
    · exact meets_pure (follows_push effect _)
    · exact meets_throw (excused_of_isDepth rfl)
  · exact meets_throw (excused_of_isDepth rfl)

lemma follows_operator {pops : Nat} (effect : i.effect pool = .ok ⟨pops, 1, 0⟩) {v : ValueId}
    (stack : frame'.stack.length + pops = frame.stack.length) (scope : frame'.scope = frame.scope)
    (appends : Appends b [k] f f') (writable : k.Writable pool) (plain : k.isPhi = false)
    (normal : k ≠ .caught) (still : ∀ d, k.depthAfter d = some d) :
    Follows pool b i frame f (frame'.push (.node v)) f' := by
  refine follows_quiet effect (by omega) ?_ ?_ appends fun k' mem => ?_
  · simp only [Frame.push, List.length_append, List.length_singleton]
    omega
  · rw [Frame.push, scope]
  · rw [List.mem_singleton.1 mem]
    exact ⟨plain, normal, still, writable⟩

lemma effect_of_typeOp {op : TypeOp} (found : TypeOp.ofOpcode? i.opcode = some op) :
    i.effect pool = .ok ⟨1, 1, 0⟩ := by
  have here : op.opcode = i.opcode := by simpa using List.find?_some found
  cases op <;> exact Instruction.effect_of_isFixed here.symm rfl

lemma effect_of_unaryOp {op : UnaryOp} (found : UnaryOp.ofOpcode? i.opcode = some op) :
    i.effect pool = .ok ⟨1, 1, 0⟩ := by
  have here : op.opcode = i.opcode := by simpa using List.find?_some found
  cases op <;> exact Instruction.effect_of_isFixed here.symm rfl

lemma effect_of_binaryOp {op : BinaryOp} (found : BinaryOp.ofOpcode? i.opcode = some op) :
    i.effect pool = .ok ⟨2, 1, 0⟩ := by
  have here : op.opcode = i.opcode := by simpa using List.find?_some found
  cases op <;> exact Instruction.effect_of_isFixed here.symm rfl

/-- The opcodes that have rules of their own when they are followed. -/
def isSpecial : Opcode → Bool
  | .nop | .label | .bkpt | .bkptLine | .debug | .debugLine | .debugFile | .timestamp | .pushNull
  | .pushUndefined | .pushTrue | .pushFalse | .pushNaN | .pushByte | .pushShort | .pushInt
  | .pushUInt | .pushDouble | .pushString | .pushNamespace | .pop | .dup | .swap | .getLocal
  | .getLocal0 | .getLocal1 | .getLocal2 | .getLocal3 | .setLocal | .setLocal0 | .setLocal1
  | .setLocal2 | .setLocal3 | .kill | .incLocal | .decLocal | .incLocalI | .decLocalI | .hasNext2
  | .getScopeObject | .pushScope | .pushWith | .popScope => true
  | _ => false

/-- The others push one result at most, leave the scopes alone, and name no constant. -/
lemma plain_of_not_isSpecial {o : Opcode} (h : isSpecial o = false) :
    o.info.pushes ≤ 1 ∧ o.info.scope = 0 ∧ o.isLiteral = false := by
  revert h
  cases o <;> decide

lemma layout_of_property {o : Opcode} (call : isCall o = false)
    (names : (o.takesMultiname || o == .getLex || o == .findDef) = true) : o.layout = .index := by
  revert call names
  cases o <;> decide

lemma layout_of_isCall {o : Opcode} (call : isCall o = true) : o.layout = .pair ∨ o.layout = .index := by
  revert call
  cases o <;> decide

/-- A node of an instruction that takes its operands from the stack asks of its instruction what the
effect says, if the operands have the right shape. -/
lemma meets_genericKind {e : StackEffect} {operands : List Value} (special : isSpecial i.opcode = false)
    (next : i.opcode.flow = .next) (effect : i.effect pool = .ok e) (taken : operands.length = e.pops) :
    (genericKind i operands).Meets f (fun kind f' => f' = f ∧ kind.isPhi = false ∧ kind ≠ .caught ∧
      (∀ d, kind.depthAfter d = some d) ∧ kind.producesValue = decide (0 < i.opcode.info.pushes) ∧
      (i.operands.layout = i.opcode.layout → kind.Writable pool)) (Excused pool i frame) := by
  obtain ⟨few, scope, names⟩ := plain_of_not_isSpecial special
  obtain ⟨pushes, change⟩ := Instruction.pushes_of_effect effect
  -- Whatever node is made, it is written as the instruction that it comes from.
  have writable {kind : NodeKind} (same : kind.instruction? = some i) (ops : kind.operands = operands)
      (result : kind.producesValue = decide (0 < i.opcode.info.pushes))
      (still : Edit.scopeChange kind = 0) : kind.Writable pool := by
    intro j here
    obtain rfl := Option.some.inj (same.symm.trans here)
    refine ⟨next, names, ?_⟩
    rw [effect, NodeKind.demand, ops, taken, result, still, ← scope, ← change]
    congr 1
    obtain ⟨pops, pushes', scope'⟩ := e
    simp only [StackEffect.mk.injEq, true_and, and_true]
    dsimp only at pushes
    rw [pushes]
    interval_cases i.opcode.info.pushes <;> rfl
  rw [genericKind]
  split
  · rename_i call
    split
    · rename_i index count ops
      refine meets_pure ⟨rfl, rfl, by rintro ⟨⟩, fun _ => rfl, rfl, fun shape => writable ?_ rfl rfl rfl⟩
      rw [ops] at shape
      have pair : i.opcode.layout = .pair := shape.symm
      rw [NodeKind.instruction?, if_pos pair, Instruction.withPair, ← ops]
    · rename_i count ops
      refine meets_pure ⟨rfl, rfl, by rintro ⟨⟩, fun _ => rfl, rfl, fun shape => writable ?_ rfl rfl rfl⟩
      rw [ops] at shape
      have other : i.opcode.layout ≠ .pair := by
        rw [← shape]
        rintro ⟨⟩
      rw [NodeKind.instruction?, if_neg other, Instruction.withIndex, ← ops]
    · exact meets_throw (excused_of_isDepth rfl)
  · rename_i call
    split
    · rename_i named
      refine meets_indexOf (excused_of_isDepth rfl) fun n found => ?_
      refine meets_pure ⟨rfl, rfl, by rintro ⟨⟩, fun _ => rfl, rfl, fun shape => writable ?_ rfl rfl rfl⟩
      rw [layout_of_property (Bool.eq_false_iff.2 call) named] at shape
      rw [Instruction.index?] at found
      split at found
      · rename_i m ops
        obtain rfl := Option.some.inj found
        rw [NodeKind.instruction?, Instruction.withIndex, ← ops]
      · rename_i m m' ops
        rw [ops] at shape
        cases shape
      · cases found
    · exact meets_pure ⟨rfl, rfl, by rintro ⟨⟩, fun _ => rfl, rfl, fun _ => writable rfl rfl rfl rfl⟩

lemma meets_generic (special : isSpecial i.opcode = false) :
    (generic pool b i frame).Meets f (Follows pool b i frame f) (Excused pool i frame) := by
  rw [generic]
  split
  · exact meets_throw_bind (excused_of_isDepth rfl)
  · rename_i next
    rw [not_ne_iff] at next
    refine (meets_ofExcept (P := fun e f' => i.effect pool = .ok e ∧ f' = f) (fun e effect => ⟨effect, rfl⟩)
      fun fault failed => ?_).bind ?_
    · intro _ e effect
      rw [failed] at effect
      cases effect
    · rintro e f' ⟨effect, rfl⟩
      obtain ⟨few, scope, -⟩ := plain_of_not_isSpecial special
      obtain ⟨pushes, change⟩ := Instruction.pushes_of_effect effect
      refine meets_popN (fun short => excused_underflow effect short)
        fun operands fr taken stack same enough => ?_
      refine (meets_genericKind special next effect taken).bind ?_
      rintro kind f₁ ⟨rfl, plain, normal, still, result, writable⟩
      refine meets_appendNode plain (excused_of_isDepth rfl) fun id f₂ first => meets_pure ?_
      refine ⟨⟨e, effect, ⟨enough, ?_⟩, Frame.level_eq_after ?_ ?_⟩, _, first, ?_, fun k mem => ?_⟩
      · rw [change, scope]
        omega
      · rw [pushes, result]
        interval_cases i.opcode.info.pushes
        · exact stack
        · simp only [Frame.push, Nat.one_pos, decide_true, if_true, List.length_append,
            List.length_singleton, stack]
      · rw [change, scope]
        split
        · simp [Frame.push, same]
        · simp [same]
      · rw [NodeKind.scopeWalk_cons, still]
        split
        · simp [Frame.push, same]
        · simp [same]
      · rw [List.mem_singleton.1 mem]
        exact ⟨plain, normal, writable⟩

lemma meets_stepOperator (special : isSpecial i.opcode = false) :
    (stepOperator pool b i frame).Meets f (Follows pool b i frame f) (Excused pool i frame) := by
  rw [stepOperator]
  cases typed : TypeOp.ofOpcode? i.opcode with
  | some op =>
    have effect : i.effect pool = .ok ⟨1, 1, 0⟩ := effect_of_typeOp typed
    refine meets_indexOf (excused_of_isDepth rfl) fun name _ => ?_
    refine meets_pop (fun empty => excused_underflow effect (by simp [empty])) fun v fr stack scope => ?_
    refine meets_appendNode rfl (excused_of_isDepth rfl) fun id f₁ first => meets_pure ?_
    exact follows_operator effect stack scope first (NodeKind.writable_type op name v) rfl (by rintro ⟨⟩)
      fun _ => rfl
  | none =>
    cases unary : UnaryOp.ofOpcode? i.opcode with
    | some op =>
      have effect : i.effect pool = .ok ⟨1, 1, 0⟩ := effect_of_unaryOp unary
      refine meets_pop (fun empty => excused_underflow effect (by simp [empty])) fun v fr stack scope => ?_
      refine meets_appendNode rfl (excused_of_isDepth rfl) fun id f₁ first => meets_pure ?_
      exact follows_operator effect stack scope first (NodeKind.writable_unary op v) rfl (by rintro ⟨⟩)
        fun _ => rfl
    | none =>
      cases binary : BinaryOp.ofOpcode? i.opcode with
      | some op =>
        have effect : i.effect pool = .ok ⟨2, 1, 0⟩ := effect_of_binaryOp binary
        refine meets_pop (fun empty => excused_underflow effect (by simp [empty]))
          fun v fr stack scope => ?_
        refine meets_pop (fun empty => excused_underflow effect (by dsimp only; omega))
          fun w fr' stack' scope' => ?_
        refine meets_appendNode rfl (excused_of_isDepth rfl) fun id f₁ first => meets_pure ?_
        refine follows_operator effect ?_ (scope'.trans scope) first (NodeKind.writable_binary op w v)
          rfl (by rintro ⟨⟩) fun _ => rfl
        omega
      | none => exact meets_generic special

lemma meets_drop (effect : i.effect pool = .ok ⟨1, 0, 0⟩) :
    (do
      let (_, frame) ← Edit.ofExcept frame.pop
      return frame).Meets f (Follows pool b i frame f) (Excused pool i frame) := by
  refine meets_pop (fun none => excused_underflow effect (by simp [none])) fun v fr stack scope => ?_
  exact meets_pure (follows_quiet effect (by omega) (by omega) (by rw [scope]) (.refl f) quiet_nil)

lemma meets_dup (effect : i.effect pool = .ok ⟨1, 2, 0⟩) :
    (do return frame.push (← Edit.ofExcept frame.peek)).Meets f (Follows pool b i frame f)
      (Excused pool i frame) := by
  refine meets_peek (fun none => excused_underflow effect (by simp [none])) fun v some => ?_
  refine meets_pure (follows_quiet effect some ?_ rfl (.refl f) quiet_nil)
  change (frame.stack ++ [v]).length = frame.stack.length - 1 + 2
  rw [List.length_append, List.length_singleton]
  omega

lemma meets_swap (effect : i.effect pool = .ok ⟨2, 2, 0⟩) :
    (do
      let (top, frame) ← Edit.ofExcept frame.pop
      let (below, frame) ← Edit.ofExcept frame.pop
      return (frame.push top).push below).Meets f (Follows pool b i frame f) (Excused pool i frame) := by
  refine meets_pop (fun none => excused_underflow effect (by simp [none])) fun v fr stack scope => ?_
  refine meets_pop (fun none => excused_underflow effect ?_) fun w fr' stack' scope' => ?_
  · change frame.stack.length < 2
    omega
  · refine meets_pure (follows_quiet effect (by omega) ?_ ?_ (.refl f) quiet_nil)
    · change (fr'.stack ++ [v] ++ [w]).length = frame.stack.length - 2 + 2
      simp only [List.length_append, List.length_singleton]
      omega
    · change fr'.scope.length = frame.scope.length
      rw [scope', scope]

lemma meets_load {r : Nat} (effect : i.effect pool = .ok ⟨0, 1, 0⟩) :
    (do return frame.push (← Edit.ofExcept (frame.getLocal r))).Meets f (Follows pool b i frame f)
      (Excused pool i frame) :=
  meets_getLocal (excused_of_isDepth rfl) fun v => meets_pure (follows_push effect v)

lemma meets_unload {r : Nat} (effect : i.effect pool = .ok ⟨1, 0, 0⟩) :
    (do
      let (value, frame) ← Edit.ofExcept frame.pop
      store b r value frame).Meets f (Follows pool b i frame f) (Excused pool i frame) := by
  refine meets_pop (fun none => excused_underflow effect (by simp [none])) fun v fr stack scope => ?_
  refine (meets_store pool (excused_of_isDepth rfl) fun _ => excused_of_isDepth rfl).imp ?_
    fun _ same => same
  rintro frame' f₁ ⟨stack', scope', ks, first, quiet⟩
  exact follows_quiet effect (by omega) (by omega) (by rw [scope', scope]) first quiet

lemma meets_kill (effect : i.effect pool = .ok ⟨0, 0, 0⟩) :
    (do store b (← indexOf i) (.const .undefined) frame).Meets f (Follows pool b i frame f)
      (Excused pool i frame) := by
  refine meets_indexOf (excused_of_isDepth rfl) fun r _ => ?_
  refine (meets_store pool (excused_of_isDepth rfl) fun _ => excused_of_isDepth rfl).imp ?_
    fun _ same => same
  rintro frame' f₁ ⟨stack, scope, ks, first, quiet⟩
  exact follows_quiet effect (Nat.zero_le _) stack scope first quiet

/-- Following an instruction that hands control to the next one does what its effect says, and complains
about a depth only if a stack is not deep enough for that. -/
lemma meets_step : (step pool b i frame).Meets f (Follows pool b i frame f) (Excused pool i frame) := by
  have fixed {o : Opcode} (here : i.opcode = o) (fixed : o.isFixed = true) :
      i.effect pool = .ok ⟨o.info.pops, o.info.pushes, o.info.scope⟩ :=
    Instruction.effect_of_isFixed here fixed
  rw [step]
  split
  -- Instructions without effect, those for debuggers, and constants.
  iterate 2
    rename_i here
    exact meets_pure (follows_quiet (fixed here rfl) (Nat.zero_le _) rfl rfl (.refl f) quiet_nil)
  iterate 6
    rename_i here
    exact meets_debug (fixed here rfl) (by rw [here]; rfl) (by rw [here]; rfl)
  iterate 12
    rename_i here
    exact meets_constant (fixed here rfl)
  -- The operand stack.
  · rename_i here
    exact meets_drop (fixed here rfl)
  · rename_i here
    exact meets_dup (fixed here rfl)
  · rename_i here
    exact meets_swap (fixed here rfl)
  -- Registers.
  iterate 5
    rename_i here
    split
    · exact meets_load (fixed here rfl)
    · exact meets_throw (excused_of_isDepth rfl)
  iterate 5
    rename_i here
    split
    · exact meets_unload (fixed here rfl)
    · exact meets_throw (excused_of_isDepth rfl)
  · rename_i here
    exact meets_kill (fixed here rfl)
  iterate 4
    rename_i here
    exact meets_stepRegister (fixed here rfl)
  · rename_i here
    exact meets_stepHasNext2 (fixed here rfl)
  -- The scope stack.
  · rename_i here
    exact meets_stepScopeObject (fixed here rfl)
  iterate 2
    rename_i here
    exact meets_stepPushScope (by rintro ⟨⟩) (fixed here rfl)
  · rename_i here
    exact meets_stepPopScope (fixed here rfl)
  · refine meets_stepOperator ?_
    rw [isSpecial] <;> assumption

end Cases

end Lift

end Ir

end Avm
