import Avm.Proofs.Lift.Pinning
import Avm.Proofs.Run.Scene

/-!
# Frames and the machine

A frame says what the stacks and registers of the machine hold: a constant is worth itself, a register what it holds
now, and a node its result in an environment.  Nodes that are added to a block and are evaluated there move the machine
and the environment on.  Where a register is set, the frame stays true since the slots that read the register were
pinned before.

The main statements are `mirrors_spill` and `mirrors_store`.
-/

namespace Avm.Ir.Lift

open Edit

variable {V : Type} {I : Interp V} {o : Operands Nat} {f f' f'' : Func} {b : BlockId} {k : NodeKind}
  {ks ls : List NodeKind} {frame frame' : Frame} {m m' m'' : Machine V} {env env' env'' : ValueId → Option V}
  {x y : Value} {a c : V} {r register : Nat}

/-- Nodes are added behind the others of a block in the given order, and nothing else happens to blocks and nodes. -/
structure Adds (b : BlockId) (ks : List NodeKind) (f f' : Func) : Prop where
  nodes : f'.nodes = f.nodes ++ (ks.map fun k => some ⟨k, b⟩).toArray
  here : f'.block? b = (f.block? b).map fun x => { x with body := x.body ++ List.range' f.nodes.size ks.length }
  other : ∀ t, t ≠ b → f'.block? t = f.block? t
  handlers : f'.handlers = f.handlers
  locals : f'.locals = f.locals

namespace Adds

lemma refl (f : Func) : Adds b [] f f := by
  refine ⟨by simp, ?_, fun t _ => rfl, rfl, rfl⟩
  cases f.block? b with
  | none => rfl
  | some x => simp

lemma size (h : Adds b ks f f') : f'.nodes.size = f.nodes.size + ks.length := by simp [h.nodes]

lemma trans (h : Adds b ks f f') (h' : Adds b ls f' f'') : Adds b (ks ++ ls) f f'' := by
  refine ⟨?_, ?_, fun t ne => ?_, h'.handlers.trans h.handlers, h'.locals.trans h.locals⟩
  · simp [h'.nodes, h.nodes]
  · rw [h'.here, h.here, Option.map_map, h.size]
    congr 1
    funext x
    simp [List.range'_append_1]
  · rw [h'.other t ne, h.other t ne]

lemma putNode (plain : k.isPhi = false) (live : (f.block? b).isSome) : Adds b [k] f (f.putNode b (f.place b k) k) := by
  refine ⟨by simp [Func.putNode], block?_putNode_place plain live, fun t ne => ?_, rfl, rfl⟩
  · rw [Func.putNode, Func.block?_modifyBlock, if_neg (Ne.symm ne)]
    rfl

end Adds

/-- What a frame says of the machine is true: its slots are worth what the stacks and registers hold.  Only nodes that
there are have results. -/
structure Denotes (I : Interp V) (frame : Frame) (f : Func) (m : Machine V) (env : ValueId → Option V) : Prop where
  stack : frame.stack.map ((m.scene env).value? I) = m.stack.reverse.map some
  scope : frame.scope.map ((m.scene env).value? I) = m.scope.map some
  locals : ∀ r x, frame.locals[r]? = some x → (m.scene env).value? I x = some (m.registers r)
  known : ∀ v, (env v).isSome → v < f.nodes.size

/-- The nodes that were added to a block lead from one state of the machine to another. -/
def Mirrors (I : Interp V) (o : Operands Nat) (b : BlockId) (f : Func) (m : Machine V) (env : ValueId → Option V)
    (f' : Func) (m' : Machine V) (env' : ValueId → Option V) : Prop :=
  ∃ ks, Adds b ks f f' ∧
    Scene.evaluate I o f.nodes.size ks (m.scene env) = some (.goes (m'.scene env'))

namespace Mirrors

lemma refl : Mirrors I o b f m env f m env := ⟨[], .refl f, rfl⟩

lemma trans (h : Mirrors I o b f m env f' m' env') (h' : Mirrors I o b f' m' env' f'' m'' env'') :
    Mirrors I o b f m env f'' m'' env'' := by
  obtain ⟨ks, adds, done⟩ := h
  obtain ⟨ls, adds', done'⟩ := h'
  rw [adds.size] at done'
  exact ⟨ks ++ ls, adds.trans adds', (Scene.evaluate_append done).trans done'⟩

lemma single (adds : Adds b [k] f f')
    (done : (m.scene env).does I o f.nodes.size k = some (.goes (m'.scene env'))) :
    Mirrors I o b f m env f' m' env' := by
  refine ⟨[k], adds, ?_⟩
  rw [Scene.evaluate, done]
  rfl

lemma kept (h : Mirrors I o b f m env f' m' env') {v : ValueId} (old : v < f.nodes.size) : env' v = env v := by
  obtain ⟨ks, -, done⟩ := h
  exact Scene.values_evaluate (.inl old) done

lemma known (h : Mirrors I o b f m env f' m' env') (known : ∀ v, (env v).isSome → v < f.nodes.size) :
    ∀ v, (env' v).isSome → v < f'.nodes.size := by
  intro v has
  obtain ⟨ks, adds, done⟩ := h
  by_contra beyond
  rw [adds.size, Nat.not_lt] at beyond
  have same : env' v = env v := Scene.values_evaluate (.inr beyond) done
  exact absurd (Nat.lt_of_lt_of_le (known v (same ▸ has)) (Nat.le_add_right _ ks.length)) (Nat.not_lt.2 beyond)

end Mirrors

/-- An operand keeps its worth where the results of nodes and the register that it may read are kept. -/
lemma value?_of_kept (worth : (m.scene env).value? I x = some a)
    (reads : ∀ r version, x = .reg r version → m'.registers r = m.registers r)
    (kept : ∀ v, (env v).isSome → env' v = env v) : (m'.scene env').value? I x = some a := by
  cases x with
  | const c => exact worth
  | reg r version =>
    show some (m'.registers r) = some a
    rw [reads r version rfl]
    exact worth
  | node v =>
    have has : env v = some a := worth
    exact (kept v (by rw [has]; rfl)).trans has

lemma value?_eq_of_kept (has : ((m.scene env).value? I x).isSome)
    (kept : ∀ v, (env v).isSome → env' v = env v) : (m.scene env').value? I x = (m.scene env).value? I x := by
  obtain ⟨a, here⟩ := Option.isSome_iff_exists.1 has
  rw [here]
  exact value?_of_kept here (fun _ _ _ => rfl) kept

lemma map_value?_of_forall {xs : List Value} {args : List V} (worth : xs.map ((m.scene env).value? I) = args.map some)
    (each : ∀ x ∈ xs, ∀ a, (m.scene env).value? I x = some a → (m'.scene env').value? I x = some a) :
    xs.map ((m'.scene env').value? I) = args.map some := by
  rw [← worth]
  refine List.map_congr_left fun x mem => ?_
  have listed : (m.scene env).value? I x ∈ args.map some := by
    rw [← worth]
    exact List.mem_map_of_mem mem
  obtain ⟨a, -, here⟩ := List.mem_map.1 listed
  rw [← here]
  exact each x mem a here.symm

namespace Denotes

/-- What a frame says of stacks and registers stays true while they do and the results of nodes are kept. -/
lemma mono (h : Denotes I frame f m env) (kept : ∀ v, (env v).isSome → env' v = env v)
    (known : ∀ v, (env' v).isSome → v < f'.nodes.size) (stack : m'.stack = m.stack) (scope : m'.scope = m.scope)
    (registers : m'.registers = m.registers) : Denotes I frame f' m' env' := by
  have each (x : Value) (a : V) (worth : (m.scene env).value? I x = some a) : (m'.scene env').value? I x = some a :=
    value?_of_kept worth (fun r _ _ => by rw [registers]) kept
  refine ⟨?_, ?_, fun r x found => ?_, known⟩
  · rw [stack]
    exact map_value?_of_forall h.stack fun x _ => each x
  · rw [scope]
    exact map_value?_of_forall h.scope fun x _ => each x
  · rw [registers]
    exact each x _ (h.locals r x found)

lemma of_mirrors (h : Denotes I frame f m env) (mirrors : Mirrors I o b f m env f' m' env')
    (stack : m'.stack = m.stack) (scope : m'.scope = m.scope) (registers : m'.registers = m.registers) :
    Denotes I frame f' m' env' :=
  h.mono (fun v has => mirrors.kept (h.known v has)) (mirrors.known h.known) stack scope registers

lemma push (h : Denotes I frame f m env) (worth : (m.scene env).value? I x = some a) :
    Denotes I (frame.push x) f (m.push a) env := by
  refine ⟨?_, h.scope, h.locals, h.known⟩
  simp only [Frame.push, Machine.push, List.map_append, List.map_cons, List.map_nil, List.reverse_cons]
  exact congrArg₂ (· ++ ·) h.stack (congrArg (fun a => [a]) worth)

lemma define (h : Denotes I frame f m env) (adds : Adds b [k] f f') :
    Denotes I (frame.push (.node f.nodes.size)) f' (m.push a) (Function.update env f.nodes.size (some a)) := by
  have size : f'.nodes.size = f.nodes.size + 1 := adds.size
  refine (h.mono (fun v has => ?_) (fun v has => ?_) rfl rfl rfl).push (Function.update_self ..)
  · exact Function.update_of_ne (Nat.ne_of_lt (h.known v has)) _ _
  · rw [size, Nat.lt_succ_iff]
    by_cases new : v = f.nodes.size
    · exact Nat.le_of_eq new
    · rw [Function.update_of_ne new] at has
      exact Nat.le_of_lt (h.known v has)

lemma exists_top (h : Denotes I frame f m env) (last : frame.stack.getLast? = some x) :
    ∃ a rest, m.stack = a :: rest ∧ (m.scene env).value? I x = some a ∧
      Denotes I { frame with stack := frame.stack.dropLast } f { m with stack := rest } env := by
  obtain ⟨below, split⟩ := List.getLast?_eq_some_iff.1 last
  have stack := h.stack
  rw [split, List.map_append] at stack
  cases top : m.stack with
  | nil => simp [top] at stack
  | cons a rest =>
    rw [top, List.reverse_cons, List.map_append] at stack
    obtain ⟨under, here⟩ := List.append_inj' stack rfl
    refine ⟨a, rest, rfl, (List.cons.inj here).1, ⟨?_, h.scope, h.locals, h.known⟩⟩
    rw [split, List.dropLast_concat]
    exact under

lemma exists_popN (h : Denotes I frame f m env) {n : Nat} {xs : List Value} {rest : Frame}
    (popped : frame.popN n = .ok (xs, rest)) :
    ∃ args left, m.popN? n = some (args, { m with stack := left }) ∧
      xs.map ((m.scene env).value? I) = args.map some ∧ Denotes I rest f { m with stack := left } env := by
  have length : frame.stack.length = m.stack.length := by simpa using congrArg List.length h.stack
  rw [Frame.popN] at popped
  split at popped
  · cases popped
  · rename_i enough
    obtain ⟨rfl, rfl⟩ := Prod.mk.inj (Except.ok.inj popped)
    refine ⟨_, m.stack.drop n, by rw [Machine.popN?, if_neg (length ▸ enough)], ?_, ⟨?_, h.scope, h.locals, h.known⟩⟩
    · rw [List.map_drop, h.stack, ← List.map_drop, List.drop_reverse, length]
      congr 3
      omega
    · show (frame.stack.take _).map ((m.scene env).value? I) = _
      rw [List.map_take, h.stack, ← List.map_take, List.take_reverse, length]
      congr 3
      omega

end Denotes

/-- No slot reads the register other than its own. -/
structure Pinned (register : Nat) (frame : Frame) : Prop where
  stack : ∀ version, .reg register version ∉ frame.stack
  scope : ∀ version, .reg register version ∉ frame.scope
  locals : ∀ r version, frame.locals[r]? = some (.reg register version) → r = register

namespace Pinned

lemma of_slots (h : ∀ j version, frame.slots[j]? = some (.reg register version) → j = ownSlot frame register) :
    Pinned register frame := by
  have away {xs : List Value} {n version : Nat} (place : ∀ j : Nat, j < xs.length → frame.slots[n + j]? = xs[j]?)
      (early : n + xs.length ≤ frame.stack.length + frame.scope.length) : .reg register version ∉ xs := by
    intro mem
    obtain ⟨j, inside, here⟩ := List.getElem_of_mem mem
    have := h (n + j) version (by rw [place j inside, List.getElem?_eq_getElem inside, here])
    rw [ownSlot] at this
    omega
  refine ⟨fun version => away (n := 0) (fun j inside => ?_) (by omega),
    fun version => away (n := frame.stack.length) (fun j inside => ?_) (by omega), fun r version found => ?_⟩
  · rw [Frame.slots, List.append_assoc, Nat.zero_add, List.getElem?_append_left inside]
  · rw [Frame.slots, List.append_assoc, List.getElem?_append_right (Nat.le_add_right _ _), Nat.add_sub_cancel_left,
      List.getElem?_append_left inside]
  · have place : frame.slots[ownSlot frame r]? = frame.locals[r]? := by
      rw [Frame.slots, ownSlot, ← List.length_append, List.getElem?_append_right (Nat.le_add_right _ _),
        Nat.add_sub_cancel_left]
    have := h (ownSlot frame r) version (place.trans found)
    rw [ownSlot, ownSlot] at this
    omega

lemma own (h : Pinned register frame) {j version : Nat} (found : frame.slots[j]? = some (.reg register version)) :
    j = ownSlot frame register := by
  rw [Frame.slots, List.getElem?_append] at found
  split at found
  · rcases List.mem_append.1 (List.mem_of_getElem? found) with mem | mem
    · exact absurd mem (h.stack version)
    · exact absurd mem (h.scope version)
  · have same := h.locals _ version found
    rw [List.length_append] at *
    rw [ownSlot]
    omega

lemma set (h : Pinned register frame) {version : Nat} :
    Pinned register { frame with locals := frame.locals.set r (.reg r version) } := by
  refine ⟨h.stack, h.scope, fun q version' found => ?_⟩
  rw [List.getElem?_set] at found
  split at found
  · rename_i same
    split at found
    · cases found
      exact same.symm
    · cases found
  · exact h.locals q version' found

end Pinned

lemma Denotes.assign (h : Denotes I frame f m env) (pinned : Pinned register frame)
    (new : ((m.set register a).scene env).value? I y = some a) :
    Denotes I { frame with locals := frame.locals.set register y } f (m.set register a) env := by
  have each {x : Value} {c : V} (free : ∀ version, x ≠ .reg register version)
      (worth : (m.scene env).value? I x = some c) : ((m.set register a).scene env).value? I x = some c := by
    refine value?_of_kept worth (fun r version same => ?_) fun _ _ => rfl
    refine Function.update_of_ne ?_ _ _
    rintro rfl
    exact free version same
  refine ⟨?_, ?_, fun r x found => ?_, h.known⟩
  · refine map_value?_of_forall h.stack fun x mem c worth => each ?_ worth
    rintro version rfl
    exact pinned.stack version mem
  · refine map_value?_of_forall h.scope fun x mem c worth => each ?_ worth
    rintro version rfl
    exact pinned.scope version mem
  · rw [List.getElem?_set] at found
    show _ = some (Function.update m.registers register a r)
    split at found
    · rename_i same
      split at found
      · obtain rfl := Option.some.inj found
        rw [← same, Function.update_self]
        exact new
      · cases found
    · rename_i other
      rw [Function.update_of_ne (Ne.symm other)]
      refine each ?_ (h.locals r x found)
      rintro version rfl
      exact other (pinned.locals r version found).symm

section Rules

variable {α β : Type} {g : α → Edit β} {Q : β → Func → Prop}

lemma adds_appendNode {g : ValueId → Edit β} (plain : k.isPhi = false)
    (next : ∀ f', Adds b [k] f f' → (g f.nodes.size).Meets f' Q fun _ => True) :
    (appendNode b k >>= g).Meets f Q fun _ => True := by
  refine Meets.bind (P := fun v f' => v = f.nodes.size ∧ Adds b [k] f f') ?_ ?_
  · refine meets_of_forall (fun v f' run => ?_) fun _ _ _ => trivial
    obtain ⟨live, rfl, rfl⟩ := appendNode_eq_ok.1 run
    exact ⟨rfl, .putNode plain live⟩
  · rintro _ f' ⟨rfl, adds⟩
    exact next f' adds

lemma adds_freshVersion {g : Nat → Edit β}
    (next : ∀ version f', Adds b [] f f' → (g version).Meets f' Q fun _ => True) :
    (freshVersion >>= g).Meets f Q fun _ => True := by
  refine Meets.bind (P := fun _ f' => Adds b [] f f') (meets_get (meets_set (meets_pure ?_))) next
  obtain ⟨nodes, here, other, -⟩ := Adds.refl (b := b) f
  exact ⟨nodes, here, other, rfl, rfl⟩

lemma mirrors_appendNode {g : ValueId → Edit β} (plain : k.isPhi = false)
    (done : (m.scene env).does I o f.nodes.size k = some (.goes (m'.scene env')))
    (next : ∀ f', Mirrors I o b f m env f' m' env' → (g f.nodes.size).Meets f' Q fun _ => True) :
    (appendNode b k >>= g).Meets f Q fun _ => True :=
  adds_appendNode plain fun f' adds => next f' (.single adds done)

lemma denotes_pop {g : Value × Frame → Edit β} (h : Denotes I frame f m env)
    (next : ∀ x fr a rest, m.stack = a :: rest → (m.scene env).value? I x = some a →
      Denotes I fr f { m with stack := rest } env → (g (x, fr)).Meets f Q fun _ => True) :
    (ofExcept frame.pop >>= g).Meets f Q fun _ => True := by
  rw [Frame.pop]
  split
  · rename_i x last
    obtain ⟨a, rest, stack, worth, below⟩ := h.exists_top last
    exact next x _ a rest stack worth below
  · exact meets_throw_bind trivial

lemma denotes_getLocal {g : Value → Edit β} (h : Denotes I frame f m env)
    (next : ∀ x, (m.scene env).value? I x = some (m.registers r) → (g x).Meets f Q fun _ => True) :
    (ofExcept (frame.getLocal r) >>= g).Meets f Q fun _ => True := by
  rw [Frame.getLocal]
  split
  · rename_i x found
    exact next x (h.locals r x found)
  · exact meets_throw_bind trivial

lemma denotes_setLocal {P : Frame → Func → Prop} (next : P { frame with locals := frame.locals.set r x } f) :
    (ofExcept (frame.setLocal r x)).Meets f P fun _ => True := by
  rw [Frame.setLocal]
  split
  · exact meets_pure next
  · exact meets_throw trivial

end Rules

section Spilling

variable {own j : Nat} {pinned : List (Value × ValueId)} {xs ys : List Value} {v : ValueId}

/-- Slots that were pinned are worth what they were.  What still reads a register did so before, and reads the one
that is to be set only in its own slot. -/
structure Stowed (I : Interp V) (m : Machine V) (register own j : Nat) (env : ValueId → Option V) (xs : List Value)
    (env' : ValueId → Option V) (ys : List Value) : Prop where
  worth : ys.map ((m.scene env').value? I) = xs.map ((m.scene env).value? I)
  reads : ∀ (n : Nat) r version, ys[n]? = some (.reg r version) →
    xs[n]? = some (.reg r version) ∧ (r = register → j + n = own)

lemma Stowed.nil : Stowed I m register own j env [] env [] := ⟨rfl, by rintro _ _ _ ⟨⟩⟩

lemma Stowed.cons (h : Stowed I m register own (j + 1) env xs env' ys)
    (worth : (m.scene env').value? I y = (m.scene env).value? I x)
    (read : ∀ r version, y = .reg r version → x = .reg r version ∧ (r = register → j = own)) :
    Stowed I m register own j env (x :: xs) env' (y :: ys) := by
  refine ⟨by rw [List.map_cons, List.map_cons, worth, h.worth], fun n r version found => ?_⟩
  cases n with
  | zero =>
    obtain ⟨same, place⟩ := read r version (Option.some.inj found)
    exact ⟨congrArg some same, place⟩
  | succ n =>
    obtain ⟨old, place⟩ := h.reads n r version found
    exact ⟨old, fun same => by rw [← place same]; omega⟩

lemma Stowed.copied (h : Stowed I m register own (j + 1) env xs env' ys)
    (worth : env' v = (m.scene env).value? I x) : Stowed I m register own j env (x :: xs) env' (.node v :: ys) :=
  h.cons worth (by rintro _ _ ⟨⟩)

/-- The copies of slots are worth what the slots are. -/
def Pins (I : Interp V) (m : Machine V) (env : ValueId → Option V) (pinned : List (Value × ValueId)) : Prop :=
  ∀ e ∈ pinned, (env e.2).isSome ∧ env e.2 = (m.scene env).value? I e.1

lemma Pins.snoc (h : Pins I m env pinned) (new : env v = none) (here : (m.scene env).value? I x = some a) :
    Pins I m (Function.update env v (some a)) (pinned ++ [(x, v)]) := by
  have kept {w : ValueId} (has : (env w).isSome) : Function.update env v (some a) w = env w := by
    refine Function.update_of_ne ?_ _ _
    rintro rfl
    rw [new] at has
    cases has
  intro e mem
  obtain old | last := List.mem_append.1 mem
  · obtain ⟨has, value⟩ := h e old
    rw [kept has]
    exact ⟨has, value.trans (value?_eq_of_kept (value ▸ has) fun _ => kept).symm⟩
  · rw [List.mem_singleton.1 last]
    refine ⟨by simp, ?_⟩
    rw [value?_eq_of_kept (by rw [here]; rfl) fun _ => kept, here, Function.update_self]

lemma mirrors_spillSlots (known : ∀ v, (env v).isSome → v < f.nodes.size)
    (worth : ∀ x ∈ xs, ((m.scene env).value? I x).isSome) (pins : Pins I m env pinned) :
    (spillSlots b register own j pinned xs).Meets f (fun ys f' => ∃ env', Mirrors I o b f m env f' m env' ∧
      Stowed I m register own j env xs env' ys) fun _ => True := by
  induction xs generalizing f env j pinned with
  | nil => exact meets_pure ⟨env, .refl, .nil⟩
  | cons x xs ih =>
    obtain ⟨a, here⟩ := Option.isSome_iff_exists.1 (worth x List.mem_cons_self)
    have rest : ∀ y ∈ xs, ((m.scene env).value? I y).isSome := fun y mem => worth y (List.mem_cons_of_mem x mem)
    rw [spillSlots]
    refine meets_get ?_
    split
    · rename_i stays
      refine (ih known rest pins).bind ?_
      rintro ys f' ⟨env', mirrors, stowed⟩
      refine meets_pure ⟨env', mirrors, stowed.cons ?_ ?_⟩
      · exact value?_eq_of_kept (by rw [here]; rfl) fun v has => mirrors.kept (known v has)
      · rintro r version rfl
        refine ⟨rfl, ?_⟩
        rintro rfl
        exact stays.resolve_right (by rw [Func.readsRegister_iff.2 .reg]; rintro ⟨⟩)
    · split
      · rename_i copy found
        obtain ⟨has, value⟩ := pins _ (mem_of_lookup found)
        refine (ih known rest pins).bind ?_
        rintro ys f' ⟨env', mirrors, stowed⟩
        exact meets_pure ⟨env', mirrors, stowed.copied ((mirrors.kept (known copy has)).trans value)⟩
      · have done : (m.scene env).does I o f.nodes.size (.copy x) =
            some (.goes (m.scene (Function.update env f.nodes.size (some a)))) := by
          rw [Scene.does, here]
          rfl
        refine mirrors_appendNode rfl done fun f₁ first => ?_
        have worths {y : Value} (has : ((m.scene env).value? I y).isSome) :
            (m.scene (Function.update env f.nodes.size (some a))).value? I y = (m.scene env).value? I y :=
          value?_eq_of_kept has fun v has => first.kept (known v has)
        have new : env f.nodes.size = none := by
          rw [← Option.not_isSome_iff_eq_none]
          exact fun has => (known _ has).false
        refine (ih (first.known known) (fun y mem => ?_) (pins.snoc new here)).bind ?_
        · rw [worths (rest y mem)]
          exact rest y mem
        · rintro ys f' ⟨env', mirrors, stowed⟩
          have same : xs.map ((m.scene (Function.update env f.nodes.size (some a))).value? I) =
              xs.map ((m.scene env).value? I) := List.map_congr_left fun y mem => worths (rest y mem)
          have old : Stowed I m register own (j + 1) env xs env' ys := ⟨stowed.worth.trans same, stowed.reads⟩
          refine meets_pure ⟨env', first.trans mirrors, old.copied ?_⟩
          rw [mirrors.kept (first.known known _ (by simp)), Function.update_self, here]

/-- Pinning the slots of a frame leaves it true, and then no slot reads the register other than its own. -/
lemma mirrors_spill (h : Denotes I frame f m env) : (spill b register frame).Meets f (fun frame' f' =>
    ∃ env', Mirrors I o b f m env f' m env' ∧ Denotes I frame' f' m env' ∧ Pinned register frame' ∧
      ∀ r, Pinned r frame → Pinned r frame') fun _ => True := by
  have listed {xs : List Value} {args : List V} (same : xs.map ((m.scene env).value? I) = args.map some) {x : Value}
      (mem : x ∈ xs) : ((m.scene env).value? I x).isSome := by
    have there : (m.scene env).value? I x ∈ args.map some := same ▸ List.mem_map_of_mem mem
    obtain ⟨a, -, here⟩ := List.mem_map.1 there
    exact here ▸ rfl
  have worth : ∀ x ∈ frame.slots, ((m.scene env).value? I x).isSome := by
    intro x mem
    rcases mem_slots.1 mem with stack | scope | locals
    · exact listed h.stack stack
    · exact listed h.scope scope
    · obtain ⟨r, found⟩ := List.getElem?_of_mem locals
      rw [h.locals r x found]
      rfl
  rw [spill]
  refine (mirrors_spillSlots (o := o) h.known worth fun e none => absurd none List.not_mem_nil).bind ?_
  rintro ys f' ⟨env', mirrors, ⟨same, reads⟩⟩
  refine meets_pure ?_
  have size : ys.length = frame.slots.length := by simpa using congrArg List.length same
  simp only [Frame.slots, List.length_append] at size
  have depth : (frame.withSlots ys).stack.length = frame.stack.length := by
    rw [Frame.withSlots, List.length_take]
    omega
  have depth' : (frame.withSlots ys).scope.length = frame.scope.length := by
    rw [Frame.withSlots, List.length_take, List.length_drop]
    omega
  have place (r : Nat) : ownSlot (frame.withSlots ys) r = ownSlot frame r := by rw [ownSlot, ownSlot, depth, depth']
  -- The three parts of the slots are worth what they were.
  have slots : (frame.withSlots ys).slots = ys := slots_withSlots
  rw [← slots, Frame.slots, Frame.slots] at same
  simp only [List.map_append] at same
  obtain ⟨front, locals⟩ := List.append_inj same (by simp [depth, depth'])
  obtain ⟨stack, scope⟩ := List.append_inj front (by simp [depth])
  refine ⟨env', mirrors, ⟨stack.trans h.stack, scope.trans h.scope, fun r x found => ?_, mirrors.known h.known⟩,
    .of_slots fun j version found => ?_, fun r pinned => .of_slots fun j version found => ?_⟩
  · have old : (frame.locals[r]?).map ((m.scene env).value? I) = some ((m.scene env').value? I x) := by
      rw [← List.getElem?_map, ← locals, List.getElem?_map, found]
      rfl
    obtain ⟨y, there, value⟩ := Option.map_eq_some_iff.1 old
    rw [← value, h.locals r y there]
  · rw [slots_withSlots] at found
    rw [place, ← Nat.zero_add j]
    exact (reads j register version found).2 rfl
  · rw [slots_withSlots] at found
    rw [place]
    exact pinned.own (reads j r version found).1

/-- Setting a register, whether its old content is still to be found in the frame or not. -/
lemma mirrors_store (h : Denotes I frame f m env) (worth : (m.scene env).value? I x = some a) :
    (store b register x frame).Meets f (fun frame' f' => ∃ env', Mirrors I o b f m env f' (m.set register a) env' ∧
      Denotes I frame' f' (m.set register a) env') fun _ => True := by
  rw [store]
  refine denotes_getLocal h fun _ _ => ?_
  refine (mirrors_spill (o := o) h).bind ?_
  rintro spilled f₁ ⟨env₁, first, denotes, pinned, _⟩
  have worth₁ : (m.scene env₁).value? I x = some a :=
    value?_of_kept worth (fun _ _ _ => rfl) fun v has => first.kept (h.known v has)
  have done : (m.scene env₁).does I o f₁.nodes.size (.store register x) =
      some (.goes ((m.set register a).scene env₁)) := by
    rw [Scene.does, worth₁]
    rfl
  refine mirrors_appendNode rfl done fun f₂ second => denotes_setLocal ⟨env₁, first.trans second, ?_⟩
  -- A value that reads the register itself is worth the same behind the write.
  have new : ((m.set register a).scene env₁).value? I x = some a := by
    by_cases own : ∃ version, x = .reg register version
    · obtain ⟨version, rfl⟩ := own
      show some (Function.update m.registers register a register) = some a
      rw [Function.update_self]
    · refine value?_of_kept worth₁ (fun r version same => Function.update_of_ne ?_ _ _) fun _ _ => rfl
      rintro rfl
      exact own ⟨version, same⟩
  have assigned := denotes.assign pinned new
  exact ⟨assigned.stack, assigned.scope, assigned.locals, second.known denotes.known⟩

end Spilling

end Avm.Ir.Lift
