import Avm.Proofs.Emit.Lockstep
import Avm.Proofs.Opt.Fixpoint

/-!
# What writing adds

Writing puts instructions behind those that are there, enters constants into the pool, and gives registers to nodes.
Most steps only do the first two.  A register once given to a node stays its own, and only nodes with a result have
one.  Registers are given in the order of their numbers, which are words: so no other node gets the same one unless
they are all taken, and they lie above those of the method as long as there are such registers.

The main statement is `apart_of_blocks`: behind whatever blocks, nodes have got registers one after another.  With
`Draft.Apart.above` and `Draft.Apart.inj` these are their own.
-/

namespace Avm.Emit

open Avm.Ir

variable {α β : Type} {p : Plan} {d d' d'' : Draft} {is js : List (Instruction Marker)} {v w : ValueId} {b : BlockId}

/-- The register that is given to a result behind the given number of others. -/
def Plan.register (p : Plan) : Nat → Register
  | 0 => p.func.locals
  | n + 1 => addWords (p.register n) 1

namespace Plan

lemma register_eq {n : Nat} (fits : p.func.locals + n < wordBound) : p.register n = p.func.locals + n := by
  induction n with
  | zero => rfl
  | succ n ih =>
    rw [register, ih (by omega)]
    exact addWords_eq fits

lemma register_modEq (n : Nat) : p.register n ≡ p.func.locals + n [MOD wordBound] := by
  induction n with
  | zero => exact .refl _
  | succ n ih => exact (Nat.mod_modEq _ _).trans (ih.add_right 1)

lemma register_inj {m n : Nat} (hm : m < wordBound) (hn : n < wordBound) (same : p.register m = p.register n) :
    m = n := by
  have shifted : p.func.locals + m ≡ p.func.locals + n [MOD wordBound] :=
    (register_modEq m).symm.trans ((congrArg (· ≡ _ [MOD wordBound]) same).mpr (register_modEq n))
  exact (Nat.ModEq.add_left_cancel' _ shifted).eq_of_lt_of_lt hm hn

end Plan

namespace Draft

/-- The instructions of a draft, without their numbers. -/
def written (d : Draft) : List (Instruction Marker) := d.code.instrs.map (·.2)

/-- Instructions are put behind those of a draft, with their constants in the pool. -/
structure Puts (is : List (Instruction Marker)) (d d' : Draft) : Prop where
  written : d'.written = d.written ++ is
  pool : d.pool.Extends d'.pool
  temps : d'.temps = d.temps
  nextTemp : d'.nextTemp = d.nextTemp

lemma Puts.refl (d : Draft) : Puts [] d d := ⟨(List.append_nil _).symm, .refl _, rfl, rfl⟩

lemma Puts.trans (h : Puts is d d') (h' : Puts js d' d'') : Puts (is ++ js) d d'' where
  written := by rw [h'.written, h.written, List.append_assoc]
  pool := h.pool.trans h'.pool
  temps := h'.temps.trans h.temps
  nextTemp := h'.nextTemp.trans h.nextTemp

/-- Nodes with a result have registers, one after another. -/
structure Apart (p : Plan) (d : Draft) : Prop where
  next : d.nextTemp = p.register d.temps.length
  registers : d.temps.map Prod.snd = (List.range d.temps.length).reverse.map p.register
  once : (d.temps.map Prod.fst).Nodup
  result : ∀ v r, d.temps.lookup v = some r → (p.func.kind? v).any NodeKind.producesValue = true

/-- The registers of the method and of results are numbered by words. -/
def Room (p : Plan) (d : Draft) : Prop := p.func.locals + d.temps.length ≤ wordBound

instance (p : Plan) (d : Draft) : Decidable (d.Room p) := inferInstanceAs (Decidable (_ ≤ _))

namespace Apart

lemma exists_register (h : d.Apart p) {r : Register} (known : d.temps.lookup v = some r) :
    ∃ n < d.temps.length, p.register n = r := by
  have mem := List.mem_map_of_mem (f := Prod.snd) (mem_of_lookup known)
  rw [h.registers] at mem
  obtain ⟨n, inside, same⟩ := List.mem_map.1 mem
  exact ⟨n, List.mem_range.1 (List.mem_reverse.1 inside), same⟩

lemma length_le (h : d.Apart p) : d.temps.length ≤ p.func.nodes.size := by
  rw [← List.length_map (f := Prod.fst), ← List.length_range (n := p.func.nodes.size)]
  refine (h.once.subperm fun v mem => ?_).length_le
  obtain ⟨⟨v, r⟩, there, rfl⟩ := List.mem_map.1 mem
  obtain ⟨k, does, -⟩ := (Option.any_eq_true _ _).1 (h.result v r (lookup_of_mem h.once there))
  obtain ⟨n, here, -⟩ := Option.map_eq_some_iff.1 does
  exact List.mem_range.2 (Func.lt_size_of_node? (Option.isSome_of_eq_some here))

/-- Results lie above the registers of the method. -/
lemma above (h : d.Apart p) (room : d.Room p) {r : Register} (known : d.temps.lookup v = some r) :
    p.func.locals ≤ r := by
  obtain ⟨n, inside, rfl⟩ := h.exists_register known
  have fits : p.func.locals + n < wordBound := Nat.lt_of_lt_of_le (Nat.add_lt_add_left inside _) room
  rw [Plan.register_eq fits]
  exact Nat.le_add_right _ _

/-- No two nodes share a register, unless there are more of them than words. -/
lemma inj (h : d.Apart p) (few : d.temps.length ≤ wordBound) {r : Register} (known : d.temps.lookup v = some r)
    (known' : d.temps.lookup w = some r) : v = w := by
  have once : (d.temps.map Prod.snd).Nodup := by
    rw [h.registers]
    refine (List.nodup_reverse.2 List.nodup_range).map_on fun m hm n hn => Plan.register_inj ?_ ?_
    · exact Nat.lt_of_lt_of_le (List.mem_range.1 (List.mem_reverse.1 hm)) few
    · exact Nat.lt_of_lt_of_le (List.mem_range.1 (List.mem_reverse.1 hn)) few
  exact congrArg Prod.fst (List.inj_on_of_nodup_map once (mem_of_lookup known)
    (mem_of_lookup known') rfl)

end Apart

/-- The registers of nodes with a result are their own, and lie above those of the method. -/
structure Owned (p : Plan) (d : Draft) : Prop where
  above : ∀ v r, d.temps.lookup v = some r → p.func.locals ≤ r
  inj : ∀ v w r, d.temps.lookup v = some r → d.temps.lookup w = some r → v = w
  result : ∀ v r, d.temps.lookup v = some r → (p.func.kind? v).any NodeKind.producesValue = true

lemma Apart.owned (h : d.Apart p) (room : d.Room p) : d.Owned p where
  above _ _ := h.above room
  inj _ _ _ := h.inj (Nat.le_trans (Nat.le_add_left _ _) room)
  result := h.result

/-- Instructions, constants and registers of nodes are only added. -/
structure Grows (p : Plan) (d d' : Draft) : Prop where
  written : d.written <+: d'.written
  pool : d.pool.Extends d'.pool
  temps : ∀ v r, d.temps.lookup v = some r → d'.temps.lookup v = some r
  apart : d.Apart p → d'.Apart p

lemma Grows.refl (d : Draft) : Grows p d d := ⟨List.prefix_rfl, .refl _, fun _ _ => id, id⟩

lemma Grows.trans (h : Grows p d d') (h' : Grows p d' d'') : Grows p d d'' where
  written := h.written.trans h'.written
  pool := h.pool.trans h'.pool
  temps v r known := h'.temps v r (h.temps v r known)
  apart := h'.apart ∘ h.apart

lemma Puts.grows (h : Puts is d d') : Grows p d d' where
  written := ⟨is, h.written.symm⟩
  pool := h.pool
  temps v r known := by
    rw [h.temps]
    exact known
  apart apart := by
    obtain ⟨next, registers, once, result⟩ := apart
    rw [← h.temps] at next registers once result
    exact ⟨h.nextTemp.trans next, registers, once, result⟩

/-- One step: an instruction is written, the pool grows, or a node with a result gets the next register. -/
inductive Step (p : Plan) (d : Draft) : Draft → Prop
  | push (i : Instruction Marker) : Step p d
    { d with
      code := { (d.code.push i).1 with
        markers := d.pending.foldl (fun t m => t.bind m (.instr d.code.nextId)) d.code.markers }
      pending := [] }
  | pool {P : Pool} : d.pool.Extends P → Step p d { d with pool := P }
  | temp {v : ValueId} : d.temps.lookup v = none → (p.func.kind? v).any NodeKind.producesValue = true →
    Step p d { d with temps := (v, d.nextTemp) :: d.temps, nextTemp := addWords d.nextTemp 1 }

lemma Step.grows (step : Step p d d') : Grows p d d' := by
  cases step with
  | push i =>
    refine ⟨⟨[i], ?_⟩, .refl _, fun _ _ => id, fun h => ⟨h.next, h.registers, h.once, h.result⟩⟩
    simp [written, Code.push]
  | pool longer => exact ⟨List.prefix_rfl, longer, fun _ _ => id, fun h => ⟨h.next, h.registers, h.once, h.result⟩⟩
  | @temp v new result =>
    refine ⟨List.prefix_rfl, .refl _, fun w r known => ?_, fun apart => ⟨?_, ?_, ?_, fun w r known => ?_⟩⟩
    · rw [List.lookup_cons, beq_false_of_ne]
      · exact known
      · rintro rfl
        rw [new] at known
        cases known
    · exact congrArg (addWords · 1) apart.next
    · rw [List.map_cons, apart.registers, apart.next, List.length_cons, List.range_succ, List.reverse_append]
      rfl
    · refine List.nodup_cons.2 ⟨fun mem => ?_, apart.once⟩
      obtain ⟨⟨w, r⟩, there, rfl⟩ := List.mem_map.1 mem
      rw [lookup_of_mem apart.once there] at new
      cases new
    · rw [List.lookup_cons] at known
      split at known
      · rename_i here
        exact beq_iff_eq.1 here ▸ result
      · exact apart.result w r known

lemma grows_of_steps (steps : Relation.ReflTransGen (Step p) d d') : Grows p d d' := by
  induction steps with
  | refl => exact .refl d
  | tail _ step ih => exact ih.trans step.grows

lemma apart_start (pool : Pool) : (Draft.start p pool).Apart p := ⟨rfl, rfl, .nil, nofun⟩

/-- The draft behind a step of writing. -/
def behind? (x : Write Unit) (d : Draft) : Option Draft :=
  match x.run d with
  | .ok _ d' => some d'
  | .error .. => none

lemma behind?_eq_some {x : Write Unit} : behind? x d = some d' ↔ x.run d = .ok () d' := by
  rw [behind?]
  cases x.run d <;> simp

end Draft

namespace Write

/-- The function of the writer relates the drafts in front of it and behind it. -/
def Relates (R : Draft → Draft → Prop) (x : Write α) : Prop := ∀ d a d', x.run d = .ok a d' → R d d'

section Relates

variable {R : Draft → Draft → Prop} [Std.Refl R] [IsTrans Draft R]

omit [IsTrans Draft R] in
lemma relates_pure (a : α) : Relates R (pure a : Write α) := by
  intro d b d' run
  obtain ⟨-, rfl⟩ := pure_eq_ok.1 run
  exact Std.Refl.refl _

omit [Std.Refl R] [IsTrans Draft R] in
lemma relates_throw (e : Fault) : Relates R (throw e : Write α) := fun _ _ _ run => absurd run throw_ne_ok

omit [IsTrans Draft R] in
lemma relates_ofExcept (x : Except Fault α) : Relates R (ofExcept x) := by
  intro d b d' run
  obtain ⟨-, rfl⟩ := ofExcept_eq_ok.1 run
  exact Std.Refl.refl _

omit [Std.Refl R] in
lemma Relates.bind {x : Write α} {g : α → Write β} (first : Relates R x) (rest : ∀ a, Relates R (g a)) :
    Relates R (x >>= g) := by
  intro d b d' run
  obtain ⟨a, d₁, here, run⟩ := bind_eq_ok.1 run
  exact IsTrans.trans _ _ _ (first _ _ _ here) (rest _ _ _ _ run)

lemma relates_pushChecked {i : Instruction Marker} (one : Relates R (push i)) : Relates R (pushChecked i) :=
  (relates_ofExcept _).bind fun _ => one

lemma relates_values (value : ∀ x, Relates R (value p x)) (xs : List Value) : Relates R (values p xs) := by
  induction xs with
  | nil => exact relates_pure ()
  | cons x xs ih => exact (value x).bind fun _ => ih

lemma relates_effect {k : NodeKind} (value : ∀ x, Relates R (value p x))
    (own : ∀ i, k.instruction? = some i → Relates R (push i))
    (empties : ∀ r x, k = .store r x → Relates R (push (.withIndex .kill r))) : Relates R (effect p v k) := by
  cases k with
  | phi inputs => exact relates_throw _
  | caught => exact relates_pure ()
  | store register operand =>
    rw [effect.eq_def]
    split
    all_goals cases ‹NodeKind.store _ _ = _›
    · exact empties _ _ rfl
    · exact (value _).bind fun _ => own _ rfl
  | hasNext2 object index | debug instruction => exact own _ rfl
  | unary op operand | type op name operand => exact (value _).bind fun _ => own _ rfl
  | copy operand => exact value _
  | property opcode name operands | call opcode index argCount operands =>
    exact (relates_values value _).bind fun _ => relates_pushChecked (own _ rfl)
  | binary op lhs rhs | operation instruction operands | scope op operand =>
    exact (relates_values value _).bind fun _ => own _ rfl

lemma relates_node (effect : ∀ k, p.func.kind? v = some k → Relates R (effect p v k))
    (save : (p.func.kind? v).any NodeKind.producesValue = true → Relates R (do push (.setLocal (← temp v))))
    (drop : Relates R (push ⟨.pop, .none⟩)) : Relates R (node p v) := by
  rw [node]
  split
  · exact relates_throw _
  · rename_i k does
    refine (effect k does).bind fun _ => ?_
    split
    · rename_i keeps
      split
      · refine save ?_
        rw [does]
        exact (Bool.and_eq_true_iff.1 keeps).1
      · exact drop
    · exact relates_pure ()

lemma relates_popInto {vs : List ValueId} (save : ∀ v ∈ vs, Relates R (do push (.setLocal (← temp v)))) :
    Relates R (popInto vs) := by
  induction vs with
  | nil => exact relates_pure ()
  | cons v vs ih =>
    rw [popInto, ← bind_assoc]
    exact (save v List.mem_cons_self).bind fun _ => ih fun w mem => save w (List.mem_cons_of_mem _ mem)

lemma relates_laterNodes (node : ∀ v, Relates R (node p v)) (vs : List ValueId) : Relates R (laterNodes p b vs) := by
  induction vs with
  | nil => exact relates_pure ()
  | cons v vs ih =>
    rw [laterNodes]
    split
    · exact (relates_throw _).bind fun _ => (node v).bind fun _ => ih
    · exact (node v).bind fun _ => ih

lemma relates_nodes (node : ∀ v, Relates R (node p v)) (vs : List ValueId) : Relates R (nodes p b vs) := by
  cases vs with
  | nil => exact relates_pure ()
  | cons v vs => exact (node v).bind fun _ => relates_laterNodes node vs

end Relates

/-- The function of the writer is made of single steps. -/
def IsMade (p : Plan) (x : Write α) : Prop := ∀ d a d', x.run d = .ok a d' → Relation.ReflTransGen (Draft.Step p) d d'

lemma isMade_push (i : Instruction Marker) : IsMade p (push i) := by
  intro d u d' run
  rw [push, modify_eq_ok] at run
  subst run
  exact .single (.push i)

lemma isMade_get : IsMade p (get : Write Draft) := by
  intro d b d' run
  obtain ⟨-, rfl⟩ := get_eq_ok.1 run
  exact .refl

lemma IsMade.bind {x : Write α} {g : α → Write β} (first : IsMade p x) (rest : ∀ a, IsMade p (g a)) :
    IsMade p (x >>= g) :=
  Relates.bind (R := Relation.ReflTransGen (Draft.Step p)) first rest

lemma puts_push {i : Instruction Marker} {u : Unit} (run : (push i).run d = .ok u d') : Draft.Puts [i] d d' := by
  rw [push, modify_eq_ok] at run
  subst run
  exact ⟨List.map_append, .refl _, rfl, rfl⟩

lemma isMade_pushChecked (i : Instruction Marker) : IsMade p (pushChecked i) := relates_pushChecked (isMade_push i)

lemma intern_eq_ok {k : PoolKind} {value : k.Entry} {n : Nat} (run : (intern k value).run d = .ok n d') :
    n = (d.pool.intern k value).2 ∧ d' = { d with pool := (d.pool.intern k value).1 } := by
  obtain ⟨_, _, got, rest⟩ := bind_eq_ok.1 run
  obtain ⟨rfl, rfl⟩ := get_eq_ok.1 got
  obtain ⟨_, d₁, put, last⟩ := bind_eq_ok.1 rest
  obtain ⟨rfl, rfl⟩ := pure_eq_ok.1 last
  exact ⟨rfl, set_eq_ok.1 put⟩

lemma constant_eq_ok {c : Constant} {i : Instruction Marker} (run : (constant c).run d = .ok i d') :
    ∃ P, d.pool.Extends P ∧ d' = { d with pool := P } := by
  obtain ⟨i, -, eq⟩ | ⟨k, v, o, ordinary, eq, -⟩ := constant_cases c
  · rw [eq] at run
    obtain ⟨-, rfl⟩ := pure_eq_ok.1 run
    exact ⟨_, .refl _, rfl⟩
  · rw [eq] at run
    obtain ⟨n, d₁, asked, rest⟩ := bind_eq_ok.1 run
    obtain ⟨-, rfl⟩ := pure_eq_ok.1 rest
    exact ⟨_, Pool.extends_intern ordinary v, (intern_eq_ok asked).2⟩

lemma puts_constant {c : Constant} {i : Instruction Marker} (run : (constant c).run d = .ok i d') :
    Draft.Puts [] d d' := by
  obtain ⟨P, longer, rfl⟩ := constant_eq_ok run
  exact ⟨(List.append_nil _).symm, longer, rfl, rfl⟩

lemma isMade_constant (c : Constant) : IsMade p (constant c) := by
  intro d i d' run
  obtain ⟨P, longer, rfl⟩ := constant_eq_ok run
  exact .single (.pool longer)

lemma isMade_value (x : Value) : IsMade p (value p x) := by
  cases x with
  | const c => exact (isMade_constant c).bind fun i => isMade_push i
  | reg r version => exact isMade_push _
  | node v =>
    rw [value]
    split
    · exact relates_pure ()
    · refine isMade_get.bind fun d => ?_
      split
      · exact isMade_push _
      · exact relates_throw _

lemma isMade_values (xs : List Value) : IsMade p (values p xs) := relates_values isMade_value xs

lemma isMade_label (b : BlockId) : IsMade p (label p b) := by
  intro d m d' run
  obtain ⟨-, rfl⟩ := label_eq_ok.1 run
  exact .refl

lemma isMade_labels (bs : List BlockId) : IsMade p (labels p bs) := by
  induction bs with
  | nil => exact relates_pure _
  | cons b bs ih => exact (isMade_label b).bind fun _ => ih.bind fun _ => relates_pure _

lemma isMade_jumpTo (source target : BlockId) : IsMade p (jumpTo p source target) := by
  rw [jumpTo]
  split
  · exact (isMade_label target).bind fun _ => isMade_push _
  · exact relates_pure ()

lemma temp_eq_ok {r : Nat} (run : (temp v).run d = .ok r d') :
    d.temps.lookup v = some r ∧ d' = d ∨ d.temps.lookup v = none ∧ r = d.nextTemp ∧
      d' = { d with temps := (v, d.nextTemp) :: d.temps, nextTemp := addWords d.nextTemp 1 } := by
  obtain ⟨e, d₁, got, rest⟩ := bind_eq_ok.1 run
  obtain ⟨rfl, rfl⟩ := get_eq_ok.1 got
  split at rest
  · rename_i known
    obtain ⟨rfl, rfl⟩ := pure_eq_ok.1 rest
    exact .inl ⟨known, rfl⟩
  · rename_i new
    obtain ⟨_, d₂, put, rest⟩ := bind_eq_ok.1 rest
    obtain ⟨rfl, rfl⟩ := pure_eq_ok.1 rest
    exact .inr ⟨new, rfl, set_eq_ok.1 put⟩

lemma lookup_of_temp {r : Nat} (run : (temp v).run d = .ok r d') : d'.temps.lookup v = some r := by
  obtain ⟨known, rfl⟩ | ⟨-, rfl, rfl⟩ := temp_eq_ok run
  · exact known
  · exact List.lookup_cons_self

lemma written_of_temp {r : Nat} (run : (temp v).run d = .ok r d') : d'.written = d.written ∧ d'.pool = d.pool := by
  obtain ⟨known, rfl⟩ | ⟨-, -, rfl⟩ := temp_eq_ok run
  · exact ⟨rfl, rfl⟩
  · exact ⟨rfl, rfl⟩

lemma isMade_temp (result : (p.func.kind? v).any NodeKind.producesValue = true) : IsMade p (temp v) := by
  intro d r d' run
  obtain ⟨known, rfl⟩ | ⟨new, rfl, rfl⟩ := temp_eq_ok run
  · exact .refl
  · exact .single (.temp new result)

lemma isMade_save (result : (p.func.kind? v).any NodeKind.producesValue = true) :
    IsMade p (do push (.setLocal (← temp v))) :=
  (isMade_temp result).bind fun _ => isMade_push _

lemma isMade_node (v : ValueId) : IsMade p (node p v) :=
  relates_node (fun _ _ => relates_effect isMade_value (fun i _ => isMade_push i) fun _ _ _ =>
    isMade_push _) isMade_save
    (isMade_push _)

lemma isMade_popInto {vs : List ValueId} (results : ∀ v ∈ vs, (p.func.kind? v).any NodeKind.producesValue = true) :
    IsMade p (popInto vs) :=
  relates_popInto fun v mem => isMade_save (results v mem)

end Write

lemma Plan.phiMoves_eq_ok {source target : BlockId} {kind : EdgeKind} {ms : List (ValueId × Value)}
    (moved : p.phiMoves source kind target = .ok ms) :
    ms.map (·.1) = ((p.func.phis target).filter p.isUsed).filter (fun v => (p.func.inputs? v).isSome) ∧
      ∀ m ∈ ms, p.func.incoming m.1 source kind = some m.2 := by
  have moves := mapM_eq_ok.1 moved
  clear moved
  generalize (p.func.phis target).filter p.isUsed = vs at moves ⊢
  induction vs generalizing ms with
  | nil =>
    obtain rfl := List.forall₂_nil_left_iff.1 moves
    exact ⟨rfl, nofun⟩
  | cons v vs ih =>
    rw [List.filterMap_cons] at moves
    cases here : p.func.inputs? v with
    | none =>
      rw [here] at moves
      rw [List.filter_cons_of_neg (by rw [here]; exact Bool.false_ne_true)]
      exact ih moves
    | some is =>
      rw [here] at moves
      rw [List.filter_cons_of_pos (by rw [here]; rfl)]
      obtain ⟨m, ms, first, rest, rfl⟩ := List.forall₂_cons_left_iff.1 moves
      obtain ⟨listed, values⟩ := ih rest
      dsimp only at first
      split at first
      · rename_i i found
        obtain rfl := Except.ok.inj first
        refine ⟨congrArg (v :: ·) listed, List.forall_mem_cons.2 ⟨?_, values⟩⟩
        rw [Func.incoming, here, Option.bind_some, incoming?, found]
        rfl
      · cases first

lemma producesValue_of_inputs? {f : Func} (phi : (f.inputs? v).isSome) :
    (f.kind? v).any NodeKind.producesValue = true := by
  obtain ⟨is, inputs⟩ := Option.isSome_iff_exists.1 phi
  obtain ⟨k, does, takes⟩ := Option.bind_eq_some_iff.1 inputs
  cases k with
  | phi => rw [does]; rfl
  | _ => cases takes

namespace Write

lemma isMade_moves (source : BlockId) (kind : EdgeKind) (target : BlockId) :
    IsMade p (moves p source kind target) := by
  intro d u d' run
  obtain ⟨ms, d₁, asked, rest⟩ := bind_eq_ok.1 run
  obtain ⟨moved, rfl⟩ := ofExcept_eq_ok.1 asked
  obtain ⟨_, d₂, read, last⟩ := bind_eq_ok.1 rest
  refine (isMade_values _ _ _ _ read).trans (isMade_popInto (fun v mem => ?_) _ _ _ last)
  rw [List.mem_reverse, (Plan.phiMoves_eq_ok moved).1, List.mem_filter] at mem
  exact producesValue_of_inputs? mem.2

lemma isMade_terminator (b : BlockId) (t : Terminator) : IsMade p (terminator p b t) := by
  cases t with
  | goto target | jump target => exact (isMade_moves _ _ _).bind fun _ => isMade_jumpTo _ _
  | branch kind operands onTrue onFalse =>
    refine (isMade_values _).bind fun _ => ?_
    split
    · exact (isMade_label _).bind fun _ => isMade_push _
    · exact (isMade_label _).bind fun _ => (isMade_push _).bind fun _ => isMade_jumpTo _ _
  | switch index default cases =>
    exact (isMade_value _).bind fun _ => (isMade_label _).bind fun _ => (isMade_labels _).bind fun _ =>
      isMade_pushChecked _
  | leave v =>
    cases v with
    | none => exact isMade_push _
    | some v => exact (isMade_value v).bind fun _ => isMade_push _
  | raise v => exact (isMade_value v).bind fun _ => isMade_push _
  | none => exact relates_throw _

lemma isMade_laterNodes (b : BlockId) (vs : List ValueId) : IsMade p (laterNodes p b vs) :=
  relates_laterNodes isMade_node vs

lemma isMade_nodes (b : BlockId) (vs : List ValueId) : IsMade p (nodes p b vs) := relates_nodes isMade_node vs

/-- Writes a block up to its end. -/
def front (p : Plan) (b : BlockId) : Write Unit := do
  if isBackwardTarget p.func p.order b then
    push ⟨.label, .none⟩
  if p.func.handlers.any (·.target == b) && !((p.func.body b).head?.map (catches p.func)).getD false then
    push ⟨.pop, .none⟩
  nodes p b (p.func.body b)

lemma block_eq_ok {u : Unit} : (block p b).run d = .ok u d' ↔
    (p.func.block? b).isSome ∧ ∃ d₁, (front p b).run d = .ok () d₁ ∧
      (terminator p b (p.func.terminator b)).run d₁ = .ok u d' := by
  cases here : p.func.block? b with
  | none => simp [block, here]
  | some x =>
    have same : block p b = (do front p b; terminator p b (p.func.terminator b)) := by
      rw [block, here, front, Func.body_of_block? here, Func.terminator_of_block? here]
      split_ifs <;> simp only [bind_assoc, *, if_true, Bool.false_eq_true, if_false]
    rw [same, bind_eq_ok]
    simp only [Option.isSome_some, true_and]
    exact Unique.exists_iff

lemma laterNodes_cons_eq_ok {vs : List ValueId} {u : Unit} (run : (laterNodes p b (v :: vs)).run d = .ok u d') :
    p.func.kind? v ≠ some .caught ∧ ∃ d₁, (node p v).run d = .ok () d₁ ∧ (laterNodes p b vs).run d₁ = .ok () d' := by
  rw [laterNodes] at run
  split at run
  · obtain ⟨_, _, thrown, -⟩ := bind_eq_ok.1 run
    exact absurd thrown throw_ne_ok
  · rename_i other
    obtain ⟨_, d₁, first, later⟩ := bind_eq_ok.1 run
    exact ⟨fun caught => other (beq_iff_eq.2 caught), d₁, first, later⟩

lemma isMade_behind {c : Prop} [Decidable c] {i : Instruction Marker} {x : Write α} (h : IsMade p x) :
    IsMade p (if c then push i >>= fun _ => x else x) := by
  split
  · exact (isMade_push i).bind fun _ => h
  · exact h

lemma isMade_front (b : BlockId) : IsMade p (front p b) :=
  isMade_behind (isMade_behind (isMade_nodes b _))

lemma isMade_block (b : BlockId) : IsMade p (block p b) := by
  intro d u d' run
  obtain ⟨-, d₁, before, last⟩ := block_eq_ok.1 run
  exact (isMade_front b _ _ _ before).trans (isMade_terminator b _ _ _ _ last)

/-- The function of the writer only adds to a draft. -/
def IsGrowth (p : Plan) (x : Write α) : Prop := ∀ d a d', x.run d = .ok a d' → Draft.Grows p d d'

lemma IsMade.isGrowth {x : Write α} (h : IsMade p x) : IsGrowth p x :=
  fun _ _ _ run => Draft.grows_of_steps (h _ _ _ run)

lemma exists_node_of_nodes {vs : List ValueId} {u : Unit} (run : (nodes p b vs).run d = .ok u d') (mem : v ∈ vs) :
    ∃ d₁ d₂, Draft.Grows p d d₁ ∧ (node p v).run d₁ = .ok () d₂ ∧ Draft.Grows p d₂ d' := by
  have later (vs : List ValueId) (d : Draft) (run : (laterNodes p b vs).run d = .ok () d') (mem : v ∈ vs) :
      ∃ d₁ d₂, Draft.Grows p d d₁ ∧ (node p v).run d₁ = .ok () d₂ ∧ Draft.Grows p d₂ d' := by
    induction vs generalizing d with
    | nil => cases mem
    | cons w vs ih =>
      obtain ⟨-, d₁, first, rest⟩ := laterNodes_cons_eq_ok run
      rcases List.mem_cons.1 mem with rfl | mem
      · exact ⟨d, d₁, .refl d, first, (isMade_laterNodes b vs).isGrowth _ _ _ rest⟩
      · obtain ⟨d₂, d₃, grows, here, grows'⟩ := ih d₁ rest mem
        exact ⟨d₂, d₃, ((isMade_node w).isGrowth _ _ _ first).trans grows, here, grows'⟩
  cases vs with
  | nil => cases mem
  | cons w vs =>
    obtain ⟨_, d₁, first, rest⟩ := bind_eq_ok.1 run
    rcases List.mem_cons.1 mem with rfl | mem
    · exact ⟨d, d₁, .refl d, first, (isMade_laterNodes b vs).isGrowth _ _ _ rest⟩
    · obtain ⟨d₂, d₃, grows, here, grows'⟩ := later vs d₁ rest mem
      exact ⟨d₂, d₃, ((isMade_node w).isGrowth _ _ _ first).trans grows, here, grows'⟩

/-- The draft where a block starts. -/
def opened (m : Marker) (d : Draft) : Draft :=
  { d with starts := d.starts ++ [d.code.size], pending := d.pending ++ [m] }

lemma grows_opened (m : Marker) : Draft.Grows p d (opened m d) where
  written := List.prefix_rfl
  pool := .refl _
  temps _ _ := id
  apart apart := ⟨apart.next, apart.registers, apart.once, apart.result⟩

lemma blocks_cons_eq_ok {bs : List BlockId} {u : Unit} : (blocks p (b :: bs)).run d = .ok u d' ↔
    ∃ m d₁, (label p b).run d = .ok m d ∧ (block p b).run (opened m d) = .ok () d₁ ∧
      (blocks p bs).run d₁ = .ok u d' := by
  rw [blocks, bind_eq_ok]
  constructor
  · rintro ⟨m, d₀, labelled, rest⟩
    obtain ⟨-, rfl⟩ := label_eq_ok.1 labelled
    obtain ⟨_, d₁, moved, rest⟩ := bind_eq_ok.1 rest
    obtain rfl := modify_eq_ok.1 moved
    obtain ⟨_, d₂, written, rest⟩ := bind_eq_ok.1 rest
    exact ⟨m, d₂, labelled, written, rest⟩
  · rintro ⟨m, d₁, labelled, written, rest⟩
    exact ⟨m, d, labelled, bind_eq_ok.2 ⟨(), _, modify_eq_ok.2 rfl, bind_eq_ok.2 ⟨(), d₁, written, rest⟩⟩⟩

lemma isGrowth_blocks (bs : List BlockId) : IsGrowth p (blocks p bs) := by
  induction bs with
  | nil => exact IsMade.isGrowth (relates_pure ())
  | cons b bs ih =>
    intro d u d' run
    obtain ⟨m, d₁, -, written, rest⟩ := blocks_cons_eq_ok.1 run
    exact ((grows_opened m).trans ((isMade_block b).isGrowth _ _ _ written)).trans (ih _ _ _ rest)

/-- Behind whatever blocks, nodes have got registers one after another. -/
theorem apart_of_blocks {pool : Pool} {bs : List BlockId} {u : Unit}
    (run : (blocks p bs).run (.start p pool) = .ok u d) :
    d.Apart p :=
  (isGrowth_blocks bs _ _ _ run).apart (Draft.apart_start pool)

end Write

end Avm.Emit
