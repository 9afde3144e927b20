import Avm.Proofs.Emit.Closing

/-!
# Depths along written instructions

The instructions of a block find on the stacks what they take.  Between two nodes, the operand stack is as deep as what
the node behind finds there, which is the result of the one before, or nothing.  So it is empty behind the end of a
block, and the scope stack has the depth to which the nodes lead.

The main statement is `exists_climbing`, for each block that is placed.
-/

namespace Avm

namespace Ir.Level

instance (l : Level) (e : StackEffect) : Decidable (l.Affords e) := inferInstanceAs (Decidable (_ ∧ _))

/-- The depths behind an instruction that finds what it takes. -/
def step? (P : Pool) (l : Level) (i : Instruction Marker) : Option Level :=
  match i.effect P with
  | .ok e => if l.Affords e then some (l.after e) else none
  | .error _ => none

/-- The depths behind instructions that find what they take. -/
def climb? (P : Pool) (l : Level) (is : List (Instruction Marker)) : Option Level := is.foldlM (step? P) l

variable {P : Pool} {l l' : Level} {i : Instruction Marker} {is js : List (Instruction Marker)} {a c pops pushes : Nat}

lemma step?_eq_some : l.step? P i = some l' ↔ ∃ e, i.effect P = .ok e ∧ l.Affords e ∧ l' = l.after e := by
  rw [step?]
  cases i.effect P with
  | error fault => simp
  | ok e =>
    by_cases affords : l.Affords e
    · simp [affords, eq_comm]
    · simp [affords]

lemma step?_of_effect (effect : i.effect P = .ok ⟨pops, pushes, 0⟩) :
    step? P ⟨a + pops, c⟩ i = some ⟨a + pushes, c⟩ := by
  refine step?_eq_some.2 ⟨_, effect, ⟨Nat.le_add_left _ _, ?_⟩, ?_⟩
  · exact Int.add_nonneg (Int.natCast_nonneg c) (le_refl 0)
  · simp [after]

@[simp] lemma climb?_nil : l.climb? P [] = some l := rfl

lemma climb?_cons : l.climb? P (i :: is) = (l.step? P i).bind fun l => l.climb? P is := rfl

lemma climb?_append : l.climb? P (is ++ js) = (l.climb? P is).bind fun l => l.climb? P js := by
  rw [climb?, List.foldlM_append]
  rfl

lemma climb?_singleton : l.climb? P [i] = l.step? P i := by
  rw [climb?_cons]
  exact Option.bind_fun_some _

lemma climb?_trans {m n : Level} (first : l.climb? P is = some m) (rest : m.climb? P js = some n) :
    l.climb? P (is ++ js) = some n := by
  rw [climb?_append, first, Option.bind_some, rest]

lemma exists_step? {n : Nat} (climbs : l.climb? P is = some l') (here : is[n]? = some i) :
    ∃ m m', l.climb? P (is.take n) = some m ∧ m.step? P i = some m' ∧ l.climb? P (is.take (n + 1)) = some m' := by
  have inside : n < is.length := (List.getElem?_eq_some_iff.1 here).1
  have parts : is.take (n + 1) = is.take n ++ [i] := by rw [List.take_add_one, here, Option.toList_some]
  rw [← List.take_append_drop (n + 1) is, climb?_append, Option.bind_eq_some_iff] at climbs
  obtain ⟨m', first, -⟩ := climbs
  have both := first
  rw [parts, climb?_append, Option.bind_eq_some_iff] at both
  obtain ⟨m, before, step⟩ := both
  exact ⟨m, m', before, climb?_singleton ▸ step, first⟩

end Ir.Level

namespace Emit

open Avm.Ir Avm.Ir.Func Avm.Ir.Level

variable {f : Func} {p : Plan} {d d' : Draft} {b : BlockId} {v : ValueId} {k : NodeKind} {x : Value} {xs : List Value}
  {i : Instruction Marker} {before rest : List ValueId} {t : Terminator} {kind : EdgeKind} {target : BlockId}

section Values

namespace Write

lemma effect_constant {c : Constant} (run : (constant c).run d = .ok i d') (P : Pool) : i.effect P = .ok ⟨0, 1, 0⟩ := by
  have pushes : ∀ o ∈ constantOpcodes, o.isFixed = true ∧ o.info.pops = 0 ∧ o.info.pushes = 1 ∧
    o.info.scope = 0 := by decide
  obtain ⟨fixed, pops, pushes, scope⟩ := pushes _ (Avm.Emit.constant_eq_ok run).1
  rw [Instruction.effect_of_isFixed rfl fixed, pops, pushes, scope]

lemma effect_value {u : Unit} (off : p.stays x = false) (run : (value p x).run d = .ok u d') :
    ∃ i, Draft.Puts [i] d d' ∧ ∀ P, i.effect P = .ok ⟨0, 1, 0⟩ := by
  cases x with
  | const c =>
    obtain ⟨i, d₁, made, pushed⟩ := bind_eq_ok.1 run
    exact ⟨i, (puts_constant made).trans (puts_push pushed), effect_constant made⟩
  | reg r version => exact ⟨.getLocal r, puts_push run, fun _ => Instruction.effect_getLocal r⟩
  | node v =>
    have off : p.onStack.contains v = false := off
    rw [value, off] at run
    obtain ⟨e, d₁, got, rest⟩ := bind_eq_ok.1 run
    obtain ⟨rfl, rfl⟩ := get_eq_ok.1 got
    split at rest
    · rename_i r known
      exact ⟨.getLocal r, puts_push rest, fun _ => Instruction.effect_getLocal r⟩
    · exact absurd rest throw_ne_ok

lemma climb_values_of_not_stays {u : Unit} (off : ∀ x ∈ xs, p.stays x = false) (run : (values p xs).run d = .ok u d') :
    ∃ is, Draft.Puts is d d' ∧ ∀ P a c, climb? P ⟨a, c⟩ is = some ⟨a + xs.length, c⟩ := by
  induction xs generalizing d with
  | nil =>
    obtain ⟨-, rfl⟩ := pure_eq_ok.1 run
    exact ⟨[], .refl _, fun P a c => rfl⟩
  | cons x xs ih =>
    obtain ⟨_, d₁, first, rest⟩ := bind_eq_ok.1 run
    obtain ⟨offFirst, offRest⟩ := List.forall_mem_cons.1 off
    obtain ⟨i, puts, effect⟩ := effect_value offFirst first
    obtain ⟨is, more, others⟩ := ih offRest rest
    refine ⟨i :: is, puts.trans more, fun P a c => ?_⟩
    have step : step? P ⟨a, c⟩ i = some ⟨a + 1, c⟩ := step?_of_effect (effect P)
    rw [climb?_cons, step, Option.bind_some, others, List.length_cons, Nat.add_assoc, Nat.add_comm 1]

/-- From the depth at which values are fetched, the operand stack gets as deep as there are values. -/
lemma climb_values {u : Unit} (off : ∀ x ∈ xs.tail, p.stays x = false) (run : (values p xs).run d = .ok u d') :
    ∃ is, Draft.Puts is d d' ∧ ∀ P c, climb? P ⟨p.ahead xs, c⟩ is = some ⟨xs.length, c⟩ := by
  cases on : xs.head?.any p.stays with
  | false =>
    have none : ∀ x ∈ xs, p.stays x = false := by
      cases xs with
      | nil => nofun
      | cons x xs => exact List.forall_mem_cons.2 ⟨on, off⟩
    obtain ⟨is, puts, climbs⟩ := climb_values_of_not_stays none run
    refine ⟨is, puts, fun P c => ?_⟩
    rw [Plan.ahead, on, if_neg Bool.false_ne_true, climbs, Nat.zero_add]
  | true =>
    cases xs with
    | nil => cases on
    | cons x xs =>
      obtain ⟨_, d₁, first, rest⟩ := bind_eq_ok.1 run
      obtain rfl := value_of_stays on first
      obtain ⟨is, puts, climbs⟩ := climb_values_of_not_stays off rest
      refine ⟨is, puts, fun P c => ?_⟩
      rw [Plan.ahead, on, if_pos rfl, climbs, List.tail_cons, List.length_cons, Nat.add_comm]

lemma climb_popInto {u : Unit} {vs : List ValueId} (run : (popInto vs).run d = .ok u d') :
    ∃ is, d'.written = d.written ++ is ∧ ∀ P n c, climb? P ⟨n + vs.length, c⟩ is = some ⟨n, c⟩ := by
  induction vs generalizing d with
  | nil =>
    obtain ⟨-, rfl⟩ := pure_eq_ok.1 run
    exact ⟨[], (List.append_nil _).symm, fun P n c => rfl⟩
  | cons v vs ih =>
    obtain ⟨r, d₁, asked, rest⟩ := bind_eq_ok.1 run
    obtain ⟨_, d₂, pushed, rest⟩ := bind_eq_ok.1 rest
    obtain ⟨is, written, climbs⟩ := ih rest
    refine ⟨.setLocal r :: is, ?_, fun P n c => ?_⟩
    · rw [written, (puts_push pushed).written, (written_of_temp asked).1, List.append_assoc, List.singleton_append]
    · have step : step? P ⟨n + vs.length + 1, c⟩ (.setLocal r) = some ⟨n + vs.length, c⟩ :=
        step?_of_effect (Instruction.effect_setLocal r)
      rw [List.length_cons, ← Nat.add_assoc, climb?_cons, step, Option.bind_some, climbs]

end Write

end Values

section Nodes

/-- Where the nodes of a block are about to be done, the operand stack is as deep as the next one finds it: it holds the
result of the one before if that stays there. -/
lemma ahead_takenAt (listed : f.Listed) (split : f.body b = before ++ rest) :
    (Plan.ofFunc f).ahead (takenAt f b rest) =
      if before.getLast?.any (Plan.ofFunc f).onStack.contains then 1 else 0 := by
  have same := congrArg Option.isSome (filter_head?_takenBehind listed split)
  rw [Option.isSome_map, Option.isSome_filter, Option.isSome_filter] at same
  rw [Plan.ahead, same]

lemma ahead_front (listed : f.Listed) : (Plan.ofFunc f).ahead (takenAt f b (f.body b)) = 0 :=
  (ahead_takenAt listed (List.nil_append _).symm).trans rfl

lemma ahead_behind (listed : f.Listed) (split : f.body b = before ++ v :: rest) :
    (Plan.ofFunc f).ahead (takenAt f b rest) = if v ∈ (Plan.ofFunc f).onStack then 1 else 0 := by
  rw [← List.singleton_append, ← List.append_assoc] at split
  rw [ahead_takenAt listed split, List.getLast?_concat, Option.any_some]
  exact if_congr List.contains_iff_mem rfl rfl

/-- A node finds its operands and leaves its result, and enters or leaves scopes as it says. -/
lemma climb_effect (does : f.kind? v = some k) (plain : f.inputs? v = none) (other : k ≠ .caught)
    (run : (Write.effect (Plan.ofFunc f) v k).run d = .ok () d') : ∃ is, Draft.Puts is d d' ∧
      ∀ P c c', k.Writable P → k.turn.after c = some c' →
        climb? P ⟨(Plan.ofFunc f).ahead k.operands, c⟩ is = some ⟨k.producesValue.toNat, c'⟩ := by
  obtain ⟨r, rfl, puts⟩ | ⟨d₁, read, puts⟩ := Write.effect_eq_ok other run
  · refine ⟨_, puts, fun P c c' _ turn => ?_⟩
    obtain rfl := Option.some.inj turn
    have effect : (.withIndex .kill r : Instruction Marker).effect P = .ok ⟨0, 0, 0⟩ :=
      Instruction.effect_of_isFixed rfl rfl
    rw [climb?_singleton]
    exact step?_of_effect (a := 0) effect
  · obtain ⟨is, fetch, climbs⟩ := Write.climb_values (fun x mem => not_stays_of_mem_tail does plain mem) read
    refine ⟨_, fetch.trans puts, fun P c c' writable turn => ?_⟩
    refine climb?_trans (climbs P c) ?_
    cases here : k.instruction? with
    | some i =>
      obtain ⟨-, -, effect⟩ := writable i here
      rw [Option.toList_some, climb?_singleton]
      have change : (c' : Int) = c + Edit.scopeChange k := by
        rw [NodeKind.scopeChange_eq]
        have walk : Turn.walk c [k.turn] = some c' := by
          rw [Turn.walk_cons, turn]
          rfl
        simpa using Turn.eq_add_of_walk walk
      refine step?_eq_some.2 ⟨_, effect, ⟨le_refl _, ?_⟩, ?_⟩
      · rw [NodeKind.demand, ← change]
        exact Int.natCast_nonneg _
      · rw [Level.after, NodeKind.demand, ← change, Nat.sub_self, Nat.zero_add, Int.toNat_natCast]
    | none =>
      -- Only a copy has no instruction of its own.
      cases k with
      | copy x =>
        obtain rfl := Option.some.inj turn
        rfl
      | phi inputs =>
        rw [inputs?, does] at plain
        cases plain
      | caught => exact absurd rfl other
      | _ => cases here

lemma climb_settles {temps : List (ValueId × Nat)} {js : List (Instruction Marker)}
    (settles : Write.Settles (Plan.ofFunc f) v k temps js) (P : Pool) (c : Nat) :
    climb? P ⟨k.producesValue.toNat, c⟩ js = some ⟨if v ∈ (Plan.ofFunc f).onStack then 1 else 0, c⟩ := by
  cases settles with
  | stays on =>
    cases result : k.producesValue with
    | true => rw [if_pos (on.2 result)]; rfl
    | false => rw [if_neg fun stays => by rw [on.1 stays] at result; cases result]; rfl
  | moves result off =>
    rw [result, if_neg off, climb?_singleton]
    exact step?_of_effect (a := 0) (Instruction.effect_setLocal _)
  | drops result off =>
    have effect : (⟨.pop, .none⟩ : Instruction Marker).effect P = .ok ⟨1, 0, 0⟩ := Instruction.effect_of_isFixed rfl rfl
    rw [result, if_neg off, climb?_singleton]
    exact step?_of_effect (a := 0) effect

lemma climb_node (listed : f.Listed) (split : f.body b = before ++ v :: rest) (other : f.kind? v ≠ some .caught)
    (run : (Write.node (Plan.ofFunc f) v).run d = .ok () d') : ∃ is, d'.written = d.written ++ is ∧
      ∀ P c c', f.Writable P → (f.turn v).after c = some c' →
        climb? P ⟨(Plan.ofFunc f).ahead (takenAt f b (v :: rest)), c⟩ is =
          some ⟨(Plan.ofFunc f).ahead (takenAt f b rest), c'⟩ := by
  obtain ⟨k, d₁, js, does, first, -, written, settles⟩ := Write.node_eq_ok run
  have mem : v ∈ f.body b := by
    rw [split]
    exact List.mem_append_right _ List.mem_cons_self
  have other : k ≠ .caught := by
    rintro rfl
    exact other does
  obtain ⟨is, puts, climbs⟩ := climb_effect does (listed.plain b v mem) other first
  refine ⟨is ++ js, by rw [written, puts.written, List.append_assoc], fun P c c' writable turn => ?_⟩
  have taken : takenAt f b (v :: rest) = k.operands := mem_taken_of_kind? does
  rw [turn_of_kind? does] at turn
  rw [taken, ahead_behind listed split]
  exact climb?_trans (climbs P c c' (writable.kind does) turn) (climb_settles settles P c')

/-- The exception is what the operand stack holds in front of the node that takes it. -/
lemma climb_caught (listed : f.Listed) (split : f.body b = v :: rest) (caught : f.kind? v = some .caught)
    (run : (Write.node (Plan.ofFunc f) v).run d = .ok () d') : ∃ is, d'.written = d.written ++ is ∧
      ∀ P c, climb? P ⟨1, c⟩ is = some ⟨(Plan.ofFunc f).ahead (takenAt f b rest), c⟩ := by
  obtain ⟨k, d₁, js, does, first, -, written, settles⟩ := Write.node_eq_ok run
  obtain rfl := Option.some.inj (caught.symm.trans does)
  obtain ⟨-, rfl⟩ := Write.pure_eq_ok.1 first
  refine ⟨js, written, fun P c => ?_⟩
  have split : f.body b = [] ++ v :: rest := split
  rw [ahead_behind listed split]
  exact climb_settles settles P c

lemma climb_laterNodes (listed : f.Listed) (split : f.body b = before ++ rest)
    (run : (Write.laterNodes (Plan.ofFunc f) b rest).run d = .ok () d') : ∃ is, d'.written = d.written ++ is ∧
      ∀ P c c', f.Writable P → Turn.walk c (rest.map f.turn) = some c' →
        climb? P ⟨(Plan.ofFunc f).ahead (takenAt f b rest), c⟩ is = some ⟨(Plan.ofFunc f).ahead (takenAt f b []),
          c'⟩ := by
  induction rest generalizing before d with
  | nil =>
    obtain ⟨-, rfl⟩ := Write.pure_eq_ok.1 run
    refine ⟨[], (List.append_nil _).symm, fun P c c' _ walk => ?_⟩
    obtain rfl := Option.some.inj walk
    rfl
  | cons v rest ih =>
    obtain ⟨other, d₁, first, later⟩ := Write.laterNodes_cons_eq_ok run
    obtain ⟨is, written, one⟩ := climb_node listed split other first
    rw [← List.singleton_append, ← List.append_assoc] at split
    obtain ⟨js, written', others⟩ := ih split later
    refine ⟨is ++ js, by rw [written', written, List.append_assoc], fun P c c' writable walk => ?_⟩
    rw [List.map_cons, Turn.walk_cons, Option.bind_eq_some_iff] at walk
    obtain ⟨m, turn, walk⟩ := walk
    exact climb?_trans (one P c m writable turn) (others P m c' writable walk)

/-- The nodes of a block lead from the exception, if the first one takes it, to what is taken at
the end of the block. -/
lemma climb_nodes (listed : f.Listed) (run : (Write.nodes (Plan.ofFunc f) b (f.body b)).run d = .ok () d') :
    ∃ is, d'.written = d.written ++ is ∧ ∀ P c c', f.Writable P → Turn.walk c ((f.body b).map f.turn) = some c' →
      climb? P ⟨(takesException f b).toNat, c⟩ is = some ⟨(Plan.ofFunc f).ahead (takenAt f b []), c'⟩ := by
  have front : (Plan.ofFunc f).ahead (takenAt f b (f.body b)) = 0 := ahead_front listed
  cases body : f.body b with
  | nil =>
    rw [body] at run front
    obtain ⟨-, rfl⟩ := Write.pure_eq_ok.1 run
    refine ⟨[], (List.append_nil _).symm, fun P c c' _ walk => ?_⟩
    obtain rfl := Option.some.inj walk
    rw [takesException, body, front]
    rfl
  | cons v rest =>
    rw [body] at run front
    obtain ⟨_, d₁, first, later⟩ := Write.bind_eq_ok.1 run
    have behind : f.body b = [v] ++ rest := body
    obtain ⟨js, written', others⟩ := climb_laterNodes listed behind later
    by_cases caught : f.kind? v = some .caught
    · have takes : takesException f b = true := by
        rw [takesException, body]
        exact beq_iff_eq.2 caught
      obtain ⟨is, written, one⟩ := climb_caught listed body caught first
      refine ⟨is ++ js, by rw [written', written, List.append_assoc], fun P c c' writable walk => ?_⟩
      rw [List.map_cons, Turn.walk_cons, turn_of_kind? caught] at walk
      rw [takes]
      exact climb?_trans (one P c) (others P c c' writable walk)
    · have takes : takesException f b = false := by
        rw [takesException, body]
        exact beq_eq_false_iff_ne.2 caught
      have split : f.body b = [] ++ v :: rest := body
      obtain ⟨is, written, one⟩ := climb_node listed split caught first
      refine ⟨is ++ js, by rw [written', written, List.append_assoc], fun P c c' writable walk => ?_⟩
      rw [List.map_cons, Turn.walk_cons, Option.bind_eq_some_iff] at walk
      obtain ⟨m, turn, walk⟩ := walk
      have one := one P c m writable turn
      rw [front] at one
      rw [takes]
      exact climb?_trans one (others P m c' writable walk)

/-- What is written up to the end of a block leads from the exception, if one comes to the block,
to what is taken at the end. -/
lemma climb_front (listed : f.Listed) (comes : takesException f b = true → f.handlers.any (·.target == b) = true)
    (run : (Write.front (Plan.ofFunc f) b).run d = .ok () d') : ∃ is, d'.written = d.written ++ is ∧
      ∀ P c c', f.Writable P → Turn.walk c ((f.body b).map f.turn) = some c' →
        climb? P ⟨(f.handlers.any (·.target == b)).toNat, c⟩ is = some ⟨(Plan.ofFunc f).ahead (takenAt f b []),
          c'⟩ := by
  obtain ⟨d₁, label, run⟩ := puts_behind run
  obtain ⟨d₂, pop, nodes⟩ := puts_behind run
  obtain ⟨is, written, through⟩ := climb_nodes listed nodes
  refine ⟨_, by rw [written, pop.written, label.written, List.append_assoc, List.append_assoc],
    fun P c c' writable walk => ?_⟩
  have labelled (a : Nat) :
      climb? P ⟨a, c⟩ (if isBackwardTarget f (Plan.ofFunc f).order b then [⟨.label, .none⟩] else []) = some ⟨a, c⟩ := by
    have effect : (⟨.label, .none⟩ : Instruction Marker).effect P = .ok ⟨0, 0, 0⟩ :=
      Instruction.effect_of_isFixed rfl rfl
    split
    · rw [climb?_singleton]
      exact step?_of_effect effect
    · rfl
  -- The exception stays where the first node takes it.
  have popped : climb? P ⟨(f.handlers.any (·.target == b)).toNat, c⟩
      (if f.handlers.any (·.target == b) && !takesException f b then [⟨.pop, .none⟩] else []) =
        some ⟨(takesException f b).toNat, c⟩ := by
    have effect : (⟨.pop, .none⟩ : Instruction Marker).effect P = .ok ⟨1, 0, 0⟩ := Instruction.effect_of_isFixed rfl rfl
    cases takes : takesException f b with
    | true => rw [comes takes]; rfl
    | false =>
      cases f.handlers.any (·.target == b) with
      | true => exact climb?_singleton.trans (step?_of_effect (a := 0) effect)
      | false => rfl
  exact climb?_trans (labelled _) (climb?_trans popped (through P c c' writable walk))

end Nodes

section Ends

/-- In front of what is written for the end of a block, the operand stack holds just what the end takes. -/
lemma climb_fetches (listed : f.Listed) (ends : f.terminator b = t) (fetches : Write.Fetches (Plan.ofFunc f) b t d d') :
    ∃ is, d'.written = d.written ++ is ∧
      ∀ P c, climb? P ⟨(Plan.ofFunc f).ahead ((Plan.ofFunc f).endOperands b t), c⟩ is =
        some ⟨t.operands.length, c⟩ := by
  have off : ∀ x ∈ ((Plan.ofFunc f).endOperands b t).tail, (Plan.ofFunc f).stays x = false := by
    rw [Plan.endOperands]
    split
    · rename_i kind target only
      cases moved : (Plan.ofFunc f).phiMoves b kind target with
      | error e => exact fun _ mem => absurd mem List.not_mem_nil
      | ok ms => exact not_stays_of_mem_phiMoves listed moved
    · rw [← ends]
      exact fun x => not_stays_of_mem_last
  obtain ⟨vs, d₁, fetched, popped, same⟩ := fetches
  obtain ⟨is, fetch, deeper⟩ := Write.climb_values off fetched
  obtain ⟨js, written, shallower⟩ := Write.climb_popInto popped
  refine ⟨is ++ js, by rw [written, fetch.written, List.append_assoc], fun P c => climb?_trans (deeper P c) ?_⟩
  rw [same]
  exact shallower P _ c

/-- The first instruction of an end takes what the end takes, so the operand stack is empty behind it. -/
lemma Closes.climbs {ks : List (Instruction Marker)} (h : Closes p b t ks) (writable : t.Writable) (P : Pool)
    (c n : Nat) :
    climb? P ⟨t.operands.length, c⟩ (ks.take (n + 1)) = some ⟨0, c⟩ := by
  have takes {a : Nat} {i : Instruction Marker} (fixed : i.opcode.isFixed = true) (pops : i.opcode.info.pops = a)
      (same : i.opcode.info.pushes = 0 ∧ i.opcode.info.scope = 0) : step? P ⟨a, c⟩ i = some ⟨0, c⟩ := by
    have effect : i.effect P = .ok ⟨a, 0, 0⟩ := by
      rw [Instruction.effect_of_isFixed rfl fixed, pops, same.1, same.2]
    rw [← Nat.zero_add a]
    exact step?_of_effect effect
  have jump {m : Marker} : step? P ⟨0, c⟩ (.branch .jump m) = some ⟨0, c⟩ := takes rfl rfl ⟨rfl, rfl⟩
  have one {a : Nat} {i : Instruction Marker} (step : step? P ⟨a, c⟩ i = some ⟨0, c⟩) :
      climb? P ⟨a, c⟩ ([i].take (n + 1)) = some ⟨0, c⟩ := by
    rw [List.take_succ_cons, List.take_nil, climb?_singleton, step]
  cases h with
  | falls only next => rw [Write.length_operands_of_onlyEdge? only]; rfl
  | jumps only known =>
    rw [Write.length_operands_of_onlyEdge? only]
    exact one jump
  | @inverts kind xs onTrue onFalse o m inverse =>
    have arity : xs.length = kind.arity := writable
    refine one (takes ?_ ?_ ?_)
    · cases kind <;> cases inverse <;> rfl
    · rw [Terminator.operands, arity]
      cases kind <;> cases inverse <;> rfl
    · cases kind <;> cases inverse <;> exact ⟨rfl, rfl⟩
  | @branches kind xs =>
    have arity : xs.length = kind.arity := writable
    refine one (takes ?_ ?_ ?_)
    · cases kind <;> rfl
    · rw [Terminator.operands, arity]
      cases kind <;> rfl
    · cases kind <;> exact ⟨rfl, rfl⟩
  | @parts kind xs _ _ m m' =>
    have arity : xs.length = kind.arity := writable
    have first : step? P ⟨xs.length, c⟩ (.branch kind.opcode m) = some ⟨0, c⟩ := by
      refine takes ?_ ?_ ?_
      · cases kind <;> rfl
      · rw [arity]
        cases kind <;> rfl
      · cases kind <;> exact ⟨rfl, rfl⟩
    cases n with
    | zero => exact climb?_singleton.trans first
    | succ n =>
      rw [List.take_succ_cons, List.take_succ_cons, List.take_nil, Terminator.operands, climb?_cons, first,
        Option.bind_some, climb?_singleton, jump]
  | switches | leaves | returns | raises => exact one (takes rfl rfl ⟨rfl, rfl⟩)

end Ends

section Blocks

variable {pool : Pool} {j : Nat}

/-- Each block that is placed finds what it takes up to its end, if it is entered with the
exception where there is one. -/
lemma exists_climbing (listed : f.Listed) (comes : takesException f b = true → f.handlers.any (·.target == b) = true)
    (written : (Write.blocks (Plan.ofFunc f) (Plan.ofFunc f).order).run (.start (Plan.ofFunc f) pool) = .ok () d)
    (placed : (Plan.ofFunc f).order[j]? = some b) : ∃ js ks s t, d.Holds (Plan.ofFunc f) j b js ks s t ∧
      ∀ P c c', f.Writable P → Turn.walk c ((f.body b).map f.turn) = some c' →
        climb? P ⟨(f.handlers.any (·.target == b)).toNat, c⟩ js = some ⟨(f.terminator b).operands.length, c'⟩ := by
  obtain ⟨js, ks, s, t, d₁, d₂, d₃, holds, front, fetches, parts⟩ := exists_parts (nodup_order f) written placed
  obtain ⟨is, first, climbs⟩ := climb_front listed comes front
  obtain ⟨is', rest, climbs'⟩ := climb_fetches listed rfl fetches
  obtain rfl : is ++ is' = js := List.append_cancel_left (by rw [← parts, rest, first, List.append_assoc])
  exact ⟨_, ks, s, t, holds, fun P c c' writable walk => climb?_trans (climbs P c c' writable walk) (climbs' P c')⟩

end Blocks

end Emit

end Avm
