import Avm.Proofs.Emit.Ordering
import Avm.Proofs.Emit.Protecting
import Avm.Proofs.Emit.Purposes

/-!
# The ends of blocks

A block is written as instructions that hand control to what comes next, and behind them its end.  Nothing is written
for the end if the block only goes on to the one that comes next, and one branch if a choice does so on one of its ways.
The last block never goes on to the next one, so it has an end that hands control elsewhere.  So the code is not empty,
and each block starts at an instruction.

The main statement is `bounds_lt_of_blocks`: each block starts at an instruction.
-/

namespace Avm.Emit

open Avm.Ir Avm.Ir.Func

/-- The marker of a block. -/
abbrev Plan.marker? (p : Plan) (b : BlockId) : Option Marker := p.order.findIdx? (· == b)

/-- What is written for the end of a block, behind the values that it takes and the phis that it sets. -/
inductive Closes (p : Plan) (b : BlockId) : Terminator → List (Instruction Marker) → Prop
  | falls {t : Terminator} {kind : EdgeKind} {target : BlockId} : Plan.onlyEdge? t = some (kind, target) →
    next? p.order b = some target → Closes p b t []
  | jumps {t : Terminator} {kind : EdgeKind} {target : BlockId} {m : Marker} : Plan.onlyEdge? t = some (kind, target) →
    p.marker? target = some m → Closes p b t [.branch .jump m]
  | inverts {kind : BranchKind} {xs : List Value} {onTrue onFalse : BlockId} {o : Opcode} {m : Marker} :
    kind.opcode.inverseBranch = some o → next? p.order b = some onTrue → p.marker? onFalse = some m →
      Closes p b (.branch kind xs onTrue onFalse) [.branch o m]
  | branches {kind : BranchKind} {xs : List Value} {onTrue onFalse : BlockId} {m : Marker} :
    p.marker? onTrue = some m → next? p.order b = some onFalse →
      Closes p b (.branch kind xs onTrue onFalse) [.branch kind.opcode m]
  | parts {kind : BranchKind} {xs : List Value} {onTrue onFalse : BlockId} {m m' : Marker} :
    p.marker? onTrue = some m → p.marker? onFalse = some m' →
      Closes p b (.branch kind xs onTrue onFalse) [.branch kind.opcode m, .branch .jump m']
  | switches {index : Value} {default : BlockId} {cases : List BlockId} {m : Marker} {ms : List Marker} :
    p.marker? default = some m → List.Forall₂ (fun c m => p.marker? c = some m) cases ms →
      Closes p b (.switch index default cases) [.switch m ms]
  | leaves : Closes p b (.leave none) [⟨.returnVoid, .none⟩]
  | returns {x : Value} : Closes p b (.leave (some x)) [⟨.returnValue, .none⟩]
  | raises {x : Value} : Closes p b (.raise x) [⟨.throw, .none⟩]

variable {p : Plan} {d d' : Draft} {b target : BlockId} {t : Terminator} {ks : List (Instruction Marker)}
  {i : Instruction Marker} {pool : Pool} {j q : Nat}

namespace Write

lemma labels_eq_ok {bs : List BlockId} {ms : List Marker} (run : (labels p bs).run d = .ok ms d') :
    List.Forall₂ (fun b m => p.marker? b = some m) bs ms ∧ d' = d := by
  induction bs generalizing ms with
  | nil =>
    obtain ⟨rfl, rfl⟩ := pure_eq_ok.1 run
    exact ⟨.nil, rfl⟩
  | cons b bs ih =>
    obtain ⟨m, d₁, first, rest⟩ := bind_eq_ok.1 run
    obtain ⟨known, rfl⟩ := label_eq_ok.1 first
    obtain ⟨ms', d₂, others, last⟩ := bind_eq_ok.1 rest
    obtain ⟨rfl, rfl⟩ := pure_eq_ok.1 last
    obtain ⟨all, rfl⟩ := ih others
    exact ⟨.cons known all, rfl⟩

lemma jumpTo_eq_ok {u : Unit} (run : (jumpTo p b target).run d = .ok u d') :
    next? p.order b = some target ∧ d' = d ∨
      ∃ m, p.marker? target = some m ∧ Draft.Puts [.branch .jump m] d d' := by
  rw [jumpTo] at run
  split at run
  · obtain ⟨m, d₁, labelled, pushed⟩ := bind_eq_ok.1 run
    obtain ⟨known, rfl⟩ := label_eq_ok.1 labelled
    exact .inr ⟨m, known, puts_push pushed⟩
  · rename_i next
    obtain ⟨-, rfl⟩ := pure_eq_ok.1 run
    exact .inl ⟨by simpa using next, rfl⟩

lemma branch_eq_ok {kind : BranchKind} {xs : List Value} {onTrue onFalse : BlockId} {u : Unit}
    (run : (terminator p b (.branch kind xs onTrue onFalse)).run d = .ok u d') :
    ∃ d₁ ks, (values p xs).run d = .ok () d₁ ∧ Closes p b (.branch kind xs onTrue onFalse) ks ∧
      Draft.Puts ks d₁ d' := by
  obtain ⟨_, d₁, fetched, rest⟩ := bind_eq_ok.1 run
  refine ⟨d₁, ?_⟩
  split at rest
  · rename_i o inverse next
    obtain ⟨m, d₂, labelled, pushed⟩ := bind_eq_ok.1 rest
    obtain ⟨known, rfl⟩ := label_eq_ok.1 labelled
    exact ⟨_, fetched, .inverts inverse (beq_iff_eq.1 next) known, puts_push pushed⟩
  · obtain ⟨m, d₂, labelled, more⟩ := bind_eq_ok.1 rest
    obtain ⟨known, rfl⟩ := label_eq_ok.1 labelled
    obtain ⟨_, d₃, pushed, last⟩ := bind_eq_ok.1 more
    obtain ⟨next, rfl⟩ | ⟨m', known', jumped⟩ := jumpTo_eq_ok last
    · exact ⟨_, fetched, .branches known next, puts_push pushed⟩
    · exact ⟨_, fetched, .parts known known', (puts_push pushed).trans jumped⟩

/-- What the end of a block takes is fetched, and what phis take is popped into them. -/
def Fetches (p : Plan) (b : BlockId) (t : Terminator) (d d' : Draft) : Prop :=
  ∃ vs d₁, (values p (p.endOperands b t)).run d = .ok () d₁ ∧ (popInto vs).run d₁ = .ok () d' ∧
    (p.endOperands b t).length = t.operands.length + vs.length

lemma Fetches.adds (h : Fetches p b t d d') : Draft.Adds p d d' := by
  obtain ⟨vs, d₁, fetched, popped, -⟩ := h
  exact (isMeant_values _ _ _ _ fetched).trans (isMeant_popInto vs _ _ _ popped)

lemma Fetches.of_values (chooses : Plan.onlyEdge? t = none) (run : (values p t.operands).run d = .ok () d') :
    Fetches p b t d d' := by
  have taken : p.endOperands b t = t.operands := by rw [Plan.endOperands, chooses]
  exact ⟨[], d', by rwa [taken], rfl, by rw [taken]; rfl⟩

lemma length_operands_of_onlyEdge? {kind : EdgeKind} (only : Plan.onlyEdge? t = some (kind, target)) :
    t.operands.length = 0 := by
  cases t with
  | goto | jump => rfl
  | _ => cases only

lemma edge_eq_ok {kind : EdgeKind} {u : Unit} (only : Plan.onlyEdge? t = some (kind, target))
    (run : (do moves p b kind target; jumpTo p b target).run d = .ok u d') :
    ∃ d₁ ks, Fetches p b t d d₁ ∧ Closes p b t ks ∧ Draft.Puts ks d₁ d' := by
  obtain ⟨_, d₁, moved, last⟩ := bind_eq_ok.1 run
  have fetches : Fetches p b t d d₁ := by
    obtain ⟨ms, d₂, asked, rest⟩ := bind_eq_ok.1 moved
    obtain ⟨listing, rfl⟩ := ofExcept_eq_ok.1 asked
    obtain ⟨_, d₃, fetched, popped⟩ := bind_eq_ok.1 rest
    have taken : p.endOperands b t = ms.map (·.2) := by
      rw [Plan.endOperands, only]
      dsimp only
      rw [listing]
      rfl
    exact ⟨_, d₃, by rwa [taken], popped, by rw [taken, length_operands_of_onlyEdge? only]; simp⟩
  obtain ⟨next, rfl⟩ | ⟨m, known, jumped⟩ := jumpTo_eq_ok last
  · exact ⟨d', [], fetches, .falls only next, .refl d'⟩
  · exact ⟨d₁, _, fetches, .jumps only known, jumped⟩

lemma terminator_eq_ok {u : Unit} (run : (terminator p b t).run d = .ok u d') :
    ∃ d₁ ks, Fetches p b t d d₁ ∧ Closes p b t ks ∧ Draft.Puts ks d₁ d' := by
  cases t with
  | goto target | jump target => exact edge_eq_ok rfl run
  | branch kind xs onTrue onFalse =>
    obtain ⟨d₁, ks, fetched, closes, puts⟩ := branch_eq_ok run
    exact ⟨d₁, ks, .of_values rfl fetched, closes, puts⟩
  | switch index default cases =>
    obtain ⟨_, d₁, fetched, rest⟩ := bind_eq_ok.1 run
    obtain ⟨m, d₂, labelled, more⟩ := bind_eq_ok.1 rest
    obtain ⟨known, rfl⟩ := label_eq_ok.1 labelled
    obtain ⟨ms, d₃, others, last⟩ := bind_eq_ok.1 more
    obtain ⟨all, rfl⟩ := labels_eq_ok others
    exact ⟨d₃, _, .of_values rfl (values_singleton fetched), .switches known all, puts_pushChecked last⟩
  | leave x =>
    cases x with
    | none => exact ⟨d, _, .of_values rfl rfl, .leaves, puts_push run⟩
    | some x =>
      obtain ⟨_, d₁, fetched, last⟩ := bind_eq_ok.1 run
      exact ⟨d₁, _, .of_values rfl (values_singleton fetched), .returns, puts_push last⟩
  | raise x =>
    obtain ⟨_, d₁, fetched, last⟩ := bind_eq_ok.1 run
    exact ⟨d₁, _, .of_values rfl (values_singleton fetched), .raises, puts_push last⟩
  | none => exact absurd run throw_ne_ok

end Write

/-- Of a draft, the block with a number has its instructions between two positions. -/
structure Draft.Holds (p : Plan) (d : Draft) (j : Nat) (b : BlockId) (js ks : List (Instruction Marker)) (s t : Nat) :
    Prop where
  placed : p.order[j]? = some b
  starts : d.bounds[j]? = some s
  stops : d.bounds[j + 1]? = some t
  within : ∃ before after, d.written = before ++ (js ++ ks) ++ after ∧ before.length = s ∧ s + (js ++ ks).length = t
  meant : ∀ i ∈ js, Purpose p d.temps i
  closes : Closes p b (p.func.terminator b) ks
  label : isBackwardTarget p.func p.order b = true → js.head? = some ⟨.label, .none⟩

lemma Draft.length_written (d : Draft) : d.written.length = d.code.size := List.length_map _

lemma next?_eq {order : List BlockId} (once : order.Nodup) (placed : order[j]? = some b) :
    next? order b = order[j + 1]? := by
  rw [next?, (findIdx?_beq_eq_some once).2 placed, Option.bind_some]

/-- An element lies between two neighbours of a list that starts below it and ends above it. -/
lemma exists_between {l : List Nat} {n first last : Nat} (starts : l[0]? = some first) (above : first ≤ q)
    (stops : l[n]? = some last) (below : q < last) : ∃ j s t, l[j]? = some s ∧ l[j + 1]? = some t ∧ s ≤ q ∧ q < t := by
  induction n generalizing last with
  | zero =>
    obtain rfl := Option.some.inj (starts.symm.trans stops)
    exact absurd below (Nat.not_lt.2 above)
  | succ n ih =>
    have inside : n < l.length := Nat.lt_of_succ_lt (List.getElem?_eq_some_iff.1 stops).1
    by_cases early : l[n] ≤ q
    · exact ⟨n, l[n], last, List.getElem?_eq_getElem inside, stops, early, below⟩
    · exact ih (List.getElem?_eq_getElem inside) (Nat.lt_of_not_le early)

/-- The instruction never hands control to the next one. -/
def departs (i : Instruction Marker) : Prop := i.opcode.flow ≠ .next ∧ i.opcode.flow ≠ .conditional

lemma Closes.elsewhere (h : Closes p b t ks) (last : next? p.order b = none) : ∃ is i, ks = is ++ [i] ∧ departs i := by
  cases h with
  | falls only next | inverts inverse next | branches known next =>
    rw [last] at next
    cases next
  | jumps => exact ⟨[], _, rfl, by simp [departs, Instruction.branch]; decide⟩
  | parts => exact ⟨[_], _, rfl, by simp [departs, Instruction.branch]; decide⟩
  | switches => exact ⟨[], _, rfl, by simp [departs, Instruction.switch]; decide⟩
  | leaves | returns | raises => exact ⟨[], _, rfl, by simp [departs]; decide⟩

section Written

variable (once : p.order.Nodup) (written : (Write.blocks p p.order).run (.start p pool) = .ok () d)
include once written

lemma exists_block (placed : p.order[j]? = some b) : ∃ before after m d₁ d₂, p.order = before ++ b :: after ∧
    (Write.blocks p before).run (.start p pool) = .ok () d₁ ∧ (Write.label p b).run d₁ = .ok m d₁ ∧
      (Write.block p b).run (Write.opened m d₁) = .ok () d₂ ∧ Draft.Grows p d₂ d ∧ d.bounds[j]? = some d₁.code.size ∧
        d.bounds[j + 1]? = some d₂.code.size := by
  have inside := (List.getElem?_eq_some_iff.1 placed).1
  have split : p.order = p.order.take j ++ b :: p.order.drop (j + 1) := by
    rw [← (List.getElem?_eq_some_iff.1 placed).2, ← List.drop_eq_getElem_cons, List.take_append_drop]
  have run := written
  rw [split, Write.blocks_append] at run
  obtain ⟨d₁, first, rest⟩ := run
  obtain ⟨m, d₂, labelled, here, last⟩ := Write.blocks_cons_eq_ok.1 rest
  have one : (Write.blocks p [b]).run d₁ = .ok () d₂ := Write.blocks_cons_eq_ok.2 ⟨m, d₂, labelled, here, rfl⟩
  have spans : Spans p pool b d₁.code.size d₂.code.size := ⟨_, _, d₁, d₂, split, first, one, rfl, rfl⟩
  obtain ⟨j', placed', starts, stops⟩ := bounds_of_spans written once spans
  obtain rfl : j = j' := (List.getElem?_inj inside once).1 (placed.trans placed'.symm)
  exact ⟨_, _, m, d₁, d₂, split, first, labelled, here, Write.isGrowth_blocks _ _ _ _ last, starts, stops⟩

/-- Each block that is placed is written in parts: its front, what its end takes, and the end. -/
lemma exists_parts (placed : p.order[j]? = some b) : ∃ js ks s t d₁ d₂ d₃, d.Holds p j b js ks s t ∧
    (Write.front p b).run d₁ = .ok () d₂ ∧ Write.Fetches p b (p.func.terminator b) d₂ d₃ ∧
      d₃.written = d₁.written ++ js := by
  obtain ⟨-, -, m, d₀, d₄, -, -, -, here, grows, starts, stops⟩ := exists_block once written placed
  obtain ⟨-, d₂, front, last⟩ := Write.block_eq_ok.1 here
  obtain ⟨is, written₁, meant, -, label⟩ := Write.front_adds front
  obtain ⟨d₃, ks, fetches, closes, puts⟩ := Write.terminator_eq_ok last
  obtain ⟨js, written₂, meant'⟩ := fetches.adds.instrs
  obtain ⟨more, behind⟩ := grows.written
  have parts : d₄.written = d₀.written ++ (is ++ js ++ ks) := by
    have opened : (Write.opened m d₀).written = d₀.written := rfl
    simp only [puts.written, written₂, written₁, opened, List.append_assoc]
  refine ⟨is ++ js, ks, _, _, Write.opened m d₀, d₂, d₃, ⟨placed, starts, stops,
    ⟨d₀.written, more, by rw [← behind, parts], d₀.length_written, ?_⟩, fun i mem => ?_, closes, fun back => ?_⟩, front,
    fetches, by rw [written₂, written₁, List.append_assoc]⟩
  · rw [← d₀.length_written, ← d₄.length_written, parts, ← List.length_append]
  · refine Purpose.mono ?_ grows.temps
    rw [puts.temps]
    obtain mem | mem := List.mem_append.1 mem
    · exact (meant i mem).mono fetches.adds.temps
    · exact meant' i mem
  · rw [List.head?_append, label back]
    rfl

lemma exists_holds (placed : p.order[j]? = some b) : ∃ js ks s t, d.Holds p j b js ks s t := by
  obtain ⟨js, ks, s, t, -, -, -, holds, -⟩ := exists_parts once written placed
  exact ⟨js, ks, s, t, holds⟩

/-- Where blocks start is noted for all of them, and the code ends behind the last one. -/
lemma laid_of_blocks : Draft.Laid p p.order.length d := by
  have none : Draft.Laid p ([] : List BlockId).length (.start p pool) := .start p pool
  exact (none.blocks once (show p.order = [] ++ p.order ++ [] from (List.append_nil _).symm) written).1

lemma getElem?_bounds_length : d.bounds[p.order.length]? = some d.code.size := by
  have count := (laid_of_blocks once written).count
  rw [Draft.bounds, ← count, List.getElem?_append_right (Nat.le_refl _), Nat.sub_self]
  rfl

lemma getElem?_bounds_zero : d.bounds[0]? = some 0 := by
  cases order : p.order with
  | nil =>
    rw [order] at written
    obtain ⟨-, rfl⟩ := Write.pure_eq_ok.1 written
    rfl
  | cons b bs =>
    have none : Draft.Laid p ([] : List BlockId).length (.start p pool) := .start p pool
    obtain ⟨-, -, starts⟩ := none.blocks once (show p.order = [] ++ p.order ++ [] from (List.append_nil _).symm) written
    have first : d.starts[0]? = some 0 := starts (by rw [order]; exact List.cons_ne_nil b bs)
    rw [Draft.bounds, List.getElem?_append_left (List.getElem?_eq_some_iff.1 first).1, first]

lemma exists_holds_of_lt (inside : q < d.code.size) :
    ∃ j b js ks s t, d.Holds p j b js ks s t ∧ s ≤ q ∧ q < t := by
  obtain ⟨j, s, t, starts, stops, above, below⟩ := exists_between (getElem?_bounds_zero once written) (Nat.zero_le q)
    (getElem?_bounds_length once written) inside
  have placed : j < p.order.length := by
    have there := (List.getElem?_eq_some_iff.1 stops).1
    rw [Draft.bounds, List.length_append, (laid_of_blocks once written).count, List.length_singleton] at there
    omega
  obtain ⟨js, ks, s', t', holds⟩ := exists_holds once written (List.getElem?_eq_getElem placed)
  obtain rfl := Option.some.inj (starts.symm.trans holds.starts)
  obtain rfl := Option.some.inj (stops.symm.trans holds.stops)
  exact ⟨j, _, js, ks, s, t, holds, above, below⟩

variable (nonempty : p.order ≠ [])
include nonempty

/-- The last block has an instruction, and the code ends with one that hands control elsewhere. -/
lemma exists_last : ∃ s is i, d.bounds[p.order.length - 1]? = some s ∧ s < d.code.size ∧ d.written = is ++ [i] ∧
    departs i := by
  have inside : p.order.length - 1 < p.order.length := Nat.sub_lt (List.length_pos_iff.2 nonempty) Nat.one_pos
  obtain ⟨js, ks, s, t, holds⟩ := exists_holds once written (List.getElem?_eq_getElem inside)
  have behind : p.order.length - 1 + 1 = p.order.length := Nat.sub_add_cancel (List.length_pos_iff.2 nonempty)
  have last : next? p.order p.order[p.order.length - 1] = none := by
    rw [next?_eq once holds.placed, behind, List.getElem?_eq_none (Nat.le_refl _)]
  obtain ⟨is, i, rfl, departs⟩ := holds.closes.elsewhere last
  obtain ⟨before, after, parts, start, stop⟩ := holds.within
  have ends := holds.stops
  rw [behind, getElem?_bounds_length once written, Option.some.injEq] at ends
  have length := congrArg List.length parts
  simp only [Draft.length_written, List.length_append, List.length_singleton] at length stop
  obtain rfl : after = [] := List.length_eq_zero_iff.1 (by omega)
  exact ⟨s, before ++ js ++ is, i, holds.starts, by omega, by rw [parts]; simp, departs⟩

/-- Each block starts at an instruction. -/
theorem bounds_lt_of_blocks {s : Nat} (placed : j < p.order.length) (starts : d.bounds[j]? = some s) :
    s < d.code.size := by
  obtain ⟨s', -, -, last, less, -⟩ := exists_last once written nonempty
  have laid := laid_of_blocks once written
  refine Nat.lt_of_le_of_lt ?_ less
  have rising : d.bounds.Pairwise (· ≤ ·) := by
    refine List.pairwise_append.2 ⟨laid.rising, List.pairwise_singleton _ _, fun s mem s' mem' => ?_⟩
    rw [List.mem_singleton.1 mem']
    exact laid.within s mem
  obtain ⟨there, rfl⟩ := List.getElem?_eq_some_iff.1 starts
  obtain ⟨there', rfl⟩ := List.getElem?_eq_some_iff.1 last
  rcases Nat.eq_or_lt_of_le (Nat.le_sub_one_of_lt placed) with rfl | less
  · exact Nat.le_refl _
  · exact List.pairwise_iff_getElem.1 rising _ _ there there' less

end Written

end Avm.Emit
