import Avm.Proofs.Emit.Fetching
import Avm.Proofs.Ir.Places
import Avm.Proofs.Opt.Ranking

/-!
# Nodes that stay on the operand stack

A node leaves its result on the operand stack only if there is one operand in the whole graph that takes it, and that is
the first operand of what comes next in its block: of the next node, or behind the body of what the block takes at its
end.  So of the operands that are taken together only the first one can be on the stack, and if it is, the node just
before has left it there.

The main statements are `Plan.mem_onStack`, `not_stays_of_mem_tail` for the operands of a node, and
`not_stays_of_mem_phiMoves` for the values of phis.
-/

namespace Avm

open Ir

section Counting

variable {α β : Type} [BEq β] {l : List α} {g : α → List β} {a : β} {x y : α}

lemma count_le_count_flatMap (mem : x ∈ l) : (g x).count a ≤ (l.flatMap g).count a := by
  induction l with
  | nil => cases mem
  | cons z l ih =>
    rw [List.flatMap_cons, List.count_append]
    rcases List.mem_cons.1 mem with rfl | later
    · exact Nat.le_add_right _ _
    · exact Nat.le_trans (ih later) (Nat.le_add_left _ _)

lemma eq_of_count_flatMap_le_one [LawfulBEq β] (once : (l.flatMap g).count a ≤ 1) (mem : x ∈ l) (mem' : y ∈ l)
    (here : a ∈ g x)
    (there : a ∈ g y) : x = y := by
  induction l with
  | nil => cases mem
  | cons z l ih =>
    rw [List.flatMap_cons, List.count_append] at once
    have counted {w : α} (later : w ∈ l) (has : a ∈ g w) : 0 < (l.flatMap g).count a :=
      Nat.lt_of_lt_of_le (List.count_pos_iff.2 has) (count_le_count_flatMap later)
    rcases List.mem_cons.1 mem with rfl | later
    · rcases List.mem_cons.1 mem' with rfl | later'
      · rfl
      · have := counted later' there
        have := List.count_pos_iff.2 here
        omega
    · rcases List.mem_cons.1 mem' with rfl | later'
      · have := counted later here
        have := List.count_pos_iff.2 there
        omega
      · exact ih (by omega) later later'

end Counting

namespace Ir

/-- What takes operands: a node, or the end of a block. -/
inductive Taker where
  | node (v : ValueId)
  | last (b : BlockId)
deriving DecidableEq

namespace Func

variable {f : Func} {v w : ValueId} {b c : BlockId} {t t' : Taker}

/-- The operands that something takes. -/
def taken (f : Func) : Taker → List Value
  | .node v => ((f.kind? v).map NodeKind.operands).getD []
  | .last b => (f.terminator b).operands

/-- Everything that may take operands. -/
def takers (f : Func) : List Taker := (List.range f.nodes.size).map .node ++ f.blockIds.map .last

lemma allOperands_eq (f : Func) : f.allOperands = f.takers.flatMap f.taken := by
  rw [allOperands, takers, List.flatMap_append, List.flatMap_map, List.flatMap_map]
  refine congrArg (· ++ _) ?_
  rw [nodeOperands, allNodes, ← Opt.Inlining.map_node?_range, List.filterMap_map, List.filterMap_eq_flatMap_toList,
    List.flatMap_assoc]
  refine List.flatMap_congr fun v _ => ?_
  cases does : f.node? v <;> simp [taken, kind?, does]

lemma mem_takers {x : Value} (mem : x ∈ f.taken t) : t ∈ f.takers := by
  cases t with
  | node v =>
    cases does : f.node? v with
    | none => simp [taken, kind?, does] at mem
    | some n =>
      refine List.mem_append_left _ (List.mem_map_of_mem (List.mem_range.2 (lt_size_of_node? ?_)))
      rw [does]
      rfl
  | last b =>
    cases here : f.block? b with
    | none => simp [taken, terminator, here, Terminator.operands] at mem
    | some x =>
      refine List.mem_append_right _ (List.mem_map_of_mem (mem_blockIds.2 ?_))
      rw [here]
      rfl

lemma mem_allOperands_of_taken {x : Value} (mem : x ∈ f.taken t) : x ∈ f.allOperands := by
  rw [allOperands_eq]
  exact List.mem_flatMap.2 ⟨t, mem_takers mem, mem⟩

lemma only_taker (once : (f.allOperands.filterMap Value.node?).count v = 1) (takes : .node v ∈ f.taken t)
    (takes' : .node v ∈ f.taken t') : t = t' ∧ (f.taken t).count (.node v) = 1 := by
  have counts : (f.allOperands.filterMap Value.node?).count v = f.allOperands.count (.node v) := by
    rw [List.count_filterMap, List.count]
    refine List.countP_congr fun x _ => ?_
    cases x <;> simp [Value.node?]
  rw [counts, allOperands_eq] at once
  have mem := mem_takers takes
  refine ⟨eq_of_count_flatMap_le_one once.le mem (mem_takers takes') takes takes', Nat.le_antisymm ?_ ?_⟩
  · exact Nat.le_trans (count_le_count_flatMap mem) once.le
  · exact List.count_pos_iff.2 takes

end Func

end Ir

namespace Emit

open Ir.Func

variable {f : Func} {p : Plan} {v w : ValueId} {b c : BlockId} {x : Value} {xs last : List Value}
  {body rest : List ValueId}
  {t : Taker}

/-- What is taken behind a node of a body, where the nodes behind it and what the block takes at its end are given. -/
def Plan.takenBehind (p : Plan) (last : List Value) : List ValueId → List Value
  | next :: _ => p.func.taken (.node next)
  | [] => last

lemma Plan.staying_cons : p.staying last (w :: body) =
    if p.mayStay w && (p.takenBehind last body).head? == some (.node w) then w :: p.staying last body
    else p.staying last body := by
  cases body <;> rfl

lemma Plan.mem_staying : v ∈ p.staying last body ↔ ∃ before rest, body = before ++ v :: rest ∧ p.mayStay v = true ∧
    (p.takenBehind last rest).head? = some (.node v) := by
  induction body with
  | nil => simp [staying]
  | cons w body ih =>
    -- The node is the first one, or stays among those behind it.
    have split : (∃ before rest, w :: body = before ++ v :: rest ∧ p.mayStay v = true ∧
        (p.takenBehind last rest).head? = some (.node v)) ↔
          (v = w ∧ p.mayStay w = true ∧ (p.takenBehind last body).head? = some (.node w)) ∨
            v ∈ p.staying last body := by
      rw [ih]
      constructor
      · rintro ⟨before, rest, same, stays, next⟩
        cases before with
        | nil =>
          obtain ⟨rfl, rfl⟩ := List.cons.inj same
          exact .inl ⟨rfl, stays, next⟩
        | cons u before => exact .inr ⟨before, rest, (List.cons.inj same).2, stays, next⟩
      · rintro (⟨rfl, stays, next⟩ | ⟨before, rest, rfl, stays, next⟩)
        · exact ⟨[], body, rfl, stays, next⟩
        · exact ⟨w :: before, rest, rfl, stays, next⟩
    rw [split, Plan.staying_cons]
    split
    · rename_i here
      rw [Bool.and_eq_true, beq_iff_eq] at here
      rw [List.mem_cons]
      exact or_congr_left ⟨fun same => ⟨same, here⟩, And.left⟩
    · rename_i not
      rw [Bool.and_eq_true, beq_iff_eq] at not
      exact (or_iff_right fun first => not first.2).symm

/-- A node stays on the stack if it may, and what is taken next takes it first. -/
theorem Plan.mem_onStack : v ∈ (Plan.ofFunc f).onStack ↔ ∃ b ∈ Emit.order f, ∃ before rest,
    f.body b = before ++ v :: rest ∧
    (Plan.ofFunc f).mayStay v = true ∧
      ((Plan.ofFunc f).takenBehind ((Plan.ofFunc f).endOperands b (f.terminator b)) rest).head? = some (.node v) := by
  rw [Plan.ofFunc]
  dsimp only
  rw [List.mem_flatMap]
  refine exists_congr fun b => and_congr_right fun _ => ?_
  cases here : f.block? b with
  | none => simp [(parts_of_isNone here).2.1]
  | some x =>
    rw [body_of_block? here, terminator_of_block? here]
    exact Plan.mem_staying

section Takers

variable {before : List ValueId} {kind : EdgeKind} {target : BlockId} {ms : List (ValueId × Value)}
  {m : ValueId × Value}
  {k : NodeKind}

lemma mem_taken_of_kind? (does : f.kind? w = some k) : f.taken (.node w) = k.operands := by
  rw [taken, does]
  rfl

lemma mem_taken_of_incoming (into : f.incoming w b kind = some x) : x ∈ f.taken (.node w) := by
  obtain ⟨is, inputs, found⟩ := Option.bind_eq_some_iff.1 into
  obtain ⟨i, listed, -, -, rfl⟩ := exists_of_incoming? found
  obtain ⟨k, does, takes⟩ := Option.bind_eq_some_iff.1 inputs
  rw [mem_taken_of_kind? does]
  cases k with
  | phi is' =>
    obtain rfl := Option.some.inj takes
    exact List.mem_map_of_mem listed
  | _ => cases takes

lemma eq_edge_of_incoming {kind' : EdgeKind} (once : (f.taken (.node w)).count x = 1)
    (into : f.incoming w b kind = some x) (into' : f.incoming w c kind' = some x) : b = c ∧ kind = kind' := by
  obtain ⟨is, inputs, found⟩ := Option.bind_eq_some_iff.1 into
  obtain ⟨is', inputs', found'⟩ := Option.bind_eq_some_iff.1 into'
  obtain rfl := Option.some.inj (inputs.symm.trans inputs')
  obtain ⟨i, listed, rfl, rfl, worth⟩ := exists_of_incoming? found
  obtain ⟨j, listed', rfl, rfl, worth'⟩ := exists_of_incoming? found'
  obtain ⟨k, does, takes⟩ := Option.bind_eq_some_iff.1 inputs
  rw [mem_taken_of_kind? does] at once
  cases k with
  | phi js =>
    obtain rfl := Option.some.inj takes
    have values : js.flatMap (fun i => [i.value]) = js.map (·.value) := by
      rw [List.map_eq_flatMap]
    obtain rfl : i = j := by
      refine eq_of_count_flatMap_le_one (g := fun i : PhiInput => [i.value]) (a := x) ?_ listed listed' ?_ ?_
      · rw [values]
        exact once.le
      · rw [worth]
        exact List.mem_singleton_self _
      · rw [worth']
        exact List.mem_singleton_self _
    exact ⟨rfl, rfl⟩
  | _ => cases takes

lemma incoming_of_phiMoves (moved : (Plan.ofFunc f).phiMoves b kind target = .ok ms) (mem : m ∈ ms) :
    f.incoming m.1 b kind = some m.2 := (Plan.phiMoves_eq_ok moved).2 _ mem

/-- Where a node that stays stands, by what takes it: before the node that takes it, or last in its block, where the end
of the block takes it or a phi behind it. -/
inductive Takes (f : Func) (v : ValueId) : Taker → Prop
  | next {b : BlockId} {w : ValueId} {before rest : List ValueId} : f.body b = before ++ v :: w :: rest →
    (f.taken (.node w)).head? = some (.node v) → Takes f v (.node w)
  | last {b : BlockId} {before : List ValueId} : f.body b = before ++ [v] →
    (f.taken (.last b)).head? = some (.node v) → Takes f v (.last b)
  | phi {b : BlockId} {w : ValueId} {kind : EdgeKind} {target : BlockId} {ms : List (ValueId × Value)}
    {before : List ValueId} : f.body b = before ++ [v] →
    (Plan.ofFunc f).phiMoves b kind target = .ok ((w, .node v) :: ms) → Takes f v (.node w)

lemma Takes.mem (place : Takes f v t) : .node v ∈ f.taken t := by
  cases place with
  | next _ first | last _ first => exact List.mem_of_mem_head? first
  | phi _ moved => exact mem_taken_of_incoming (incoming_of_phiMoves moved List.mem_cons_self)

lemma once_of_onStack (on : v ∈ (Plan.ofFunc f).onStack) : (f.allOperands.filterMap Value.node?).count v = 1 := by
  obtain ⟨-, -, -, -, -, stays, -⟩ := Plan.mem_onStack.1 on
  rw [Plan.mayStay] at stays
  split at stays
  · cases stays
  · cases stays
  · cases stays
  · exact beq_iff_eq.1 (Bool.and_eq_true_iff.1 stays).2

lemma exists_takes (on : v ∈ (Plan.ofFunc f).onStack) : ∃ t, Takes f v t := by
  obtain ⟨c, -, before, rest, split, -, next⟩ := Plan.mem_onStack.1 on
  cases rest with
  | cons u rest => exact ⟨_, .next split next⟩
  | nil =>
    rw [Plan.takenBehind, Plan.endOperands] at next
    split at next
    · rename_i kind target only
      cases moved : (Plan.ofFunc f).phiMoves c kind target with
      | error e =>
        rw [moved] at next
        cases next
      | ok ms =>
        rw [moved] at next
        cases ms with
        | nil => cases next
        | cons m ms =>
          obtain ⟨w, x⟩ := m
          obtain rfl := Option.some.inj next
          exact ⟨_, .phi split moved⟩
    · exact ⟨_, .last split next⟩

/-- Whatever takes a node that stays is what the node was left for. -/
lemma takes_of_onStack (on : v ∈ (Plan.ofFunc f).onStack) (taken : .node v ∈ f.taken t) :
    (f.taken t).count (.node v) = 1 ∧ Takes f v t := by
  obtain ⟨t', place⟩ := exists_takes on
  obtain ⟨rfl, one⟩ := only_taker (once_of_onStack on) taken place.mem
  exact ⟨one, place⟩

lemma not_mem_tail (one : xs.count x = 1) (first : xs.head? = some x) : x ∉ xs.tail := by
  rw [← List.cons_head?_tail first, List.count_cons_self] at one
  exact fun mem => absurd (List.count_pos_iff.2 mem) (by omega)

lemma Plan.stays_eq_false (h : ∀ v, x = .node v → v ∉ p.onStack) : p.stays x = false := by
  cases x with
  | const c | reg r version => rfl
  | node v => exact Bool.eq_false_iff.2 fun on => h v rfl (List.contains_iff_mem.1 on)

/-- Of the operands of a node only the first one may be on the stack. -/
theorem not_stays_of_mem_tail (does : f.kind? w = some k) (plain : f.inputs? w = none) (mem : x ∈ k.operands.tail) :
    (Plan.ofFunc f).stays x = false := by
  refine Plan.stays_eq_false fun v same on => ?_
  subst same
  rw [← mem_taken_of_kind? does] at mem
  obtain ⟨one, place⟩ := takes_of_onStack on (List.mem_of_mem_tail mem)
  cases place with
  | next _ first => exact not_mem_tail one first mem
  | phi _ moved =>
    have into := incoming_of_phiMoves moved List.mem_cons_self
    rw [incoming, plain] at into
    cases into

/-- Of the operands at the end of a block only the first one may be on the stack. -/
lemma not_stays_of_mem_last (mem : x ∈ (f.terminator b).operands.tail) : (Plan.ofFunc f).stays x = false := by
  refine Plan.stays_eq_false fun v same on => ?_
  subst same
  obtain ⟨one, place⟩ := takes_of_onStack (t := .last b) on (List.mem_of_mem_tail mem)
  cases place with
  | last _ first => exact not_mem_tail one first mem

/-- The node that left the first operand on the stack stands right before. -/
theorem Listed.before_of_stays (listed : f.Listed) (does : f.kind? w = some k) (mem : w ∈ f.body b)
    (first : k.operands.head? = some (.node v)) (on : v ∈ (Plan.ofFunc f).onStack) :
    ∃ before rest, f.body b = before ++ v :: w :: rest := by
  have takes : .node v ∈ f.taken (.node w) := by
    rw [mem_taken_of_kind? does]
    exact List.mem_of_mem_head? first
  cases (takes_of_onStack on takes).2 with
  | @next c _ _ _ split _ =>
    have there : w ∈ f.body c := by simp [split]
    obtain rfl := listed.eq_of_mem_body mem there
    exact ⟨_, _, split⟩
  | phi _ moved =>
    have into := incoming_of_phiMoves moved List.mem_cons_self
    rw [incoming, listed.plain b w mem] at into
    cases into

/-- A node that stays is taken first by what is behind it. -/
theorem Listed.taken_of_stays (listed : f.Listed) (split : f.body b = before ++ v :: rest)
    (on : v ∈ (Plan.ofFunc f).onStack) :
    ((Plan.ofFunc f).takenBehind ((Plan.ofFunc f).endOperands b (f.terminator b)) rest).head? = some (.node v) := by
  obtain ⟨c, -, before', rest', split', -, next⟩ := Plan.mem_onStack.1 on
  obtain ⟨rfl, rfl⟩ := listed.behind_unique (.node split) (.node split')
  exact next

/-- If a node that stays is taken first by what comes next, it stands right before. -/
theorem Listed.last_of_stays (listed : f.Listed) (split : f.body b = before ++ rest) (on : v ∈ (Plan.ofFunc f).onStack)
    (first : ((Plan.ofFunc f).takenBehind ((Plan.ofFunc f).endOperands b (f.terminator b)) rest).head? =
      some (.node v)) :
    ∃ before', before = before' ++ [v] := by
  cases rest with
  | cons w rest =>
    have mem : w ∈ f.body b := by
      rw [split]
      simp
    have takes : (f.taken (.node w)).head? = some (.node v) := first
    cases does : f.kind? w with
    | none =>
      rw [taken, does] at takes
      cases takes
    | some k =>
      rw [mem_taken_of_kind? does] at takes
      obtain ⟨before', rest', split'⟩ := Listed.before_of_stays listed does mem takes on
      rw [← List.singleton_append, ← List.append_assoc] at split'
      obtain ⟨-, rfl⟩ := listed.behind_unique (.node split) (.node split')
      exact ⟨before', List.append_cancel_right (split.symm.trans split')⟩
  | nil =>
    rw [List.append_nil] at split
    -- The block ends right behind the node, whatever takes it at the end.
    rw [Plan.takenBehind, Plan.endOperands] at first
    split at first
    · rename_i kind target only
      cases moved : (Plan.ofFunc f).phiMoves b kind target with
      | error e =>
        rw [moved] at first
        cases first
      | ok ms =>
        rw [moved] at first
        cases ms with
        | nil => cases first
        | cons m ms =>
          obtain ⟨w, x⟩ := m
          obtain rfl := Option.some.inj first
          have into := incoming_of_phiMoves moved List.mem_cons_self
          obtain ⟨one, place⟩ := takes_of_onStack on (mem_taken_of_incoming into)
          cases place with
          | @next c _ _ _ split' _ =>
            rw [incoming, listed.plain c w (split' ▸ by simp)] at into
            cases into
          | phi split' moved' =>
            obtain ⟨rfl, -⟩ := eq_edge_of_incoming one into (incoming_of_phiMoves moved' List.mem_cons_self)
            exact ⟨_, split.symm.trans split'⟩
    · cases (takes_of_onStack (t := .last b) on (List.mem_of_mem_head? first)).2 with
      | last split' _ => exact ⟨_, split.symm.trans split'⟩

/-- Of the values that phis take on an edge, only the first one may be on the stack. -/
theorem not_stays_of_mem_phiMoves (listed : f.Listed) (moved : (Plan.ofFunc f).phiMoves b kind target = .ok ms) :
    ∀ x ∈ (ms.map (·.2)).tail, (Plan.ofFunc f).stays x = false := by
  intro x mem
  refine Plan.stays_eq_false fun v same on => ?_
  subst same
  obtain ⟨named, values⟩ := Plan.phiMoves_eq_ok moved
  have distinct : (ms.map (·.1)).Nodup := by
    rw [named]
    exact (((List.nodup_append.1 (listed.nodup target)).1).filter _).filter _
  rw [← List.map_tail] at mem
  obtain ⟨⟨w, _⟩, later, rfl⟩ := List.mem_map.1 mem
  have into : f.incoming w b kind = some (.node v) := values _ (List.mem_of_mem_tail later)
  have there : w ∈ f.phis target := by
    have mem : w ∈ ms.map (·.1) := List.mem_map_of_mem (f := (·.1)) (List.mem_of_mem_tail later)
    rw [named] at mem
    exact List.mem_of_mem_filter (List.mem_of_mem_filter mem)
  obtain ⟨one, place⟩ := takes_of_onStack on (mem_taken_of_incoming into)
  cases place with
  | @next c _ _ _ split _ =>
    have phi := listed.phi target w there
    rw [listed.plain c w (split ▸ by simp)] at phi
    cases phi
  | @phi c _ kind' target' ms' _ split moved' =>
    -- The phi has the node as one input, so the edges are the same, and the phi is moved twice.
    obtain ⟨rfl, rfl⟩ := eq_edge_of_incoming one into (incoming_of_phiMoves moved' List.mem_cons_self)
    have there' : w ∈ f.phis target' := by
      have mem : w ∈ ((w, Value.node v) :: ms').map (·.1) := List.mem_cons_self
      rw [(Plan.phiMoves_eq_ok moved').1] at mem
      exact List.mem_of_mem_filter (List.mem_of_mem_filter mem)
    have home := (listed.owned target w (List.mem_append_left _ there)).symm.trans
      (listed.owned target' w (List.mem_append_left _ there'))
    obtain rfl := Option.some.inj home
    obtain rfl := Except.ok.inj (moved.symm.trans moved')
    rw [List.map_cons, List.nodup_cons] at distinct
    exact distinct.1 (List.mem_map_of_mem (f := (·.1)) later)

end Takers

end Emit

end Avm
