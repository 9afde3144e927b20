import Avm.Proofs.Code.Twins
import Avm.Proofs.Emit.Flowing

/-!
# Choices between two blocks

A choice is written as a branch to one of its blocks, and if the other one does not come next, a
jump to that.  The branch is on the opposite condition if the block that the condition stands for
comes next.  The opposite of a condition is decided on the same constants and differs on all of
them, since the negated comparisons hold where there is no order.  So control gets to the right
block however the blocks are placed.

The main statement is `decides_of_emit`.
-/

namespace Avm

open Ir

variable {V : Type} {listing : List (Instruction Nat)} {P : Pool} {I : Interp V} {kind : BranchKind}
  {cs : List Constant}
  {q t : Nat}

namespace Ir

@[simp] lemma BranchKind.ofOpcode?_opcode (kind : BranchKind) : BranchKind.ofOpcode? kind.opcode = some kind := by
  cases kind <;> rfl

lemma Eval.length_of_branch {taken : Bool} (decided : Eval.branch kind cs = some taken) : cs.length = kind.arity := by
  rw [Eval.branch.eq_def] at decided
  split at decided
  all_goals first | rfl | cases decided

/-- The opposite of a condition. -/
def BranchKind.inverse : BranchKind → BranchKind
  | .truthy => .falsy
  | .falsy => .truthy
  | .eq => .ne
  | .ne => .eq
  | .lt => .nlt
  | .le => .nle
  | .gt => .ngt
  | .ge => .nge
  | .nlt => .lt
  | .nle => .le
  | .ngt => .gt
  | .nge => .ge
  | .strictEq => .strictNe
  | .strictNe => .strictEq

lemma BranchKind.inverseBranch_opcode (kind : BranchKind) : kind.opcode.inverseBranch = some kind.inverse.opcode := by
  cases kind <;> rfl

/-- The opposite of a condition is decided on the same constants, and differs on all of them. -/
lemma Eval.branch_inverse (kind : BranchKind) (cs : List Constant) :
    Eval.branch kind.inverse cs = (Eval.branch kind cs).map not := by
  have twice (o : Option Bool) : o = (o.map not).map not := by cases o <;> simp
  match cs with
  | [] | _ :: _ :: _ :: _ => cases kind <;> rfl
  | [c] =>
    cases kind with
    | falsy => exact twice (some _)
    | _ => rfl
  | [a, b] =>
    cases kind with
    | ne | strictNe | nlt | nle | ngt | nge => exact twice _
    | _ => rfl

end Ir

namespace Machine

lemma step_branch {m : Machine V} {args rest : List V} (here : listing[m.position]? = some (.branch kind.opcode t))
    (stack : m.stack = args.reverse ++ rest) (count : args.length = kind.arity) : step listing P I m =
      some (.goes { m with position := if I.branch kind args then t else m.position + 1, stack := rest }) := by
  have taken : m.popN? kind.arity = some (args, { m with stack := rest }) := by
    rw [popN?, stack, ← count, ← args.length_reverse, if_neg (by simp), List.take_left, List.drop_left,
      List.reverse_reverse]
  rw [step, here]
  simp only [Option.bind_eq_bind, Option.bind_some, Instruction.branch, Emit.flow_of_branchKind,
    BranchKind.ofOpcode?_opcode, taken]
  rfl

lemma step_jump {m : Machine V} (here : listing[m.position]? = some (.branch .jump t)) :
    step listing P I m = some (.goes { m with position := t }) := by
  rw [step, here]
  rfl

/-- The machine gets from one instruction to another one without an end. -/
def Gets (listing : List (Instruction Nat)) (P : Pool) (I : Interp V) : Machine V → Machine V → Prop :=
  Relation.ReflTransGen fun m m' => step listing P I m = some (.goes m')

end Machine

end Avm

namespace Avm.Emit

open Avm.Ir Avm.Ir.Func

variable {f g : Func} {p : Plan} {d e : Draft} {b c : BlockId} {pool P : Pool} {code : Code}
  {listing : List (Instruction Nat)}
  {ks : List (Instruction Marker)} {i : Instruction Marker} {id : InstrId} {mark : Marker} {j q s : Nat}

lemma getElem?_listing (listed : code.listing = .ok listing) (here : code.at? q = some (id, i)) :
    listing[q]? = some (i.map fun m => (code.resolve? m).getD 0) := by
  rw [Code.at?] at here
  rw [Code.eq_of_listing listed, List.getElem?_map, here, Option.map_some]

section Written

variable (once : p.order.Nodup) (written : (Write.blocks p p.order).run (.start p pool) = .ok () e)
include once written

lemma spans_of_bounds (placed : p.order[j]? = some b) (starts : e.bounds[j]? = some s) : ∃ t, Spans p pool b s t := by
  obtain ⟨s', t, spans⟩ := exists_spans written (List.mem_of_getElem? placed)
  obtain ⟨j', placed', starts', -⟩ := bounds_of_spans written once spans
  obtain rfl : j = j' := (List.getElem?_inj (List.getElem?_eq_some_iff.1 placed).1 once).1 (placed.trans placed'.symm)
  obtain rfl := Option.some.inj (starts.symm.trans starts')
  exact ⟨t, spans⟩

lemma spans_of_next? (placed : p.order[j]? = some b) (stops : e.bounds[j + 1]? = some s)
    (next : next? p.order b = some c) :
    ∃ t, Spans p pool c s t := by
  rw [next?_eq once placed] at next
  exact spans_of_bounds once written next stops

end Written

lemma spans_of_marker? (once : p.order.Nodup) (run : (Write.all p).run (.start p pool) = .ok () e)
    (known : p.marker? c = some mark) : ∃ s t, Spans p pool c s t ∧ e.code.resolve? mark = some s := by
  obtain ⟨inside, found, -⟩ := List.findIdx?_eq_some_iff_getElem.1 known
  have nonempty : p.order ≠ [] := List.ne_nil_of_length_pos (Nat.lt_of_le_of_lt (Nat.zero_le _) inside)
  obtain ⟨s, starts, leads, -⟩ := branchesTo_of_marker? once nonempty run known
  obtain ⟨d, hs, written, ⟨-, bounds⟩, -⟩ := entries_of_all once run
  have placed : p.order[mark]? = some c := by rw [List.getElem?_eq_getElem inside, beq_iff_eq.1 found]
  rw [bounds] at starts
  obtain ⟨t, spans⟩ := spans_of_bounds once written placed starts
  exact ⟨s, t, spans, leads⟩

/-- Control gets from the branches that are written for a choice to the block for which constants decide. -/
lemma Closes.gets {V : Type} {I : Interp V} {kind : BranchKind} {xs : List Value} {onTrue onFalse : BlockId}
    {cs : List Constant} {taken : Bool} {m : Machine V} {rest : List V} (once : p.order.Nodup)
    (run : (Write.all p).run (.start p pool) = .ok () e) (placed : p.order[j]? = some b)
    (closes : Closes p b (.branch kind xs onTrue onFalse) ks) (stops : e.bounds[j + 1]? = some (m.position + ks.length))
    (here : ∀ n i, ks[n]? = some i → listing[m.position + n]? = some (i.map fun m => (e.code.resolve? m).getD 0))
    (decides : ∀ kind cs t, Eval.branch kind cs = some t → I.branch kind (cs.map I.const) = t)
    (decided : Eval.branch kind cs = some taken) (stack : m.stack = (cs.map I.const).reverse ++ rest) :
    ∃ s t, Spans p pool (if taken then onTrue else onFalse) s t ∧
      Machine.Gets listing P I m { m with position := s, stack := rest } := by
  obtain ⟨d, hs, written, ⟨-, bounds⟩, -⟩ := entries_of_all once run
  rw [bounds] at stops
  have next {c : BlockId} (next : next? p.order b = some c) := spans_of_next? once written placed stops next
  have one {kind' : BranchKind} {taken' : Bool} {mark : Marker} (first : ks[0]? = some (.branch kind'.opcode mark))
      (decided' : Eval.branch kind' cs = some taken') : Machine.step listing P I m = some (.goes
        { m with position := if taken' then (e.code.resolve? mark).getD 0 else m.position + 1, stack := rest }) := by
    have count : (cs.map I.const).length = kind'.arity := by rw [List.length_map, Eval.length_of_branch decided']
    rw [Machine.step_branch (here 0 _ first) stack count, decides kind' cs taken' decided']
  cases closes with
  | falls only | jumps only => cases only
  | inverts inverse comes known =>
    rw [kind.inverseBranch_opcode, Option.some.injEq] at inverse
    subst inverse
    have step := one rfl ((Eval.branch_inverse kind cs).trans (congrArg (Option.map not) decided))
    cases taken with
    | true =>
      obtain ⟨t, spans⟩ := next comes
      exact ⟨_, t, spans, .single step⟩
    | false =>
      obtain ⟨s, t, spans, leads⟩ := spans_of_marker? once run known
      rw [leads] at step
      exact ⟨s, t, spans, .single step⟩
  | branches known comes =>
    have step := one rfl decided
    cases taken with
    | true =>
      obtain ⟨s, t, spans, leads⟩ := spans_of_marker? once run known
      rw [leads] at step
      exact ⟨s, t, spans, .single step⟩
    | false =>
      obtain ⟨t, spans⟩ := next comes
      exact ⟨_, t, spans, .single step⟩
  | parts known known' =>
    have step := one rfl decided
    cases taken with
    | true =>
      obtain ⟨s, t, spans, leads⟩ := spans_of_marker? once run known
      rw [leads] at step
      exact ⟨s, t, spans, .single step⟩
    | false =>
      obtain ⟨s, t, spans, leads⟩ := spans_of_marker? once run known'
      have jump : listing[m.position + 1]? = some (.branch .jump ((e.code.resolve? _).getD 0)) := here 1 _ rfl
      rw [leads] at jump
      have behind := Machine.step_jump (P := P) (I := I)
        (m := { m with position := m.position + 1, stack := rest }) jump
      exact ⟨s, t, spans, .tail (.single step) behind⟩

lemma exists_listing (once : p.order.Nodup) (nonempty : p.order ≠ [])
    (run : (Write.all p).run (.start p pool) = .ok () e)
    (bare : ∀ v k i, p.func.kind? v = some k → k.instruction? = some i → i.targets = []) :
    ∃ listing, e.code.listing = .ok listing := by
  obtain ⟨d, hs, written, ⟨instrs, -⟩, -⟩ := entries_of_all once run
  have resolved : ∀ x ∈ e.code.instrs, ∃ i, e.code.resolveInstr x = .ok i := by
    intro x mem
    obtain ⟨q, inside, rfl⟩ := List.mem_iff_getElem.1 mem
    set x := e.code.instrs[q] with same
    have here : d.written[q]? = some x.2 := by
      rw [Draft.getElem?_written]
      refine ⟨x.1, ?_⟩
      rw [Code.at?, ← instrs, List.getElem?_eq_getElem inside]
    obtain ⟨j, b, js, ks, s, t, holds, above, below⟩ :=
      exists_holds_of_lt once written (d.length_written ▸ (List.getElem?_eq_some_iff.1 here).1)
    have leads : ∀ m ∈ x.2.targets, (e.code.resolve? m).isSome := by
      intro m there
      obtain mem | mem := holds.mem above below here
      · rw [(holds.meant _ mem).targets bare] at there
        cases there
      · obtain ⟨target, -, known⟩ := (holds.closes.suits mem).2 m there
        obtain ⟨s, -, resolves, -⟩ := branchesTo_of_marker? once nonempty run known
        rw [resolves]
        rfl
    have none : x.2.targets.reverse.find? (fun m => (e.code.resolve? m).isNone) = none := by
      rw [List.find?_eq_none]
      intro m there
      simpa [← Option.isSome_iff_ne_none] using leads m (List.mem_reverse.1 there)
    exact ⟨_, by rw [Code.resolveInstr, none]⟩
  choose! i here using resolved
  refine ⟨e.code.instrs.map i, ?_⟩
  rw [Code.listing, mapM_eq_ok, List.forall₂_map_right_iff, List.forall₂_same]
  exact here

/-- Behind the values that a choice between two blocks takes, control gets to the one for which
constants decide, with the constants taken off the operand stack, if each branch is decided as the
condition for which it stands. -/
def Decides (g : Func) (pool : Pool) (code : Code) (b : BlockId) (kind : BranchKind) (xs : List Value)
    (onTrue onFalse : BlockId) : Prop :=
  ∃ d d', d.AtEnd g pool b ∧ (Write.values (.ofFunc g) xs).run d = .ok () d' ∧
    ∀ (V : Type) (I : Interp V) (P : Pool) (listing : List (Instruction Nat)) (cs : List Constant) (taken : Bool)
      (m : Machine V) (rest : List V), code.listing = .ok listing →
      (∀ kind cs taken, Eval.branch kind cs = some taken → I.branch kind (cs.map I.const) = taken) →
      Eval.branch kind cs = some taken → m.position = d'.code.size → m.stack = (cs.map I.const).reverse ++ rest →
        ∃ s t, Spans (.ofFunc g) pool (if taken then onTrue else onFalse) s t ∧
          Machine.Gets listing P I m { m with position := s, stack := rest }

/-- A choice between two blocks is written so that control gets to the one for which constants
decide, whatever comes next. The opposite of a condition is decided on the same constants, and
differs on all of them. -/
theorem decides_of_emit {code : Code} (emitted : (emit f pool).1 = .ok code) :
    ∃ g, splitCriticalEdges.run f = .ok () g ∧
      ((∀ v k i, g.kind? v = some k → k.instruction? = some i → i.targets = []) →
        ∃ listing, code.listing = .ok listing) ∧
      (∀ b ∈ order g, ∀ kind xs onTrue onFalse, g.terminator b = .branch kind xs onTrue onFalse →
        Decides g pool code b kind xs onTrue onFalse) ∧
      ∀ kind : BranchKind, ∃ inverse : BranchKind, kind.opcode.inverseBranch = some inverse.opcode ∧
        ∀ cs, Eval.branch inverse cs = (Eval.branch kind cs).map not := by
  obtain ⟨g, e, split, run, rfl⟩ := exists_all_of_emit emitted
  have once : (Plan.ofFunc g).order.Nodup := nodup_order g
  obtain ⟨e', hs, written, ⟨instrs, bounds⟩, -⟩ := entries_of_all once run
  refine ⟨g, split, fun bare => ?_, fun b placed kind xs onTrue onFalse last => ?_,
    fun kind => ⟨kind.inverse, kind.inverseBranch_opcode, Eval.branch_inverse kind⟩⟩
  · exact exists_listing once (List.ne_nil_of_mem (entry_mem_order g)) run bare
  · obtain ⟨j, placed⟩ := List.mem_iff_getElem?.1 placed
    obtain ⟨before, after, mark, d₀, d₂, parts, earlier, labelled, here, grows, -, stops⟩ :=
      exists_block once written placed
    obtain ⟨-, d, front, ends⟩ := Write.block_eq_ok.1 here
    have ends : (Write.terminator (.ofFunc g) b (g.terminator b)).run d = .ok () d₂ := ends
    rw [last] at ends
    obtain ⟨d', ks, fetched, closes, puts⟩ := Write.branch_eq_ok ends
    refine ⟨d, d', ⟨before, after, mark, d₀, parts, earlier, labelled, front⟩, fetched, ?_⟩
    intro V I P listing cs taken m rest listed decides decided position stack
    have size : d₂.code.size = m.position + ks.length := by
      rw [position, ← d₂.length_written, ← d'.length_written, puts.written, List.length_append]
    rw [← bounds, size] at stops
    refine closes.gets once run placed stops (fun n i known => ?_) decides decided stack
    obtain ⟨more, behind⟩ := grows.written
    have there : e'.written[m.position + n]? = some i := by
      rw [← behind, puts.written, position, ← d'.length_written, List.append_assoc,
        List.getElem?_append_right (Nat.le_add_right _ _), Nat.add_sub_cancel_left,
        List.getElem?_append_left (List.getElem?_eq_some_iff.1 known).1, known]
    obtain ⟨id, there⟩ := Draft.getElem?_written.1 there
    rw [Code.at?, ← instrs] at there
    exact getElem?_listing listed there

/-- A loop that ends when a register is less than another one. -/
def spinning : List Change :=
  [.addBlock, .addBlock, .setTerminator 0 (.goto 2), .setTerminator 2 (.branch .lt [.reg 0 0, .reg 1 0] 3 2),
    .setTerminator 3 (.leave none)]

/-- The block behind the loop comes next, and the code has a listing. -/
def isSpinning (f : Func) : Bool :=
  match splitCriticalEdges.run f, (emit f {}).1 with
  | .ok _ g, .ok code =>
    match code.listing with
    | .ok _ => decide (order g = [0, 2, 3] ∧ g.terminator 2 = .branch .lt [.reg 0 0, .reg 1 0] 3 2)
    | .error _ => false
  | _, _ => false

/-- The loop goes on if there is no order. -/
theorem decides_of_emit_spinning : ∃ f code listing g d d' s t, build? spinning (.new 0 2 {} 2) = some f ∧
    (emit f {}).1 = .ok code ∧ code.listing = .ok listing ∧ splitCriticalEdges.run f = .ok () g ∧
      next? (order g) 2 = some 3 ∧ d.AtEnd g {} 2 ∧ (Write.values (.ofFunc g) [.reg 0 0, .reg 1 0]).run d = .ok () d' ∧
        Spans (.ofFunc g) {} 2 s t ∧ Machine.Gets listing {} .ofConstants
          ⟨d'.code.size, [.int 0, .double .nan], [], fun _ => .null, []⟩ ⟨s, [], [], fun _ => .null, []⟩ := by
  have facts : (build? spinning (.new 0 2 {} 2)).any (fun f => isSpinning f) = true := by decide +kernel
  obtain ⟨f, built, spins⟩ := (Option.any_eq_true _ _).1 facts
  rw [isSpinning] at spins
  split at spins
  case _ g code split emitted =>
    split at spins
    case _ listing listed =>
      obtain ⟨placed, last⟩ := of_decide_eq_true spins
      obtain ⟨g', split', -, decides, -⟩ := decides_of_emit emitted
      obtain rfl : g = g' := (EStateM.Result.ok.inj (split.symm.trans split')).2
      obtain ⟨d, d', ends, fetched, gets⟩ := decides 2 (by rw [placed]; decide) .lt _ 3 2 last
      obtain ⟨s, t, spans, gets⟩ := gets Constant .ofConstants {} listing [.double .nan, .int 0] false
        ⟨d'.code.size, [.int 0, .double .nan], [], fun _ => .null, []⟩ [] listed Interp.folds_ofConstants.branch
        (by decide +kernel) rfl rfl
      exact ⟨f, code, listing, g, d, d', s, t, built, emitted, listed, split, by rw [placed]; decide, ends, fetched,
        spans,
        gets⟩
    case _ => cases spins
  case _ => cases spins

end Avm.Emit
