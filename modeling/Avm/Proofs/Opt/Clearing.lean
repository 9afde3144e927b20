import Avm.Proofs.Emit.Placing
import Avm.Proofs.Ir.Fitting
import Avm.Proofs.Ir.Merging
import Avm.Proofs.Ir.Reading
import Avm.Proofs.Opt.Steadiness

/-!
# What is left of dead code

The removal of dead code leaves what is needed and nothing else: blocks that control can reach, phis that merge
several values, and nodes that effects and ends of blocks need.  One round does it all.  Taking blocks out may
leave phis with a single value, and these may leave nodes that nothing needs, but taking nodes out uncovers
neither of the others, so the second round finds nothing.

The exit stays even if control cannot reach it.  By itself it leads nowhere; a graph in which it leads on to blocks
that control cannot reach otherwise loses these blocks, and the exit is left with edges to nowhere.

The main statement is `needed_of_pass`.
-/

namespace Avm.Ir.Func

variable {f g h : Func} {b s t : BlockId} {v w : ValueId} {gone : List BlockId}

/-- Blocks are taken out of a graph, with their nodes and the edges at them. -/
structure Cut (gone : List BlockId) (f g : Func) : Prop where
  fitted : Fitted g
  linked : ∀ t, (g.block? t).isSome → ∀ s kind, (g.preds t).count (s, kind) = (g.succs s).count (t, kind)
  isSome : ∀ b, (g.block? b).isSome = true ↔ (f.block? b).isSome = true ∧ b ∉ gone
  catches : g.handlers = f.handlers
  terminator : ∀ b ∉ gone, g.terminator b = f.terminator b
  handlersOf : ∀ b ∉ gone, g.handlersOf b = f.handlersOf b
  succs : ∀ b ∉ gone, g.succs b = (f.succs b).filter fun e => decide (e.1 ∉ gone)
  nodesOf : ∀ b ∉ gone, g.nodesOf b = f.nodesOf b
  shape? : ∀ b ∉ gone, ∀ v ∈ f.nodesOf b, g.shape? v = f.shape? v

lemma Cut.refl (fitted : Fitted f)
    (linked : ∀ t, (f.block? t).isSome → ∀ s kind, (f.preds t).count (s, kind) = (f.succs s).count (t, kind)) :
    Cut [] f f where
  fitted := fitted
  linked := linked
  isSome b := by simp
  catches := rfl
  terminator _ _ := rfl
  handlersOf _ _ := rfl
  succs b _ := by simp
  nodesOf _ _ := rfl
  shape? _ _ _ _ := rfl

lemma succs_without_of_linked {x : Block} (here : f.block? b = some x) (other : s ≠ b)
    (linked : ∀ kind, (f.preds b).count (s, kind) = (f.succs s).count (b, kind)) :
    (f.without b x).succs s = (f.succs s).filter (·.1 != b) := by
  rw [succs_without, if_neg other]
  refine List.filter_congr fun e mem => ?_
  by_cases same : e.1 = b
  · have back : (s, e.2) ∈ x.preds := by
      rw [← preds_of_block? here, ← List.count_pos_iff, linked, List.count_pos_iff, ← same]
      exact mem
    simp [same, back]
  · have away : (e.1 == b) = false := beq_false_of_ne same
    simp [bne, away]

lemma Cut.cons {x : Block} (rest : Cut gone (f.without b x) g) (listed : Listed f) (here : f.block? b = some x)
    (linked : ∀ s kind, (f.preds b).count (s, kind) = (f.succs s).count (b, kind)) :
    Cut (b :: gone) f g where
  fitted := rest.fitted
  linked := rest.linked
  isSome c := by
    rw [rest.isSome, isSome_without, Bool.and_eq_true, decide_eq_true_eq, List.mem_cons, not_or]
    tauto
  catches := rest.catches.trans catches_without
  terminator c away := by
    obtain ⟨other, away⟩ := not_or.1 (List.mem_cons.not.1 away)
    rw [rest.terminator c away, terminator_without, if_neg other]
  handlersOf c away := by
    obtain ⟨other, away⟩ := not_or.1 (List.mem_cons.not.1 away)
    rw [rest.handlersOf c away, handlersOf_without, if_neg other]
  succs c away := by
    obtain ⟨other, away⟩ := not_or.1 (List.mem_cons.not.1 away)
    rw [rest.succs c away, succs_without_of_linked here other (linked c), List.filter_filter]
    refine List.filter_congr fun e _ => ?_
    by_cases same : e.1 = b <;> simp [same]
  nodesOf c away := by
    obtain ⟨other, away⟩ := not_or.1 (List.mem_cons.not.1 away)
    rw [rest.nodesOf c away, Func.nodesOf, phis_without, body_without, if_neg other, if_neg other, ← Func.nodesOf]
  shape? c away v mem := by
    obtain ⟨other, away⟩ := not_or.1 (List.mem_cons.not.1 away)
    have kept : (f.without b x).nodesOf c = f.nodesOf c := by
      rw [Func.nodesOf, phis_without, body_without, if_neg other, if_neg other, ← Func.nodesOf]
    rw [rest.shape? c away v (by rwa [kept]), shape?_without, if_neg (listed.notMem_nodeIds here mem other)]

lemma removeBlocks_cuts {bs : List BlockId} (fitted : Fitted f)
    (linked : ∀ t, (f.block? t).isSome → ∀ s kind, (f.preds t).count (s, kind) = (f.succs s).count (t, kind))
    (once : bs.Nodup) (inner : ∀ b ∈ bs, b ≠ entry ∧ b ≠ exit) (live : ∀ b ∈ bs, (f.block? b).isSome) :
    (Lift.removeBlocks bs).Yields f fun _ g => Cut bs f g := by
  induction bs generalizing f with
  | nil => exact Edit.yields_pure (.refl fitted linked)
  | cons b bs ih =>
    obtain ⟨absent, once⟩ := List.nodup_cons.1 once
    have first := live b List.mem_cons_self
    obtain ⟨x, here⟩ := Option.isSome_iff_exists.1 first
    refine Edit.yields_bind (a := ()) (Edit.removeBlock_eq_ok.2 ⟨inner b List.mem_cons_self, x, here, rfl⟩) ?_
    refine (ih (fitted.without here) (fun t there s kind => ?_) once (fun c mem => inner c (List.mem_cons_of_mem _ mem))
      fun c mem => ?_).imp fun _ g cut => cut.cons fitted.toListed here (linked b first)
    · rw [isSome_without, Bool.and_eq_true, decide_eq_true_eq] at there
      rw [count_preds_without (linked t there.2 b) here there.1, count_succs_without there.1]
      split
      · rfl
      · exact linked t there.2 s kind
    · have other : c ≠ b := fun same => absent (same ▸ mem)
      rw [isSome_without, live c (List.mem_cons_of_mem _ mem), decide_eq_true other]
      rfl

/-- A node that an end of a block or an effect needs, at once or by way of other nodes. -/
inductive Needed (f : Func) : ValueId → Prop where
  | ends {b : BlockId} {v : ValueId} : .node v ∈ (f.terminator b).operands → Needed f v
  | effect {v : ValueId} {k : NodeKind} : f.kind? v = some k → k.hasSideEffects = true → Needed f v
  | operand {v w : ValueId} {k : NodeKind} : Needed f w → f.kind? w = some k → .node v ∈ k.operands → Needed f v

lemma terminator_dropNode : (f.dropNode v).terminator b = f.terminator b := by
  rw [terminator, map_dropNode (p := Block.terminator) fun _ _ _ => rfl, ← terminator]

lemma node?_foldl_dropNode (vs : List ValueId) :
    (vs.foldl dropNode f).node? w = if w ∈ vs then none else f.node? w := by
  induction vs generalizing f with
  | nil => rfl
  | cons v vs ih =>
    rw [List.foldl_cons, ih, node?_dropNode]
    by_cases same : w = v
    · simp [same]
    · simp [same]

lemma terminator_foldl_dropNode (vs : List ValueId) : (vs.foldl dropNode f).terminator b = f.terminator b := by
  induction vs generalizing f with
  | nil => rfl
  | cons v vs ih => rw [List.foldl_cons, ih, terminator_dropNode]

end Avm.Ir.Func

namespace Avm.Opt.DeadCode

open Avm.Ir Avm.Ir.Func Avm.Ir.Edit

variable {f g : Func} {b : BlockId} {v w : ValueId} {m : MethodId} {live : Graph.Marks}

lemma mem_asks : w ∈ asks f v ↔ ∃ k, f.kind? v = some k ∧ .node w ∈ k.operands := by
  rw [asks]
  cases f.kind? v with
  | none => simp
  | some k =>
    simp only [Option.map_some, Option.getD_some, List.mem_filterMap, Option.some.injEq, exists_eq_left']
    constructor
    · rintro ⟨o, mem, found⟩
      cases o <;> simp [Value.node?] at found
      exact found ▸ mem
    · exact fun mem => ⟨_, mem, rfl⟩

lemma need_closed (fuel : Nat) (vs : List ValueId) (size : live.bits.size = f.nodes.size)
    (enough : vs.length + debt f live < fuel)
    (pending : ∀ v, live.has v = true → ∀ w ∈ asks f v, w < f.nodes.size → live.has w = true ∨ w ∈ vs) :
    ∀ v, (need f fuel live vs).has v = true → ∀ w ∈ asks f v, w < f.nodes.size →
      (need f fuel live vs).has w = true := by
  induction fuel generalizing live vs with
  | zero => exact absurd enough (Nat.not_lt_zero _)
  | succ fuel ih =>
    cases vs with
    | nil => exact fun v marked w mem inside => (pending v marked w mem inside).resolve_right List.not_mem_nil
    | cons v vs =>
      rw [List.length_cons] at enough
      rw [need]
      split
      · rename_i marked
        refine ih vs size (by omega) fun u old w mem inside => ?_
        obtain done | next := pending u old w mem inside
        · exact .inl done
        · obtain rfl | later := List.mem_cons.1 next
          · exact .inl marked
          · exact .inr later
      · rename_i new
        rw [Bool.not_eq_true] at new
        refine @ih (live.add v) (asks f v ++ vs) (by rw [Graph.Marks.size_add, size])
          (asks_append_lt size new enough) fun u marked w mem inside => ?_
        obtain old | ⟨rfl, -⟩ := Graph.Marks.has_add.1 marked
        · obtain done | next := pending u old w mem inside
          · exact .inl (Graph.Marks.has_add.2 (.inl done))
          · obtain rfl | later := List.mem_cons.1 next
            · exact .inl (Graph.Marks.has_add.2 (.inr ⟨rfl, by rwa [size]⟩))
            · exact .inr (List.mem_append_right _ later)
        · exact .inr (List.mem_append_left _ mem)

lemma need_sound (fuel : Nat) (vs : List ValueId) (listed : ∀ v ∈ vs, Needed f v)
    (marked : ∀ v, live.has v = true → Needed f v) : ∀ v, (need f fuel live vs).has v = true → Needed f v := by
  induction fuel generalizing live vs with
  | zero => exact marked
  | succ fuel ih =>
    cases vs with
    | nil => exact marked
    | cons v vs =>
      have first : Needed f v := listed v List.mem_cons_self
      have later : ∀ w ∈ vs, Needed f w := fun w mem => listed w (List.mem_cons_of_mem _ mem)
      rw [need]
      split
      · exact ih vs later marked
      · refine @ih (live.add v) (asks f v ++ vs) (fun w mem => ?_) fun w there => ?_
        · obtain mem | mem := List.mem_append.1 mem
          · obtain ⟨k, here, operand⟩ := mem_asks.1 mem
            exact first.operand here operand
          · exact later w mem
        · obtain old | ⟨rfl, -⟩ := Graph.Marks.has_add.1 there
          · exact marked w old
          · exact first

lemma isSome_node?_of_kind? {k : NodeKind} (here : f.kind? v = some k) : (f.node? v).isSome := by
  obtain ⟨n, found, -⟩ := Option.map_eq_some_iff.1 here
  rw [found]
  rfl

lemma needed_of_has (marked : (neededNodes f).has v = true) : Needed f v := by
  refine need_sound _ _ (fun w mem => ?_) (fun w none => absurd none (by simp)) v marked
  cases List.mem_append.1 mem with
  | inl mem =>
    obtain ⟨o, mem, found⟩ := List.mem_filterMap.1 mem
    obtain ⟨b, -, mem⟩ := List.mem_flatMap.1 mem
    cases o with
    | node u =>
      rw [Value.node?, Option.some.injEq] at found
      rw [found] at mem
      exact .ends mem
    | _ => cases found
  | inr mem =>
    have effect := (List.mem_filter.1 mem).2
    cases here : f.kind? w with
    | none =>
      rw [here] at effect
      cases effect
    | some k =>
      rw [here, Option.any_some] at effect
      exact .effect here effect

lemma has_of_needed (filed : Filed f) (needed : Needed f v) (inside : v < f.nodes.size) :
    (neededNodes f).has v = true := by
  have size : (Graph.Marks.none f.nodes.size).bits.size = f.nodes.size := by simp [Graph.Marks.none]
  have enough : (f.endOperands.filterMap Value.node? ++ effects f).length + debt f (.none f.nodes.size) <
      (f.endOperands.filterMap Value.node? ++ effects f).length + f.nodeOperands.length + 1 := by
    rw [debt_none]
    exact Nat.lt_succ_self _
  have roots : ∀ w ∈ f.endOperands.filterMap Value.node? ++ effects f, w < f.nodes.size →
      (neededNodes f).has w = true := (need_spec _ _ size enough).2
  have closed : ∀ u, (neededNodes f).has u = true → ∀ w ∈ asks f u, w < f.nodes.size → (neededNodes f).has w = true :=
    need_closed _ _ size enough fun w marked => absurd marked (by simp)
  induction needed with
  | @ends b v mem =>
    refine roots v (List.mem_append_left _ (List.mem_filterMap.2 ⟨.node v, List.mem_flatMap.2 ⟨b, ?_, mem⟩, rfl⟩))
      inside
    rw [mem_blockIds]
    by_contra none
    rw [Option.not_isSome_iff_eq_none] at none
    simp [terminator, none, Terminator.operands] at mem
  | @effect v k here effect =>
    refine roots v (List.mem_append_right _ (List.mem_filter.2 ⟨?_, by rw [here]; exact effect⟩)) inside
    obtain ⟨n, found, -⟩ := Option.map_eq_some_iff.1 here
    exact mem_nodeIds.2 ⟨n.block, filed.filed v n found⟩
  | @operand v w k _ here mem ih =>
    exact closed w (ih (lt_size_of_node? (isSome_node?_of_kind? here))) v (mem_asks.2 ⟨k, here, mem⟩) inside

section Sweep

lemma node?_sweep (filed : Filed f) : (sweep f).1.node? v = if (neededNodes f).has v then f.node? v else none := by
  rw [sweep]
  dsimp only
  rw [node?_foldl_dropNode]
  cases here : f.node? v with
  | none => simp
  | some n =>
    have listed : v ∈ f.nodeIds := mem_nodeIds.2 ⟨n.block, filed.filed v n here⟩
    cases marked : (neededNodes f).has v <;> simp [listed, marked]

lemma kind?_sweep (filed : Filed f) : (sweep f).1.kind? v = if (neededNodes f).has v then f.kind? v else none := by
  rw [kind?, node?_sweep filed]
  split
  · rfl
  · rfl

lemma kind?_sweep_of_needed (filed : Filed f) (needed : Needed f v) : (sweep f).1.kind? v = f.kind? v := by
  rw [kind?_sweep filed]
  split
  · rfl
  · rename_i none
    cases here : f.kind? v with
    | none => rfl
    | some k => exact absurd (has_of_needed filed needed (lt_size_of_node? (isSome_node?_of_kind? here))) none

lemma needed_sweep (filed : Filed f) (needed : Needed f v) : Needed (sweep f).1 v := by
  induction needed with
  | @ends b v mem =>
    refine .ends (b := b) ?_
    rw [sweep]
    dsimp only
    rwa [terminator_foldl_dropNode]
  | @effect v k here effect =>
    refine .effect ?_ effect
    rw [kind?_sweep_of_needed filed (.effect here effect), here]
  | @operand v w k needed here mem ih =>
    refine ih.operand ?_ mem
    rw [kind?_sweep_of_needed filed needed, here]

lemma needed_of_sweep (filed : Filed f) (there : ((sweep f).1.node? v).isSome) : Needed (sweep f).1 v := by
  refine needed_sweep filed (needed_of_has ?_)
  by_contra none
  rw [node?_sweep filed, if_neg none] at there
  cases there

end Sweep

section Reaching

lemma mem_reachable_iff (live : ∀ s, ∀ e ∈ f.succs s, (f.block? e.1).isSome) : b ∈ f.reachable ↔ f.Leads entry b := by
  constructor
  · exact fun found => Graph.reaches_of_mem_reversePostorder found
  · intro path
    induction path with
    | refl => exact entry_mem_reachable
    | tail _ step ih =>
      obtain ⟨e, edge, rfl⟩ := List.mem_map.1 step
      exact mem_reachable_of_mem_succs ih edge (lt_size_of_block? (live _ e edge))

variable {gone : List BlockId}

lemma leads_of_cut (cut : Cut gone f g) (apart : ∀ b, f.Leads entry b → b ∉ gone) (path : f.Leads entry b) :
    g.Leads entry b := by
  induction path with
  | refl => exact .refl
  | @tail s t path step ih =>
    refine ih.tail ?_
    obtain ⟨e, edge, rfl⟩ := List.mem_map.1 step
    have there : f.Leads entry e.1 := path.tail (List.mem_map_of_mem edge)
    rw [succIds, cut.succs s (apart s path)]
    exact List.mem_map_of_mem (List.mem_filter.2 ⟨edge, decide_eq_true (apart _ there)⟩)

end Reaching

/-- Nothing in a graph is dead. -/
structure Clear (g : Func) : Prop where
  filed : Filed g
  live : ∀ b, ∀ e ∈ g.succs b, (g.block? e.1).isSome
  reached : ∀ b, (g.block? b).isSome → b ≠ exit → g.Leads entry b
  several : ∀ v ∈ g.nodeIds, g.trivialValue? v = none
  needed : ∀ v, (g.node? v).isSome → Needed g v

/-- What the removal of blocks that control cannot reach leaves of a graph that passes the check. -/
structure Reduced (f g : Func) : Prop where
  fitted : Fitted g
  linked : ∀ t, (g.block? t).isSome → ∀ s kind, (g.preds t).count (s, kind) = (g.succs s).count (t, kind)
  live : ∀ b, ∀ e ∈ g.succs b, (g.block? e.1).isSome
  reached : ∀ b, (g.block? b).isSome → b ≠ exit → g.Leads entry b
  wired : ∀ b, b ≠ exit → g.succs b = g.edgesOf b
  exits : g.succs exit = g.edgesOf exit ↔ ∀ e ∈ f.succs exit, e.1 ≠ exit → f.Leads entry e.1
  stays : ∀ b, f.Leads entry b → ∀ v ∈ f.nodesOf b, v ∈ g.nodesOf b ∧ g.shape? v = f.shape? v

lemma removeUnreachable_reduces (checked : Checked f) : removeUnreachable.Yields f fun _ g => Reduced f g := by
  have live : ∀ s, ∀ e ∈ f.succs s, (f.block? e.1).isSome := fun s e mem => checked.live mem
  have gone : ∀ b, b ∈ unreachableBlocks f ↔ (f.block? b).isSome = true ∧ ¬f.Leads entry b ∧ b ≠ exit := by
    intro b
    rw [mem_unreachableBlocks, mem_reachable_iff live]
  have apart : ∀ b, f.Leads entry b → b ∉ unreachableBlocks f := fun b path mem => ((gone b).1 mem).2.1 path
  have inner : exit ∉ unreachableBlocks f := fun mem => ((gone exit).1 mem).2.2 rfl
  have cuts : (Lift.removeBlocks (unreachableBlocks f)).Yields f fun _ g => Cut (unreachableBlocks f) f g := by
    refine removeBlocks_cuts checked.fitted checked.linked (nodup_blockIds.filter _) (fun b mem => ?_) fun b mem => ?_
    · refine ⟨?_, ((gone b).1 mem).2.2⟩
      rintro rfl
      exact ((gone entry).1 mem).2.1 .refl
    · exact ((gone b).1 mem).1
  refine yields_get (cuts.bind fun _ g cut => yields_pure ?_)
  have edges (b) (away : b ∉ unreachableBlocks f) : g.edgesOf b = f.succs b := by
    rw [edgesOf_eq, cut.terminator b away, cut.handlersOf b away, cut.catches, ← edgesOf_eq, checked.wired]
  -- What is left and not the exit was reached before, so all its edges are left.
  have old (b) (there : (g.block? b).isSome) (other : b ≠ exit) : f.Leads entry b := by
    obtain ⟨there, away⟩ := (cut.isSome b).1 there
    by_contra none
    exact away ((gone b).2 ⟨there, none, other⟩)
  refine ⟨cut.fitted, cut.linked, fun b e mem => ?_, fun b there other => ?_, fun b other =>
    ?_, ?_, fun b path v mem => ?_⟩
  · have away := ((cut.isSome b).1 (isSome_of_mem_succs mem)).2
    rw [cut.succs b away, List.mem_filter, decide_eq_true_eq] at mem
    exact (cut.isSome e.1).2 ⟨live b e mem.1, mem.2⟩
  · exact leads_of_cut cut apart (old b there other)
  · cases here : g.block? b with
    | none => rw [(parts_of_isNone here).2.2.2.2.1, edgesOf, here]
    | some x =>
      have path := old b (by rw [here]; rfl) other
      rw [edges b (apart b path), cut.succs b (apart b path), List.filter_eq_self]
      exact fun e mem => decide_eq_true (apart e.1 (path.tail (List.mem_map_of_mem mem)))
  · rw [edges exit inner, cut.succs exit inner, List.filter_eq_self]
    refine forall₂_congr fun e mem => ?_
    rw [decide_eq_true_eq, gone]
    have there := live exit e mem
    tauto
  · have away := apart b path
    refine ⟨?_, cut.shape? b away v mem⟩
    rw [cut.nodesOf b away]
    exact mem

lemma hasSideEffects_shape (k : NodeKind) : k.shape.hasSideEffects = k.hasSideEffects := by
  cases k <;> rfl

lemma inputs?_of_effect {k : NodeKind} (shape : f.shape? v = some k) (effect : k.hasSideEffects = true) :
    f.inputs? v = none := by
  obtain ⟨n, here, rfl⟩ := Option.map_eq_some_iff.1 shape
  rw [hasSideEffects_shape] at effect
  rw [inputs?_eq, here, Option.bind_some]
  cases kind : n.kind with
  | phi inputs =>
    rw [kind] at effect
    cases effect
  | _ => rfl

lemma effect_removeTrivialPhis {k : NodeKind} (filed : Filed f) (mem : v ∈ f.nodesOf b) (shape : f.shape? v = some k)
    (effect : k.hasSideEffects = true) :
    v ∈ f.removeTrivialPhis.1.nodesOf b ∧ f.removeTrivialPhis.1.shape? v = some k := by
  refine (removeTrivialPhis_keeps (P := fun g => Filed g ∧ v ∈ g.nodesOf b ∧ g.shape? v = some k)
    (fun g p x ⟨filed, mem, shape⟩ trivial => ?_) ⟨filed, mem, shape⟩).2
  have same := (alike_replaceUses p x : Alike g _).toSameNodes
  have other : v ≠ p := by
    rintro rfl
    have phi := isSome_of_trivialValue? trivial
    rw [inputs?_of_effect shape effect] at phi
    cases phi
  have kept := filed.sameNodes same
  refine ⟨kept.dropNode p, ?_, ?_⟩
  · have stays := kept.toListed.lists_dropNode p b
    rw [nodesOf, stays.1, stays.2, ← List.filter_append, List.mem_filter, bne_iff_ne, and_iff_left other, ← nodesOf,
      same.nodesOf]
    exact mem
  · rw [shape?_dropNode, if_neg other, shape?_replaceUses]
    exact shape

lemma effect_sweep {k : NodeKind} (fitted : Fitted f) (mem : v ∈ f.nodesOf b) (shape : f.shape? v = some k)
    (effect : k.hasSideEffects = true) : v ∈ (sweep f).1.nodesOf b ∧ (sweep f).1.shape? v = some k := by
  have there : (f.node? v).isSome := by
    rw [← Option.isSome_map (f := fun n : Node => n.kind.shape), ← shape?, shape]
    rfl
  obtain ⟨n, here⟩ := Option.isSome_iff_exists.1 there
  have kind : f.kind? v = some n.kind := by rw [kind?, here, Option.map_some]
  have same : n.kind.shape = k := by
    rw [shape?_of_kind? kind] at shape
    exact Option.some.inj shape
  have needed : Needed f v := .effect kind (by rw [← hasSideEffects_shape, same, effect])
  have stays : (sweep f).1.node? v = some n := by
    rw [node?_sweep fitted.toFiled, if_pos (has_of_needed fitted.toFiled needed (lt_size_of_node? there)), here]
  have home : n.block = b := by
    have owner := fitted.owned b v mem
    rw [here, Option.map_some] at owner
    exact Option.some.inj owner
  refine ⟨?_, ?_⟩
  · rw [← home]
    exact (fitted.trims (trims_sweep f)).filed v n stays
  · rw [shape?, stays, Option.map_some, same]

/-- The graph without phis that merge a single value and without nodes that are not needed. -/
def pruned (f : Func) : Func := (sweep f.removeTrivialPhis.1).1

lemma trims_pruned (f : Func) : Trims f (pruned f) := (trims_removeTrivialPhis f).trans (trims_sweep _)

lemma once_prunes (checked : Checked f) : (once m).Yields f fun _ g => ∃ h, Reduced f h ∧ g = pruned h := by
  rw [once]
  refine (removeUnreachable_reduces checked).bind fun n h reduced => yields_get ?_
  have left : (sweep h.removeTrivialPhis.1).1 = pruned h := rfl
  generalize h.removeTrivialPhis = p at left ⊢
  dsimp only
  generalize sweep p.1 = q at left ⊢
  exact yields_set (yields_pure ⟨h, reduced, left⟩)

lemma clear_pruned (reduced : Reduced f g) : Clear (pruned g) := by
  have merged : Fitted g.removeTrivialPhis.1 := reduced.fitted.trims (trims_removeTrivialPhis g)
  have fitted : Fitted (pruned g) := reduced.fitted.trims (trims_pruned g)
  have flow : SameFlow g (pruned g) := (trims_pruned g).sameFlow
  refine ⟨fitted.toFiled, fun b e mem => ?_, fun b there other => ?_, fun v mem => ?_,
    fun v there => needed_of_sweep merged.toFiled there⟩
  · rw [flow.succs] at mem
    rw [flow.isSome]
    exact reduced.live b e mem
  · rw [flow.isSome] at there
    have same : (pruned g).succIds = g.succIds := by
      funext s
      rw [succIds, flow.succs, ← succIds]
    rw [Leads, same]
    exact reduced.reached b there other
  · obtain ⟨b, mem⟩ := mem_nodeIds.1 mem
    have there := fitted.toListed.isSome_node? mem
    rw [pruned, node?_sweep merged.toFiled] at there
    have kept : (neededNodes g.removeTrivialPhis.1).has v = true := by
      by_contra none
      rw [if_neg none] at there
      cases there
    have same : (pruned g).kind? v = g.removeTrivialPhis.1.kind? v := by
      rw [pruned, kind?_sweep merged.toFiled, if_pos kept]
    rw [if_pos kept] at there
    obtain ⟨n, here⟩ := Option.isSome_iff_exists.1 there
    have old := trivialValue?_removeTrivialPhis g v (mem_nodeIds.2 ⟨n.block, merged.filed v n here⟩)
    rw [trivialValue?, Func.merged, inputs?] at old
    rwa [trivialValue?, Func.merged, inputs?, same]

lemma verify_pruned (reduced : Reduced f g) :
    (pruned g).verify = .ok () ↔ ∀ e ∈ f.succs exit, e.1 ≠ exit → f.Leads entry e.1 := by
  have flow : SameFlow g (pruned g) := (trims_pruned g).sameFlow
  rw [← reduced.exits]
  constructor
  · intro verified
    rw [← flow.succs, ← flow.edgesOf]
    exact wired_of_verify verified exit
  · intro exits
    refine (reduced.fitted.trims (trims_pruned g)).verify (fun t there s kind => ?_) (fun b e mem => ?_) fun b => ?_
    · rw [flow.isSome] at there
      rw [flow.preds, flow.succs]
      exact reduced.linked t there s kind
    · rw [flow.succs] at mem
      rw [flow.isSome]
      exact reduced.live b e mem
    · rw [flow.succs, flow.edgesOf]
      by_cases last : b = exit
      · rw [last, exits]
      · exact reduced.wired b last

lemma counted_zero {kind : EventKind} {message : String} : Report.counted 0 kind m message = {} := if_pos rfl

lemma once_of_clear (clear : Clear g) : (once m).run g = .ok {} g := by
  have blocks : unreachableBlocks g = [] := by
    refine List.eq_nil_iff_forall_not_mem.2 fun b mem => ?_
    obtain ⟨there, away, inner⟩ := mem_unreachableBlocks.1 mem
    exact away ((mem_reachable_iff clear.live).2 (clear.reached b there inner))
  have phis := removeTrivialPhis_eq_self clear.several
  have nodes : sweep g = (g, 0) := by
    have dead : (g.nodeIds.filter fun v => !(neededNodes g).has v) = [] := by
      refine List.filter_eq_nil_iff.2 fun v mem => ?_
      obtain ⟨b, mem⟩ := mem_nodeIds.1 mem
      have there := clear.filed.toListed.isSome_node? mem
      rw [has_of_needed clear.filed (clear.needed v there) (lt_size_of_node? there)]
      simp
    rw [sweep, dead]
    rfl
  have first : removeUnreachable.run g = .ok 0 g := by
    rw [removeUnreachable]
    refine Edit.bind_eq_ok.2 ⟨g, g, get_eq_ok.2 ⟨rfl, rfl⟩, ?_⟩
    rw [blocks]
    rfl
  refine Edit.bind_eq_ok.2 ⟨0, g, first, Edit.bind_eq_ok.2 ⟨g, g, get_eq_ok.2 ⟨rfl, rfl⟩, ?_⟩⟩
  rw [phis]
  dsimp only
  rw [nodes, counted_zero, counted_zero, counted_zero]
  rfl

lemma loop_of_clear (fuel : Nat) (report : Report) (clear : Clear g) :
    (loop m (fuel + 1) report).run g = .ok report g := by
  rw [loop]
  exact Edit.bind_eq_ok.2 ⟨{}, g, once_of_clear clear, rfl⟩

/-- The removal of dead code succeeds on every graph that passes the check.  It leaves blocks that control reaches
and nodes that are needed, and no phi with a single value; nodes with effects stay where control reached them, and
a second run does nothing.  What is left passes the check if the exit leads only to blocks that control reaches. -/
theorem needed_of_pass (f : Func) (ctx : Context) (checked : Checked f) : ∃ report g,
    (pass.run ctx).run f = .ok report g ∧
      (g.verify = .ok () ↔ ∀ e ∈ f.succs exit, e.1 ≠ exit → f.Leads entry e.1) ∧
      (∀ b, (g.block? b).isSome → b ≠ exit → g.Leads entry b) ∧
      (∀ v, (g.node? v).isSome → Needed g v) ∧
      (∀ v is, g.inputs? v = some is → ∀ i ∈ is, i.value ≠ .node v →
        ∃ j ∈ is, j.value ≠ .node v ∧ j.value ≠ i.value) ∧
      (∀ b, f.Leads entry b → ∀ v ∈ f.nodesOf b, ∀ k, f.kind? v = some k → k.hasSideEffects = true →
        v ∈ g.nodesOf b ∧ g.shape? v = f.shape? v) ∧
      (pass.run ctx).run g = .ok {} g := by
  obtain ⟨report, _, run, h, reduced, rfl⟩ := once_prunes (m := ctx.method) checked
  have clear : Clear (pruned h) := clear_pruned reduced
  have ran : ∃ report, (pass.run ctx).run f = .ok report (pruned h) := by
    cases more : report.changed with
    | true => exact ⟨_, Edit.bind_eq_ok.2 ⟨report, _, run, by rw [more]; exact loop_of_clear 98 _ clear⟩⟩
    | false => exact ⟨_, Edit.bind_eq_ok.2 ⟨report, _, run, by rw [more]; rfl⟩⟩
  obtain ⟨report, ran⟩ := ran
  refine ⟨report, pruned h, ran, verify_pruned reduced, clear.reached, clear.needed, fun v is inputs i mem other => ?_,
    fun b path v mem k kind effect => ?_, loop_of_clear 99 {} clear⟩
  · obtain ⟨t, phi⟩ := clear.filed.mem_phis (v := v) (by rw [inputs]; rfl)
    have none := clear.several v (mem_nodeIds.2 ⟨t, List.mem_append_left _ phi⟩)
    exact exists_ne_of_trivialValue? inputs none mem other
  · obtain ⟨there, shape⟩ := reduced.stays b path v mem
    rw [shape?_of_kind? kind] at shape ⊢
    rw [← hasSideEffects_shape] at effect
    obtain ⟨there, shape⟩ := effect_removeTrivialPhis reduced.fitted.toFiled there shape effect
    exact effect_sweep (reduced.fitted.trims (trims_removeTrivialPhis h)) there shape effect

/-- A block that control cannot reach leads to a phi, and a node is not needed. -/
def cluttered : List Change :=
  [.addBlock, .addBlock, .setTerminator 0 (.goto 2), .setTerminator 3 (.goto 2),
    .appendNode 2 (.phi [⟨.const (.int 5), 0, .fallthrough⟩, ⟨.const (.int 7), 3, .fallthrough⟩]),
    .appendNode 2 (.copy (.reg 0 0)), .setTerminator 2 (.leave (some (.node 0)))]

/-- The optimization of a method alone. -/
def alone : Context := ⟨0, {}, .unknown, {}⟩

/-- The graph is cleared: it passes the check, and a second run does nothing. -/
theorem needed_of_pass_cluttered : ∃ f report g, build? cluttered (.new 0 0 {} 1) = some f ∧ Checked f ∧
    (pass.run alone).run f = .ok report g ∧ g.verify = .ok () ∧ (∀ v, (g.node? v).isSome → Needed g v) ∧
      (pass.run alone).run g = .ok {} g := by
  have facts : (build? cluttered (.new 0 0 {} 1)).any (fun f => (f.block? entry).isSome && f.verify.isOk &&
      decide (f.succs exit = [])) = true := by decide +kernel
  obtain ⟨f, built, checked, ends⟩ := exists_checked facts
  obtain ⟨report, g, run, verified, -, needed, -, -, again⟩ := needed_of_pass f alone checked
  refine ⟨f, report, g, built, checked, run, verified.2 fun e mem => ?_, needed, again⟩
  rw [ends] at mem
  cases mem

/-- The exit leads on to a block that control cannot reach. -/
def overrun : List Change :=
  [.addBlock, .addBlock, .setTerminator 0 (.goto 2), .setTerminator 2 (.goto 2), .setTerminator 3 (.leave none),
    .setTerminator 1 (.goto 3)]

/-- The removal of dead code leaves a graph that does not pass the check. -/
def spoils (f : Func) : Bool :=
  match (pass.run alone).run f with
  | .ok _ g => !(g.verify matches .ok ())
  | .error .. => false

/-- The exit may be left with an edge to a block that is gone. -/
theorem not_verify_of_pass : ¬∀ (f : Func) (ctx : Context), Checked f →
    ∃ report g, (pass.run ctx).run f = .ok report g ∧ g.verify = .ok () := by
  intro all
  have facts : (build? overrun (.new 0 0 {} 1)).any (fun f => (f.block? entry).isSome && f.verify.isOk &&
      decide (spoils f = true)) = true := by decide +kernel
  obtain ⟨f, -, checked, spoiled⟩ := exists_checked facts
  obtain ⟨report, g, run, verified⟩ := all f alone checked
  rw [spoils, run] at spoiled
  simp [verified] at spoiled

end Avm.Opt.DeadCode
