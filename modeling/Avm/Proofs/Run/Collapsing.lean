import Avm.Proofs.Ir.Places
import Avm.Proofs.Run.Graph

/-!
# Phis that merge a single value

A phi is trivial if its inputs are all the same value, apart from the phi itself; its uses are then replaced by
that value.  If the value is a node, every way to the phi passes the node, and passes the phi again behind the
node before a use of the phi: so the value of the node has not changed since.  If it is a register, the
register was not set since the block of the phi was entered.

The main statement is `run_removeTrivialPhis`.
-/

namespace Avm.Ir

lemma NodeKind.uses_iff {v : ValueId} {k : NodeKind} : k.uses v = true ↔ .node v ∈ k.operands := by
  have isNode (x : Value) : x.isNode v = true ↔ x = .node v := by
    cases x with
    | node w => rw [Value.isNode, beq_iff_eq, Value.node.injEq]
    | _ => exact iff_of_false (by rintro ⟨⟩) (by rintro ⟨⟩)
  have any (xs : List Value) : (xs.any fun x => x.isNode v) = true ↔ .node v ∈ xs := by
    rw [List.any_eq_true]
    constructor
    · rintro ⟨x, mem, same⟩
      exact (isNode x).1 same ▸ mem
    · exact fun mem => ⟨_, mem, (isNode _).2 rfl⟩
  cases k with
  | unary | type | copy | store => rw [uses, isNode, operands, List.mem_singleton, eq_comm]
  | binary op x y =>
    rw [uses, Bool.or_eq_true, isNode, isNode, operands, List.mem_cons, List.mem_singleton, eq_comm, @eq_comm _ y]
  | phi is => rw [uses, operands, ← any, List.any_map]; rfl
  | property | call | operation => exact any _
  | scope op x =>
    cases x with
    | none => simp [uses, operands]
    | some x => rw [uses, Option.any_some, isNode, operands, Option.toList_some, List.mem_singleton, eq_comm]
  | caught | hasNext2 | debug => exact iff_of_false (by rintro ⟨⟩) List.not_mem_nil

namespace Func

variable {V : Type} {f g : Func} {b c t : BlockId} {v w p : ValueId} {rest : List ValueId} {x y : Value} {r : Nat}

/-- One graph is what is left of another when a phi of a block, which merges a single value, is replaced by the
value. -/
structure Collapses (f g : Func) (c : BlockId) (p : ValueId) (x : Value) : Prop where
  here : p ∈ f.phis c
  other : x ≠ .node p
  merged : x ∈ f.merged p
  merges : ∀ s kind y, f.incoming p s kind = some y → y = .node p ∨ y = x
  phis : ∀ t, g.phis t = (f.phis t).filter (· != p)
  body : ∀ t, g.body t = f.body t
  gone : g.kind? p = none
  kind : ∀ v, v ≠ p → g.kind? v = (f.kind? v).map (NodeKind.mapOperands (Value.replaceNode p x))
  ends : ∀ t, g.terminator t = (f.terminator t).mapOperands (Value.replaceNode p x)

lemma kind?_replaceUses : (f.replaceUses p x).kind? v =
    (f.kind? v).map (NodeKind.mapOperands (Value.replaceNode p x)) := by
  simp only [kind?, node?, replaceUses, Array.getElem?_map]
  cases f.nodes[v]? with
  | none => rfl
  | some place =>
    cases place with
    | none => rfl
    | some n =>
      simp only [Option.map_some, Option.join_some, replaceInNode]
      split
      · rfl
      · rename_i unused
        have same (y) (mem : y ∈ n.kind.operands) : Value.replaceNode p x y = y := by
          refine if_neg ?_
          rintro rfl
          exact unused (NodeKind.uses_iff.2 mem)
        rw [Option.map_some, NodeKind.mapOperands_eq_self same]

lemma terminator_replaceUses : (f.replaceUses p x).terminator t =
    (f.terminator t).mapOperands (Value.replaceNode p x) := by
  simp only [terminator, block?, replaceUses, Array.getElem?_map]
  cases f.blocks[t]? with
  | none => rfl
  | some place => cases place <;> rfl

lemma mem_merged_of_trivialValue? (trivial : f.trivialValue? p = some x) :
    x ∈ f.merged p ∧ x ≠ .node p ∧ ∀ y ∈ f.merged p, y = .node p ∨ y = x := by
  rw [trivialValue?] at trivial
  split at trivial
  · cases trivial
  · rename_i first more split
    split at trivial
    · rename_i all
      obtain rfl := Option.some.inj trivial
      have mem : first ∈ (f.merged p).filter (· != .node p) := by
        rw [split]
        exact List.mem_cons_self
      obtain ⟨mem, other⟩ := List.mem_filter.1 mem
      refine ⟨mem, bne_iff_ne.1 other, fun y there => ?_⟩
      by_cases self : y = .node p
      · exact .inl self
      · have kept : y ∈ (f.merged p).filter (· != .node p) := List.mem_filter.2 ⟨there, bne_iff_ne.2 self⟩
        rw [split] at kept
        rcases List.mem_cons.1 kept with rfl | later
        · exact .inr rfl
        · exact .inr (beq_iff_eq.1 (List.all_eq_true.1 all y later))
    · cases trivial

lemma collapses_of_trivialValue? (filed : Filed f) (trivial : f.trivialValue? p = some x) :
    ∃ c, Collapses f ((f.replaceUses p x).dropNode p) c p x := by
  obtain ⟨merged, other, merges⟩ := mem_merged_of_trivialValue? trivial
  obtain ⟨is, inputs, -⟩ := mem_merged.1 merged
  have phi : (f.inputs? p).isSome := by rw [inputs]; rfl
  obtain ⟨c, here⟩ := filed.mem_phis phi
  have alike := alike_replaceUses (f := f) p x
  have lists (t) := (filed.toListed.sameNodes alike.toSameNodes).lists_dropNode p t
  refine ⟨c, here, other, merged, fun s kind y value => merges y ?_, fun t => ?_, fun t => ?_, ?_, fun v ne =>
    ?_, fun t => ?_⟩
  · rw [incoming, inputs, Option.bind_some] at value
    obtain ⟨i, mem, -, -, rfl⟩ := exists_of_incoming? value
    exact mem_merged.2 ⟨is, inputs, i, mem, rfl⟩
  · rw [(lists t).1, alike.phis]
  · rw [(lists t).2, alike.body, List.filter_eq_self]
    intro v mem
    rw [bne_iff_ne]
    rintro rfl
    rw [filed.plain t v mem] at phi
    cases phi
  · rw [Func.kind?, node?_dropNode, if_pos rfl]
    rfl
  · rw [Func.kind?, node?_dropNode, if_neg ne]
    exact kind?_replaceUses
  · rw [terminator, map_dropNode (p := Block.terminator) fun _ _ _ => rfl]
    exact terminator_replaceUses

namespace Collapses

variable (h : Collapses f g c p x)
include h

lemma incoming (ne : v ≠ p) (s : BlockId) (kind : EdgeKind) :
    g.incoming v s kind = (f.incoming v s kind).map (Value.replaceNode p x) := by
  rw [Func.incoming, Func.inputs?, h.kind v ne, Func.incoming, Func.inputs?]
  cases f.kind? v with
  | none => rfl
  | some k =>
    cases k with
    | phi is =>
      show incoming? (is.map fun i => { i with value := Value.replaceNode p x i.value }) s kind = _
      rw [incoming?, List.find?_map, Option.map_map]
      show _ = (incoming? is s kind).map _
      rw [incoming?, Option.map_map]
      rfl
    | _ => rfl

lemma targets (t : BlockId) : (g.terminator t).targets = (f.terminator t).targets := by
  rw [h.ends, Terminator.targets_mapOperands]

lemma mem_phis (ne : v ≠ p) : v ∈ g.phis t ↔ v ∈ f.phis t := by
  rw [h.phis, List.mem_filter, bne_iff_ne]
  exact and_iff_left ne

lemma sets (v : ValueId) (r : Nat) (filed : Filed f) : g.sets v r = f.sets v r := by
  by_cases same : v = p
  · obtain ⟨is, phi⟩ := Option.isSome_iff_exists.1 (filed.phi c p h.here)
    obtain ⟨k, kind, inputs⟩ := Option.bind_eq_some_iff.1 phi
    rw [same, Func.sets, h.gone, Func.sets, kind]
    cases k with
    | phi => rfl
    | _ => cases inputs
  · rw [Func.sets, h.kind v same, Func.sets, Option.any_map]
    cases f.kind? v with
    | none => rfl
    | some k => cases k <;> rfl

lemma comes_iff {P : ValueId → Prop} (free : ¬P p) : g.Comes P b rest ↔ f.Comes P b rest := by
  have avoided (t) : (∀ v ∈ g.phis t, ¬P v) ↔ ∀ v ∈ f.phis t, ¬P v := by
    refine forall_congr' fun v => ?_
    by_cases same : v = p
    · rw [same]
      exact iff_of_true (fun _ => free) fun _ => free
    · rw [h.mem_phis same]
  constructor
  · intro way
    induction way with
    | start => rw [h.body]; exact .start
    | node _ other ih => exact .node ih other
    | edge _ out none ih =>
      rw [h.body]
      exact .edge ih (h.targets _ ▸ out) ((avoided _).1 none)
  · intro way
    induction way with
    | start => rw [← h.body]; exact .start
    | node _ other ih => exact .node ih other
    | edge _ out none ih =>
      rw [← h.body]
      exact .edge ih ((h.targets _).symm ▸ out) ((avoided _).2 none)

lemma avoids_iff (ne : v ≠ p) : g.Avoids v b rest ↔ f.Avoids v b rest := h.comes_iff (Ne.symm ne)

lemma reached_iff : g.Reached b rest ↔ f.Reached b rest := h.comes_iff id

lemma since_iff (filed : Filed f) {set : Bool} : g.Since t r set b rest ↔ f.Since t r set b rest := by
  constructor
  · intro way
    induction way with
    | start => rw [h.body]; exact .start
    | node _ ih => rw [h.sets _ _ filed]; exact .node ih
    | edge _ out ne ih => rw [h.body]; exact .edge ih (h.targets _ ▸ out) ne
  · intro way
    induction way with
    | start => rw [← h.body]; exact .start
    | node _ ih => rw [← h.sets _ _ filed]; exact .node ih
    | edge _ out ne ih => rw [← h.body]; exact .edge ih ((h.targets _).symm ▸ out) ne

lemma exists_usesAt (uses : g.UsesAt y b rest) : ∃ z, f.UsesAt z b rest ∧ y = Value.replaceNode p x z := by
  cases uses with
  | @node v _ k kind mem =>
    have ne : v ≠ p := by
      rintro rfl
      rw [h.gone] at kind
      cases kind
    rw [h.kind v ne] at kind
    obtain ⟨k, before, rfl⟩ := Option.map_eq_some_iff.1 kind
    rw [NodeKind.operands_mapOperands] at mem
    obtain ⟨z, operand, rfl⟩ := List.mem_map.1 mem
    exact ⟨z, .node before operand, rfl⟩
  | last mem =>
    rw [h.ends, Terminator.operands_mapOperands] at mem
    obtain ⟨z, operand, rfl⟩ := List.mem_map.1 mem
    exact ⟨z, .last operand, rfl⟩
  | @edge t kind q out mem value =>
    have ne : q ≠ p := by
      rintro rfl
      rw [h.phis] at mem
      simp at mem
    rw [h.incoming ne] at value
    obtain ⟨z, before, rfl⟩ := Option.map_eq_some_iff.1 value
    exact ⟨z, .edge (h.targets _ ▸ out) ((h.mem_phis ne).1 mem) before, rfl⟩

lemma reads (read : g.Reads y r) : f.Reads y r := by
  induction read with
  | reg => exact .reg
  | @phi v is i r inputs mem _ ih =>
    have ne : v ≠ p := by
      rintro rfl
      rw [Func.inputs?, h.gone] at inputs
      cases inputs
    rw [Func.inputs?, h.kind v ne] at inputs
    obtain ⟨k', kind, inputs⟩ := Option.bind_eq_some_iff.1 inputs
    obtain ⟨k, before, rfl⟩ := Option.map_eq_some_iff.1 kind
    cases k with
    | phi js =>
      obtain rfl := Option.some.inj inputs
      obtain ⟨j, there, rfl⟩ := List.mem_map.1 mem
      have own : f.inputs? v = some js := by rw [Func.inputs?, before]; rfl
      refine .phi own there ?_
      dsimp only [Value.replaceNode] at ih
      split at ih
      · rename_i same
        obtain ⟨is, inputs, i, mem, value⟩ := mem_merged.1 h.merged
        rw [same]
        exact .phi inputs mem (value ▸ ih)
      · exact ih
    | _ => cases inputs

end Collapses

/-- Control can be just behind one node without having evaluated another one. -/
def Passes (f : Func) (p n : ValueId) : Prop := ∃ c rest, f.Behind n c rest ∧ f.Avoids p c rest

section Ways

variable {n : ValueId} {kind : EdgeKind} (checked : Checked f) (dominated : Dominated f)

include checked in
lemma Filed.ne_of_mem_body (here : p ∈ f.phis c) (mem : v ∈ f.body b) : v ≠ p := by
  rintro rfl
  have phi := checked.phi c v here
  rw [checked.plain b v mem] at phi
  cases phi

namespace Collapses

variable (h : Collapses f g c p x)
include h checked

lemma ne_of_comes {P : ValueId → Prop} (way : f.Comes P b (v :: rest)) : v ≠ p :=
  Filed.ne_of_mem_body checked h.here (way.suffix.subset List.mem_cons_self)

lemma ne_of_mem_phis (ne : t ≠ c) (mem : v ∈ f.phis t) : v ≠ p := by
  rintro rfl
  exact ne (checked.toListed.eq_of_mem_phis mem h.here)

lemma exists_incoming (out : (c, kind) ∈ (f.terminator b).targets) :
    ∃ y, f.incoming p b kind = some y ∧ f.UsesAt y b [] ∧ (y = .node p ∨ y = x) := by
  have known := (checked.keyed.known c p h.here b kind).2 (checked.mem_succs_of_mem_targets out)
  obtain ⟨y, value⟩ := Option.isSome_iff_exists.1 known
  exact ⟨y, value, .edge out h.here value, h.merges b kind y value⟩

lemma avoids_of_mem_phis (mem : n ∈ f.phis c) (way : f.Avoids p b rest) : f.Avoids n b rest := by
  induction way with
  | start => exact .start
  | node way _ ih => exact .node ih (Filed.ne_of_mem_body checked mem (way.suffix.subset List.mem_cons_self))
  | edge _ out none ih =>
    refine .edge ih out fun v there => ?_
    rintro rfl
    rw [checked.toListed.eq_of_mem_phis there mem] at none
    exact none p h.here rfl

include dominated

lemma avoids_of_avoids (value : x = .node n) (way : f.Avoids n b rest) : f.Avoids p b rest := by
  induction way with
  | start => exact .start
  | node way _ ih => exact .node ih (h.ne_of_comes checked way)
  | @edge b t kind way out none ih =>
    refine .edge ih out fun v mem => ?_
    rintro rfl
    obtain rfl := checked.toListed.eq_of_mem_phis mem h.here
    obtain ⟨y, -, use, rfl | same⟩ := h.exists_incoming checked out
    · exact dominated v b [] use ih
    · rw [same, value] at use
      exact dominated n b [] use way

/-- Before the phi is evaluated for the first time, control is just behind the node that it merges. -/
lemma passes_of_edge (value : x = .node n) (avoids : f.Avoids p b []) (out : (c, kind) ∈ (f.terminator b).targets) :
    n ∉ f.phis c ∧ f.Passes p n := by
  obtain ⟨y, -, use, rfl | rfl⟩ := h.exists_incoming checked out
  · exact absurd avoids (dominated p b [] use)
  · rw [value] at use
    constructor
    · exact fun mem => dominated n b [] use (h.avoids_of_mem_phis checked mem avoids)
    · rcases avoids.exists_behind n with both | behind
      · exact absurd (both.mono fun v same => .inr same) (dominated n b [] use)
      · exact behind

lemma avoids_or_passes (value : x = .node n) (way : f.Reached b rest) : f.Avoids p b rest ∨ f.Passes p n := by
  induction way with
  | start => exact .inl .start
  | node way _ ih => exact ih.imp_left fun avoids => .node avoids (h.ne_of_comes checked way)
  | @edge b t kind way out none ih =>
    rcases ih with avoids | passes
    · by_cases here : t = c
      · subst here
        exact .inr (h.passes_of_edge checked dominated value avoids out).2
      · exact .inl (.edge avoids out fun v mem => h.ne_of_mem_phis checked here mem)
    · exact .inr passes

end Collapses

end Ways

section Running

variable {S : Semantics V} {s s' : Thread V}

/-- The phi has the value that it merges. -/
def Stands (f : Func) (S : Semantics V) (c : BlockId) (p : ValueId) (x : Value) (s : Thread V) : Prop :=
  match x with
  | .const k => s.values p = S.const k
  | .reg r _ => ∃ set, f.Since c r set s.block s.rest ∧ (set = false → s.values p = s.registers r)
  | .node n => n ∉ f.phis c ∧ f.Passes p n ∧ s.values p = s.values n

/-- The threads of the two graphs are the same but for the phi, which has the value that it merges once it was
evaluated. -/
structure Follows (f : Func) (S : Semantics V) (c : BlockId) (p : ValueId) (x : Value) (s s' : Thread V) : Prop
    extends Agree (· ≠ p) s s' where
  reached : s.ending = none → f.Reached s.block s.rest
  stands : s.ending = none → f.Avoids p s.block s.rest ∨ f.Stands S c p x s

variable (h : Collapses f g c p x) (checked : Checked f) (dominated : Dominated f) (unbroken : Unbroken f)
include h unbroken

lemma Stands.value_eq (stands : f.Stands S c p x s) (reached : f.Reached s.block s.rest)
    (use : f.UsesAt (.node p) s.block s.rest) : s.values p = s.value S x := by
  cases x with
  | const k => exact stands
  | reg r version =>
    obtain ⟨set, since, same⟩ := stands
    obtain ⟨is, inputs, i, mem, value⟩ := mem_merged.1 h.merged
    have read : f.Reads (.node p) r := .phi inputs mem (value ▸ .reg)
    cases set with
    | false => exact same rfl
    | true => exact absurd since (unbroken p c r _ _ h.here read reached use)
  | node n => exact stands.2.2

include dominated

lemma Follows.value_eq (follows : Follows f S c p x s s') (running : s.ending = none)
    (use : f.UsesAt y s.block s.rest) : s'.value S (Value.replaceNode p x y) = s.value S y := by
  have kept {y : Value} (other : y ≠ .node p) : s'.value S y = s.value S y := by
    cases y with
    | const => rfl
    | reg r version => exact congrFun follows.registers r
    | node v => exact follows.values running v fun same => other (by rw [same])
  rw [Value.replaceNode]
  split
  · rename_i same
    subst same
    rcases follows.stands running with avoids | stands
    · exact absurd avoids (dominated p _ _ use)
    · rw [kept h.other]
      exact (stands.value_eq h unbroken (follows.reached running) use).symm
  · rename_i other
    exact kept other

include checked

lemma Follows.node {k : NodeKind} (follows : Follows f S c p x s s') (running : s.ending = none)
    (next : s.rest = v :: rest)
    (kind : f.kind? v = some k) :
    Follows f S c p x ({ s with rest := rest }.perform S v k)
      ({ s' with rest := rest }.perform S v (k.mapOperands (Value.replaceNode p x))) := by
  have reached := follows.reached running
  rw [next] at reached
  have ne : v ≠ p := h.ne_of_comes checked reached
  have plain : k.isPhi = false := by
    have none := checked.plain s.block v (reached.suffix.subset List.mem_cons_self)
    rw [Func.inputs?, kind] at none
    cases k with
    | phi => cases none
    | _ => rfl
  obtain ⟨block, rest'⟩ := Thread.place_perform (t := { s with rest := rest }) (S := S) (v := v) (k := k)
  have kept {w : ValueId} (other : w ≠ v) : ({ s with rest := rest }.perform S v k).values w = s.values w :=
    Thread.values_perform other
  have worth (y) (mem : y ∈ k.operands) : s'.value S (Value.replaceNode p x y) = s.value S y :=
    follows.value_eq h dominated unbroken running (by rw [next]; exact .node kind mem)
  have agree := (follows.toAgree.next rest).perform (v := v) plain worth
  refine ⟨agree.mono fun w other => .inl other, fun _ => ?_, fun _ => ?_⟩
  · rw [block, rest']
    exact .node reached id
  · rw [block, rest']
    have stands := follows.stands running
    rw [next] at stands
    rcases stands with avoids | stands
    · exact .inl (.node avoids ne)
    · cases x with
      | const => exact .inr ((kept ne.symm).trans stands)
      | reg r version =>
        obtain ⟨set, since, same⟩ := stands
        rw [next] at since
        refine .inr ⟨set || f.sets v r, ?_, fun unset => ?_⟩
        · rw [block, rest']
          exact .node since
        · obtain ⟨unset, free⟩ := Bool.or_eq_false_iff.1 unset
          rw [sets, kind, Option.any_some, List.contains_eq_mem, decide_eq_false_iff_not] at free
          rw [kept ne.symm, same unset, Thread.registers_perform free]
      | node n =>
        obtain ⟨apart, ⟨c', rest'', behind, avoids⟩, same⟩ := stands
        by_cases here : n = v
        · -- Control is just behind the node again, where the phi can be avoided.
          subst here
          obtain ⟨before, split⟩ := reached.suffix
          obtain ⟨rfl, rfl⟩ := checked.toFiled.behind_unique (.node split.symm) behind
          exact .inl avoids
        · refine .inr ⟨apart, ⟨c', rest'', behind, avoids⟩, ?_⟩
          rw [kept ne.symm, kept here, same]

lemma Follows.edge {kind : EdgeKind} (follows : Follows f S c p x s s') (running : s.ending = none) (next : s.rest = [])
    (out : (b, kind) ∈ (f.terminator s.block).targets) :
      Follows f S c p x (f.enter S s b kind) (g.enter S s' b kind) := by
  have reached := follows.reached running
  rw [next] at reached
  have kept {w : ValueId} (other : w ∉ f.phis b) : (f.enter S s b kind).values w = s.values w := if_neg other
  refine ⟨⟨rfl, h.body b, follows.registers, follows.scope, follows.log, follows.ending, fun _ w other => ?_⟩,
    fun _ => .edge reached out fun _ _ => id, fun _ => ?_⟩
  · show (if w ∈ g.phis b then _ else _) = if w ∈ f.phis b then _ else _
    by_cases mem : w ∈ f.phis b
    · rw [if_pos ((h.mem_phis other).2 mem), if_pos mem, follows.block, h.incoming other,
        follows.values running w other]
      cases value : f.incoming w s.block kind with
      | none => rfl
      | some y => exact follows.value_eq h dominated unbroken running (by rw [next]; exact .edge out mem value)
    · rw [if_neg fun there => mem ((h.mem_phis other).1 there), if_neg mem, follows.values running w other]
  · have stands := follows.stands running
    rw [next] at stands
    by_cases here : b = c
    · subst here
      obtain ⟨y, value, use, merges⟩ := h.exists_incoming checked out
      have entered : (f.enter S s b kind).values p = s.value S y := by
        show (if p ∈ f.phis b then _ else _) = _
        rw [if_pos h.here, value]
        rfl
      -- Where the phi keeps its value, it was evaluated before.
      have held (self : y = .node p) : f.Stands S b p x s := stands.resolve_left fun avoids =>
        dominated p s.block [] (self ▸ use) avoids
      have worth : s.value S y = s.value S x := by
        rcases merges with self | same
        · rw [self]
          exact (held self).value_eq h unbroken (follows.reached running) (next.symm ▸ self ▸ use)
        · rw [same]
      rw [worth] at entered
      right
      cases x with
      | const => exact entered
      | reg r version => exact ⟨false, .start, fun _ => entered⟩
      | node n =>
        have passes : n ∉ f.phis b ∧ f.Passes p n := by
          rcases stands with avoids | stands
          · exact h.passes_of_edge checked dominated rfl avoids out
          · exact ⟨stands.1, stands.2.1⟩
        exact ⟨passes.1, passes.2, entered.trans (kept passes.1).symm⟩
    · have other : p ∉ f.phis b := fun mem => h.ne_of_mem_phis checked here mem rfl
      rcases stands with avoids | stands
      · exact .inl (.edge avoids out fun v mem => h.ne_of_mem_phis checked here mem)
      · cases x with
        | const => exact .inr ((kept other).trans stands)
        | reg r version =>
          obtain ⟨set, since, same⟩ := stands
          rw [next] at since
          exact .inr ⟨set, .edge since out here, fun unset => (kept other).trans (same unset)⟩
        | node n =>
          obtain ⟨apart, ⟨c', rest, behind, avoids⟩, same⟩ := stands
          by_cases mem : n ∈ f.phis b
          · obtain ⟨rfl, rfl⟩ := checked.toFiled.behind_unique (.phi mem) behind
            exact .inl avoids
          · exact .inr ⟨apart, ⟨c', rest, behind, avoids⟩, by rw [kept other, kept mem, same]⟩

lemma Follows.step (follows : Follows f S c p x s s') : Follows f S c p x (f.step S s) (g.step S s') := by
  by_cases ended : s.ending ≠ none
  · rw [step_ended ended, step_ended (by rw [follows.ending]; exact ended)]
    exact follows
  · have running := not_ne_iff.1 ended
    have running' : s'.ending = none := follows.ending.trans running
    have reached := follows.reached running
    cases next : s.rest with
    | cons v rest =>
      rw [next] at reached
      -- Nodes that blocks list exist.
      have owned := checked.owned s.block v (List.mem_append_right _ (reached.suffix.subset List.mem_cons_self))
      obtain ⟨n, there, -⟩ := Option.map_eq_some_iff.1 owned
      have kind : f.kind? v = some n.kind := by rw [Func.kind?, there]; rfl
      have kind' := h.kind v (h.ne_of_comes checked reached)
      rw [kind] at kind'
      rw [step_node running next kind, step_node running' (follows.rest.trans next) kind']
      exact follows.node h checked dominated unbroken running next kind
    | nil =>
      have args : (g.terminator s'.block).operands.map (s'.value S) =
        (f.terminator s.block).operands.map (s.value S) := by
        rw [follows.block, h.ends, Terminator.operands_mapOperands]
        exact Agree.map_value fun y mem => follows.value_eq h dominated unbroken running (by rw [next]; exact .last mem)
      have choice : (g.terminator s'.block).choose S ((g.terminator s'.block).operands.map (s'.value S)) =
          (f.terminator s.block).choose S ((f.terminator s.block).operands.map (s.value S)) := by
        rw [args, follows.block, h.ends, Terminator.choose_mapOperands]
      cases chosen : (f.terminator s.block).choose S ((f.terminator s.block).operands.map (s.value S)) with
      | some e =>
        rw [chosen] at choice
        rw [step_edge running next chosen, step_edge running' (follows.rest.trans next) choice]
        exact follows.edge h checked dominated unbroken running next (Terminator.mem_targets_of_choose chosen)
      | none =>
        rw [chosen] at choice
        have finish : (g.terminator s'.block).finish ((g.terminator s'.block).operands.map (s'.value S)) =
            (f.terminator s.block).finish ((f.terminator s.block).operands.map (s.value S)) := by
          rw [args, follows.block, h.ends, Terminator.finish_mapOperands]
        rw [step_last running next chosen, step_last running' (follows.rest.trans next) choice, finish]
        refine ⟨⟨follows.block, follows.rest, follows.registers, follows.scope, follows.log, rfl, fun _ => ?_⟩,
          fun _ => follows.reached running, fun _ => follows.stands running⟩
        exact follows.values running

lemma Collapses.run_eq (registers : Nat → V) (n : Nat) :
    (g.run S registers n).report = (f.run S registers n).report := by
  suffices follows : Follows f S c p x (f.run S registers n) (g.run S registers n) from follows.report
  induction n with
  | zero => exact ⟨⟨rfl, h.body entry, rfl, rfl, rfl, rfl, fun _ _ _ => rfl⟩, fun _ => .start, fun _ => .inl .start⟩
  | succ n ih =>
    rw [run, Function.iterate_succ_apply', run, Function.iterate_succ_apply']
    exact ih.step h checked dominated unbroken

end Running

section Preserving

variable (h : Collapses f g c p x) (checked : Checked f) (dominated : Dominated f)
include h checked dominated

lemma Collapses.keeps_dominated : Dominated g := by
  intro m b rest use avoids
  obtain ⟨z, before, same⟩ := h.exists_usesAt use
  rw [Value.replaceNode] at same
  split at same
  · rename_i here
    -- The phi was used here, and control that avoids the node that it merges avoids the phi.
    have ne : m ≠ p := fun same' => h.other (by rw [← same, same'])
    rw [here] at before
    exact dominated p b rest before (h.avoids_of_avoids checked dominated same.symm ((h.avoids_iff ne).1 avoids))
  · rename_i other
    rw [← same] at before other
    have ne : m ≠ p := fun same' => other (by rw [same'])
    exact dominated m b rest before ((h.avoids_iff ne).1 avoids)

/-- The phi is used in the place of a phi that it merges: the register was not set since the block of the latter was
entered, wherever the phi itself was evaluated. -/
lemma Collapses.since_eq_false (unbroken : Unbroken f) {q : ValueId} {set : Bool} (value : x = .node q)
    (here : q ∈ f.phis t)
    (read : f.Reads (.node q) r) (passes : f.Passes p q) (since : f.Since t r set b rest)
    (use : f.UsesAt (.node p) b rest) : set = false := by
  obtain ⟨is, inputs, i, mem, merged⟩ := mem_merged.1 h.merged
  have read' : f.Reads (.node p) r := .phi inputs mem (by rw [merged, value]; exact read)
  suffices way : f.Reached b rest ∧
    (f.Avoids p b rest ∨ ∃ set', f.Since c r set' b rest ∧ (set' = false → set = false)) by
    rcases way with ⟨reached, avoids | ⟨set', since', unset⟩⟩
    · exact absurd avoids (dominated p b rest use)
    · cases set' with
      | false => exact unset rfl
      | true => exact absurd since' (unbroken p c r b rest h.here read' reached use)
  clear use
  induction since with
  | start =>
    obtain ⟨c', rest', behind, avoids⟩ := passes
    obtain ⟨rfl, rfl⟩ := checked.toFiled.behind_unique (.phi here) behind
    exact ⟨avoids.reached, .inl avoids⟩
  | @node set b v rest since ih =>
    obtain ⟨reached, avoids | ⟨set', since', unset⟩⟩ := ih
    · exact ⟨.node reached id, .inl (.node avoids (h.ne_of_comes checked reached))⟩
    · refine ⟨.node reached id, .inr ⟨_, .node since', fun none => ?_⟩⟩
      obtain ⟨none, free⟩ := Bool.or_eq_false_iff.1 none
      rw [unset none, free]
      rfl
  | @edge set b u kind since out other ih =>
    obtain ⟨reached, past⟩ := ih
    refine ⟨.edge reached out fun _ _ => id, ?_⟩
    by_cases inside : u = c
    · subst inside
      refine .inr ⟨false, .start, fun _ => ?_⟩
      obtain ⟨y, -, use, self | same⟩ := h.exists_incoming checked out
      · rw [self] at use
        rcases past with avoids | ⟨set', since', unset⟩
        · exact absurd avoids (dominated p b [] use)
        · cases set' with
          | false => exact unset rfl
          | true => exact absurd since' (unbroken p u r b [] h.here read' reached use)
      · rw [same, value] at use
        cases set with
        | false => rfl
        | true => exact absurd since (unbroken q t r b [] here read reached use)
    · rcases past with avoids | ⟨set', since', unset⟩
      · exact .inl (.edge avoids out fun v mem => h.ne_of_mem_phis checked inside mem)
      · exact .inr ⟨set', .edge since' out inside, unset⟩

lemma Collapses.keeps_unbroken (unbroken : Unbroken f) : Unbroken g := by
  intro q t r b rest mem read reached use since
  have ne : q ≠ p := by
    rintro rfl
    rw [h.phis] at mem
    simp at mem
  replace mem := (h.mem_phis ne).1 mem
  replace read := h.reads read
  replace reached := h.reached_iff.1 reached
  replace since := (h.since_iff checked.toFiled).1 since
  obtain ⟨z, before, same⟩ := h.exists_usesAt use
  rw [Value.replaceNode] at same
  split at same
  · rename_i here
    rw [here] at before
    have passes := (h.avoids_or_passes checked dominated same.symm reached).resolve_left (dominated p b rest before)
    exact absurd (h.since_eq_false checked dominated unbroken same.symm mem read passes since before) (by decide)
  · rw [← same] at before
    exact unbroken q t r b rest mem read reached before since

end Preserving

lemma Checked.replace (checked : Checked f) (p : ValueId) (x : Value) : Checked ((f.replaceUses p x).dropNode p) := by
  have alike := alike_replaceUses (f := f) p x
  have listed := checked.toListed.sameNodes alike.toSameNodes
  refine checked.sameFlow (alike.toSameFlow.trans sameFlow_dropNode)
    ((checked.toFiled.sameNodes alike.toSameNodes).dropNode p) fun t v mem => ?_
  rw [(listed.lists_dropNode p t).1, List.mem_filter, bne_iff_ne, alike.phis] at mem
  refine ⟨mem.1, ?_⟩
  rw [keys_eq, node?_dropNode, if_neg mem.2, ← keys_eq, alike.keys]

/-- A graph with its trivial phis replaced passes the check and runs as it did before. -/
theorem run_removeTrivialPhis (f : Func) (checked : Checked f) (dominated : Dominated f) (unbroken : Unbroken f) :
    f.removeTrivialPhis.1.verify = .ok () ∧
    ∀ (V : Type) (S : Semantics V) registers n,
      (f.removeTrivialPhis.1.run S registers n).report = (f.run S registers n).report := by
  have kept : (Checked f.removeTrivialPhis.1 ∧ Dominated f.removeTrivialPhis.1 ∧ Unbroken f.removeTrivialPhis.1) ∧
      ∀ (V : Type) (S : Semantics V) registers n,
        (f.removeTrivialPhis.1.run S registers n).report = (f.run S registers n).report := by
    refine removeTrivialPhis_keeps (P := fun g => (Checked g ∧ Dominated g ∧ Unbroken g) ∧
      ∀ (V : Type) (S : Semantics V) registers n, (g.run S registers n).report = (f.run S registers n).report) ?_
      ⟨⟨checked, dominated, unbroken⟩, fun _ _ _ _ => rfl⟩
    rintro g p x ⟨⟨checked, dominated, unbroken⟩, same⟩ trivial
    obtain ⟨c, step⟩ := collapses_of_trivialValue? checked.toFiled trivial
    refine ⟨⟨checked.replace p x, step.keeps_dominated checked dominated,
      step.keeps_unbroken checked dominated unbroken⟩,
      fun V S registers n => ?_⟩
    exact (step.run_eq checked dominated unbroken registers n).trans (same V S registers n)
  exact ⟨kept.1.1.verified, kept.2⟩

/-- A loop whose phi keeps what a register was read as before it. -/
def spinning : List Change :=
  [.addBlock, .addBlock, .setTerminator 0 (.goto 2), .setTerminator 2 (.branch .truthy [.node 0] 2 3),
    .setTerminator 3 (.leave (some (.node 0))),
    .appendNode 2 (.phi [⟨.reg 1 0, 0, .fallthrough⟩, ⟨.node 0, 2, .whenTrue⟩])]

/-- What there is in that graph. -/
def Spins (f : Func) : Prop :=
  f.nodes.size = 1 ∧ f.blocks.size = 4 ∧ (∀ b < 4, f.body b = []) ∧ (∀ b < 4, b ≠ 2 → f.phis b = []) ∧ f.phis 2 = [0] ∧
    f.inputs? 0 = some [⟨.reg 1 0, 0, .fallthrough⟩, ⟨.node 0, 2, .whenTrue⟩] ∧ f.terminator 0 = .goto 2 ∧
    f.terminator 1 = .none ∧ f.terminator 2 = .branch .truthy [.node 0] 2 3 ∧ f.terminator 3 = .leave (some (.node 0))

instance (f : Func) : Decidable (Spins f) := inferInstanceAs (Decidable (_ ∧ _))

lemma Spins.sound (spins : Spins f) : Dominated f ∧ Unbroken f := by
  obtain ⟨one, four, bodies, others, phis, inputs, t0, t1, t2, t3⟩ := spins
  have absent {b : BlockId} (outside : 4 ≤ b) : f.block? b = none := by
    rw [block?, Array.getElem?_eq_none (by rw [four]; exact outside)]
    rfl
  have body (b) : f.body b = [] := by
    by_cases inside : b < 4
    · exact bodies b inside
    · exact (parts_of_isNone (absent (Nat.not_lt.1 inside))).2.1
  have empty {P : ValueId → Prop} {b : BlockId} {rest : List ValueId} (way : f.Comes P b rest) : rest = [] :=
    List.suffix_nil.1 (body b ▸ way.suffix)
  -- Control that has not evaluated the phi is still in the first block.
  have early {b : BlockId} {rest : List ValueId} (way : f.Avoids 0 b rest) : b = 0 := by
    induction way with
    | start => rfl
    | node _ _ ih => exact ih
    | edge _ out none ih =>
      rw [ih, t0] at out
      obtain ⟨rfl, -⟩ := Prod.mk.inj (List.mem_singleton.1 out)
      rw [phis] at none
      exact absurd rfl (none 0 List.mem_cons_self)
  have uses {v : ValueId} {b : BlockId} {rest : List ValueId} (use : f.UsesAt (.node v) b rest)
    (reached : f.Reached b rest) :
      v = 0 ∧ b ≠ 0 := by
    obtain rfl := empty reached
    cases use with
    | last mem =>
      by_cases inside : b < 4
      · interval_cases b
        · rw [t0] at mem
          cases mem
        · rw [t1] at mem
          cases mem
        · rw [t2] at mem
          exact ⟨Value.node.inj (List.mem_singleton.1 mem), by decide⟩
        · rw [t3] at mem
          exact ⟨Value.node.inj (List.mem_singleton.1 mem), by decide⟩
      · rw [(parts_of_isNone (absent (Nat.not_lt.1 inside))).2.2.2.1] at mem
        cases mem
    | @edge t kind q out mem value =>
      have here : t = 2 := by
        by_contra other
        by_cases inside : t < 4
        · rw [others t inside other] at mem
          cases mem
        · rw [(parts_of_isNone (absent (Nat.not_lt.1 inside))).1] at mem
          cases mem
      rw [here, phis, List.mem_singleton] at mem
      rw [mem, incoming, inputs, Option.bind_some] at value
      obtain ⟨i, found, source, -, same⟩ := exists_of_incoming? value
      rcases List.mem_cons.1 found with rfl | found
      · cases same
      · obtain rfl := List.mem_singleton.1 found
        exact ⟨(Value.node.inj same).symm, by rw [← source]; decide⟩
  refine ⟨fun v b rest use avoids => ?_, fun p c r b rest _ _ reached use since => ?_⟩
  · obtain ⟨rfl, inner⟩ := uses use avoids.reached
    exact inner (early avoids)
  · have unset {set : Bool} {b : BlockId} {rest : List ValueId} (since : f.Since c r set b rest) :
        rest <:+ f.body b ∧ set = false := by
      induction since with
      | start => exact ⟨List.suffix_refl _, rfl⟩
      | node _ ih =>
        rw [body] at ih
        cases List.suffix_nil.1 ih.1
      | edge _ _ _ ih => exact ⟨List.suffix_refl _, ih.2⟩
    cases (unset since).2

/-- The loop may be run with the register in the place of its phi. -/
theorem run_removeTrivialPhis_spinning : ∃ f, build? spinning (.new 0 1 {} 2) = some f ∧ Checked f ∧ Dominated f ∧
    Unbroken f ∧ f.removeTrivialPhis.1.verify = .ok () ∧
    ∀ (V : Type) (S : Semantics V) registers n,
      (f.removeTrivialPhis.1.run S registers n).report = (f.run S registers n).report := by
  have facts : (build? spinning (.new 0 1 {} 2)).any
      (fun f => (f.block? entry).isSome && f.verify.isOk && decide (Spins f)) = true := by decide +kernel
  obtain ⟨f, built, checked, spins⟩ := exists_checked facts
  obtain ⟨dominated, unbroken⟩ := spins.sound
  exact ⟨f, built, checked, dominated, unbroken, run_removeTrivialPhis f checked dominated unbroken⟩

end Func

end Avm.Ir
