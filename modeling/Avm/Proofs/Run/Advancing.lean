import Avm.Proofs.Emit.Placing
import Avm.Proofs.Ir.Places
import Avm.Proofs.Run.Pacing

/-!
# Operators that are evaluated earlier

Some blocks are entered from one block only (`Gate`), and one of them has an operator that uses what does not change
while control is in them.  The operator may be moved to the end of the block before.  There it is worth what it is
worth in the blocks, and a run that has not evaluated it where it was uses it nowhere.  It does not matter whether
control comes to it in each round, or at all.

The main statements are `Moves.seen_eq` and `Moves.dominates`.
-/

namespace Avm.Ir

variable {V : Type} {S : Semantics V}

/-- The node is an operator: all it does is to compute its value. -/
def NodeKind.isOperator : NodeKind → Bool
  | unary .. | binary .. => true
  | _ => false

lemma NodeKind.mapOperands_id {k : NodeKind} : k.mapOperands (fun x => x) = k := by
  cases k <;> simp [mapOperands]

namespace Thread

variable {t t' : Thread V} {v : ValueId} {k : NodeKind}

/-- What an operator is worth here. -/
def operation (S : Semantics V) (t : Thread V) : NodeKind → V
  | .unary op x => S.unary op (t.value S x)
  | .binary op x y => S.binary op (t.value S x) (t.value S y)
  | _ => S.const .undefined

lemma perform_operator (operator : k.isOperator = true) : t.perform S v k = t.define v (t.operation S k) := by
  cases k with
  | unary | binary => rfl
  | _ => cases operator

lemma operation_congr (same : ∀ x ∈ k.operands, t'.value S x = t.value S x) : t'.operation S k = t.operation S k := by
  cases k with
  | unary op x => rw [operation, operation, same x (List.mem_singleton_self x)]
  | binary op x y =>
    rw [operation, operation, same x List.mem_cons_self, same y (List.mem_cons_of_mem x (List.mem_singleton_self y))]
  | _ => rfl

lemma perform_rest (rest : List ValueId) :
    ({ t with rest := rest }).perform S v k = { t.perform S v k with rest := rest } := by
  have asks (r : Request V) (g : (Nat → V) → Thread V → Thread V)
      (free : ∀ results (u : Thread V), g results { u with rest := rest } = { g results u with rest := rest }) :
      ({ t with rest := rest }).ask S r g = { t.ask S r g with rest := rest } := by
    rw [ask, ask]
    cases S.answer ((t.log ++ [Occurrence.request r]).filterMap Occurrence.request?) with
    | ok results => exact free results (t.note (.request r))
    | error x => rfl
  have defines : ({ t with rest := rest }).ask S (t.request S k) (fun results t => t.define v (results 0)) =
      { t.ask S (t.request S k) fun results t => t.define v (results 0) with rest := rest } := asks _ _ fun _ _ => rfl
  cases k with
  | operation i xs =>
    rw [perform, perform]
    split
    · exact defines
    · rfl
  | hasNext2 object index =>
    exact asks _ (fun results t => ((t.assign object (results 1)).assign index (results 2)).define v (results 0))
      fun _ _ => rfl
  | caught | property | call => exact defines
  | _ => rfl

end Thread

namespace Terminator

lemma targets_of_choose {args : List V} {t : Terminator} (stays : t.choose S args = Option.none) : t.targets = [] := by
  cases t with
  | leave | raise | none => rfl
  | _ => cases stays

end Terminator

namespace Func

variable {f g : Func} {L : BlockId → Prop} {a b c s t p first : BlockId} {v w : ValueId} {k : NodeKind}
  {kind : EdgeKind}
  {rest rest' : List ValueId} {x : Value} {P : ValueId → Prop}

/-- Some blocks are entered from one block only, which leads to one of them only, and from there control gets to
all of them. -/
structure Gate (f : Func) (L : BlockId → Prop) (p first : BlockId) : Prop where
  outside : ¬L p
  inside : L first
  start : ¬L entry
  only : ∀ b t kind, (t, kind) ∈ (f.terminator b).targets → L t → ¬L b → b = p ∧ t = first
  ahead : ∀ t kind, (t, kind) ∈ (f.terminator p).targets → t = first
  edge : ∃ kind, (first, kind) ∈ (f.terminator p).targets
  goes : ∀ b t kind, (t, kind) ∈ f.succs b → L t → (t, kind) ∈ (f.terminator b).targets
  around : ∀ c, L c → f.Leads first c

/-- The value is the same all the while that control is in some blocks. -/
def Fixed (f : Func) (L : BlockId → Prop) : Value → Prop
  | .const _ => True
  | .reg r _ => ∀ b, L b → ∀ w ∈ f.body b, f.sets w r = false
  | .node w => ∀ b, L b → w ∉ f.nodesOf b

/-- An operator in one of some blocks is moved to the end of another block. -/
structure Moves (f g : Func) (v : ValueId) (p : BlockId) : Prop where
  kinds : ∀ w, g.kind? w = f.kind? w
  terminator : ∀ b, g.terminator b = f.terminator b
  phis : ∀ b, g.phis b = f.phis b
  body : ∀ b, g.body b = (f.body b).filter (· != v) ++ if b = p then [v] else []

lemma Comes.through (before : List ValueId) (way : f.Comes P b (before ++ rest)) (free : ∀ w ∈ before, ¬P w) :
    f.Comes P b rest := by
  induction before with
  | nil => exact way
  | cons w before ih =>
    exact ih (.node way (free w List.mem_cons_self)) fun u mem =>
      free u (List.mem_cons_of_mem w mem)

lemma Gate.comes (gate : Gate f L p first) (way : f.Comes P p []) (free : ∀ b, L b → ∀ w ∈ f.nodesOf b, ¬P w)
    (here : L c) :
    f.Comes P c (f.body c) := by
  have enters {t : BlockId} (inside : L t) : ∀ w ∈ f.phis t, ¬P w :=
    fun w mem => free t inside w (List.mem_append_left _ mem)
  have path := gate.around c here
  induction path with
  | refl =>
    obtain ⟨kind, edge⟩ := gate.edge
    exact .edge way edge (enters here)
  | @tail b t _ step ih =>
    obtain ⟨e, mem, rfl⟩ := List.mem_map.1 step
    have out := gate.goes b e.1 e.2 mem here
    by_cases inner : L b
    · have all : f.Comes P b [] := by
        refine Comes.through (f.body b) ?_ fun w mem => free b inner w (List.mem_append_right _ mem)
        rw [List.append_nil]
        exact ih inner
      exact .edge all out (enters here)
    · obtain ⟨rfl, -⟩ := gate.only b e.1 e.2 out here inner
      exact .edge way out (enters here)

section Moving

variable (gate : Gate f L p first) (listed : Listed f) (mem : v ∈ f.body c) (inside : L c)
include listed mem

lemma notMem_phis_of_mem_body : v ∉ f.phis b := by
  intro phi
  have phi := listed.phi b v phi
  rw [listed.plain c v mem] at phi
  cases phi

include gate inside

/-- Control that is in the blocks, or has evaluated the operator, was at the end of the block before them without. -/
lemma Gate.avoids (way : f.Reached b rest) : (L b → f.Avoids v p []) ∧ (f.Avoids v b rest ∨ f.Avoids v p []) := by
  induction way with
  | start => exact ⟨fun here => absurd here gate.start, .inl .start⟩
  | @node b w rest way _ ih =>
    refine ⟨ih.1, ?_⟩
    obtain avoids | before := ih.2
    · by_cases here : w = v
      · subst here
        have body : w ∈ f.body b := way.suffix.mem List.mem_cons_self
        obtain rfl := listed.eq_of_mem_body body mem
        exact .inr (ih.1 inside)
      · exact .inl (.node avoids here)
    · exact .inr before
  | @edge b t kind way out _ ih =>
    have passes (avoids : f.Avoids v b []) : f.Avoids v t (f.body t) := by
      refine .edge avoids out ?_
      rintro w phi rfl
      exact notMem_phis_of_mem_body listed mem phi
    refine ⟨fun here => ?_, ih.2.imp_left passes⟩
    by_cases inner : L b
    · exact ih.1 inner
    · obtain ⟨rfl, -⟩ := gate.only b t kind out here inner
      exact ih.2.elim id id

end Moving

/-- The nodes that are still to come once the operator is moved. -/
def pending (p : BlockId) (v : ValueId) (b : BlockId) (rest : List ValueId) : List ValueId :=
  rest.filter (· != v) ++ if b = p then [v] else []

lemma pending_cons (other : w ≠ v) : pending p v b (w :: rest) = w :: pending p v b rest := by
  simp [pending, other]

lemma pending_cons_self : pending p v b (v :: rest) = pending p v b rest := by
  simp [pending]

/-- Two runs, in the second of which the operator is evaluated before the blocks.  Its value is the same wherever the
first run has evaluated it, and in the blocks it is what the operator is worth. -/
structure Earlier (f : Func) (S : Semantics V) (L : BlockId → Prop) (p : BlockId) (v : ValueId) (k : NodeKind)
    (t t' : Thread V) : Prop where
  reached : f.Reached t.block t.rest
  rest : t'.rest = pending p v t.block t.rest
  agree : Agree (fun w => w ≠ v ∨ ¬f.Avoids v t.block t.rest) t { t' with rest := t.rest }
  early : t.ending = none → L t.block → t'.values v = t'.operation S k

section Running

variable {t t' : Thread V} {registers : Nat → V} (gate : Gate f L p first) (listed : Listed f) (dominated : Dominated f)
  (mem : v ∈ f.body c) (inside : L c) (does : f.kind? v = some k) (operator : k.isOperator = true)
  (fixed : ∀ x ∈ k.operands, Fixed f L x) (moves : Moves f g v p)

lemma Earlier.value_eq (earlier : Earlier f S L p v k t t') (dominated : Dominated f) (running : t.ending = none)
    (use : f.UsesAt x t.block t.rest) : t'.value S x = t.value S x := by
  cases x with
  | const => rfl
  | reg r e => exact congrFun earlier.agree.registers r
  | node w =>
    refine earlier.agree.values running w ?_
    by_cases here : w = v
    · subst here
      exact .inr (dominated w _ _ use)
    · exact .inl here

lemma value_of_fixed {u u' : Thread V} (is : Fixed f L x)
    (values : ∀ w, (∀ b, L b → w ∉ f.nodesOf b) → u'.values w = u.values w)
    (registers : ∀ r, (∀ b, L b → ∀ w ∈ f.body b, f.sets w r = false) → u'.registers r = u.registers r) :
    u'.value S x = u.value S x := by
  cases x with
  | const => rfl
  | reg r e => exact registers r is
  | node w => exact values w is

lemma notMem_written {u : NodeKind} {r : Nat} (does : f.kind? w = some u) (keeps : f.sets w r = false) :
    r ∉ u.written := by
  rw [sets, does, Option.any_some] at keeps
  rw [← List.contains_iff_mem, keeps]
  exact Bool.false_ne_true

include listed fixed moves in
lemma Earlier.node (earlier : Earlier f S L p v k t t') (dominated : Dominated f) (running : t.ending = none)
    (next : t.rest = w :: rest) (other : w ≠ v) : Earlier f S L p v k (f.step S t) (g.step S t') := by
  have next' : t'.rest = w :: pending p v t.block rest := by rw [earlier.rest, next, pending_cons other]
  have running' : t'.ending = none := earlier.agree.ending.trans running
  have way : f.Reached t.block (w :: rest) := next ▸ earlier.reached
  have here : w ∈ f.body t.block := way.suffix.mem List.mem_cons_self
  have reached : f.Reached t.block rest := .node way id
  have avoids (w') (h : w' ≠ v ∨ ¬f.Avoids v t.block rest) : w' ≠ v ∨ ¬f.Avoids v t.block t.rest := by
    rw [next]
    exact h.imp_right fun none way => none (.node way other)
  cases act : f.kind? w with
  | none =>
    rw [step_skip running next act, step_skip running' next' (by rw [moves.kinds, act])]
    exact ⟨reached, rfl, (earlier.agree.next rest).mono avoids, earlier.early⟩
  | some u =>
    rw [step_node running next act, step_node running' next' (by rw [moves.kinds, act])]
    have plain : u.isPhi = false := by
      have plain := listed.plain _ w here
      rw [inputs?, act, Option.bind_some] at plain
      cases u with
      | phi => cases plain
      | _ => rfl
    have same (x) (mem : x ∈ u.operands) : t'.value S x = t.value S x :=
      earlier.value_eq dominated running (next ▸ .node act mem)
    obtain ⟨block, stays⟩ := Thread.place_perform (S := S) (t := { t with rest := rest }) (v := w) (k := u)
    have after : Agree (fun w' => w' ≠ v ∨ ¬f.Avoids v t.block rest) ({ t with rest := rest }.perform S w u)
        { ({ t' with rest := pending p v t.block rest }).perform S w u with rest := rest } := by
      have step := ((earlier.agree.next rest).perform (v := w) (u := fun x => x) plain same).mono
        fun w' h => .inl (avoids w' h)
      rw [NodeKind.mapOperands_id] at step
      rw [Thread.perform_rest (pending p v t.block rest)]
      rw [← Thread.perform_rest rest]
      exact step
    refine ⟨?_, ?_, ?_, fun _ inner => ?_⟩
    · rw [block, stays]
      exact reached
    · rw [block, stays]
      exact Thread.place_perform.2
    · rw [block, stays]
      exact after
    · rw [block] at inner
      rw [Thread.values_perform other.symm]
      refine (earlier.early running inner).trans (Thread.operation_congr fun x mem => ?_).symm
      refine value_of_fixed (fixed x mem) (fun w' away => ?_) fun r keeps => ?_
      · refine Thread.values_perform (t := { t' with rest := pending p v t.block rest }) ?_
        rintro rfl
        exact away _ inner (List.mem_append_right _ here)
      · exact Thread.registers_perform (t := { t' with rest := pending p v t.block rest })
          (notMem_written act (keeps _ inner w here))

include listed mem inside does operator in
lemma Earlier.skip (earlier : Earlier f S L p v k t t') (dominated : Dominated f) (running : t.ending = none)
    (next : t.rest = v :: rest) : Earlier f S L p v k (f.step S t) t' := by
  have way : f.Reached t.block (v :: rest) := next ▸ earlier.reached
  have here : v ∈ f.body t.block := way.suffix.mem List.mem_cons_self
  have inner : L t.block := listed.eq_of_mem_body here mem ▸ inside
  have worth : t'.values v = t.operation S k := by
    rw [earlier.early running inner]
    exact Thread.operation_congr fun x used => earlier.value_eq dominated running (next ▸ .node does used)
  rw [step_node running next does, Thread.perform_operator operator]
  have operation : ({ t with rest := rest }).operation S k = t.operation S k :=
    Thread.operation_congr fun x _ => by cases x <;> rfl
  rw [operation]
  have agree := earlier.agree
  refine ⟨.node way id, ?_, ⟨agree.block, rfl, agree.registers, agree.scope, agree.log, agree.ending, fun _ w _ => ?_⟩,
    fun _ _ => earlier.early running inner⟩
  · rw [earlier.rest, next, pending_cons_self]
    rfl
  · show t'.values w = Function.update t.values v (t.operation S k) w
    by_cases same : w = v
    · rw [same, Function.update_self, worth]
    · rw [Function.update_of_ne same]
      exact agree.values running w (.inl same)

include moves in
lemma Moves.incoming : g.incoming w s kind = f.incoming w s kind := by
  rw [Func.incoming, Func.incoming, inputs?, inputs?, moves.kinds]

include gate listed mem fixed moves in
/-- Both runs take an edge, from the end of a block other than the one that the operator is moved to. -/
lemma Earlier.edge (earlier : Earlier f S L p v k t t') (dominated : Dominated f) (running : t.ending = none)
    (next : t.rest = []) (away : t.block ≠ p) : Earlier f S L p v k (f.step S t) (g.step S t') := by
  have agree := earlier.agree
  have next' : t'.rest = [] := by
    rw [earlier.rest, next, pending, if_neg away]
    rfl
  have running' : t'.ending = none := agree.ending.trans running
  have way : f.Reached t.block [] := next ▸ earlier.reached
  have block : t'.block = t.block := agree.block
  have args : (g.terminator t'.block).operands.map (t'.value S) = (f.terminator t.block).operands.map (t.value S) := by
    rw [moves.terminator, block]
    exact List.map_congr_left fun x used => earlier.value_eq dominated running (next ▸ .last used)
  cases chosen : (f.terminator t.block).choose S ((f.terminator t.block).operands.map (t.value S)) with
  | none =>
    have chosen' : (g.terminator t'.block).choose S ((g.terminator t'.block).operands.map (t'.value S)) = none := by
      rw [args, moves.terminator, block, chosen]
    have last : (g.terminator t'.block).finish ((g.terminator t'.block).operands.map (t'.value S)) =
        (f.terminator t.block).finish ((f.terminator t.block).operands.map (t.value S)) := by
      rw [args, moves.terminator, block]
    rw [step_last running next chosen, step_last running' next' chosen', last]
    exact ⟨earlier.reached, earlier.rest, ⟨agree.block, agree.rest, agree.registers, agree.scope, agree.log, rfl,
      fun _ => agree.values running⟩, fun _ => earlier.early running⟩
  | some e =>
    obtain ⟨b, kind⟩ := e
    have out := Terminator.mem_targets_of_choose chosen
    have chosen' : (g.terminator t'.block).choose S ((g.terminator t'.block).operands.map (t'.value S)) =
        some (b, kind) := by rw [args, moves.terminator, block, chosen]
    rw [step_edge running next chosen, step_edge running' next' chosen']
    refine ⟨.edge way out fun _ _ => id, moves.body b, ?_, fun _ inner => ?_⟩
    · refine ⟨rfl, rfl, agree.registers, agree.scope, agree.log, agree.ending, fun _ w evaluated => ?_⟩
      show (if w ∈ g.phis b then _ else _) = if w ∈ f.phis b then _ else _
      rw [moves.phis]
      split
      · rename_i phi
        rw [moves.incoming, block]
        cases worth : f.incoming w t.block kind with
        | none =>
          refine agree.values running w (.inl ?_)
          rintro rfl
          exact notMem_phis_of_mem_body listed mem phi
        | some x => exact earlier.value_eq dominated running (next ▸ .edge out phi worth)
      · refine agree.values running w (evaluated.imp_right fun none avoids => none ?_)
        refine .edge (next ▸ avoids) out ?_
        rintro u phi rfl
        exact notMem_phis_of_mem_body listed mem phi
    · -- Control was in the blocks before, as it does not come from the block before them.
      have inner' : L t.block := by
        by_contra outside
        exact away (gate.only t.block b kind out inner outside).1
      have kept {w : ValueId} (other : w ∉ g.phis b) : (g.enter S t' b kind).values w = t'.values w := if_neg other
      rw [kept (by rw [moves.phis]; exact notMem_phis_of_mem_body listed mem), earlier.early running inner']
      refine (Thread.operation_congr fun x used => ?_).symm
      refine value_of_fixed (fixed x used) (fun w other => kept fun phi => other b inner ?_) fun r _ => rfl
      rw [moves.phis] at phi
      exact List.mem_append_left _ phi

include gate listed mem inside does operator fixed moves in
lemma Earlier.enter (earlier : Earlier f S L p v k t t') (dominated : Dominated f) (running : t.ending = none)
    (next : t.rest = []) (here : t.block = p) :
    ∃ u, g.step S t' = u ∧ u.report = t'.report ∧ Earlier f S L p v k (f.step S t) (g.step S u) := by
  have agree := earlier.agree
  have next' : t'.rest = [v] := by
    rw [earlier.rest, next, pending, if_pos here]
    rfl
  have running' : t'.ending = none := agree.ending.trans running
  have block : t'.block = t.block := agree.block
  have way : f.Reached p [] := here ▸ next ▸ earlier.reached
  have avoids : f.Avoids v p [] := ((gate.avoids listed mem inside) way).2.elim id id
  have first_ : g.step S t' = ({ t' with rest := [] }).define v (t'.operation S k) := by
    rw [step_node running' next' (by rw [moves.kinds, does]), Thread.perform_operator operator]
    exact congrArg _ (Thread.operation_congr fun x _ => by cases x <;> rfl)
  refine ⟨_, first_, rfl, ?_⟩
  set u := ({ t' with rest := [] }).define v (t'.operation S k) with defined
  have others {w : ValueId} (other : w ≠ v) : u.values w = t'.values w := Function.update_of_ne other _ _
  -- The operator is not used here.
  have same {x : Value} (use : f.UsesAt x p []) : u.value S x = t.value S x := by
    cases x with
    | const => rfl
    | reg r e => exact congrFun agree.registers r
    | node w =>
      have other : w ≠ v := by
        rintro rfl
        exact dominated w p [] use avoids
      exact (others other).trans (agree.values running w (.inl other))
  have args : (g.terminator u.block).operands.map (u.value S) = (f.terminator t.block).operands.map (t.value S) := by
    rw [moves.terminator, show u.block = t.block from block]
    exact List.map_congr_left fun x used => same (.last (here ▸ used))
  cases chosen : (f.terminator t.block).choose S ((f.terminator t.block).operands.map (t.value S)) with
  | none =>
    obtain ⟨kind, edge⟩ := gate.edge
    rw [← here, Terminator.targets_of_choose chosen] at edge
    cases edge
  | some e =>
    obtain ⟨b, kind⟩ := e
    have out := Terminator.mem_targets_of_choose chosen
    obtain rfl := gate.ahead b kind (here ▸ out)
    have chosen' : (g.terminator u.block).choose S ((g.terminator u.block).operands.map (u.value S)) =
        some (b, kind) := by rw [args, moves.terminator, show u.block = t.block from block, chosen]
    have fresh : v ∉ f.phis b := notMem_phis_of_mem_body listed mem
    have kept {w : ValueId} (other : w ∉ f.phis b) : (g.enter S u b kind).values w = u.values w :=
      if_neg (by rwa [moves.phis])
    rw [step_edge running next chosen, step_edge (t := u) running' rfl chosen']
    refine ⟨.edge (next ▸ earlier.reached) out fun _ _ => id, moves.body b, ?_, fun _ _ => ?_⟩
    · refine ⟨rfl, rfl, agree.registers, agree.scope, agree.log, agree.ending, fun _ w evaluated => ?_⟩
      by_cases phi : w ∈ f.phis b
      · show (if w ∈ g.phis b then _ else _) = if w ∈ f.phis b then _ else _
        rw [moves.phis, if_pos phi, if_pos phi, moves.incoming, show u.block = t.block from block]
        cases worth : f.incoming w t.block kind with
        | none =>
          have other : w ≠ v := by
            rintro rfl
            exact fresh phi
          exact (others other).trans (agree.values running w (.inl other))
        | some x => exact same (.edge (here ▸ out) phi (here ▸ worth))
      · have other : w ≠ v := by
          refine evaluated.resolve_right (not_not.2 (.edge avoids (here ▸ out) ?_))
          rintro u phi rfl
          exact fresh phi
        show (g.enter S u b kind).values w = if w ∈ f.phis b then _ else _
        rw [kept phi, if_neg phi, others other]
        exact agree.values running w (.inl other)
    · rw [kept fresh]
      refine (Function.update_self v (t'.operation S k) t'.values).trans (Thread.operation_congr fun x used => ?_).symm
      refine value_of_fixed (fixed x used) (fun w away => ?_) fun r _ => rfl
      have other : w ≠ v := by
        rintro rfl
        exact away c inside (List.mem_append_right _ mem)
      exact (kept fun phi => away b gate.inside (List.mem_append_left _ phi)).trans (others other)

include gate listed dominated mem inside does operator fixed moves

lemma Moves.stutters : Stutters (f.step S) (g.step S) (Earlier f S L p v k) where
  report t t' earlier := earlier.agree.report
  next t t' earlier := by
    have once (next : Earlier f S L p v k (f.step S t) (g.step S t')) :
        ∃ n, Earlier f S L p v k (f.step S t) ((g.step S)^[n] t') ∧
          (∀ i < n, ((g.step S)^[i] t').report = t'.report) ∧ (n = 0 → (f.step S t).rest.length < t.rest.length) := by
      refine ⟨1, next, fun i less => ?_, nofun⟩
      obtain rfl : i = 0 := by omega
      rfl
    by_cases running : t.ending = none
    · cases next : t.rest with
      | cons w rest =>
        rw [← next]
        by_cases here : w = v
        · subst here
          refine ⟨0, earlier.skip listed mem inside does operator dominated running next, nofun, fun _ => ?_⟩
          rw [step_node running next does, Thread.place_perform.2, next]
          exact Nat.lt_succ_self _
        · exact once (earlier.node listed fixed moves dominated running next here)
      | nil =>
        rw [← next]
        by_cases here : t.block = p
        · obtain ⟨u, first, quiet, second⟩ :=
            earlier.enter gate listed mem inside does operator fixed moves dominated running next here
          refine ⟨2, ?_, fun i less => ?_, nofun⟩
          · rwa [Function.iterate_succ_apply, Function.iterate_one, first]
          · obtain rfl | rfl : i = 0 ∨ i = 1 := by omega
            · rfl
            · rw [Function.iterate_one, first, quiet]
        · exact once (earlier.edge gate listed mem fixed moves dominated running next here)
    · have ended : t'.ending ≠ none := fun running' => running (earlier.agree.ending.symm.trans running')
      exact once (by rwa [step_ended running, step_ended ended])

lemma Moves.seen_eq : g.seen S registers = f.seen S registers := by
  refine (moves.stutters gate listed dominated mem inside does operator fixed).seen_eq ?_
  exact ⟨.start, moves.body entry, ⟨rfl, rfl, rfl, rfl, rfl, rfl, fun _ _ _ => rfl⟩, fun _ inner =>
    absurd inner gate.start⟩

end Running

section Dominance

variable (gate : Gate f L p first) (listed : Listed f) (dominated : Dominated f) (mem : v ∈ f.body c) (inside : L c)
  (does : f.kind? v = some k) (fixed : ∀ x ∈ k.operands, Fixed f L x) (moves : Moves f g v p)

lemma Comes.exists_past (p : BlockId) (way : f.Comes P b rest) (free : ¬P v) :
    ∃ rest', f.Comes P b rest' ∧ pending p v b rest' = pending p v b rest ∧ ∀ w ∈ rest'.head?, w ≠ v := by
  induction rest with
  | nil => exact ⟨[], way, rfl, nofun⟩
  | cons w rest ih =>
    by_cases here : w = v
    · subst here
      obtain ⟨rest', way', same, next⟩ := ih (.node way free)
      exact ⟨rest', way', same.trans pending_cons_self.symm, next⟩
    · refine ⟨w :: rest, way, rfl, fun u mem => ?_⟩
      obtain rfl := Option.some.inj mem
      exact here

include moves in
/-- Where control comes in the new graph, it came to in the old one, if the operator may be evaluated. -/
lemma Moves.exists_comes (way : g.Comes P b rest) : ∃ rest', f.Comes (fun w => P w ∧ w ≠ v) b rest' ∧
    (rest = pending p v b rest' ∨ rest' = [] ∧ rest = []) := by
  induction way with
  | start => exact ⟨_, .start, .inl (moves.body entry)⟩
  | @node b w rest _ other ih =>
    obtain ⟨rest₀, way, eq | ⟨-, eq⟩⟩ := ih
    · obtain ⟨rest', way', same, next⟩ := way.exists_past p (v := v) fun both => both.2 rfl
      rw [← same] at eq
      cases rest' with
      | nil =>
        refine ⟨[], way', .inr ⟨rfl, ?_⟩⟩
        by_cases here : b = p
        · simpa [pending, here] using congrArg List.tail eq
        · simp [pending, here] at eq
      | cons u rest' =>
        rw [pending_cons (next u rfl), List.cons_eq_cons] at eq
        obtain ⟨rfl, rfl⟩ := eq
        exact ⟨rest', .node way' fun both => other both.1, .inl rfl⟩
    · cases eq
  | @edge b t kind _ out none ih =>
    rw [moves.terminator] at out
    rw [moves.phis] at none
    obtain ⟨rest₀, way, eq⟩ := ih
    have ends : f.Comes (fun w => P w ∧ w ≠ v) b [] := by
      obtain ⟨rest', way', same, next⟩ := way.exists_past p (v := v) fun both => both.2 rfl
      obtain eq | ⟨rfl, -⟩ := eq
      · rw [← same] at eq
        cases rest' with
        | nil => exact way'
        | cons u rest' =>
          rw [pending_cons (next u rfl)] at eq
          cases eq
      · exact way
    exact ⟨_, .edge ends out fun w phi both => none w phi both.1, .inl (moves.body t)⟩

include moves in
/-- Control in the new graph is before the node that it is before in the old one, or before the operator. -/
lemma Moves.exists_facing (way : g.Avoids w b rest) (other : w ≠ v) : ∃ rest', f.Avoids w b rest' ∧
    (rest.head? = rest'.head? ∨ rest' = [] ∧ b = p ∧ rest = [v]) := by
  obtain ⟨rest₀, way, eq⟩ := moves.exists_comes way
  have avoids : f.Avoids w b rest₀ := way.mono fun u same => ⟨same, same ▸ other⟩
  obtain eq | ⟨rfl, rfl⟩ := eq
  · obtain ⟨rest', way', same, next⟩ := avoids.exists_past p (v := v) other.symm
    refine ⟨rest', way', ?_⟩
    rw [eq, ← same]
    cases rest' with
    | nil =>
      by_cases here : b = p
      · exact .inr ⟨rfl, here, by simp [pending, here]⟩
      · exact .inl (by simp [pending, here])
    | cons u rest' => exact .inl (by rw [pending_cons (next u rfl)]; rfl)
  · exact ⟨[], avoids, .inl rfl⟩

include gate listed mem inside moves in
/-- Control that has not evaluated the operator in the new graph is outside the blocks. -/
lemma Moves.avoids (way : g.Avoids v b rest) :
    ¬L b ∧ ∃ rest', f.Avoids v b rest' ∧ rest = rest' ++ if b = p then [v] else [] := by
  have body {b : BlockId} (outside : ¬L b) : g.body b = f.body b ++ if b = p then [v] else [] := by
    rw [moves.body, List.filter_eq_self.2]
    rintro w there
    refine bne_iff_ne.2 ?_
    rintro rfl
    exact outside (listed.eq_of_mem_body there mem ▸ inside)
  induction way with
  | start => exact ⟨gate.start, _, .start, body gate.start⟩
  | @node b w rest _ other ih =>
    obtain ⟨outside, rest₀, way, eq⟩ := ih
    refine ⟨outside, ?_⟩
    cases rest₀ with
    | nil =>
      by_cases here : b = p
      · rw [if_pos here] at eq
        exact absurd (List.cons_eq_cons.1 eq).1 other
      · rw [if_neg here] at eq
        cases eq
    | cons u rest₀ =>
      obtain ⟨rfl, rest_eq⟩ := List.cons_eq_cons.1 eq
      exact ⟨rest₀, .node way other, rest_eq⟩
  | @edge b t kind _ out none ih =>
    rw [moves.terminator] at out
    rw [moves.phis] at none
    obtain ⟨outside, rest₀, way, eq⟩ := ih
    obtain ⟨rfl, away⟩ := List.append_eq_nil_iff.1 eq.symm
    have leaves : ¬L t := by
      intro inner
      rw [if_pos (gate.only b t kind out inner outside).1] at away
      cases away
    exact ⟨leaves, _, .edge way out none, body leaves⟩

include moves in
lemma Moves.usesAt (use : g.UsesAt x b rest) (same : rest.head? = rest'.head?) : f.UsesAt x b rest' := by
  cases use with
  | node act used =>
    rw [moves.kinds] at act
    cases rest' with
    | nil => cases same
    | cons u r =>
      obtain rfl := Option.some.inj same
      exact .node act used
  | last used =>
    obtain rfl := List.head?_eq_none_iff.1 same.symm
    rw [moves.terminator] at used
    exact .last used
  | edge out phi worth =>
    obtain rfl := List.head?_eq_none_iff.1 same.symm
    rw [moves.terminator] at out
    rw [moves.phis] at phi
    rw [moves.incoming] at worth
    exact .edge out phi worth

include gate listed dominated mem inside does fixed moves in
/-- Uses are dominated still: what the operator uses is evaluated before control gets to the blocks. -/
lemma Moves.dominates : Dominated g := by
  intro w b rest use avoids
  by_cases here : w = v
  · subst here
    obtain ⟨-, rest', way, eq⟩ := moves.avoids gate listed mem inside avoids
    cases rest' with
    | nil =>
      by_cases last : b = p
      · rw [if_pos last] at eq
        subst eq
        cases use with
        | node act used =>
          rw [moves.kinds, does] at act
          obtain rfl := Option.some.inj act
          exact fixed _ used c inside (List.mem_append_right _ mem)
      · rw [if_neg last] at eq
        subst eq
        exact dominated w b [] (moves.usesAt use rfl) way
    | cons u rest' =>
      subst eq
      have use' : f.UsesAt (.node w) b (u :: rest') := moves.usesAt use rfl
      exact dominated w b _ use' way
  · obtain ⟨rest', way, same | ⟨rfl, rfl, rfl⟩⟩ := moves.exists_facing avoids here
    · exact dominated w b rest' (moves.usesAt use same) way
    · cases use with
      | node act used =>
        rw [moves.kinds, does] at act
        obtain rfl := Option.some.inj act
        have apart (b) (inner : L b) : w ∉ f.nodesOf b := fixed _ used b inner
        have way : f.Avoids w c (f.body c) := by
          refine gate.comes way (fun b inner u there => ?_) inside
          rintro rfl
          exact apart b inner there
        obtain ⟨before, after, split⟩ := List.append_of_mem mem
        refine dominated w c (v :: after) (.node does used) (Comes.through before (split ▸ way) ?_)
        rintro u there rfl
        refine apart c inside (List.mem_append_right _ ?_)
        rw [split]
        exact List.mem_append_left _ there

end Dominance

end Func

end Avm.Ir
