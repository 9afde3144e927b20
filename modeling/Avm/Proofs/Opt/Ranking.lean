import Avm.Proofs.Ir.Weighing
import Avm.Proofs.Opt.Fixpoint

/-!
# When inlining comes to an end

A callee brings its own calls along when it is expanded.  If methods can be ranked so that a callee calls
only methods below it, expanding comes to an end: a call that may reach a method of some rank weighs more
than all calls of a callee of that rank can weigh together.

The main statement is `settles_of_ranked`.
-/

namespace Avm.Opt.Inlining

open Avm.Ir Avm.Ir.Func Avm.Ir.Edit

variable {m : Weights} {f callee : Func} {v : ValueId}

section Weight

/-- What the calls in some blocks of a callee weigh. -/
def burden (m : Weights) (callee : Func) (bs : List BlockId) : Nat :=
  ((bs.flatMap callee.nodesOf).map (callee.weight m)).sum

lemma weight_kind {p : Placement} (k : NodeKind) : (p.kind k).weight m = k.weight m := by
  cases k <;> simp [Placement.kind, NodeKind.remapRegisters, NodeKind.mapOperands, NodeKind.weight]

lemma gains_renameAll {p : Placement} (values : List (ValueId × ValueId)) (f : Func) :
    Func.Gains m 0 f (values.foldl (fun f e => f.modifyKind e.2 p.kind) f) := by
  have renamed (f : Func) (e : ValueId × ValueId) : Func.Gains m 0 f (f.modifyKind e.2 p.kind) :=
    gains_modifyNode fun n => weight_kind n.kind
  exact .foldl renamed values f

lemma gains_storeAll {b : BlockId} {l : List (Nat × Value)} : (TailCall.storeAll b l).Gains m 0 := by
  induction l with
  | nil => exact gains_pure
  | cons e l ih => exact gains_appendNode.next fun _ => ih

lemma gains_popScopes {b : BlockId} {n : Nat} : (TailCall.popScopes b n).Gains m 0 := by
  induction n with
  | zero => exact gains_pure
  | succ n ih => exact gains_appendNode.next fun _ => ih

lemma gains_copyNodes {target : BlockId} (vs : List ValueId) :
    (copyNodes callee target vs).Gains m (vs.map (callee.weight m)).sum := by
  induction vs with
  | nil => exact gains_pure
  | cons v vs ih =>
    rw [copyNodes, List.map_cons, List.sum_cons]
    split
    · rename_i missing
      have light : callee.weight m v = 0 := by
        rw [kind?, Option.map_eq_none_iff] at missing
        rw [Func.weight, Func.shape?, missing, Option.map_none, Option.map_none, Option.getD_none]
      rwa [light, Nat.zero_add]
    · rename_i debug
      have light : callee.weight m v = 0 := weight_of_kind? debug
      rwa [light, Nat.zero_add]
    · rename_i kind _ here
      rw [weight_of_kind? here]
      refine gains_appendNode.bind fun new => ?_
      have rest := ih.bind fun more => gains_pure (a := (v, new) :: more)
      rwa [Nat.add_zero] at rest

lemma gains_copyBodies (l : List (BlockId × BlockId)) :
    (copyBodies callee l).Gains m (burden m callee (l.map (·.1))) := by
  induction l with
  | nil => exact gains_pure
  | cons e l ih =>
    have listed : ((callee.block? e.1).map Block.nodeIds).getD [] = callee.nodesOf e.1 := by
      rw [nodesOf, Func.phis, Func.body]
      cases callee.block? e.1 <;> rfl
    rw [copyBodies, listed, burden, List.map_cons, List.flatMap_cons, List.map_append, List.sum_append, ← burden]
    refine (gains_copyNodes _).bind fun here => ?_
    have rest := ih.bind fun more => gains_pure (a := here ++ more)
    rwa [Nat.add_zero] at rest

lemma gains_addHandlers {cs : List Catch} : (addHandlers cs).Gains m 0 := by
  induction cs with
  | nil => exact gains_pure
  | cons c cs ih => exact gains_addHandler.next fun _ => ih

lemma gains_coverBlocks {head : BlockId} {first depth : Nat} {outer : List Nat} {l : List (BlockId × BlockId)} :
    (coverBlocks callee head first depth outer l).Gains m 0 := by
  induction l with
  | nil => exact gains_pure
  | cons e l ih =>
    rw [coverBlocks]
    split
    · exact gains_modifyBlock.next fun _ => gains_setHandlers.next fun _ => ih
    · exact ih

lemma gains_endBlocks {p : Placement} {depth : Nat} {l : List (BlockId × BlockId)} :
    (endBlocks callee p depth l).Gains m 0 := by
  induction l with
  | nil => exact gains_pure
  | cons e l ih =>
    rw [endBlocks]
    split
    · exact ih
    · exact gains_popScopes.next fun _ => gains_modifyBlock.next fun _ => ih.next fun _ => gains_pure
    · exact gains_setTerminator.next fun _ => ih

lemma gains_mergeResults {tail : BlockId} {results : List (BlockId × Value)} :
    (mergeResults v tail results).Gains m 0 := by
  refine gains_get fun f => ?_
  split
  · exact gains_appendNode.next fun phi => gains_modify fun f => gains_replaceUses f v (.node phi)
  · exact gains_pure

lemma gains_jumpAll {tail : BlockId} {bs : List BlockId} : (jumpAll tail bs).Gains m 0 := by
  induction bs with
  | nil => exact gains_pure
  | cons b bs ih => exact gains_setTerminator.next fun _ => ih

lemma addBlocks_sources (bs : List BlockId) (f : Func) :
    (addBlocks bs).Meets f (fun ps f' => ps.map (·.1) = bs ∧ Func.Gains m 0 f f') fun _ => True := by
  induction bs generalizing f with
  | nil => exact meets_pure ⟨rfl, .refl f⟩
  | cons b bs ih =>
    refine Meets.bind (gains_addBlock (m := m) f) fun new f₁ added => ?_
    refine (ih f₁).bind fun ps f₂ rest => meets_pure ⟨?_, added.trans rest.2⟩
    rw [List.map_cons, rest.1]

lemma expand_weighs (call : ReceiverCall) :
    Swaps m call.id (burden m callee (Func.entry :: callee.blockIds.filter fun b => b != Func.entry && b != Func.exit))
      (expand call callee) := by
  rw [expand]
  refine gains_splitBlock.swaps fun tail => swaps_get fun _ => swaps_get fun _ => ?_
  refine gains_reserveRegisters.swaps fun base => gains_storeAll.swaps fun _ => ?_
  rw [← Nat.zero_add (burden _ _ _)]
  refine swaps_bind (addBlocks_sources _) fun ps sources => ?_
  dsimp only
  rw [← sources, ← List.map_cons (f := Prod.fst) (a := (Func.entry, call.block)), ← Nat.add_zero (burden _ _ _)]
  refine swaps_bind (P := fun _ => True) (fun f => ?_) fun values _ => ?_
  · exact (gains_copyBodies _ f).imp (fun _ _ copied => ⟨trivial, copied⟩) fun _ _ => trivial
  refine (gains_modify (gains_renameAll values)).swaps fun _ => swaps_get fun _ => ?_
  refine gains_addHandlers.swaps fun _ => gains_coverBlocks.swaps fun _ => gains_endBlocks.swaps fun results => ?_
  refine gains_mergeResults.swaps fun _ => gains_jumpAll.swaps fun _ => swaps_removeNode fun _ => ?_
  exact (gains_modify gains_removeTrivialPhis).next fun _ => gains_pure

end Weight

section Ranks

variable {ctx : Context} {pool : Pool} {call : ReceiverCall} {caller t t' : MethodId} {rank : MethodId → Nat}
  {b : BlockId}

lemma ofNode?_eq_some (found : ReceiverCall.ofNode? f pool v = some call) : call.id = v ∧ ∃ opcode index,
    f.kind? v = some (.call opcode index call.args.length (call.receiver :: call.args)) ∧
      ReceiverCall.dispatch? pool opcode index = some call.dispatch := by
  obtain ⟨id, opcode, index, _, there, named, -⟩ := TailCall.exists_of_ofNode? found
  exact ⟨id, opcode, index, by rw [kind?, there]; rfl, named⟩

lemma exists_ofNode? (listed : f.Listed) (mem : v ∈ f.body b) {opcode : Opcode} {index : Nat} {receiver : Value}
    {args : List Value} {d : Dispatch} (here : f.kind? v = some (.call opcode index args.length (receiver :: args)))
    (named : ReceiverCall.dispatch? pool opcode index = some d) :
    ∃ call, ReceiverCall.ofNode? f pool v = some call ∧ call.dispatch = d ∧ call.args = args := by
  obtain ⟨n, found, kind⟩ := Option.map_eq_some_iff.1 here
  have owner := listed.owned b v (List.mem_append_right _ mem)
  rw [found] at owner
  obtain rfl := Option.some.inj owner
  obtain ⟨x, there⟩ := Option.isSome_iff_exists.1 (isSome_of_mem_nodesOf (List.mem_append_right (f.phis n.block) mem))
  rw [body_of_block? there] at mem
  obtain ⟨position, at_⟩ : ∃ i, x.body.findIdx? (· == v) = some i := by
    rw [← Option.isSome_iff_exists, List.findIdx?_isSome, List.any_eq_true]
    exact ⟨v, mem, BEq.rfl⟩
  simp [ReceiverCall.ofNode?, found, kind, named, there, at_, guard]

/-- A call in the callee reaches a method if the caller makes it, whether or not on its own receiver. -/
def Brings (ctx : Context) (caller : MethodId) (callee : Func) (t : MethodId) : Prop :=
  ∃ v call own, ReceiverCall.ofNode? callee ctx.pool v = some call ∧
    ReceiverCall.target? { call with onReceiver := own } ctx.env caller = some t

/-- A callee brings only calls of methods below it. -/
def Ranked (ctx : Context) (caller : MethodId) (rank : MethodId → Nat) : Prop :=
  ∀ t callee t', ctx.callee? t = some callee → Brings ctx caller callee t' → rank t' < rank t

/-- What a call that reaches a method weighs: more than as many calls of methods below it as a callee may have. -/
def price (ctx : Context) (rank : MethodId → Nat) : Option MethodId → Nat
  | some t => (ctx.config.inlineThreshold + 1) ^ (rank t + 1)
  | none => 0

/-- The method that a call of the caller always reaches. -/
def reach (ctx : Context) (caller : MethodId) (d : Dispatch) (own : Bool) (n : Nat) : Option MethodId :=
  ((ctx.env.resolveCall ⟨caller, d, own, n⟩).filter (·.binding.isStatic)).map (·.method)

/-- What a call weighs: what the method that it may reach asks. -/
def tariff (ctx : Context) (caller : MethodId) (rank : MethodId → Nat) : Weights := fun opcode index argCount n =>
  match ReceiverCall.dispatch? ctx.pool opcode index with
  | some d => if n = argCount + 1 then
      max (price ctx rank (reach ctx caller d true argCount)) (price ctx rank (reach ctx caller d false argCount))
    else 0
  | none => 0

lemma tariff_of_ofNode? (found : ReceiverCall.ofNode? f ctx.pool v = some call) :
    f.weight (tariff ctx caller rank) v = max (price ctx rank (reach ctx caller call.dispatch true call.args.length))
      (price ctx rank (reach ctx caller call.dispatch false call.args.length)) := by
  obtain ⟨-, opcode, index, here, named⟩ := ofNode?_eq_some found
  rw [weight_of_kind? here, NodeKind.weight, tariff, named]
  exact if_pos rfl

lemma price_le_weight (found : ReceiverCall.ofNode? f ctx.pool v = some call)
    (target : call.target? ctx.env caller = some t) :
      price ctx rank (some t) ≤ f.weight (tariff ctx caller rank) v := by
  rw [tariff_of_ofNode? found, ← target]
  cases own : call.onReceiver with
  | true =>
    refine (le_of_eq ?_).trans (Nat.le_max_left _ _)
    rw [ReceiverCall.target?, own, reach]
  | false =>
    refine (le_of_eq ?_).trans (Nat.le_max_right _ _)
    rw [ReceiverCall.target?, own, reach]

lemma weight_le_of_ranked (ranked : Ranked ctx caller rank) (listed : callee.Listed)
    (known : ctx.callee? t = some callee)
    (mem : v ∈ callee.nodesOf b) :
    callee.weight (tariff ctx caller rank) v ≤ (ctx.config.inlineThreshold + 1) ^ rank t := by
  by_cases light : callee.weight (tariff ctx caller rank) v = 0
  · rw [light]
    exact Nat.zero_le _
  -- A node that weighs something is a call with all its arguments, which no phi is.
  obtain ⟨call, found⟩ : ∃ call, ReceiverCall.ofNode? callee ctx.pool v = some call := by
    have plain : v ∈ callee.body b := by
      cases List.mem_append.1 mem with
      | inl phi => exact absurd (weight_of_inputs? (listed.phi b v phi)) light
      | inr plain => exact plain
    cases here : callee.kind? v with
    | none =>
      rw [kind?, Option.map_eq_none_iff] at here
      rw [Func.weight, Func.shape?, here] at light
      exact absurd rfl light
    | some k =>
      rw [weight_of_kind? here] at light
      cases k with
      | call opcode index argCount operands =>
        rw [NodeKind.weight, tariff] at light
        split at light
        · rename_i d named
          split at light
          · rename_i full
            cases operands with
            | nil => cases full
            | cons receiver args =>
              obtain rfl := Nat.succ.inj full
              obtain ⟨call, found, -⟩ := exists_ofNode? listed plain here named
              exact ⟨call, found⟩
          · exact absurd rfl light
        · exact absurd rfl light
      | _ => exact absurd rfl light
  have each (own : Bool) : price ctx rank (reach ctx caller call.dispatch own call.args.length) ≤
      (ctx.config.inlineThreshold + 1) ^ rank t := by
    cases target : reach ctx caller call.dispatch own call.args.length with
    | none => exact Nat.zero_le _
    | some t' =>
      have below := ranked t callee t' known ⟨v, call, own, found, target⟩
      exact Nat.pow_le_pow_right (Nat.succ_pos _) below
  rw [tariff_of_ofNode? found]
  exact Nat.max_le.2 ⟨each true, each false⟩

lemma map_node?_range (f : Func) : (List.range f.nodes.size).map f.node? = f.nodes.toList := by
  refine List.ext_getElem (by simp) fun i inside _ => ?_
  have below : i < f.nodes.size := by simpa using inside
  simp [node?, below]

lemma length_le_nodeCount {vs : List ValueId} (once : vs.Nodup) (live : ∀ v ∈ vs, (f.node? v).isSome) :
    vs.length ≤ f.nodeCount := by
  have count : f.nodeCount = ((List.range f.nodes.size).filter fun v => (f.node? v).isSome).length := by
    rw [nodeCount, allNodes, List.length_filterMap_eq_countP, ← map_node?_range, List.countP_map,
      List.countP_eq_length_filter]
    rfl
  rw [count]
  refine (List.subperm_of_subset once fun v mem => ?_).length_le
  exact List.mem_filter.2 ⟨List.mem_range.2 (lt_size_of_node? (live v mem)), live v mem⟩

lemma burden_le {n : Nat} {bs : List BlockId} (listed : callee.Listed) (once : bs.Nodup)
    (each : ∀ b, ∀ v ∈ callee.nodesOf b, callee.weight m v ≤ n) : burden m callee bs ≤ callee.nodeCount * n := by
  have nodup : (bs.flatMap callee.nodesOf).Nodup := by
    refine List.nodup_flatMap.2 ⟨fun b _ => listed.nodup b, once.imp fun {b b'} other v here there => ?_⟩
    exact other (listed.eq_of_mem_nodesOf here there)
  have live : ∀ v ∈ bs.flatMap callee.nodesOf, (callee.node? v).isSome := by
    intro v mem
    obtain ⟨b, -, mem⟩ := List.mem_flatMap.1 mem
    rw [← Option.isSome_map (f := (·.block)), listed.owned b v mem]
    rfl
  calc burden m callee bs
      _ ≤ ((bs.flatMap callee.nodesOf).map (callee.weight m)).length * n := by
        rw [burden, ← smul_eq_mul]
        refine List.sum_le_card_nsmul _ n fun w mem => ?_
        obtain ⟨v, there, rfl⟩ := List.mem_map.1 mem
        obtain ⟨b, -, listed⟩ := List.mem_flatMap.1 there
        exact each b v listed
      _ ≤ callee.nodeCount * n := by
        rw [List.length_map]
        exact Nat.mul_le_mul_right n (length_le_nodeCount nodup live)

lemma nodup_copied (callee : Func) :
    (Func.entry :: callee.blockIds.filter fun b => b != Func.entry && b != Func.exit).Nodup := by
  refine List.nodup_cons.2 ⟨fun mem => ?_, nodup_blockIds.filter _⟩
  simpa using (List.mem_filter.1 mem).2

lemma burden_lt (ranked : Ranked ctx caller rank) (listed : callee.Listed) (known : ctx.callee? t = some callee)
    (small : callee.nodeCount ≤ ctx.config.inlineThreshold) :
    burden (tariff ctx caller rank) callee (Func.entry :: callee.blockIds.filter fun b =>
      b != Func.entry && b != Func.exit) <
      price ctx rank (some t) := by
  refine (burden_le listed (nodup_copied callee) fun b v mem => weight_le_of_ranked ranked listed known mem).trans_lt ?_
  calc callee.nodeCount * (ctx.config.inlineThreshold + 1) ^ rank t
      _ ≤ ctx.config.inlineThreshold * (ctx.config.inlineThreshold + 1) ^ rank t := Nat.mul_le_mul_right _ small
      _ < (ctx.config.inlineThreshold + 1) * (ctx.config.inlineThreshold + 1) ^ rank t :=
        Nat.mul_lt_mul_of_pos_right (Nat.lt_succ_self _) (Nat.pow_pos (Nat.succ_pos _))
      _ = price ctx rank (some t) := by rw [price, Nat.pow_succ, Nat.mul_comm]

lemma known_of_candidate (found : (candidate ctx f call).1 = some callee) :
    ∃ t, call.target? ctx.env f.method = some t ∧ ctx.callee? t = some callee := by
  rw [candidate] at found
  split at found
  · cases found
  · rename_i t target
    split at found
    · cases found
    · dsimp only at found
      split at found
      · cases found
      · rename_i g known
        refine ⟨t, target, ?_⟩
        split at found
        · cases found
        · split at found
          · cases found
          · exact known.trans found

lemma expandAll_lightens (ranked : Ranked ctx caller rank) (vs : List ValueId) (f : Func) (report : Report)
    (intact : f.Intact) (own : f.method = caller) : (expandAll ctx vs report).Meets f (fun r g =>
      g.Intact ∧ g.method = caller ∧ g.weighs (tariff ctx caller rank) ≤ f.weighs (tariff ctx caller rank) ∧
        (report.changes < r.changes → g.weighs (tariff ctx caller rank) < f.weighs (tariff ctx caller rank))) fun _ =>
          True := by
  induction vs generalizing f report with
  | nil => exact meets_pure ⟨intact, own, Nat.le_refl _, fun more => absurd more (Nat.lt_irrefl _)⟩
  | cons v vs ih =>
    refine meets_get ?_
    split
    · exact ih f report intact own
    · rename_i call found
      refine meets_get ?_
      have quiet := changes_candidate ctx f call
      have known (callee) (chosen : (candidate ctx f call).1 = some callee) := known_of_candidate chosen
      have fine (callee) (chosen : (candidate ctx f call).1 = some callee) := intact_of_candidate chosen
      have fits (callee) (chosen : (candidate ctx f call).1 = some callee) := (lift_of_candidate chosen).2
      generalize candidate ctx f call = c at quiet known fine fits ⊢
      obtain ⟨chosen, noticed⟩ := c
      dsimp only at quiet known fine fits ⊢
      cases chosen with
      | none =>
        have rest := ih f (report.andThen noticed) intact own
        rwa [Report.changes_andThen, quiet, Nat.add_zero] at rest
      | some callee =>
        obtain ⟨t, target, known⟩ := known callee rfl
        obtain ⟨live, place⟩ := TailCall.call_block found
        obtain ⟨rfl, opcode, index, here, -⟩ := ofNode?_eq_some found
        have inside : call.id < f.nodes.size := lt_size_of_node? (isSome_node?_of_kind? here)
        have lighter : burden (tariff ctx caller rank) callee _ < f.weight (tariff ctx caller rank) call.id :=
          (burden_lt ranked (fine callee rfl).toListed known (by
            have fit := fits callee rfl
            simp only [Inlining.fits, Bool.and_eq_true, decide_eq_true_eq] at fit
            exact fit.1.1.1.1)).trans_le (price_le_weight found (own ▸ target))
        have step : (expand call callee).Meets f (fun _ f₁ => f₁.Intact ∧ f₁.method = caller ∧
            f₁.weighs (tariff ctx caller rank) < f.weighs (tariff ctx caller rank)) fun _ => True := by
          obtain ⟨tail, f₁, run, intact₁⟩ := expand_yields intact (fine callee rfl) live place
          obtain ⟨load, title⟩ := (expand_weighs (m := tariff ctx caller rank) call f inside).of_ok run
          refine meets_of_forall (fun tail' f' run' => ?_) fun _ _ _ => trivial
          rw [run] at run'
          obtain ⟨rfl, rfl⟩ := EStateM.Result.ok.inj run'
          exact ⟨intact₁, (Prod.mk.inj title).1.trans own, by omega⟩
        refine step.bind fun tail f₁ expanded => ?_
        obtain ⟨intact₁, own₁, less⟩ := expanded
        refine (ih f₁ _ intact₁ own₁).imp (fun r g rest => ?_) fun _ _ => trivial
        obtain ⟨intact₂, own₂, le, -⟩ := rest
        exact ⟨intact₂, own₂, le.trans less.le, fun _ => le.trans_lt less⟩

/-- An application of the pass leaves a lighter graph, unless it changes nothing. -/
lemma run_lightens (ranked : Ranked ctx caller rank) (intact : f.Intact) (own : f.method = caller) :
    ∃ r g, (pass.run ctx).run f = .ok r g ∧ g.Intact ∧ g.method = caller ∧
      (r.changed = true → g.weighs (tariff ctx caller rank) < f.weighs (tariff ctx caller rank)) := by
  obtain ⟨r, g, run, -⟩ := pass_keeps ctx f intact
  have meets : (pass.run ctx).Meets f (fun r g => g.Intact ∧ g.method = caller ∧
      (r.changed = true → g.weighs (tariff ctx caller rank) < f.weighs (tariff ctx caller rank))) fun _ => True := by
    refine meets_get ((expandAll_lightens ranked f.nodeIds f {} intact own).bind fun r g lighter => meets_pure ?_)
    obtain ⟨intact', own', -, less⟩ := lighter
    refine ⟨intact', own', fun changed => less ?_⟩
    rwa [Report.changed_eq, Report.changes_noticedFirst, decide_eq_true_eq] at changed
  exact ⟨r, g, run, meets.of_ok run⟩

/-- The graph after one application of the pass. -/
def Applied (ctx : Context) (f g : Func) : Prop := ∃ r, (pass.run ctx).run f = .ok r g

/-- Applied again and again, the pass comes to a graph in which it changes nothing. -/
def Settles (ctx : Context) (f : Func) : Prop :=
  ∃ g r, Relation.ReflTransGen (Applied ctx) f g ∧ (pass.run ctx).run g = .ok r g ∧ r.changed = false

end Ranks

/-- If callees bring only calls of methods below them, inlining comes to an end. -/
theorem settles_of_ranked (ctx : Context) (body : MethodBody) (f : Func)
    (lifted : body.lift ctx.pool ctx.config = .ok f)
    (rank : MethodId → Nat) (ranked : Ranked ctx f.method rank) : Settles ctx f := by
  have intact := intact_of_lift lifted
  have each (n : Nat) (g : Func) (intact : g.Intact) (own : g.method = f.method)
      (bound : g.weighs (tariff ctx f.method rank) ≤ n) : Settles ctx g := by
    induction n using Nat.strong_induction_on generalizing g with
    | _ n ih =>
      obtain ⟨r, h, run, intact', own', less⟩ := run_lightens ranked intact own
      cases changed : r.changed with
      | false =>
        obtain rfl := Pass.eq_of_unchanged (by simp [Pass.all]) run changed
        exact ⟨h, r, .refl, run, changed⟩
      | true =>
        obtain ⟨g', r', steps, rests⟩ := ih _ ((less changed).trans_le bound) h intact' own' (Nat.le_refl _)
        exact ⟨g', r', .head ⟨r, run⟩ steps, rests⟩
  exact each _ f intact rfl (Nat.le_refl _)

/-- Every call in a callee, seen from a caller, is of a method below it. -/
def descends (ctx : Context) (caller : MethodId) (rank : MethodId → Nat) (t : MethodId) : Bool :=
  (ctx.callee? t).all fun callee => (List.range callee.nodes.size).all fun v =>
    (ReceiverCall.ofNode? callee ctx.pool v).all fun call => [true, false].all fun own =>
      (ReceiverCall.target? { call with onReceiver := own } ctx.env caller).all fun t' => decide (rank t' < rank t)

lemma ranked_of_descends {ctx : Context} {caller : MethodId} {rank : MethodId → Nat}
    (each : ∀ t, descends ctx caller rank t = true) : Ranked ctx caller rank := by
  rintro t callee t' known ⟨v, call, own, found, target⟩
  have down := each t
  have inside : v < callee.nodes.size := by
    obtain ⟨-, opcode, index, here, -⟩ := ofNode?_eq_some found
    exact lt_size_of_node? (isSome_node?_of_kind? here)
  rw [descends, known, Option.all_some, List.all_eq_true] at down
  have call_down := down v (List.mem_range.2 inside)
  rw [found, Option.all_some, List.all_eq_true] at call_down
  have own_down := call_down own (by cases own <;> simp)
  rw [target, Option.all_some, decide_eq_true_eq] at own_down
  exact own_down

/-- A method that returns what another one does. -/
def forwards (method target : MethodId) : MethodBody where
  method := method
  locals := 1
  code := [0xd0, 0x44, target.toUInt8, 0x00, 0x48]

/-- A method that returns a number. -/
def returnsSeven (method : MethodId) : MethodBody where
  method := method
  locals := 1
  code := [0x24, 0x07, 0x48]

/-- A method that calls a second one, which calls a third one. -/
def descending : Context :=
  ⟨0, {}, ((MethodTable.addBody {} (forwards 1 2)).addBody (returnsSeven 2)).environment, {}⟩

/-- Both are expanded. -/
theorem settles_of_ranked_descending : ∃ f, (forwards 0 1).lift descending.pool descending.config = .ok f ∧
    Ranked descending f.method (2 - ·) ∧ Settles descending f := by
  have lifts : ((forwards 0 1).lift descending.pool descending.config).toOption.any (·.method == 0) =
    true := by decide +kernel
  obtain ⟨f, lifted, own⟩ := exists_of_toOption lifts
  have ranked : Ranked descending f.method (2 - ·) := by
    rw [beq_iff_eq.1 own]
    refine ranked_of_descends fun t => ?_
    match t with
    | 1 => decide +kernel
    | 2 => decide +kernel
    | 0 | t + 3 => rfl
  exact ⟨f, lifted, ranked, settles_of_ranked descending (forwards 0 1) f lifted _ ranked⟩

end Avm.Opt.Inlining
