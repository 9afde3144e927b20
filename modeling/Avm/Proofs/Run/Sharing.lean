import Avm.Proofs.Ir.Places
import Avm.Proofs.Opt.Nesting
import Avm.Proofs.Run.Graph

/-!
# Scopes of graphs that run

If the scopes of a graph are in order, then the scope stack of a thread has the depth that the outlines of blocks
say, at all times.

A callee that runs in an activation of its own starts without scopes.  When it is expanded, the scopes of the caller
that are open at the call stay below its own, and a callee that searches or exposes the scope stack can tell.

The main definition is `expanded`: the callees in place of which their expansions run.  The main statements are
`levelled_run`, `length_scope_of_expand` and `not_performs_expanded`.
-/

/-! ## Depths of the scope stack -/

namespace Avm.Ir

variable {V : Type} {S : Semantics V} {t : Thread V} {f : Func} {v : ValueId} {k : NodeKind} {b : BlockId}
  {kind : EdgeKind} {d : Nat}

namespace Thread

lemma length_scope_perform (after : k.turn.after t.scope.length = some d) : (t.perform S v k).scope.length = d := by
  have still {t' : Thread V} (same : t'.scope = t.scope) (turn : k.turn = .still ∨ k.turn = .catches) :
      t'.scope.length = d := by
    rw [same]
    rcases turn with turn | turn
    · rw [turn] at after
      exact Option.some.inj after
    · rw [turn] at after
      exact Option.some.inj after
  have asks {q : Request V} {g : (Nat → V) → Thread V → Thread V}
      (keeps : ∀ results t', (g results t').scope = t'.scope) :
      (t.ask S q g).scope = t.scope :=
    ask_cases (P := fun t' => t'.scope = t.scope) (fun results => keeps results _) fun _ => rfl
  cases k with
  | scope op x =>
    show (op.change _ t.scope).length = d
    cases op with
    | pop =>
      rw [ScopeOp.change, List.length_dropLast]
      cases depth : t.scope.length with
      | zero =>
        rw [depth] at after
        cases after
      | succ n =>
        rw [depth] at after
        exact Option.some.inj after
    | push | pushWith =>
      rw [ScopeOp.change, List.length_append]
      exact Option.some.inj after
  | operation i xs =>
    refine still ?_ (.inl rfl)
    rw [perform]
    split
    · exact asks fun _ _ => rfl
    · rfl
  | caught => exact still (asks fun _ _ => rfl) (.inr rfl)
  | property | call | hasNext2 => exact still (asks fun _ _ => rfl) (.inl rfl)
  | _ => exact still rfl (.inl rfl)

/-- The depth of the scope stack is the one from which the nodes to come lead to that at the end of the block. -/
def Levelled (f : Func) (t : Thread V) : Prop :=
  t.ending = none → t.block ≠ Func.exit → (f.block? t.block).isSome ∧
    Turn.walk t.scope.length (t.rest.map f.turn) = some (f.scopeDepth t.block)

/-- The nodes of a block come next. -/
structure Heads (f : Func) (t : Thread V) (b : BlockId) : Prop where
  running : t.ending = none
  block : t.block = b
  rest : t.rest = f.body b

lemma Heads.enters (heads : Heads f t b) (levelled : Levelled f t) (inner : b ≠ Func.exit) :
    f.Enters b t.scope.length := by
  obtain ⟨live, walk⟩ := levelled heads.running (heads.block ▸ inner)
  obtain ⟨o, here⟩ := Func.exists_outline live
  rw [heads.block] at here
  refine ⟨o, here, ?_⟩
  obtain ⟨-, rfl⟩ := Func.outline_eq_some.1 here
  rw [heads.rest, heads.block] at walk
  exact walk

end Thread

namespace Func

open Thread

lemma Enters.inj {d' : Nat} (entered : f.Enters b d) (entered' : f.Enters b d') : d = d' := by
  obtain ⟨o, there, starts⟩ := entered
  obtain ⟨o', there', starts'⟩ := entered'
  obtain rfl := Option.some.inj (there.symm.trans there')
  exact Turn.walk_inj starts starts'

variable (intact : f.Intact) (order : f.Scoped)
include intact order

lemma levelled_start (registers : Nat → V) : Levelled f (f.start S registers) := by
  intro _ _
  refine ⟨intact.entry.1, ?_⟩
  show Turn.walk 0 ((f.body entry).map f.turn) = some (f.scopeDepth entry)
  rw [intact.entry.2.2.1, order.start]
  rfl

lemma levelled_step (levelled : Levelled f t) : Levelled f (f.step S t) := by
  by_cases ended : t.ending = none
  · cases next : t.rest with
    | cons v rest =>
      intro running inside
      cases does : f.kind? v with
      | none =>
        rw [step_skip ended next does] at inside ⊢
        obtain ⟨live, walk⟩ := levelled ended inside
        rw [next, List.map_cons, Turn.walk_cons, turn_eq, does] at walk
        exact ⟨live, walk⟩
      | some k =>
        rw [step_node ended next does] at running inside ⊢
        obtain ⟨block, rest'⟩ := place_perform (S := S) (t := { t with rest := rest }) (v := v) (k := k)
        rw [block] at inside ⊢
        obtain ⟨live, walk⟩ := levelled ended inside
        refine ⟨live, ?_⟩
        rw [rest']
        rw [next, List.map_cons, Turn.walk_cons, turn_of_kind? does] at walk
        obtain ⟨d, after, walk⟩ := Option.bind_eq_some_iff.1 walk
        rw [length_scope_perform (t := { t with rest := rest }) after]
        exact walk
    | nil =>
      cases chosen : (f.terminator t.block).choose S ((f.terminator t.block).operands.map (t.value S)) with
      | none =>
        rw [step_last ended next chosen]
        intro _ inside
        exact levelled ended inside
      | some e =>
        rw [step_edge ended next chosen]
        intro _ inside
        have out := Terminator.mem_targets_of_choose chosen
        have inner : t.block ≠ exit := by
          intro same
          rw [same, intact.exit.2.2.2.2] at out
          cases out
        obtain ⟨live, walk⟩ := levelled ended inner
        rw [next] at walk
        obtain ⟨o, here⟩ := exists_outline live
        have goes := (order.blocks _ o here).next e.1 ?_ inside
        · obtain ⟨⟨o', there, starts⟩, -⟩ := goes
          rw [← scopeDepth_of_outline here] at starts
          obtain ⟨live', rfl⟩ := outline_eq_some.1 there
          refine ⟨live', ?_⟩
          rw [← Option.some.inj walk] at starts
          exact starts
        · obtain ⟨-, rfl⟩ := outline_eq_some.1 here
          exact List.mem_map_of_mem out
  · rw [step_ended ended]
    exact levelled

lemma levelled_run (registers : Nat → V) (n : Nat) : Levelled f (f.run S registers n) := by
  induction n with
  | zero => exact levelled_start intact order registers
  | succ n ih =>
    rw [run, Function.iterate_succ_apply']
    exact levelled_step intact order ih

end Func

end Avm.Ir

/-! ## Expanded callees -/

namespace Avm.Opt.Inlining

open Avm.Ir Avm.Ir.Func

variable {V : Type} {f f' callee : Func} {pool : Pool} {call : ReceiverCall} {v : ValueId} {tail : BlockId}

/-- A copy of a block of a callee runs with the scopes that the block has when the callee runs by itself, and below
them those that are open at the call. -/
theorem length_scope_of_expand {ctx : Context} (h : f.Kept) (found : ReceiverCall.ofNode? f ctx.pool v = some call)
    (chosen : (candidate ctx f call).1 = some callee) (run : (expand call callee).run f = .ok tail f') :
    ∃ p : Placement, Plan callee p ∧ p.head = call.block ∧ ∀ b n, (b, n) ∈ p.blocks → b ≠ Func.entry →
      ∀ (V : Type) (S : Semantics V) registers registers' i j, Thread.Heads callee (callee.run S registers i) b →
        Thread.Heads f' (f'.run S registers' j) n →
          (f'.run S registers' j).scope.length =
            (callee.run S registers i).scope.length + depthAt f call.block call.position := by
  obtain ⟨kept, manned, flat⟩ := kept_of_candidate chosen
  obtain ⟨kept', p, plan, head, copies⟩ := (expand_kept h kept manned flat found).of_ok run
  refine ⟨p, plan, head, fun b n mem other V S registers registers' i j heads heads' => ?_⟩
  -- both runs keep to the depths that the outlines of their blocks say
  have levelled := levelled_run (S := S) kept.intact kept.scopes registers i
  have levelled' := levelled_run (S := S) kept'.intact kept'.scopes registers' j
  have inner : b ≠ Func.exit := ((plan.mem b).1 ⟨n, mem⟩).2
  obtain ⟨inner', entered⟩ := copies b n _ mem other (heads.enters levelled inner)
  have entered' := heads'.enters levelled' inner'
  exact entered'.inj (entered entered'.isSome)

/-- A method that calls another one inside a scope. -/
def enclosing : MethodBody where
  locals := 1
  code := [0xd0, 0x30, 0xd0, 0x44, 0x01, 0x00, 0x48]

/-- A method that searches the scope stack. -/
def searching : MethodBody where
  method := 1
  locals := 1
  code := [0x5f, 0x01, 0x48]

/-- What the first may ask for. -/
def nested : Context := ⟨enclosing.method, {}, (MethodTable.addBody {} searching).environment, {}⟩

/-- There is one value, and nothing raises an exception. -/
def blank : Semantics Unit where
  const _ := ()
  unary _ _ := ()
  type _ _ _ := ()
  binary _ _ _ := ()
  branch _ _ := false
  select _ _ := none
  silent _ := ()
  answer _ := .ok fun _ => ()

/-- The search is made with one scope below, wherever the copy of its block comes next. -/
theorem length_scope_of_expand_searching : ∃ f call callee tail f' n, enclosing.lift {} {} = .ok f ∧
    (candidate nested f call).1 = some callee ∧ (expand call callee).run f = .ok tail f' ∧ n ≠ call.block ∧
      ∀ registers j, Thread.Heads f' (f'.run blank registers j) n → (f'.run blank registers j).scope.length = 1 := by
  have facts : (enclosing.lift {} {}).toOption.any (fun f => (ReceiverCall.ofNode? f {} 1).any fun call =>
      depthAt f call.block call.position == 1 && (candidate nested f call).1.any fun callee =>
        (callee.run blank (fun _ => ()) 1).ending == none && (callee.run blank (fun _ => ()) 1).block == 2 &&
          (callee.run blank (fun _ => ()) 1).rest == callee.body 2 &&
          (callee.run blank (fun _ => ()) 1).scope == [] && (callee.block? 2).isSome &&
          (expand call callee).succeedsWith f fun _ _ => true) = true := by
    decide +kernel
  obtain ⟨f, lifted, ok⟩ := exists_of_toOption facts
  obtain ⟨call, found, ok⟩ := (Option.any_eq_true _ _).1 ok
  obtain ⟨depth, ok⟩ := Bool.and_eq_true_iff.1 ok
  obtain ⟨callee, chosen, ok⟩ := (Option.any_eq_true _ _).1 ok
  simp only [Bool.and_eq_true, beq_iff_eq] at ok
  obtain ⟨⟨⟨⟨⟨running, here⟩, rest⟩, scope⟩, live⟩, ran⟩ := ok
  obtain ⟨tail, f', run, -⟩ := Edit.exists_of_succeedsWith ran
  have kept : f.Kept := ⟨intact_of_lift lifted, (MethodBody.scoped_of_lift lifted).1⟩
  have called : ReceiverCall.ofNode? f nested.pool 1 = some call := found
  obtain ⟨p, plan, head, copies⟩ := length_scope_of_expand kept called chosen run
  obtain ⟨n, mem⟩ := (plan.mem 2).2 ⟨live, by rintro ⟨⟩⟩
  refine ⟨f, call, callee, tail, f', n, lifted, chosen, run, ?_, fun registers j heads => ?_⟩
  · intro same
    cases (plan.eq_head_iff mem).1 (same.trans head.symm)
  · have length := copies 2 n mem (by rintro ⟨⟩) Unit blank (fun _ => ()) registers 1 j ⟨running, here, rest⟩ heads
    rw [scope, eq_of_beq depth] at length
    exact length

/-- The callee whose expansion stands in place of a call of a graph, if the call was expanded. -/
def expanded (ctx : Context) (f f' g : Func) (v : ValueId) : Option Func :=
  if g = f ∧ f'.node? v = none then
    (ReceiverCall.ofNode? f ctx.pool v).bind fun call => (call.target? ctx.env f.method).bind ctx.callee?
  else none

/-- The search as it is made. -/
def search (scope : List Unit) : Request Unit := ⟨.property .findDef 1 [], [], scope⟩

/-- The callee can tell that it was expanded: it sees the scopes of the caller. -/
theorem not_performs_expanded : ¬∀ (ctx : Context) (f f' : Func) (report : Report), f.verify = .ok () → f.Kept →
    f.Dominated → (pass.run ctx).run f = .ok report f' →
      ∀ (V : Type) (S : Semantics V) (registers : Nat → V) (trace : List (Request V)) (ending : Avm.Ending V),
        f.Performs S (expanded ctx f f') registers trace ending ↔
          f'.Performs S (fun _ _ => none) registers trace ending := by
  intro all
  have facts : (enclosing.lift {} {}).toOption.any (fun f => f.nodes.all (fun x => (x.elim [] (·.kind.operands)).all
        (·.node?.isNone)) &&
      f.blocks.all (fun x => x.all fun x => x.terminator.operands.all fun o => o.node?.all (x.body.contains ·)) &&
      (pass.run nested).succeedsWith f fun _ f' =>
        let hosted := f.tower blank (expanded nested f f') (fun _ => ()) 12
        let alone := f'.tower blank (fun _ _ => none) (fun _ => ()) 12
        hosted.waiting.isEmpty && hosted.thread.ending == some (.returned (some ())) &&
          hosted.thread.log.filterMap Occurrence.request? == [search []] &&
        (alone.waiting.isEmpty && alone.thread.ending == some (.returned (some ())) &&
          alone.thread.log.filterMap Occurrence.request? == [search [()]])) = true := by
    decide +kernel
  obtain ⟨f, lifted, ok⟩ := exists_of_toOption facts
  rw [Bool.and_eq_true, Bool.and_eq_true] at ok
  obtain ⟨⟨nodes, ends⟩, runs⟩ := ok
  obtain ⟨report, f', run, runs⟩ := Edit.exists_of_succeedsWith runs
  simp only [Bool.and_eq_true, List.isEmpty_iff, beq_iff_eq] at runs
  obtain ⟨⟨⟨waits, ended⟩, asked⟩, ⟨waits', ended'⟩, asked'⟩ := runs
  have intact : f.Intact := intact_of_lift lifted
  have dominated : f.Dominated := by
    refine dominated_of_last (fun v k does w mem => ?_) fun b v mem => ?_
    · obtain ⟨node, there, rfl⟩ := Option.map_eq_some_iff.1 does
      have listed := Array.mem_of_getElem? (Option.join_eq_some_iff.1 there)
      have plain := List.all_eq_true.1 (Array.all_eq_true'.1 nodes _ listed) _ mem
      cases plain
    · rw [terminator] at mem
      cases there : f.block? b with
      | none =>
        rw [there] at mem
        cases mem
      | some x =>
        rw [there] at mem
        have listed := Array.mem_of_getElem? (Option.join_eq_some_iff.1 there)
        have last := List.all_eq_true.1 (Array.all_eq_true'.1 ends _ listed) _ mem
        rw [body_of_block? there]
        exact List.contains_iff_mem.1 last
  have same := all nested f f' report (verify_of_intact intact) ⟨intact, (MethodBody.scoped_of_lift lifted).1⟩ dominated
    run Unit blank (fun _ => ()) [search []] (.returned (some ()))
  have trace := (same.1 ⟨12, waits, ended, asked⟩).unique ⟨12, waits', ended', asked'⟩
  exact absurd trace.1 (by decide)

end Avm.Opt.Inlining
