import Avm.Proofs.Ir.Fitting

/-!
# Branches that are decided

A branch on constants is replaced by the way that it takes.  A phi at the end of that way had one value for
each edge that led there from the branch, and keeps one: that of the first of these edges in its list, which
need not be the edge that is taken.  So what comes in stays if only one edge leads there, or if those that do
bring the same.

The main statement is `incoming_of_foldBranches`.  `not_incoming_of_foldBranches` is that what comes in may
change.
-/

namespace Avm.Opt.Folding

open Avm.Ir Avm.Ir.Func Avm.Ir.Edit

variable {f g h : Func} {b t : BlockId} {v : ValueId} {kind : EdgeKind} {e : BlockId × EdgeKind} {m : MethodId}
  {is : List PhiInput}

/-- The edge by which a branch on constants leaves. -/
def taken? : Terminator → Option (BlockId × EdgeKind)
  | .branch kind operands onTrue onFalse => do
    let taken ← Eval.branch kind (← operands.mapM Value.const?)
    return if taken then (onTrue, .whenTrue) else (onFalse, .whenFalse)
  | .switch (.const index) default cases => do
    let choice ← Eval.switchCase index cases.length
    return (choice.bind fun i => cases[i]?.map fun c => (c, .switchCase i)).getD (default, .switchDefault)
  | _ => none

lemma decided?_eq (t : Terminator) : decided? t = (taken? t).map (·.1) := by
  cases t with
  | branch kind operands onTrue onFalse =>
    simp only [decided?, taken?, Option.bind_eq_bind, Option.pure_def, Option.map_bind, Function.comp_def,
      Option.map_some, apply_ite Prod.fst]
  | switch index default cases =>
    cases index with
    | const c =>
      have goes (choice : Option Nat) : (choice.bind fun i => cases[i]?).getD default =
          ((choice.bind fun i => cases[i]?.map fun c => (c, EdgeKind.switchCase i)).getD
            (default, .switchDefault)).1 := by
        cases choice with
        | none => rfl
        | some i => cases found : cases[i]? <;> simp [found]
      simp only [decided?, taken?, Option.bind_eq_bind, Option.pure_def, Option.map_bind, Function.comp_def,
        Option.map_some, goes]
    | _ => rfl
  | _ => rfl

lemma mem_targets_of_taken? {t : Terminator} (taken : taken? t = some e) : e ∈ t.targets := by
  cases t with
  | branch kind operands onTrue onFalse =>
    simp only [taken?, Option.bind_eq_bind, Option.bind_eq_some_iff, Option.pure_def, Option.some.injEq] at taken
    obtain ⟨_, -, goes, -, rfl⟩ := taken
    cases goes with
    | true => exact List.mem_cons_self
    | false => exact List.mem_cons_of_mem _ List.mem_cons_self
  | switch index default cases =>
    cases index with
    | const c =>
      simp only [taken?, Option.bind_eq_bind, Option.bind_eq_some_iff, Option.pure_def, Option.some.injEq] at taken
      obtain ⟨choice, -, rfl⟩ := taken
      cases found : choice.bind fun i => cases[i]?.map fun c => (c, EdgeKind.switchCase i) with
      | none => exact List.mem_cons_self
      | some e =>
        obtain ⟨i, -, there⟩ := Option.bind_eq_some_iff.1 found
        obtain ⟨c, at_, rfl⟩ := Option.map_eq_some_iff.1 there
        obtain ⟨inside, rfl⟩ := List.getElem?_eq_some_iff.1 at_
        exact List.mem_cons_of_mem _ (List.mem_mapIdx.2 ⟨i, inside, rfl⟩)
    | _ => cases taken
  | _ => cases taken

lemma mem_decidedBlocks_iff {f : Func} {d : BlockId × BlockId} :
    d ∈ decidedBlocks f ↔ ∃ e, taken? (f.terminator d.1) = some e ∧ e.1 = d.2 := by
  have terminator (b) : (f.block? b).bind (fun x => decided? x.terminator) = (taken? (f.terminator b)).map (·.1) := by
    rw [Func.terminator]
    cases f.block? b with
    | none => rfl
    | some x => exact decided?_eq x.terminator
  obtain ⟨b, t⟩ := d
  rw [decidedBlocks, List.mem_filterMap]
  simp only [terminator, Option.map_map, Option.map_eq_some_iff]
  constructor
  · rintro ⟨b, -, e, taken, same⟩
    obtain ⟨rfl, rfl⟩ := Prod.mk.inj same
    exact ⟨e, taken, rfl⟩
  · rintro ⟨e, taken, rfl⟩
    refine ⟨b, mem_blockIds.2 ?_, e, taken, rfl⟩
    cases here : f.block? b with
    | some x => rfl
    | none =>
      rw [(parts_of_isNone here).2.2.2.1] at taken
      cases taken

/-- The value of the first of the inputs from a block. -/
def leading? (is : List PhiInput) (b : BlockId) : Option Value := (is.find? (·.source == b)).map (·.value)

/-- What the first of the edges from a block brings to a phi. -/
def leading (f : Func) (v : ValueId) (b : BlockId) : Option Value := (f.inputs? v).bind fun is => leading? is b

/-- The inputs from a block are brought in line with edges of other kinds than they had. -/
lemma incoming?_reconcile_new {kinds : List EdgeKind} (new : (b, kind) ∉ keysOf is) (mem : kind ∈ kinds) :
    incoming? (reconcile b kinds is) b kind = leading? is b := by
  rw [reconcile]
  have first : (is.filter (·.source == b)).head? = is.find? (·.source == b) := List.head?_filter
  split
  · rename_i none
    rw [none] at first
    rw [leading?, ← first]
    rw [← incoming?_isSome, Option.not_isSome_iff_eq_none] at new
    exact new
  · rename_i i more own
    dsimp only
    rw [incoming?_append, incoming?_filter_source, if_pos rfl, Option.none_or, incoming?_map, if_pos ⟨rfl, mem⟩]
    rw [own] at first
    have absent : (i :: more).find? (·.kind == kind) = none := by
      rw [← own, find?_source, List.find?_eq_none]
      intro j listed same
      rw [Bool.and_eq_true, beq_iff_eq, beq_iff_eq] at same
      exact new (List.mem_map.2 ⟨j, listed, by rw [same.1, same.2]⟩)
    rw [absent, Option.getD_none, leading?, ← first]
    rfl

lemma leading?_reconcile {c : BlockId} {kinds : List EdgeKind} (other : c ≠ b) :
    leading? (reconcile b kinds is) c = leading? is c := by
  rw [reconcile]
  split
  · rfl
  · rename_i i more own
    dsimp only
    rw [leading?, leading?, List.find?_append]
    have kept : (is.filter (·.source != b)).find? (·.source == c) = is.find? (·.source == c) := by
      rw [find?_filter_and]
      congr 1
      funext j
      by_cases same : j.source = c
      · simp [same, other]
      · simp [same]
    have none : (kinds.map fun kind =>
      (⟨(((i :: more).find? (·.kind == kind)).getD i).value, b, kind⟩ : PhiInput)).find?
        (·.source == c) = none := by
      rw [List.find?_eq_none]
      intro j mem
      obtain ⟨kind, -, rfl⟩ := List.mem_map.1 mem
      simpa using Ne.symm other
    rw [kept, none, Option.or_none]

lemma leading_eq_incoming (fitted : Fitted f) (mem : v ∈ f.phis t) (edge : (t, kind) ∈ f.succs b)
    (same : ∀ k, (t, k) ∈ f.succs b → f.incoming v b k = f.incoming v b kind) :
    leading f v b = f.incoming v b kind := by
  have known := fitted.keyed.known t v mem b kind
  obtain ⟨x, value⟩ := Option.isSome_iff_exists.1 (known.2 edge)
  obtain ⟨is, inputs, found⟩ := Option.bind_eq_some_iff.1 value
  obtain ⟨j, listed, source, -, -⟩ := exists_of_incoming? found
  cases first : is.find? (·.source == b) with
  | none => exact absurd (List.find?_eq_none.1 first j listed) (by simp [source])
  | some i =>
    have from_ : i.source = b := beq_iff_eq.1 (List.find?_some (p := fun j : PhiInput => j.source == b) first)
    have there := List.mem_of_find?_eq_some first
    have brings : f.incoming v b i.kind = some i.value := by
      rw [incoming, inputs, Option.bind_some, ← from_]
      exact incoming?_of_mem (fitted.keyed.once v is inputs) there
    have goes : (t, i.kind) ∈ f.succs b := (fitted.keyed.known t v mem b i.kind).1 (by rw [brings]; rfl)
    rw [← same i.kind goes, brings, leading, inputs, Option.bind_some, leading?, first]
    rfl

section Deciding

variable (fitted : Fitted f) (live : (f.block? b).isSome)
include fitted live

lemma fitted_reend_goto (edge : (t, kind) ∈ f.succs b) : Fitted (f.reend b (.goto t) (f.handlersOf b)) := by
  refine fitted.reend live fun s k there mem => ?_
  rcases mem_edgesFrom.1 mem with goes | leaves | raises
  · obtain ⟨rfl, -⟩ := Prod.mk.inj (List.mem_singleton.1 goes)
    exact ⟨kind, edge⟩
  · cases leaves
  · refine ⟨k, fitted.leads b (s, k) ?_ there⟩
    rw [edgesOf_eq, mem_edgesFrom]
    exact .inr (.inr raises)

lemma incoming_reend_goto (mem : v ∈ f.phis t) (new : (t, .fallthrough) ∉ f.succs b) :
    (f.reend b (.goto t) (f.handlersOf b)).incoming v b .fallthrough = leading f v b := by
  have nodes : SameNodes f (f.withEnd b (.goto t) (f.handlersOf b)) := sameNodes_withEnd
  have inputs : (f.withEnd b (.goto t) (f.handlersOf b)).inputs? v = f.inputs? v := inputs?_modifyBlock
  have edges : (f.withEnd b (.goto t) (f.handlersOf b)).edgesOf b =
      edgesFrom f.handlers (.goto t) (f.handlersOf b) := edgesOf_withEnd live
  have goes : (t, EdgeKind.fallthrough) ∈ edgesFrom f.handlers (.goto t) (f.handlersOf b) :=
    mem_edgesFrom.2 (.inl (List.mem_singleton_self _))
  obtain ⟨is, has⟩ := Option.isSome_iff_exists.1 (fitted.phi t v mem)
  have there : t ∈ targetsOf ((f.withEnd b (.goto t) (f.handlersOf b)).succs b ++
      (f.withEnd b (.goto t) (f.handlersOf b)).edgesOf b) := by
    rw [edges]
    exact mem_targetsOf.2 ⟨_, List.mem_append_right _ goes⟩
  rw [reend, incoming, inputs?_rewire (fitted.toListed.sameNodes nodes) (by rw [nodes.phis]; exact mem), if_pos there,
    inputs, has, edges, Option.map_some, Option.bind_some, leading, has, Option.bind_some]
  refine incoming?_reconcile_new ?_ (List.mem_map.2 ⟨_, List.mem_filter.2 ⟨goes, by simp⟩, rfl⟩)
  rw [keysOf, ← keys_of_inputs? has, fitted.mem_keys mem]
  exact new

end Deciding

lemma from_others_reend (fitted : Fitted f) {c : BlockId} {term : Terminator} {hs : List Nat} (mem : v ∈ f.phis t)
    (other : c ≠ b) : (∀ kind, (f.reend b term hs).incoming v c kind = f.incoming v c kind) ∧
      leading (f.reend b term hs) v c = leading f v c := by
  have nodes : SameNodes f (f.withEnd b term hs) := sameNodes_withEnd
  have old : (f.withEnd b term hs).inputs? v = f.inputs? v := inputs?_modifyBlock
  have inputs := inputs?_rewire (b := b) (fitted.toListed.sameNodes nodes) (v := v) (t := t)
    (by rw [nodes.phis]; exact mem)
  rw [← reend, old] at inputs
  simp only [incoming, leading, inputs]
  split
  · obtain ⟨is, has⟩ := Option.isSome_iff_exists.1 (fitted.phi t v mem)
    rw [has, Option.map_some, Option.bind_some, Option.bind_some, leading?_reconcile other]
    refine ⟨fun kind => ?_, rfl⟩
    rw [Option.bind_some, Option.bind_some, reconcile]
    split
    · rfl
    · dsimp only
      rw [incoming?_append, incoming?_filter_source, if_neg other, incoming?_map, if_neg fun both => other both.1,
        Option.or_none]
  · exact ⟨fun _ => rfl, rfl⟩

lemma not_mem_succs_of_taken? (fitted : Fitted f) (taken : taken? (f.terminator b) = some e) :
    (t, .fallthrough) ∉ f.succs b := by
  intro edge
  have called := fitted.called b _ edge
  rw [edgesOf_eq] at called
  rcases mem_edgesFrom.1 called with goes | leaves | ⟨_, _, _, _, raises⟩
  · cases ends : f.terminator b <;> rw [ends] at taken goes <;> simp_all [taken?, Terminator.targets, List.mem_mapIdx]
  · cases ends : f.terminator b <;> rw [ends] at taken leaves <;> simp_all [taken?, Terminator.leaving]
  · cases raises

/-- Deciding some branches makes one graph of another: their phis keep what the first edges brought, and the
others are as they were. -/
structure Decides (ds : List (BlockId × BlockId)) (f g : Func) : Prop extends SameNodes f g where
  fitted : Fitted g
  ends : ∀ b, g.terminator b = ((ds.find? (·.1 == b)).map fun d => Terminator.goto d.2).getD (f.terminator b)
  others : ∀ t, ∀ v ∈ f.phis t, ∀ b, (∀ d ∈ ds, d.1 ≠ b) →
    (∀ kind, g.incoming v b kind = f.incoming v b kind) ∧ leading g v b = leading f v b
  brings : ∀ d ∈ ds, ∀ v ∈ f.phis d.2, g.incoming v d.1 .fallthrough = leading f v d.1

lemma foldBranches_decides {ds : List (BlockId × BlockId)} (report : Report) (fitted : Fitted f)
    (once : (ds.map (·.1)).Nodup) (takes : ∀ d ∈ ds, ∃ e, taken? (f.terminator d.1) = some e ∧ e.1 = d.2) :
    (foldBranches m ds report).Meets f (fun _ g => Decides ds f g) fun _ => True := by
  induction ds generalizing f report with
  | nil =>
    exact meets_pure ⟨.refl f, fitted, fun _ => rfl, fun _ _ _ _ _ => ⟨fun _ => rfl, rfl⟩, nofun⟩
  | cons d ds ih =>
    obtain ⟨b, t⟩ := d
    obtain ⟨apart, distinct⟩ := List.nodup_cons.1 once
    obtain ⟨e, taken, rfl⟩ := takes _ List.mem_cons_self
    dsimp only at taken apart
    rw [foldBranches]
    refine Meets.bind (P := fun _ f₁ => (f.block? b).isSome ∧ (f.block? e.1).isSome ∧
      f₁ = f.reend b (.goto e.1) (f.handlersOf b)) (meets_of_forall (fun _ f₁ run => ?_) fun _ _ _ => trivial) ?_
    · obtain ⟨there, live, same⟩ := setTerminator_eq_ok.1 run
      exact ⟨live, there (e.1, .fallthrough) (List.mem_singleton_self _), same⟩
    rintro - _ ⟨live, there, rfl⟩
    have edge : e ∈ f.succs b := fitted.mem_succs_of_mem_targets (mem_targets_of_taken? taken) there
    have nodes : SameNodes f (f.reend b (.goto e.1) (f.handlersOf b)) := sameNodes_reend
    have elsewhere {c : BlockId} (mem : ∃ d ∈ ds, d.1 = c) : c ≠ b := by
      obtain ⟨d, mem, rfl⟩ := mem
      intro same
      exact apart (List.mem_map.2 ⟨d, mem, same⟩)
    refine (ih _ (fitted_reend_goto fitted live edge) distinct fun d mem => ?_).imp (fun _ g rest => ?_) fun _ _ =>
      trivial
    · rw [terminator_reend live, if_neg (elsewhere ⟨d, mem, rfl⟩)]
      exact takes d (List.mem_cons_of_mem _ mem)
    refine ⟨nodes.trans rest.toSameNodes, rest.fitted, fun c => ?_, fun s v mem c none => ?_, fun d mem v phi => ?_⟩
    · rw [rest.ends, terminator_reend live, List.find?_cons]
      by_cases here : c = b
      · subst here
        have absent : ds.find? (·.1 == c) = none := by
          rw [List.find?_eq_none]
          exact fun d mem same => elsewhere ⟨d, mem, rfl⟩ (beq_iff_eq.1 same)
        simp [absent]
      · have skip : (b == c) = false := beq_eq_false_iff_ne.2 (Ne.symm here)
        rw [if_neg here, skip]
    · have other : c ≠ b := Ne.symm (none _ List.mem_cons_self)
      obtain ⟨brings, leads⟩ := rest.others s v (by rwa [nodes.phis]) c fun d mem => none d (List.mem_cons_of_mem _ mem)
      refine ⟨fun kind => (brings kind).trans ((from_others_reend fitted mem other).1 kind), leads.trans ?_⟩
      exact (from_others_reend fitted mem other).2
    · rcases List.mem_cons.1 mem with rfl | later
      · obtain ⟨brings, -⟩ := rest.others e.1 v (by rwa [nodes.phis]) b fun d mem same => elsewhere ⟨d, mem, same⟩ rfl
        rw [brings]
        exact incoming_reend_goto fitted live phi (not_mem_succs_of_taken? fitted taken)
      · have other := elsewhere ⟨d, later, rfl⟩
        rw [rest.brings d later v (by rwa [nodes.phis])]
        exact (from_others_reend fitted phi other).2

section Rounds

/-- What a round of folding has made of a graph when it comes to the branches. -/
def ready (m : MethodId) (f : Func) : Func := (foldNodes m f).1.removeTrivialPhis.1

/-- The graphs that folding comes to, round after round. -/
inductive Rounds (m : MethodId) (f : Func) : Func → Prop
  | start : Rounds m f f
  | next {g h : Func} {report : Report} : Rounds m f g → (once m).run g = .ok report h → Rounds m f h

lemma fitted_ready (fitted : Fitted f) : Fitted (ready m f) :=
  (fitted.trims (trims_foldNodes f)).trims (trims_removeTrivialPhis _)

/-- A round of folding leaves a fitted graph, though control may still be led from the exit to a block that is
gone. -/
lemma once_fitted {report : Report} (fitted : Fitted f) (run : (once m).run f = .ok report g) : Fitted g := by
  have prepared : Fitted (ready m f) := fitted_ready fitted
  have meets : (once m).Meets f (fun _ g => Fitted g) fun _ => True := by
    rw [once]
    refine meets_get ?_
    rw [ready] at prepared
    generalize foldNodes m f = p at prepared ⊢
    dsimp only
    generalize p.1.removeTrivialPhis = q at prepared ⊢
    refine meets_set ?_
    have decided := foldBranches_decides (m := m) {} prepared (nodup_decidedBlocks q.1) fun d mem =>
      mem_decidedBlocks_iff.1 mem
    refine decided.bind fun _ f₁ decides => Meets.bind (P := fun _ f₂ => Fitted f₂) ?_ fun _ _ fitted =>
      meets_pure fitted
    refine meets_get (Meets.bind (P := fun _ f₂ => Fitted f₂) ?_ fun _ _ fitted => meets_pure fitted)
    refine meets_of_forall (fun _ f₂ removed => ?_) fun _ _ _ => trivial
    exact Lift.removeBlocks_induction removed decides.fitted fun _ b x fitted _ here => fitted.without here
  exact meets.of_ok run

lemma Rounds.fitted (rounds : Rounds m f g) (fitted : Fitted f) : Fitted g := by
  induction rounds with
  | start => exact fitted
  | next _ run ih => exact once_fitted ih run

end Rounds

/-- When folding replaces a branch by the way that it takes, a phi at the end of that way receives what the first
edge from the branch brought.  That is what came in on the edge that is taken if all edges from the branch
bring the same. -/
theorem incoming_of_foldBranches {report : Report} (f : Func) (checked : Checked f) (rounds : Rounds m f g)
    (run : (foldBranches m (decidedBlocks (ready m g)) {}).run (ready m g) = .ok report h)
    (taken : taken? ((ready m g).terminator b) = some e) :
    h.terminator b = .goto e.1 ∧ ∀ v ∈ (ready m g).phis e.1,
      h.incoming v b .fallthrough = leading (ready m g) v b ∧
        ((∀ k, (e.1, k) ∈ (ready m g).succs b → (ready m g).incoming v b k = (ready m g).incoming v b e.2) →
          h.incoming v b .fallthrough = (ready m g).incoming v b e.2) := by
  have fitted : Fitted (ready m g) := fitted_ready (rounds.fitted checked.fitted)
  have decides := (foldBranches_decides {} fitted (nodup_decidedBlocks (ready m g))
    fun d mem => mem_decidedBlocks_iff.1 mem).of_ok run
  have mem : (b, e.1) ∈ decidedBlocks (ready m g) := mem_decidedBlocks_iff.2 ⟨e, taken, rfl⟩
  constructor
  · rw [decides.ends]
    cases found : (decidedBlocks (ready m g)).find? (·.1 == b) with
    | none => exact absurd (List.find?_eq_none.1 found _ mem) (by simp)
    | some d =>
      have here : d.1 = b := beq_iff_eq.1 (List.find?_some (p := fun d : BlockId × BlockId => d.1 == b) found)
      obtain ⟨e', taken', goes⟩ := mem_decidedBlocks_iff.1 (List.mem_of_find?_eq_some found)
      rw [here, taken] at taken'
      obtain rfl := Option.some.inj taken'
      rw [Option.map_some, Option.getD_some, goes]
  · intro v phi
    have brings := decides.brings _ mem v phi
    refine ⟨brings, fun same => brings.trans ?_⟩
    have live : ((ready m g).block? e.1).isSome := isSome_of_mem_nodesOf (List.mem_append_left _ phi)
    exact leading_eq_incoming fitted phi (fitted.mem_succs_of_mem_targets (mem_targets_of_taken? taken) live) same

/-- Both edges of a branch on true lead to a phi, which lists the one that is not taken first. -/
def parting : List Change :=
  [.addBlock, .addBlock, .setTerminator 0 (.goto 2), .setTerminator 2 (.branch .truthy [.const (.bool true)] 3 3),
    .appendNode 3 (.phi [⟨.const (.int 5), 2, .whenFalse⟩, ⟨.const (.int 9), 2, .whenTrue⟩]),
    .setTerminator 3 (.leave (some (.node 0)))]

/-- What there is in that graph when folding comes to its branch. -/
def Parts (f : Func) : Prop :=
  taken? ((ready 0 f).terminator 2) = some (3, .whenTrue) ∧ (ready 0 f).phis 3 = [0] ∧
    leading (ready 0 f) 0 2 = some (.const (.int 5)) ∧
    (ready 0 f).incoming 0 2 .whenTrue = some (.const (.int 9)) ∧
    ((foldBranches 0 (decidedBlocks (ready 0 f)) {}).run (ready 0 f) matches .ok ..) = true

instance (f : Func) : Decidable (Parts f) := inferInstanceAs (Decidable (_ ∧ _))

lemma exists_parting : ∃ f report h, build? parting (.new 0 0 {} 1) = some f ∧ Checked f ∧ Parts f ∧
    (foldBranches 0 (decidedBlocks (ready 0 f)) {}).run (ready 0 f) = .ok report h := by
  have facts : (build? parting (.new 0 0 {} 1)).any
      (fun f => (f.block? entry).isSome && f.verify.isOk && decide (Parts f)) = true := by decide +kernel
  obtain ⟨f, built, checked, parts⟩ := exists_checked facts
  have ran := parts.2.2.2.2
  split at ran
  · rename_i report h run
    exact ⟨f, report, h, built, checked, parts, run⟩
  · cases ran

/-- The phi receives what the edge brought that is not taken. -/
theorem incoming_of_foldBranches_parting : ∃ f report h, build? parting (.new 0 0 {} 1) = some f ∧ Checked f ∧
    (foldBranches 0 (decidedBlocks (ready 0 f)) {}).run (ready 0 f) = .ok report h ∧
      taken? ((ready 0 f).terminator 2) = some (3, .whenTrue) ∧
        h.terminator 2 = .goto 3 ∧ h.incoming 0 2 .fallthrough = some (.const (.int 5)) := by
  obtain ⟨f, report, h, built, checked, ⟨taken, phis, first, -⟩, run⟩ := exists_parting
  obtain ⟨goes, brings⟩ := incoming_of_foldBranches f checked .start run taken
  have brought := (brings 0 (by rw [phis]; exact List.mem_singleton_self 0)).1
  exact ⟨f, report, h, built, checked, run, taken, goes, brought.trans first⟩

/-- What comes into a phi may change when a branch is decided. -/
theorem not_incoming_of_foldBranches : ¬∀ (m : MethodId) (f g h : Func) (report : Report), Checked f → Rounds m f g →
    (foldBranches m (decidedBlocks (ready m g)) {}).run (ready m g) = .ok report h →
      ∀ b e, taken? ((ready m g).terminator b) = some e → ∀ v ∈ (ready m g).phis e.1,
        h.incoming v b .fallthrough = (ready m g).incoming v b e.2 := by
  intro all
  obtain ⟨f, report, h, -, checked, ⟨taken, phis, first, other, -⟩, run⟩ := exists_parting
  have fitted : Fitted (ready 0 f) := fitted_ready checked.fitted
  have decides := (foldBranches_decides {} fitted (nodup_decidedBlocks (ready 0 f))
    fun d mem => mem_decidedBlocks_iff.1 mem).of_ok run
  have mem : 0 ∈ (ready 0 f).phis 3 := by
    rw [phis]
    exact List.mem_singleton_self 0
  have kept := all 0 f f h report checked .start run 2 (3, .whenTrue) taken 0 mem
  rw [decides.brings (2, 3) (mem_decidedBlocks_iff.2 ⟨_, taken, rfl⟩) 0 mem, first, other] at kept
  cases kept

end Avm.Opt.Folding
