import Avm.Proofs.Ir.Removing
import Avm.Proofs.Lift.Pairing

/-!
# The shape of a graph while it is lifted

Lifting adds blocks, gives them nodes, ends them one by one, and makes phis only where several ways
meet.  `Grows` says once what it may do to a graph, and `Fills` that an edit does no more than that; what
holds of every graph on the way follows from this.  Blocks that handle exceptions are no joins, since
lifting refuses handlers that are also entered otherwise, so they never get phis.

The main statement is `intact_of_lift`: a graph that is lifted is in order.
-/

namespace Avm.Ir.Lift

variable {f f' f'' : Func} {p : Partition} {b : BlockId} {α β : Type}

/-- A graph that is being lifted: its shape, and where its phis and its handlers are. -/
structure Ready (p : Partition) (f : Func) : Prop where
  /-- The shape. -/
  shaped : f.Shaped
  /-- Only joins have phis. -/
  phis : ∀ t, t ∉ p.joins → f.phis t = []
  /-- Exceptions are handled elsewhere. -/
  catches : ∀ c ∈ f.handlers, c.target ∉ p.joins ∧ c.target ≠ Func.entry

/-- What lifting does to a graph whose blocks are there. -/
inductive Grows (p : Partition) (f : Func) : Func → Prop where
  /-- Nothing. -/
  | refl : Grows p f f
  /-- Operands, inputs of phis and numbers change. -/
  | same {g h : Func} : Grows p f g → g.SameNodes h → g.SameFlow h → Grows p f h
  /-- A block gets a node. -/
  | node {g : Func} (b : BlockId) (kind : NodeKind) : Grows p f g → (g.block? b).isSome →
    b ≠ Func.entry ∧ b ≠ Func.exit → kind.isPhi = false → Grows p f (g.putNode b (g.place b kind) kind)
  /-- A join gets phis. -/
  | phis {g : Func} (b : BlockId) (inputs : List (List PhiInput)) : Grows p f g →
    (g.block? b).isSome → b ≠ Func.entry ∧ b ≠ Func.exit → b ∈ p.joins → Grows p f (g.putPhis b inputs)
  /-- A block gets an end or handlers. -/
  | ends {g : Func} (b : BlockId) (term : Terminator) (hs : List Nat) : Grows p f g →
    (g.block? b).isSome → b ≠ Func.exit →
    (b = Func.entry → hs = g.handlersOf b ∧ ∃ c, term = .goto c) →
    (∀ k ∈ hs, k < g.handlers.length ∨ k ∈ g.handlersOf b) →
    (∀ e ∈ term.targets, e.1 ≠ Func.entry ∨ e ∈ (g.terminator b).targets) →
    Grows p f (g.reend b term hs)

namespace Grows

lemma trans (h : Grows p f f') (h' : Grows p f' f'') : Grows p f f'' := by
  induction h' with
  | refl => exact h
  | same _ nodes flow ih => exact ih.same nodes flow
  | node b kind _ live inner plain ih => exact ih.node b kind live inner plain
  | phis b inputs _ live inner join ih => exact ih.phis b inputs live inner join
  | ends b term hs _ live inside start known enters ih =>
    exact ih.ends b term hs live inside start known enters

lemma alike (h : Grows p f f') (alike : f'.Alike f'') : Grows p f f'' :=
  h.same alike.toSameNodes alike.toSameFlow

end Grows

lemma Ready.covered (h : Ready p f) {k : Nat} (inside : k < f.handlers.length) :
    ∃ c, f.handlers[k]? = some c ∧ c.target ≠ Func.entry ∧ f.phis c.target = [] := by
  have found : f.handlers[k]? = some f.handlers[k] := List.getElem?_eq_getElem inside
  obtain ⟨apart, inner⟩ := h.catches f.handlers[k] (List.getElem_mem inside)
  exact ⟨_, found, inner, h.phis _ apart⟩

lemma Ready.not_caught (h : Ready p f) (join : b ∈ p.joins) : ¬f.Caught b := by
  rintro ⟨s, k, -, c, found, rfl⟩
  exact (h.catches c (List.mem_of_getElem? found)).1 join

lemma Grows.ready (h : Grows p f f') (ready : Ready p f) : Ready p f' := by
  induction h with
  | refl => exact ready
  | same _ nodes flow ih =>
    refine ⟨ih.shaped.same nodes flow, fun t apart => ?_, ?_⟩
    · rw [nodes.phis, ih.phis t apart]
    · rw [flow.catches]
      exact ih.catches
  | @node g b kind _ live inner plain ih =>
    refine ⟨ih.shaped.putNode live Func.fits_place inner fun phi => by simp [plain] at phi,
      fun t apart => ?_, ?_⟩
    · rw [Func.phis_putNode_of_plain plain, ih.phis t apart]
    · rw [Func.sameFlow_putNode.catches]
      exact ih.catches
  | @phis g b inputs _ live inner join ih =>
    refine ⟨ih.shaped.putPhis live inner (ih.not_caught join), fun t apart => ?_, ?_⟩
    · rw [Func.phis_putPhis live, if_neg, ih.phis t apart]
      rintro rfl
      exact apart join
    · rw [Func.sameFlow_putPhis.catches]
      exact ih.catches
  | @ends g b term hs _ live inside start known enters ih =>
    refine ⟨ih.shaped.reend live inside (fun here => ?_) (fun k mem => ?_) (fun e mem => ?_),
      fun t apart => ?_, ?_⟩
    · rw [(start here).1, here]
      exact ih.shaped.entry.2.2.2
    · obtain below | old := known k mem
      · exact ih.covered below
      · exact ih.shaped.covered b k old
    · exact (enters e mem).elim id fun old => ih.shaped.enters b e old
    · rw [Func.sameNodes_reend.phis, ih.phis t apart]
    · rw [Func.sameNodes_reend.catches]
      exact ih.catches

lemma Grows.started (h : Grows p f f') (start : ∃ t, f.terminator Func.entry = .goto t) :
    ∃ t, f'.terminator Func.entry = .goto t := by
  induction h with
  | refl => exact start
  | same _ _ flow ih =>
    obtain ⟨t, here⟩ := ih
    obtain ⟨g, operands⟩ := flow.terminator Func.entry
    exact ⟨t, by rw [operands, here]; rfl⟩
  | node b kind _ _ _ _ ih =>
    obtain ⟨t, here⟩ := ih
    obtain ⟨g, operands⟩ := (Func.sameFlow_putNode (b := b)).terminator Func.entry
    exact ⟨t, by rw [operands, here]; rfl⟩
  | phis b inputs _ _ _ _ ih =>
    obtain ⟨t, here⟩ := ih
    obtain ⟨g, operands⟩ := (Func.sameFlow_putPhis (b := b)).terminator Func.entry
    exact ⟨t, by rw [operands, here]; rfl⟩
  | ends b term hs _ live _ begins _ _ ih =>
    rw [Func.terminator_reend live]
    split
    · rename_i here
      exact (begins here.symm).2
    · exact ih

/-- An edit does no more to a graph than lifting may. -/
def Fills (p : Partition) (x : Edit α) : Prop := ∀ f a f', x.run f = .ok a f' → Grows p f f'

section Rules

variable {x : Edit α} {g : α → Edit β}

lemma fills_pure (a : α) : Fills p (pure a : Edit α) := by
  rintro f _ _ run
  obtain ⟨-, rfl⟩ := Edit.pure_eq_ok.1 run
  exact .refl

lemma fills_throw (e : Fault) : Fills p (throw e : Edit α) :=
  fun _ _ _ run => absurd run Edit.throw_ne_ok

lemma fills_bind_of (first : Fills p x) (next : ∀ f a f', x.run f = .ok a f' → Fills p (g a)) :
    Fills p (x >>= g) := by
  intro f c f'' run
  obtain ⟨a, f', run, rest⟩ := Edit.bind_eq_ok.1 run
  exact (first f a f' run).trans (next f a f' run f' c f'' rest)

lemma fills_bind (first : Fills p x) (next : ∀ a, Fills p (g a)) : Fills p (x >>= g) :=
  fills_bind_of first fun _ a _ _ => next a

lemma fills_throw_bind (e : Fault) : Fills p (throw e >>= g) := by
  intro f c f' run
  obtain ⟨a, f₁, none, -⟩ := Edit.bind_eq_ok.1 run
  exact absurd none Edit.throw_ne_ok

lemma fills_get : Fills p (get : Edit Func) := by
  rintro f _ _ run
  obtain ⟨-, rfl⟩ := Edit.get_eq_ok.1 run
  exact .refl

lemma fills_ofExcept (r : Except Fault α) : Fills p (Edit.ofExcept r) := by
  cases r with
  | ok a => exact fills_pure a
  | error e => exact fills_throw e

lemma fills_appendNode {kind : NodeKind} (inner : b ≠ Func.entry ∧ b ≠ Func.exit)
    (plain : kind.isPhi = false) : Fills p (Edit.appendNode b kind) := by
  rintro f _ _ run
  obtain ⟨live, -, rfl⟩ := Edit.appendNode_eq_ok.1 run
  exact Grows.refl.node b kind live inner plain

lemma fills_freshVersion : Fills p Edit.freshVersion := by
  rintro f _ _ run
  obtain ⟨-, rfl⟩ := Edit.freshVersion_eq_ok.1 run
  exact Grows.refl.alike (Func.alike_of_blocks rfl rfl rfl)

end Rules

section Steps

variable (inner : b ≠ Func.entry ∧ b ≠ Func.exit) {pool : Pool} {i : Instruction Marker}
  {frame : Frame}

lemma fills_indexOf : Fills p (indexOf i) := by
  rw [indexOf]
  split
  · exact fills_pure _
  · exact fills_throw _

lemma fills_genericKind {operands : List Value} : Fills p (genericKind i operands) := by
  rw [genericKind]
  split
  · split
    · exact fills_pure _
    · exact fills_pure _
    · exact fills_throw _
  · split
    · exact fills_bind fills_indexOf fun _ => fills_pure _
    · exact fills_pure _

lemma isPhi_of_genericKind {operands : List Value} {kind : NodeKind}
    (run : (genericKind i operands).run f = .ok kind f') : kind.isPhi = false := by
  rw [genericKind] at run
  split at run
  · split at run
    · rw [(Edit.pure_eq_ok.1 run).1]
      rfl
    · rw [(Edit.pure_eq_ok.1 run).1]
      rfl
    · exact absurd run Edit.throw_ne_ok
  · split at run
    · obtain ⟨n, f₁, -, run⟩ := Edit.bind_eq_ok.1 run
      rw [(Edit.pure_eq_ok.1 run).1]
      rfl
    · rw [(Edit.pure_eq_ok.1 run).1]
      rfl

include inner

lemma fills_spillSlots {register own k : Nat} {pinned : List (Value × ValueId)} {vs : List Value} :
    Fills p (spillSlots b register own k pinned vs) := by
  induction vs generalizing k pinned with
  | nil => exact fills_pure _
  | cons v rest ih =>
    rw [spillSlots]
    refine fills_bind fills_get fun f => ?_
    split
    · exact fills_bind ih fun _ => fills_pure _
    · split
      · exact fills_bind ih fun _ => fills_pure _
      · exact fills_bind (fills_appendNode inner rfl) fun _ => fills_bind ih fun _ => fills_pure _

lemma fills_spill {register : Nat} : Fills p (spill b register frame) :=
  fills_bind (fills_spillSlots inner) fun _ => fills_pure _

lemma fills_store {register : Nat} {value : Value} : Fills p (store b register value frame) :=
  fills_bind (fills_ofExcept _) fun _ => fills_bind (fills_spill inner) fun _ =>
    fills_bind (fills_appendNode inner rfl) fun _ => fills_ofExcept _

lemma fills_generic : Fills p (generic pool b i frame) := by
  rw [generic]
  split
  · exact fills_throw_bind _
  · refine fills_bind (fills_ofExcept _) fun effect => fills_bind (fills_ofExcept _) fun popped => ?_
    refine fills_bind_of fills_genericKind fun f kind f' run => ?_
    exact fills_bind (fills_appendNode inner (isPhi_of_genericKind run)) fun _ => fills_pure _

lemma fills_stepRegister {op : UnaryOp} : Fills p (stepRegister b op i frame) :=
  fills_bind fills_indexOf fun _ => fills_bind (fills_ofExcept _) fun _ =>
    fills_bind (fills_appendNode inner rfl) fun _ => fills_store inner

lemma fills_stepHasNext2 : Fills p (stepHasNext2 b i frame) := by
  rw [stepHasNext2]
  split
  · refine fills_bind (fills_ofExcept _) fun _ => fills_bind (fills_ofExcept _) fun _ => ?_
    refine fills_bind (fills_spill inner) fun _ => fills_bind (fills_spill inner) fun _ => ?_
    refine fills_bind (fills_appendNode inner rfl) fun _ => fills_bind fills_freshVersion fun _ => ?_
    exact fills_bind (fills_ofExcept _) fun _ => fills_bind (fills_ofExcept _) fun _ => fills_pure _
  · exact fills_throw _

lemma fills_stepPushScope {op : ScopeOp} : Fills p (stepPushScope b op i frame) := by
  refine fills_bind (fills_ofExcept _) fun popped => ?_
  split
  split
  · exact fills_throw_bind _
  · exact fills_bind (fills_appendNode inner rfl) fun _ => fills_pure _

lemma fills_stepPopScope : Fills p (stepPopScope b frame) := by
  rw [stepPopScope]
  split
  · exact fills_throw_bind _
  · exact fills_bind (fills_appendNode inner rfl) fun _ => fills_pure _

omit inner in
lemma fills_stepScopeObject : Fills p (stepScopeObject i frame) := by
  rw [stepScopeObject]
  split
  · split
    · exact fills_pure _
    · exact fills_throw _
  · exact fills_throw _

lemma fills_stepOperator : Fills p (stepOperator pool b i frame) := by
  rw [stepOperator]
  split
  · refine fills_bind fills_indexOf fun _ => fills_bind (fills_ofExcept _) fun _ => ?_
    exact fills_bind (fills_appendNode inner rfl) fun _ => fills_pure _
  · refine fills_bind (fills_ofExcept _) fun _ => ?_
    exact fills_bind (fills_appendNode inner rfl) fun _ => fills_pure _
  · refine fills_bind (fills_ofExcept _) fun _ => fills_bind (fills_ofExcept _) fun _ => ?_
    exact fills_bind (fills_appendNode inner rfl) fun _ => fills_pure _
  · exact fills_generic inner

lemma fills_step : Fills p (step pool b i frame) := by
  rw [step]
  split
  -- Instructions without effect, those for debuggers, and constants.
  iterate 2 exact fills_pure _
  iterate 6 exact fills_bind (fills_appendNode inner rfl) fun _ => fills_pure _
  iterate 12 exact fills_bind (fills_ofExcept _) fun _ => fills_pure _
  -- The operand stack.
  iterate 2 exact fills_bind (fills_ofExcept _) fun _ => fills_pure _
  · exact fills_bind (fills_ofExcept _) fun _ => fills_bind (fills_ofExcept _) fun _ => fills_pure _
  -- Registers.
  iterate 5
    split
    · exact fills_bind (fills_ofExcept _) fun _ => fills_pure _
    · exact fills_throw _
  iterate 5
    split
    · exact fills_bind (fills_ofExcept _) fun _ => fills_store inner
    · exact fills_throw _
  · exact fills_bind fills_indexOf fun _ => fills_store inner
  iterate 4 exact fills_stepRegister inner
  · exact fills_stepHasNext2 inner
  -- The scope stack.
  · exact fills_stepScopeObject
  iterate 2 exact fills_stepPushScope inner
  · exact fills_stepPopScope inner
  · exact fills_stepOperator inner

end Steps

/-- What is known of the blocks of the leaders. -/
structure Partition.Valid (g : FlowGraph) (p : Partition) : Prop where
  /-- They are neither the entry nor the exit. -/
  inner : ∀ e ∈ p.blocks, e.2 ≠ Func.entry ∧ e.2 ≠ Func.exit
  /-- Those that handle exceptions are no joins. -/
  apart : ∀ e ∈ p.blocks, g.isHandlerTarget e.1 = true → e.2 ∉ p.joins

section Blocks

variable {s : Source} (valid : p.Valid s.graph) {n : NodeId} {frame : Frame}

lemma blockOf_eq_ok : (blockOf p n).run f = .ok b f' ↔ p.blocks.lookup n = some b ∧ f' = f := by
  rw [blockOf]
  split
  · rename_i c found
    rw [Edit.pure_eq_ok, found, Option.some.injEq, @eq_comm _ b]
  · rename_i none
    simp [none]

lemma successor_eq_ok {g : FlowGraph} {kind : EdgeKind} {m : NodeId}
    (run : (successor g n kind).run f = .ok m f') : f' = f := by
  rw [successor] at run
  split at run
  · exact (Edit.pure_eq_ok.1 run).2
  · exact absurd run Edit.throw_ne_ok

lemma follow_eq_ok {kind : EdgeKind} {r : BlockId × Pending}
    (run : (follow s p b n kind frame).run f = .ok r f') :
    f' = f ∧ ∃ m, (m, r.1) ∈ p.blocks := by
  obtain ⟨m, f₁, first, run⟩ := Edit.bind_eq_ok.1 run
  obtain ⟨c, f₂, second, run⟩ := Edit.bind_eq_ok.1 run
  obtain ⟨rfl, rfl⟩ := Edit.pure_eq_ok.1 run
  obtain ⟨found, rfl⟩ := blockOf_eq_ok.1 second
  exact ⟨successor_eq_ok first, m, mem_of_lookup found⟩

lemma followCases_eq_ok {k : Nat} {cases : List Marker} {rs : List (BlockId × Pending)}
    (run : (followCases s p b n frame k cases).run f = .ok rs f') :
    f' = f ∧ ∀ r ∈ rs, ∃ m, (m, r.1) ∈ p.blocks := by
  induction cases generalizing k f rs with
  | nil =>
    obtain ⟨rfl, rfl⟩ := Edit.pure_eq_ok.1 run
    exact ⟨rfl, by simp⟩
  | cons c cases ih =>
    obtain ⟨r, f₁, first, run⟩ := Edit.bind_eq_ok.1 run
    obtain ⟨more, f₂, second, run⟩ := Edit.bind_eq_ok.1 run
    obtain ⟨rfl, rfl⟩ := Edit.pure_eq_ok.1 run
    obtain ⟨rfl, here⟩ := follow_eq_ok first
    obtain ⟨rfl, rest⟩ := ih second
    exact ⟨rfl, List.forall_mem_cons.2 ⟨here, rest⟩⟩

lemma fills_of_eq {x : Edit α} (same : ∀ f a f', x.run f = .ok a f' → f' = f) : Fills p x := by
  intro f a f' run
  rw [same f a f' run]
  exact .refl

lemma fills_close {t : Terminator} (inner : b ≠ Func.entry ∧ b ≠ Func.exit)
    (enters : ∀ e ∈ t.targets, e.1 ≠ Func.entry) : Fills p (close b t frame) := by
  intro f a f' run
  obtain ⟨_, f₁, first, run⟩ := Edit.bind_eq_ok.1 run
  obtain ⟨live, rfl⟩ := Edit.modifyBlock_eq_ok.1 first
  obtain ⟨-, live, rfl⟩ := Edit.setTerminator_eq_ok.1 run
  exact (Grows.refl.alike (Func.alike_scopeDepth fun _ => _)).ends b t _ live inner.2
    (fun here => absurd here inner.1) (fun k mem => .inr mem) fun e mem => .inl (enters e mem)

include valid

lemma Partition.Valid.ne_entry {c : BlockId} (mem : ∃ m, (m, c) ∈ p.blocks) : c ≠ Func.entry := by
  obtain ⟨m, mem⟩ := mem
  exact (valid.inner _ mem).1

lemma fills_terminate {i : Instruction Marker} (inner : b ≠ Func.entry ∧ b ≠ Func.exit) :
    Fills p (terminate s p b n i frame) := by
  rw [terminate]
  split
  · refine fills_bind_of (fills_of_eq fun _ _ _ run => (follow_eq_ok run).1) fun f r f' run => ?_
    have there := valid.ne_entry (follow_eq_ok run).2
    refine fills_bind (fills_close inner ?_) fun _ => fills_pure _
    simpa [Terminator.targets] using there
  · split
    · exact fills_throw _
    · refine fills_bind (fills_ofExcept _) fun popped => ?_
      refine fills_bind_of (fills_of_eq fun _ _ _ run => (follow_eq_ok run).1) fun f r f' run => ?_
      refine fills_bind_of (fills_of_eq fun _ _ _ run => (follow_eq_ok run).1) fun f r' f' run' => ?_
      have there := valid.ne_entry (follow_eq_ok run).2
      have there' := valid.ne_entry (follow_eq_ok run').2
      refine fills_bind (fills_close inner ?_) fun _ => fills_pure _
      simp [Terminator.targets, there, there']
  · split
    · refine fills_bind (fills_ofExcept _) fun popped => ?_
      refine fills_bind_of (fills_of_eq fun _ _ _ run => (follow_eq_ok run).1) fun f r f' run => ?_
      refine fills_bind_of (fills_of_eq fun _ _ _ run => (followCases_eq_ok run).1)
        fun f rs f' run' => ?_
      have there := valid.ne_entry (follow_eq_ok run).2
      have rest (c) (mem : c ∈ rs) := valid.ne_entry ((followCases_eq_ok run').2 c mem)
      refine fills_bind (fills_close inner fun e mem => ?_) fun _ => fills_pure _
      obtain rfl | mem := List.mem_cons.1 mem
      · exact there
      · obtain ⟨k, below, rfl⟩ := List.mem_mapIdx.1 mem
        obtain ⟨c, mem, same⟩ := List.mem_map.1 (List.getElem_mem below)
        rw [← same]
        exact rest c mem
    · exact fills_throw _
  · split
    · refine fills_bind (fills_ofExcept _) fun popped => ?_
      exact fills_bind (fills_close inner (by simp [Terminator.targets])) fun _ => fills_pure _
    · exact fills_bind (fills_close inner (by simp [Terminator.targets])) fun _ => fills_pure _
  · refine fills_bind (fills_ofExcept _) fun popped => ?_
    exact fills_bind (fills_close inner (by simp [Terminator.targets])) fun _ => fills_pure _
  · exact fills_throw _

lemma fills_interpret {fuel : Nat} (inner : b ≠ Func.entry ∧ b ≠ Func.exit) :
    Fills p (interpret s p b fuel n frame) := by
  induction fuel generalizing n frame with
  | zero => exact fills_throw _
  | succ fuel ih =>
    rw [interpret]
    split
    · exact fills_throw _
    · split
      · exact fills_terminate valid inner
      · refine fills_bind (fills_step inner) fun frame => ?_
        refine fills_bind (fills_of_eq fun _ _ _ run => successor_eq_ok run) fun next => ?_
        split
        · rename_i target found
          have there := valid.ne_entry ⟨next, mem_of_lookup found⟩
          refine fills_bind (fills_close inner ?_) fun _ => fills_pure _
          simpa [Terminator.targets] using there
        · exact ih

omit valid in
lemma fills_openJoin {source : BlockId} {kind : EdgeKind} (inner : b ≠ Func.entry ∧ b ≠ Func.exit)
    (join : b ∈ p.joins) : Fills p (openJoin b source kind frame) := by
  refine fills_bind (fun f _ f' run => ?_) fun _ => fills_pure _
  obtain ⟨live, -, rfl⟩ := Edit.appendPhis_eq_ok.1 run
  exact Grows.refl.phis b _ live inner join

omit valid in
lemma grows_modifyInputs {l : List (ValueId × Value)}
    (g : ValueId × Value → List PhiInput → List PhiInput) :
    Grows p f (l.foldl (fun f e => f.modifyInputs e.1 (g e)) f) := by
  induction l generalizing f with
  | nil => exact .refl
  | cons e l ih =>
    have first : Grows p f (f.modifyPhis [e.1] (g e)) :=
      Grows.refl.same Func.sameNodes_modifyPhis Func.sameFlow_modifyPhis
    exact first.trans ih

omit valid in
lemma fills_merge {source : BlockId} {kind : EdgeKind} {join : Option JoinPhis} :
    Fills p (merge b source kind frame join) := by
  cases join with
  | none => exact fills_throw _
  | some join =>
    rw [merge]
    split
    · exact fills_throw_bind _
    · intro f a f' run
      rw [Edit.modify_eq_ok.1 run]
      exact grows_modifyInputs fun e => (· ++ [⟨e.2, source, kind⟩])

omit valid in
lemma fills_handlerFrame (inner : b ≠ Func.entry ∧ b ≠ Func.exit) : Fills p (handlerFrame b) :=
  fills_bind fills_freshVersion fun _ => fills_bind (fills_appendNode inner rfl) fun _ =>
    fills_bind fills_get fun _ => fills_pure _

lemma fills_enter {e : Pending} {w : Progress} (inner : b ≠ Func.entry ∧ b ≠ Func.exit) :
    Fills p (enter s p b e w) := by
  rw [enter]
  split
  · refine fills_bind (fills_handlerFrame inner) fun frame => ?_
    exact fills_bind (fills_interpret valid inner) fun _ => fills_pure _
  · split
    · rename_i join
      refine fills_bind (fills_openJoin inner join) fun opened => ?_
      exact fills_bind (fills_interpret valid inner) fun _ => fills_pure _
    · exact fills_bind (fills_interpret valid inner) fun _ => fills_pure _

lemma fills_run {fuel : Nat} {w : Progress} : Fills p (run s p fuel w) := by
  induction fuel generalizing w with
  | zero => exact fills_pure _
  | succ fuel ih =>
    rw [run]
    split
    · exact fills_pure _
    · refine fills_bind_of (fills_of_eq fun _ _ _ run => (blockOf_eq_ok.1 run).2) fun f b f' found => ?_
      have inner := valid.inner _ (mem_of_lookup (blockOf_eq_ok.1 found).1)
      split
      · split
        · exact fills_bind fills_merge fun _ => ih
        · exact fills_bind (fills_pure _) fun _ => ih
      · exact fills_bind (fills_enter valid inner) fun _ => ih

end Blocks

section Partitioning

/-- A graph to which only empty blocks were added. -/
structure Bare (f : Func) : Prop where
  shaped : f.Shaped
  succs : ∀ s, f.succs s = []
  phis : ∀ t, f.phis t = []
  catches : f.handlers = []

lemma Bare.pushBlock (h : Bare f) : Bare (f.pushBlock {}) where
  shaped := h.shaped.pushBlock fun s k => by
    rw [h.succs]
    exact List.not_mem_nil
  succs s := by rw [Func.succs_pushBlock, h.succs]
  phis t := by rw [Func.phis_pushBlock, h.phis]
  catches := h.catches

/-- The blocks so far, and those to come, for the leaders. -/
structure Partition.Fresh (g : FlowGraph) (p : Partition) (f : Func) : Prop extends p.Valid g where
  old : ∀ e ∈ p.blocks, e.2 < f.blocks.size
  joined : ∀ j ∈ p.joins, j < f.blocks.size

/-- A vertex gets a block, which is a join if several normal edges enter it. -/
def Partition.add (p : Partition) (g : FlowGraph) (n : NodeId) (b : BlockId) : Partition where
  blocks := p.blocks ++ [(n, b)]
  joins := if 1 < (normalEdges g n).length then b :: p.joins else p.joins

lemma partitionFrom_cons_eq_ok {g : FlowGraph} {n : NodeId} {ns : List NodeId} {q : Partition}
    (run : (partitionFrom g (n :: ns) p).run f = .ok q f') : (g.isHandlerTarget n = true → normalEdges g n = []) ∧
      (isLeader g n = true ∧ (partitionFrom g ns (p.add g n f.blocks.size)).run (f.pushBlock {}) = .ok q f' ∨
        isLeader g n ≠ true ∧ (partitionFrom g ns p).run f = .ok q f') := by
  rw [partitionFrom] at run
  by_cases refused : (g.isHandlerTarget n && !(normalEdges g n).isEmpty) = true
  · rw [if_pos refused] at run
    obtain ⟨_, _, none, -⟩ := Edit.bind_eq_ok.1 run
    exact absurd none Edit.throw_ne_ok
  · rw [if_neg refused] at run
    refine ⟨fun target => by simpa [target] using refused, ?_⟩
    by_cases leader : isLeader g n = true
    · rw [if_pos leader] at run
      obtain ⟨b, f₁, first, run⟩ := Edit.bind_eq_ok.1 run
      obtain ⟨rfl, rfl⟩ := Edit.addBlock_eq_ok.1 first
      exact .inl ⟨leader, run⟩
    · rw [if_neg leader] at run
      exact .inr ⟨leader, run⟩

/-- A leader gets the next block, which is a join only if no handler is there. -/
lemma Partition.Fresh.add {g : FlowGraph} {n : NodeId} (fresh : p.Fresh g f) (bare : Bare f)
    (allowed : g.isHandlerTarget n = true → normalEdges g n = []) :
    Partition.Fresh g (p.add g n f.blocks.size) (f.pushBlock {}) := by
  have joins {j} (mem : j ∈ if 1 < (normalEdges g n).length then f.blocks.size :: p.joins
      else p.joins) : j ∈ p.joins ∨ j = f.blocks.size ∧ 1 < (normalEdges g n).length := by
    split at mem
    · rename_i several
      obtain rfl | mem := List.mem_cons.1 mem
      · exact .inr ⟨rfl, several⟩
      · exact .inl mem
    · exact .inl mem
  have blocks {e} (mem : e ∈ p.blocks ++ [(n, f.blocks.size)]) :
      e ∈ p.blocks ∨ e = (n, f.blocks.size) := by simpa using mem
  refine ⟨⟨fun e mem => ?_, fun e mem target join => ?_⟩, fun e mem => ?_, fun j mem => ?_⟩
  · obtain old | rfl := blocks mem
    · exact fresh.inner e old
    · exact bare.shaped.size_ne
  · obtain old | rfl := blocks mem
    · obtain there | ⟨here, -⟩ := joins join
      · exact fresh.apart e old target there
      · exact absurd here (Nat.ne_of_lt (fresh.old e old))
    · obtain there | ⟨-, several⟩ := joins join
      · exact Nat.lt_irrefl _ (fresh.joined _ there)
      · rw [allowed target] at several
        exact absurd several (by simp)
  · rw [Func.size_pushBlock]
    obtain old | rfl := blocks mem
    · exact Nat.lt_succ_of_lt (fresh.old e old)
    · exact Nat.lt_succ_self _
  · rw [Func.size_pushBlock]
    obtain old | ⟨rfl, -⟩ := joins mem
    · exact Nat.lt_succ_of_lt (fresh.joined j old)
    · exact Nat.lt_succ_self _

/-- The leaders get new blocks, and handlers that are entered otherwise are refused. -/
lemma valid_partitionFrom {g : FlowGraph} {ns : List NodeId} {q : Partition}
    (run : (partitionFrom g ns p).run f = .ok q f') (fresh : p.Fresh g f) (bare : Bare f) :
    q.Valid g ∧ Bare f' := by
  induction ns generalizing p f with
  | nil =>
    obtain ⟨rfl, rfl⟩ := Edit.pure_eq_ok.1 run
    exact ⟨fresh.toValid, bare⟩
  | cons n ns ih =>
    obtain ⟨allowed, ⟨-, run⟩ | ⟨-, run⟩⟩ := partitionFrom_cons_eq_ok run
    · exact ih run (fresh.add bare allowed) bare.pushBlock
    · exact ih run fresh bare

lemma bare_empty {method : MethodId} {params locals : Nat} {flags : MethodFlags} :
    Bare { method := method, params := params, flags := flags, locals := locals } := by
  let f : Func := { method := method, params := params, flags := flags, locals := locals }
  have block (t) : f.block? t = some {} ∨ f.block? t = none := by
    match t with
    | 0 => exact .inl rfl
    | 1 => exact .inl rfl
    | t + 2 => exact .inr rfl
  have part {γ : Type} (p : Block → γ) (t) : ((f.block? t).map p).getD (p {}) = p {} := by
    obtain here | here := block t <;> rw [here] <;> rfl
  have phis (t) : f.phis t = [] := part Block.phis t
  have body (t) : f.body t = [] := part Block.body t
  have covers (t) : f.handlersOf t = [] := part Block.handlers t
  have ends (t) : f.terminator t = .none := part Block.terminator t
  have succs (t) : f.succs t = [] := part Block.succs t
  have preds (t) : f.preds t = [] := part Block.preds t
  refine ⟨⟨⟨fun b v mem => ?_, fun b v mem => ?_, fun b v mem => ?_, fun b => ?_⟩,
    ⟨rfl, rfl, rfl, rfl⟩, ⟨rfl, rfl, rfl, rfl, rfl⟩, fun t _ s k => ?_, fun b k mem => ?_,
    fun b e mem => ?_⟩, succs, phis, rfl⟩
  · rw [Func.nodesOf, phis, body] at mem
    cases mem
  · rw [phis] at mem
    cases mem
  · rw [body] at mem
    cases mem
  · rw [Func.nodesOf, phis, body]
    exact List.nodup_nil
  · rw [preds, succs]
    rfl
  · rw [covers] at mem
    cases mem
  · rw [ends] at mem
    cases mem

end Partitioning

section Building

variable {s : Source} {es : List Pending}

lemma addHandlers_cons_eq_ok {k : Nat} {h : Handler Marker} {hs : List (Handler Marker)} {n : NodeId}
    (run : (addHandlers s p k (h :: hs)).run f = .ok es f') (target : s.graph.handlerTarget? k = some n) :
    ∃ b more, p.blocks.lookup n = some b ∧
      (addHandlers s p (k + 1) hs).run (f.withCatches [⟨b, h.excType, h.varName⟩]) = .ok more f' := by
  simp only [addHandlers, target] at run
  obtain ⟨b, f₁, first, run₁⟩ := Edit.bind_eq_ok.1 run
  obtain ⟨_, f₂, second, run₂⟩ := Edit.bind_eq_ok.1 run₁
  obtain ⟨more, f₃, third, last⟩ := Edit.bind_eq_ok.1 run₂
  obtain ⟨there, rfl⟩ := blockOf_eq_ok.1 first
  obtain ⟨-, rfl⟩ := Edit.addHandler_eq_ok.1 second
  obtain ⟨-, rfl⟩ := Edit.pure_eq_ok.1 last
  exact ⟨b, more, there, third⟩

lemma seed_eq_ok {body : MethodBody} (run : (seed s p body).run f = .ok es f') : ∃ hs f₁ f₂ m kind b,
    (addHandlers s p 0 s.code.handlers).run f = .ok hs f₁ ∧ (coverBlocks s p s.graph.order).run f₁ = .ok () f₂ ∧
      (s.graph.edgesFrom FlowGraph.entry).head? = some (m, kind) ∧ p.blocks.lookup m = some b ∧
        (f₂.block? Func.entry).isSome ∧ f' = f₂.reend Func.entry (.goto b) (f₂.handlersOf Func.entry) := by
  obtain ⟨hs, f₁, first, run₁⟩ := Edit.bind_eq_ok.1 run
  obtain ⟨_, f₂, second, run₂⟩ := Edit.bind_eq_ok.1 run₁
  split at run₂
  · exact absurd run₂ Edit.throw_ne_ok
  · rename_i m kind head
    obtain ⟨b, f₃, third, run₃⟩ := Edit.bind_eq_ok.1 run₂
    obtain ⟨_, f₄, fourth, run₄⟩ := Edit.bind_eq_ok.1 run₃
    obtain ⟨_, f₅, fifth, last⟩ := Edit.bind_eq_ok.1 run₄
    obtain ⟨found, rfl⟩ := blockOf_eq_ok.1 third
    obtain ⟨-, live, rfl⟩ := Edit.setTerminator_eq_ok.1 fourth
    obtain ⟨-, rfl⟩ := Edit.get_eq_ok.1 fifth
    obtain ⟨-, rfl⟩ := Edit.pure_eq_ok.1 last
    exact ⟨hs, f₁, f₃, m, kind, b, first, second, head, found, live, rfl⟩

variable (valid : p.Valid s.graph)

include valid

lemma ready_addHandlers {k : Nat} {hs : List (Handler Marker)}
    (run : (addHandlers s p k hs).run f = .ok es f') (ready : Ready p f) : Ready p f' := by
  induction hs generalizing k f es with
  | nil =>
    obtain ⟨-, rfl⟩ := Edit.pure_eq_ok.1 run
    exact ready
  | cons h hs ih =>
    cases found : s.graph.handlerTarget? k with
    | none =>
      simp only [addHandlers, found] at run
      exact ih run ready
    | some n =>
      obtain ⟨b, more, there, rest⟩ := addHandlers_cons_eq_ok run found
      refine ih rest ⟨ready.shaped.withCatches, ready.phis, fun c mem => ?_⟩
      obtain old | new := List.mem_append.1 mem
      · exact ready.catches c old
      · have block := mem_of_lookup there
        have target : s.graph.isHandlerTarget n = true :=
          List.contains_iff_mem.2 (List.mem_of_getElem? found)
        rw [List.mem_singleton.1 new]
        exact ⟨valid.apart _ block target, (valid.inner _ block).1⟩

lemma fills_coverBlocks {ns : List NodeId} : Fills p (coverBlocks s p ns) := by
  induction ns with
  | nil => exact fills_pure _
  | cons n ns ih =>
    rw [coverBlocks]
    split
    · exact ih
    · rename_i b found
      have inner := valid.inner _ (mem_of_lookup found)
      dsimp only
      split
      · refine fills_bind (fun f a f' run => ?_) fun _ => ih
        obtain ⟨below, live, rfl⟩ := Edit.setHandlers_eq_ok.1 run
        exact Grows.refl.ends b _ _ live inner.2 (fun here => absurd here inner.1)
          (fun k mem => .inl (below k mem)) fun e mem => .inr mem
      · exact ih

/-- Behind the start the entry leads on, and only the blocks of leaders are to be filled. -/
lemma ready_seed {body : MethodBody} (run : (seed s p body).run f = .ok es f')
    (ready : Ready p f) : Ready p f' ∧ ∃ t, f'.terminator Func.entry = .goto t := by
  obtain ⟨hs, f₁, f₂, m, kind, b, first, second, -, found, live, rfl⟩ := seed_eq_ok run
  have covered : Ready p f₂ :=
    (fills_coverBlocks valid f₁ _ f₂ second).ready (ready_addHandlers valid first ready)
  have there : b ≠ Func.entry := (valid.inner _ (mem_of_lookup found)).1
  refine ⟨(Grows.refl.ends Func.entry (.goto b) _ live (by decide) (fun _ => ⟨rfl, b, rfl⟩)
    (fun k mem => .inr mem) fun e mem => ?_).ready covered, b, ?_⟩
  · rw [List.mem_singleton.1 mem]
    exact .inl there
  · rw [Func.terminator_reend live, if_pos rfl]

omit valid in
lemma intact_of_build {body : MethodBody} {a : Unit} (run : (build s body).run f = .ok a f')
    (bare : Bare f) : f'.Intact := by
  obtain ⟨p, f₁, first, run₁⟩ := Edit.bind_eq_ok.1 run
  obtain ⟨es, f₂, second, run₂⟩ := Edit.bind_eq_ok.1 run₁
  obtain ⟨w, f₃, third, run₃⟩ := Edit.bind_eq_ok.1 run₂
  obtain ⟨_, f₄, fourth, run₄⟩ := Edit.bind_eq_ok.1 run₃
  obtain ⟨_, f₅, fifth, run₅⟩ := Edit.bind_eq_ok.1 run₄
  obtain ⟨_, f₆, sixth, last⟩ := Edit.bind_eq_ok.1 run₅
  obtain ⟨rfl, rfl⟩ := Edit.get_eq_ok.1 sixth
  obtain ⟨verified, rfl⟩ := Edit.ofExcept_eq_ok.1 last
  have empty : Partition.Fresh s.graph {} f :=
    ⟨⟨by simp, by simp⟩, by simp, by simp⟩
  obtain ⟨valid, bare⟩ := valid_partitionFrom first empty bare
  have ready : Ready p f₁ := ⟨bare.shaped, fun t _ => bare.phis t, by simp [bare.catches]⟩
  obtain ⟨ready, started⟩ := ready_seed valid second ready
  have grown := fills_run valid f₂ w f₃ third
  have removed : f₄.Shaped ∧ ∃ t, f₄.terminator Func.entry = .goto t := by
    refine removeBlocks_induction (P := fun f => f.Shaped ∧ ∃ t, f.terminator Func.entry = .goto t)
      fourth ⟨(grown.ready ready).shaped, grown.started started⟩ ?_
    rintro f b x ⟨shaped, start⟩ inner here
    refine ⟨shaped.without here inner, ?_⟩
    rw [Func.terminator_without, if_neg inner.1.symm]
    exact start
  have trimmed : f₄.Trims f' := by
    rw [Edit.modify_eq_ok.1 fifth]
    exact ((Func.trims_removeTrivialPhis f₄).trans (Func.trims_removeRedundantCopies _)).trans
      (Func.trims_removeDeadNodes _)
  refine Func.intact_of_verify (trimmed.shaped removed.1) ?_ verified
  obtain ⟨t, here⟩ := removed.2
  obtain ⟨g, operands⟩ := trimmed.sameFlow.terminator Func.entry
  exact ⟨t, by rw [operands, here]; rfl⟩

end Building

end Avm.Ir.Lift

namespace Avm

open Ir

lemma intact_of_ofCode {body : MethodBody} {code : Code} {g : FlowGraph} {pool : Pool} {f : Func}
    (made : Func.ofCode body code g pool = .ok f) : f.Intact := by
  rw [Func.ofCode] at made
  split at made
  · rename_i run
    cases made
    exact Lift.intact_of_build run Lift.bare_empty
  · cases made

lemma intact_of_lift {body : MethodBody} {pool : Pool} {config : Config} {f : Func}
    (lifted : body.lift pool config = .ok f) : f.Intact := by
  rw [MethodBody.lift_eq] at lifted
  obtain ⟨pair, -, lifted⟩ := bind_eq_ok.1 lifted
  obtain ⟨bounds, -, lifted⟩ := bind_eq_ok.1 lifted
  exact intact_of_ofCode lifted

end Avm
