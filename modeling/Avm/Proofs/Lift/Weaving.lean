import Avm.Proofs.Opt.Fixpoint
import Avm.Proofs.Lift.Departing

/-!
# The edges of a graph that is being lifted

Between two entries of blocks, every way out of a block that was left was taken, or it waits to be taken.
The phis have inputs for just the ways that were taken.  So when nothing waits any more, the graph is in
order.  A block with one edge is entered once, because two ways into it would come from two vertices.

The main statement is `weaves_run`.
-/

namespace Avm.Ir

namespace Func

variable {f : Func} {b s t : BlockId} {v w : ValueId} {kind : EdgeKind} {term : Terminator} {hs : List Nat}

lemma keys_modifyInputs_append {i : PhiInput} : (f.modifyInputs w (· ++ [i])).keys v =
    if w = v ∧ (f.inputs? v).isSome then f.keys v ++ [(i.source, i.kind)] else f.keys v := by
  rw [keys, keys, inputs?_eq, inputs?_eq, modifyInputs_eq, node?_modifyNode]
  by_cases same : w = v
  · rw [if_pos same]
    cases f.node? v with
    | none => simp
    | some n => cases inputs : n.kind.inputs? <;> simp [inputs, same]
  · simp [same]

lemma isSome_modifyInputs {g : List PhiInput → List PhiInput} :
    ((f.modifyInputs w g).inputs? v).isSome = (f.inputs? v).isSome := by
  have same : SameNodes f (f.modifyPhis [w] g) := sameNodes_modifyPhis
  exact same.isPhi v

/-- A block without inputs in a phi gets another end: the edges that the inputs of the phi name stay. -/
lemma count_keys_reend_of_absent (h : Listed f) (mem : v ∈ f.phis t) (absent : ∀ k, (b, k) ∉ f.keys v) :
    ((f.reend b term hs).keys v).count (s, kind) = (f.keys v).count (s, kind) := by
  by_cases other : s = b
  · have nodes : SameNodes f (f.withEnd b term hs) := sameNodes_withEnd
    have inputs : (f.withEnd b term hs).inputs? v = f.inputs? v := inputs?_modifyBlock
    obtain ⟨is, own⟩ := Option.isSome_iff_exists.1 (h.phi t v mem)
    have after := inputs?_rewire (b := b) (h.sameNodes nodes) (by rw [nodes.phis]; exact mem)
    rw [inputs, own] at after
    rw [reend, keys_of_inputs? own]
    split at after
    · rw [keys_of_inputs? after, count_reconcile, if_neg]
      rintro ⟨-, i, listed, source⟩
      refine absent i.kind ?_
      rw [keys_of_inputs? own, ← source]
      exact List.mem_map_of_mem listed
    · rw [keys_of_inputs? after]
  · exact count_keys_reend_of_ne h mem other

lemma locals_reend : (f.reend b term hs).locals = f.locals :=
  rewire_keeps (P := fun g => g.locals = f.locals) (fun _ _ _ same => same) (fun _ _ same => same) (fun _ _ _ same =>
    same) rfl

end Func

namespace Lift

open Edit BlockGraph

variable {s : Source} {code : Code} {handlers : List (Handler Nat)} {n m l : NodeId} {kind : EdgeKind}
  {p : Partition} {b c src : BlockId} {f f' : Func} {frame : Frame} {es rest : List Pending} {count fuel : Nat}
  {x : Pending} {w : Progress} {W : List (BlockId × BlockId × EdgeKind)} {e : BlockId × EdgeKind}
  {v : ValueId}

/-- The edges by which blocks are to be entered. -/
def arrivals (p : Partition) (es : List Pending) : List (BlockId × BlockId × EdgeKind) :=
  es.filterMap (·.arrival? p)

/-- The ways out of a block that do not wait to be taken. -/
def taken (f : Func) (W : List (BlockId × BlockId × EdgeKind)) (c : BlockId) : List (BlockId × EdgeKind) :=
  (f.terminator c).targets.filter fun e => (e.1, c, e.2) ∉ W

lemma mem_taken : e ∈ taken f W c ↔ e ∈ (f.terminator c).targets ∧ (e.1, c, e.2) ∉ W := by
  rw [taken, List.mem_filter, decide_eq_true_eq]

lemma count_taken : (taken f W c).count e =
    if e ∈ (f.terminator c).targets ∧ (e.1, c, e.2) ∉ W then 1 else 0 := by
  have once : (taken f W c).Nodup := (Terminator.nodup_targets _).filter _
  rw [once.count, if_congr mem_taken rfl rfl]

lemma count_taken_cons (new : (b, src, kind) ∉ W) (sent : (b, kind) ∈ (f.terminator src).targets) :
    (taken f W c).count e = (taken f ((b, src, kind) :: W) c).count e +
      if c = src ∧ e = (b, kind) then 1 else 0 := by
  rw [count_taken, count_taken]
  by_cases same : c = src ∧ e = (b, kind)
  · obtain ⟨rfl, rfl⟩ := same
    simp [new, sent]
  · have other : (e.1, c, e.2) ≠ (b, src, kind) := by
      intro eq
      obtain ⟨first, eq⟩ := Prod.mk.inj eq
      obtain ⟨second, third⟩ := Prod.mk.inj eq
      exact same ⟨second, Prod.ext first third⟩
    simp [same, other]

/-- What waits is known: the block to enter, and how. -/
structure Pending.Waits (s : Source) (p : Partition) (count : Nat) (x : Pending) : Prop where
  known : (p.blocks.lookup x.leader).isSome
  handled : x.entry = none → s.graph.isHandlerTarget x.leader = true
  locals : ∀ e ∈ x.entry, e.1.locals.length = count

lemma Pending.From.waits (h : x.From s p b n count) : x.Waits s p count := by
  obtain ⟨⟨frame, kind, entry, locals, -⟩, known⟩ := h
  refine ⟨known, fun none => ?_, fun e mem => ?_⟩
  · rw [entry] at none
    cases none
  · rw [entry] at mem
    obtain rfl := Option.some.inj mem
    exact locals

/-- Between two entries of blocks, the ways out of the blocks that were left were taken or wait, each once,
and the phis have inputs for those that were taken. -/
structure Weaves (s : Source) (p : Partition) (count : Nat) (w : Progress) (f : Func) : Prop where
  sound : f.Sound (fun _ => False) (taken f (arrivals p w.worklist))
  locals : f.locals = count
  blocks : ∀ e ∈ p.blocks, (f.block? e.2).isSome
  apart : ∀ c ∈ f.handlers, c.target ∉ p.joins
  once : (arrivals p w.worklist).Nodup
  sent : ∀ b c kind, (b, c, kind) ∈ arrivals p w.worklist → (b, kind) ∈ (f.terminator c).targets
  edges : ∀ c b kind, (b, kind) ∈ (f.terminator c).targets → ∃ n m, Within s p c n ∧
    p.blocks.lookup m = some b ∧ (m, kind) ∈ normalFrom s.graph n
  idle : ∀ e ∈ p.blocks, e.2 ∉ w.started → (f.terminator e.2).targets = []
  fresh : ∀ b ∉ w.started, ∀ c kind, (b, kind) ∉ taken f (arrivals p w.worklist) c
  entered : ∀ n b, p.blocks.lookup n = some b → b ∈ w.started → s.graph.isHandlerTarget n = true ∨
    ∃ c kind, (b, kind) ∈ taken f (arrivals p w.worklist) c
  opened : ∀ b, (w.phis.lookup b).isSome ↔ b ∈ w.started ∧ b ∈ p.joins
  phis : ∀ b, f.phis b = ((w.phis.lookup b).map (·.slots)).getD []
  slots : ∀ b j, w.phis.lookup b = some j → j.slots.length = j.stack + j.scope + count
  waits : ∀ x ∈ w.worklist, x.Waits s p count

namespace Weaves

lemma furnish (h : Weaves s p count w f) (more : Furnishes f f') : Weaves s p count w f' := by
  have targets (c) : (f'.terminator c).targets = (f.terminator c).targets := more.flow.targets c
  have same (W) : taken f' W = taken f W := funext fun c => by rw [taken, taken, targets]
  constructor
  case sound =>
    rw [same]
    exact more.sound _ h.sound
  case locals => rw [more.locals, h.locals]
  case blocks =>
    intro e mem
    rw [more.flow.isSome]
    exact h.blocks e mem
  case apart =>
    rw [more.flow.catches]
    exact h.apart
  case once => exact h.once
  case sent => simpa only [targets] using h.sent
  case edges => simpa only [targets] using h.edges
  case idle => simpa only [targets] using h.idle
  case fresh => simpa only [same] using h.fresh
  case entered => simpa only [same] using h.entered
  case opened => exact h.opened
  case phis => simpa only [more.phis] using h.phis
  case slots => exact h.slots
  case waits => exact h.waits

lemma skip (h : Weaves s p count w f) (waiting : w.worklist = x :: rest) (entry : x.entry = none) :
    Weaves s p count { w with worklist := rest } f := by
  have same : arrivals p w.worklist = arrivals p rest := by
    rw [waiting, arrivals, List.filterMap_cons_none]
    · rfl
    · rw [Pending.arrival?, entry]
  obtain ⟨sound, locals, blocks, apart, once, sent, edges, idle, fresh, entered, opened, phis, slots, waits⟩ := h
  rw [same] at sound once sent fresh entered
  rw [waiting] at waits
  exact ⟨sound, locals, blocks, apart, once, sent, edges, idle, fresh, entered, opened, phis, slots,
    fun y mem => waits y (List.mem_cons_of_mem _ mem)⟩

end Weaves

lemma appends_inputs {source : BlockId} {l : List (ValueId × Value)} {f' : Func}
    (eq : f' = l.foldl (fun f e => f.modifyInputs e.1 (· ++ [⟨e.2, source, kind⟩])) f) :
    f.SameNodes f' ∧ f.SameFlow f' ∧ f'.locals = f.locals ∧
      ((l.map (·.1)).Nodup → ∀ v, f'.keys v =
        if v ∈ l.map (·.1) ∧ (f.inputs? v).isSome then f.keys v ++ [(source, kind)] else f.keys v) := by
  subst eq
  induction l generalizing f with
  | nil => exact ⟨.refl f, .refl f, rfl, fun _ v => by simp⟩
  | cons e l ih =>
    obtain ⟨nodes, flow, locals, keys⟩ := ih (f := f.modifyInputs e.1 (· ++ [⟨e.2, source, kind⟩]))
    have first : f.SameNodes (f.modifyPhis [e.1] (· ++ [⟨e.2, source, kind⟩])) := Func.sameNodes_modifyPhis
    have before : f.SameFlow (f.modifyPhis [e.1] (· ++ [⟨e.2, source, kind⟩])) := Func.sameFlow_modifyPhis
    refine ⟨first.trans nodes, before.trans flow, locals, fun once v => ?_⟩
    · obtain ⟨absent, once⟩ := List.nodup_cons.1 once
      rw [List.foldl_cons, keys once, Func.isSome_modifyInputs, Func.keys_modifyInputs_append, List.map_cons]
      by_cases same : e.1 = v
      · subst same
        simp [absent]
      · simp only [same, Ne.symm same, List.mem_cons, false_and, false_or, if_false]

section Taking

variable (h : Weaves s p count w f) (waiting : w.worklist = x :: rest)
  (entry : x.entry = some (frame, src, kind)) (found : p.blocks.lookup x.leader = some b)

include h waiting entry found

lemma arrives : arrivals p w.worklist = (b, src, kind) :: arrivals p rest ∧ (b, src, kind) ∉ arrivals p rest ∧
    (b, kind) ∈ (f.terminator src).targets := by
  have first : arrivals p w.worklist = (b, src, kind) :: arrivals p rest := by
    rw [waiting, arrivals, List.filterMap_cons_some]
    · rfl
    · rw [Pending.arrival?, entry, found]
  have once := h.once
  rw [first] at once
  exact ⟨first, (List.nodup_cons.1 once).1, h.sent b src kind (by rw [first]; exact List.mem_cons_self)⟩

lemma count_taken_rest : (taken f (arrivals p rest) c).count e =
    (taken f (arrivals p w.worklist) c).count e + if c = src ∧ e = (b, kind) then 1 else 0 := by
  obtain ⟨first, new, sent⟩ := arrives h waiting entry found
  rw [first]
  exact count_taken_cons new sent

lemma mem_taken_rest : e ∈ taken f (arrivals p rest) c ↔
    e ∈ taken f (arrivals p w.worklist) c ∨ c = src ∧ e = (b, kind) := by
  rw [← List.count_pos_iff, count_taken_rest h waiting entry found, ← List.count_pos_iff]
  split
  · simp [*]
  · simp [*]

/-- A way is taken.  The phis of its target get inputs for it, and nothing else happens to edges and phis. -/
lemma Weaves.take {w' : Progress} (listed : w'.worklist = rest)
    (started : ∀ c, c ∈ w'.started ↔ c = b ∨ c ∈ w.started)
    (opened : ∀ b, (w'.phis.lookup b).isSome ↔ b ∈ w'.started ∧ b ∈ p.joins)
    (phis : ∀ b, f'.phis b = ((w'.phis.lookup b).map (·.slots)).getD [])
    (slots : ∀ b j, w'.phis.lookup b = some j → j.slots.length = j.stack + j.scope + count)
    (flow : f.SameFlow f') (shaped : f'.Shaped) (locals : f'.locals = f.locals)
    (synced : ∀ t, ∀ v ∈ f'.phis t, ∀ c k, (f'.keys v).count (c, k) =
      (taken f (arrivals p w.worklist) c).count (t, k) + if c = src ∧ (t, k) = (b, kind) then 1 else 0) :
    Weaves s p count w' f' := by
  have targets (c) : (f'.terminator c).targets = (f.terminator c).targets := flow.targets c
  have same (W) : taken f' W = taken f W := funext fun c => by rw [taken, taken, targets]
  have more {c : BlockId} {e : BlockId × EdgeKind} := mem_taken_rest (c := c) (e := e) h waiting entry found
  obtain ⟨first, new, sent⟩ := arrives h waiting entry found
  constructor
  case sound =>
    rw [same, listed]
    refine h.sound.sameFlow flow shaped fun t v mem c k => ?_
    rw [synced t v mem, count_taken_rest h waiting entry found]
  case locals => rw [locals, h.locals]
  case blocks =>
    intro e mem
    rw [flow.isSome]
    exact h.blocks e mem
  case apart =>
    rw [flow.catches]
    exact h.apart
  case once =>
    have once := h.once
    rw [first] at once
    rw [listed]
    exact (List.nodup_cons.1 once).2
  case sent =>
    intro t c k mem
    rw [targets]
    refine h.sent t c k ?_
    rw [first, ← listed]
    exact List.mem_cons_of_mem _ mem
  case edges => simpa only [targets] using h.edges
  case idle =>
    intro e mem idle
    rw [targets]
    exact h.idle e mem fun old => idle ((started _).2 (.inr old))
  case fresh =>
    intro t idle c k mem
    rw [same, listed, more] at mem
    obtain old | ⟨-, eq⟩ := mem
    · exact h.fresh t (fun there => idle ((started _).2 (.inr there))) c k old
    · exact idle ((started _).2 (.inl (Prod.mk.inj eq).1))
  case entered =>
    intro n t known there
    rw [same, listed]
    obtain rfl | old := (started _).1 there
    · exact .inr ⟨src, kind, more.2 (.inr ⟨rfl, rfl⟩)⟩
    · refine (h.entered n t known old).imp_right ?_
      rintro ⟨c, k, mem⟩
      exact ⟨c, k, more.2 (.inl mem)⟩
  case opened => exact opened
  case phis => exact phis
  case slots => exact slots
  case waits =>
    rw [listed]
    exact fun y mem => h.waits y (by rw [waiting]; exact List.mem_cons_of_mem _ mem)

lemma Weaves.enter_single (new : b ∉ w.started) (single : b ∉ p.joins) :
    Weaves s p count { w with started := b :: w.started, worklist := rest } f := by
  refine h.take waiting entry found rfl (fun c => List.mem_cons) (fun c => ?_) h.phis h.slots (.refl f)
    h.sound.toShaped rfl fun t v mem c k => ?_
  · rw [h.opened, List.mem_cons]
    constructor
    · exact fun ⟨old, join⟩ => ⟨.inr old, join⟩
    · rintro ⟨rfl | old, join⟩
      · exact absurd join single
      · exact ⟨old, join⟩
  · rw [h.sound.synced t v mem, if_neg, Nat.add_zero]
    rintro ⟨-, eq⟩
    obtain ⟨rfl, -⟩ := Prod.mk.inj eq
    have none : w.phis.lookup t = none := by
      rw [← Option.not_isSome_iff_eq_none, h.opened]
      exact fun there => new there.1
    rw [h.phis, none] at mem
    cases mem

lemma Weaves.enter_join (new : b ∉ w.started) (join : b ∈ p.joins) (inner : b ≠ Func.entry ∧ b ≠ Func.exit)
    (vs : List Value) (j : JoinPhis) (length : vs.length = j.stack + j.scope + count)
    (made : j.slots = (List.range vs.length).map (f.nodes.size + ·)) :
    Weaves s p count { w with started := b :: w.started, phis := (b, j) :: w.phis, worklist := rest }
      (f.putPhis b (vs.map fun v => [⟨v, src, kind⟩])) := by
  have live : (f.block? b).isSome := h.blocks _ (mem_of_lookup found)
  have unopened : w.phis.lookup b = none := by
    rw [← Option.not_isSome_iff_eq_none, h.opened]
    exact fun there => new there.1
  have none : f.phis b = [] := by rw [h.phis, unopened]; rfl
  have apart : ¬f.Caught b := by
    rintro ⟨c, k, -, d, here, rfl⟩
    exact h.apart d (List.mem_of_getElem? here) join
  have lookup (c) : List.lookup c ((b, j) :: w.phis) = if c = b then some j else w.phis.lookup c := by
    rw [List.lookup_cons]
    by_cases same : c = b
    · simp [same]
    · simp [same, beq_false_of_ne same]
  refine h.take waiting entry found rfl (fun c => List.mem_cons) (fun c => ?_) (fun c => ?_) (fun c j' there => ?_)
    Func.sameFlow_putPhis (h.sound.toShaped.putPhis live inner apart) rfl fun t v mem c k => ?_
  · rw [lookup, List.mem_cons]
    split
    · simp [*]
    · rename_i other
      rw [h.opened, or_iff_right other]
  · rw [lookup, Func.phis_putPhis live]
    split
    · simp [none, made]
    · exact h.phis c
  · rw [lookup] at there
    split at there
    · obtain rfl := Option.some.inj there
      rw [made]
      simpa using length
    · exact h.slots c j' there
  · rw [Func.phis_putPhis live] at mem
    split at mem
    · rename_i here
      subst here
      rw [none, List.nil_append] at mem
      obtain ⟨i, inside, rfl⟩ := List.mem_map.1 mem
      have node := Func.node?_putPhis_new (f := f) (b := t) (List.mem_range.1 inside)
      have untaken : (taken f (arrivals p w.worklist) c).count (t, k) = 0 :=
        List.count_eq_zero.2 (h.fresh t new c k)
      rw [untaken, Nat.zero_add, Func.keys, Func.inputs?_eq, node]
      simp only [Option.bind_some, NodeKind.inputs?, List.getElem_map, Option.getD_some, List.map_cons,
        List.map_nil, List.count_singleton, beq_iff_eq, Prod.mk.injEq, true_and]
      exact if_congr (and_congr eq_comm eq_comm) rfl rfl
    · rename_i other
      have old : ((f.putPhis b (vs.map fun v => [⟨v, src, kind⟩])).keys v) = f.keys v := by
        have there := h.sound.toListed.isSome_node? (List.mem_append_left (f.body t) mem)
        rw [Func.keys, Func.inputs?_eq, Func.node?_putPhis_of_isSome there, ← Func.inputs?_eq, ← Func.keys]
      rw [old, h.sound.synced t v mem, if_neg, Nat.add_zero]
      rintro ⟨-, eq⟩
      exact other (Prod.mk.inj eq).1

lemma Weaves.merge {j : JoinPhis} (old : b ∈ w.started) (joined : w.phis.lookup b = some j)
    (stack : frame.stack.length = j.stack) (scope : frame.scope.length = j.scope) :
    Weaves s p count { w with worklist := rest } ((j.slots.zip frame.slots).foldl (fun f e =>
      f.modifyInputs e.1 (· ++ [⟨e.2, src, kind⟩])) f) := by
  generalize eq : (j.slots.zip frame.slots).foldl (fun f e => f.modifyInputs e.1 (· ++ [⟨e.2, src, kind⟩])) f = g
  obtain ⟨nodes, flow, locals, keys⟩ := appends_inputs eq.symm
  have long : j.slots.length ≤ frame.slots.length := by
    have waits := h.waits x (by rw [waiting]; exact List.mem_cons_self)
    have few : frame.locals.length = count := waits.locals _ entry
    rw [h.slots b j joined, Frame.slots, List.length_append, List.length_append]
    omega
  have own : f.phis b = j.slots := by rw [h.phis, joined]; rfl
  rw [List.map_fst_zip long, ← own] at keys
  refine h.take waiting entry found rfl (fun c => ⟨.inr, ?_⟩) h.opened (fun c => ?_) h.slots flow
    (h.sound.toShaped.same nodes flow) locals fun t v mem c k => ?_
  · rintro (rfl | there)
    · exact old
    · exact there
  · rw [nodes.phis]
    exact h.phis c
  · rw [nodes.phis] at mem
    rw [keys (h.sound.toListed.nodup_phis b), ← h.sound.synced t v mem]
    have phi := h.sound.toListed.phi t v mem
    by_cases here : t = b
    · subst here
      rw [if_pos ⟨mem, phi⟩, List.count_append, List.count_singleton]
      simp only [beq_iff_eq, Prod.mk.injEq, true_and]
      exact congrArg _ (if_congr (and_congr eq_comm eq_comm) rfl rfl)
    · rw [if_neg, if_neg, Nat.add_zero]
      · rintro ⟨-, eq⟩
        exact here (Prod.mk.inj eq).1
      · rintro ⟨there, -⟩
        exact here (h.sound.toListed.eq_of_mem_phis mem there)

lemma Weaves.exists_join (paired : s.Paired code handlers) (exact : p.Exact s.graph)
    (joins : ∀ n b, p.blocks.lookup n = some b → 1 < (normalEdges s.graph n).length → b ∈ p.joins)
    (old : b ∈ w.started) : ∃ j, w.phis.lookup b = some j := by
  obtain ⟨first, -, sent⟩ := arrives h waiting entry found
  obtain ⟨n, m, within, known, edge⟩ := h.edges src b kind sent
  have into := mem_normalEdges edge
  obtain target | ⟨c, k, passed⟩ := h.entered m b known old
  · have listed : m ∈ p.blocks.map (·.1) := List.mem_map_of_mem (mem_of_lookup known)
    rw [exact.refused m ((exact.leaders m).1 listed).1 target] at into
    cases into
  · obtain ⟨goes, done⟩ := mem_taken.1 passed
    obtain ⟨n', m', within', known', edge'⟩ := h.edges c b k goes
    obtain rfl := exact.inj known known'
    have into' := mem_normalEdges edge'
    have several : 1 < (normalEdges s.graph m).length := by
      by_contra few
      have same : (n, kind) = (n', k) := by
        match shape : normalEdges s.graph m with
        | [] =>
          rw [shape] at into
          cases into
        | [y] =>
          rw [shape, List.mem_singleton] at into into'
          rw [into, into']
        | y :: z :: more =>
          rw [shape] at few
          simp at few
      obtain ⟨rfl, rfl⟩ := Prod.mk.inj same
      obtain rfl := within.unique paired exact within'
      refine done ?_
      rw [first]
      exact List.mem_cons_self
    rw [← Option.isSome_iff_exists, h.opened]
    exact ⟨old, joins m b known several⟩

end Taking

section Leaving

lemma Weaves.enter_handler (h : Weaves s p count w f) (waiting : w.worklist = x :: rest) (entry : x.entry = none)
    (exact : p.Exact s.graph) (valid : p.Valid s.graph) (found : p.blocks.lookup x.leader = some b)
    (new : b ∉ w.started) : Weaves s p count { w with started := b :: w.started, worklist := rest } f := by
  have target : s.graph.isHandlerTarget x.leader = true :=
    (h.waits x (by rw [waiting]; exact List.mem_cons_self)).handled entry
  have passed := h.skip waiting entry
  refine { passed with idle := ?_, fresh := ?_, entered := ?_, opened := ?_ }
  · exact fun e mem idle => passed.idle e mem fun old => idle (List.mem_cons_of_mem _ old)
  · exact fun c idle => passed.fresh c fun old => idle (List.mem_cons_of_mem _ old)
  · intro n c known there
    obtain rfl | old := List.mem_cons.1 there
    · obtain rfl := exact.inj known found
      exact .inl target
    · exact passed.entered n c known old
  · intro c
    rw [passed.opened, List.mem_cons]
    constructor
    · exact fun ⟨old, join⟩ => ⟨.inr old, join⟩
    · rintro ⟨rfl | old, join⟩
      · exact absurd join (valid.apart _ (mem_of_lookup found) target)
      · exact ⟨old, join⟩

section Reending

variable {t : Terminator}

lemma mem_arrivals_of_perm {d : BlockId} (perm : (arrivals p es).Perm (t.targets.map fun e => (e.1, b, e.2))) :
    (c, d, kind) ∈ arrivals p es ↔ d = b ∧ (c, kind) ∈ t.targets := by
  rw [perm.mem_iff, List.mem_map]
  constructor
  · rintro ⟨e, mem, eq⟩
    cases eq
    exact ⟨rfl, mem⟩
  · rintro ⟨rfl, mem⟩
    exact ⟨(c, kind), mem, rfl⟩

lemma nodup_arrivals_of_perm (perm : (arrivals p es).Perm (t.targets.map fun e => (e.1, b, e.2))) :
    (arrivals p es).Nodup := by
  rw [perm.nodup_iff]
  refine (Terminator.nodup_targets t).map fun e e' eq => ?_
  obtain ⟨first, eq⟩ := Prod.mk.inj eq
  exact Prod.ext first (Prod.mk.inj eq).2

lemma arrivals_reverse_append :
    arrivals p (es.reverse ++ rest) = (arrivals p es).reverse ++ arrivals p rest := by
  simp [arrivals, List.filterMap_append]

lemma mem_arrivals_reverse_append {a : BlockId × BlockId × EdgeKind} :
    a ∈ arrivals p (es.reverse ++ rest) ↔ a ∈ arrivals p es ∨ a ∈ arrivals p rest := by
  rw [arrivals_reverse_append, List.mem_append, List.mem_reverse]

lemma mem_taken_reend (nowhere : (f.terminator b).targets = []) (live : (f.block? b).isSome)
    (perm : (arrivals p es).Perm (t.targets.map fun e => (e.1, b, e.2))) :
    e ∈ taken (f.reend b t (f.handlersOf b)) (arrivals p (es.reverse ++ w.worklist)) c ↔
      e ∈ taken f (arrivals p w.worklist) c := by
  rw [mem_taken, mem_taken, Func.terminator_reend live, mem_arrivals_reverse_append,
    mem_arrivals_of_perm perm, not_or]
  split
  · rename_i here
    constructor
    · rintro ⟨goes, new, -⟩
      exact absurd ⟨here, goes⟩ new
    · rintro ⟨goes, -⟩
      rw [here, nowhere] at goes
      cases goes
  · rename_i other
    simp [other]

variable (h : Weaves s p count w f) (nowhere : (f.terminator b).targets = [])

include h nowhere

lemma Weaves.source_ne {d : BlockId} (mem : (c, d, kind) ∈ arrivals p w.worklist) : d ≠ b := by
  rintro rfl
  have goes := h.sent c d kind mem
  rw [nowhere] at goes
  cases goes

variable (live : (f.block? b).isSome) (perm : (arrivals p es).Perm (t.targets.map fun e => (e.1, b, e.2)))

include live perm

lemma Weaves.sound_reend (inner : b ≠ Func.entry ∧ b ≠ Func.exit)
    (targets : ∀ e ∈ t.targets, (f.block? e.1).isSome) (enters : ∀ e ∈ t.targets, e.1 ≠ Func.entry) :
    (f.reend b t (f.handlersOf b)).Sound (fun _ => False)
      (taken (f.reend b t (f.handlersOf b)) (arrivals p (es.reverse ++ w.worklist))) := by
  have counts (c e) : (taken (f.reend b t (f.handlersOf b)) (arrivals p (es.reverse ++ w.worklist)) c).count e =
      (taken f (arrivals p w.worklist) c).count e := by
    rw [count_taken, count_taken,
      if_congr (mem_taken.symm.trans ((mem_taken_reend nowhere live perm).trans mem_taken)) rfl rfl]
  have unnamed (k : BlockId × EdgeKind) : k ∉ taken f (arrivals p w.worklist) b := by
    rw [mem_taken, nowhere]
    simp
  have reended := h.sound.reend_of_synced live inner.2 (fun here => absurd here inner.1)
    (h.sound.covered b) enters (fun e mem => ?_) (fun _ _ => rfl) fun c v mem k => ?_
  · exact reended.mono (fun _ both => both.1) fun c _ d k => (counts d (c, k)).symm
  · obtain goes | ⟨there, -⟩ := h.sound.mem_targets_or id mem
    · exact targets e goes
    · exact there
  · rw [Func.count_keys_reend_of_absent h.sound.toListed mem, h.sound.synced c v mem]
    intro k there
    rw [← List.count_pos_iff, h.sound.synced c v mem, List.count_pos_iff] at there
    exact unnamed _ there

lemma Weaves.reend (inner : b ≠ Func.entry ∧ b ≠ Func.exit) (there : b ∈ w.started)
    (targets : ∀ e ∈ t.targets, (f.block? e.1).isSome) (enters : ∀ e ∈ t.targets, e.1 ≠ Func.entry)
    (waits : ∀ x ∈ es, x.Waits s p count)
    (edges : ∀ c kind, (c, kind) ∈ t.targets → ∃ n m, Within s p b n ∧ p.blocks.lookup m = some c ∧
      (m, kind) ∈ normalFrom s.graph n) :
    Weaves s p count { w with worklist := es.reverse ++ w.worklist } (f.reend b t (f.handlersOf b)) := by
  have nodes : f.SameNodes (f.reend b t (f.handlersOf b)) := Func.sameNodes_reend
  have ends (c) : (f.reend b t (f.handlersOf b)).terminator c = if c = b then t else f.terminator c :=
    Func.terminator_reend live
  have same {c : BlockId} {e : BlockId × EdgeKind} :
      e ∈ taken (f.reend b t (f.handlersOf b)) (arrivals p (es.reverse ++ w.worklist)) c ↔
        e ∈ taken f (arrivals p w.worklist) c := mem_taken_reend nowhere live perm
  constructor
  case sound => exact h.sound_reend nowhere live perm inner targets enters
  case locals => rw [Func.locals_reend, h.locals]
  case blocks =>
    intro e mem
    rw [nodes.isSome]
    exact h.blocks e mem
  case apart =>
    rw [nodes.catches]
    exact h.apart
  case once =>
    rw [arrivals_reverse_append, List.nodup_append]
    refine ⟨List.nodup_reverse.2 (nodup_arrivals_of_perm perm), h.once, fun a mem a' mem' eq => ?_⟩
    subst eq
    exact h.source_ne nowhere mem' ((mem_arrivals_of_perm perm).1 (List.mem_reverse.1 mem)).1
  case sent =>
    intro c d k mem
    rw [ends]
    obtain new | old := mem_arrivals_reverse_append.1 mem
    · obtain ⟨rfl, goes⟩ := (mem_arrivals_of_perm perm).1 new
      rwa [if_pos rfl]
    · rw [if_neg (h.source_ne nowhere old)]
      exact h.sent c d k old
  case edges =>
    intro c d k mem
    rw [ends] at mem
    split at mem
    · rename_i here
      rw [here]
      exact edges d k mem
    · exact h.edges c d k mem
  case idle =>
    intro e mem idle
    rw [ends, if_neg]
    · exact h.idle e mem idle
    · rintro rfl
      exact idle there
  case fresh =>
    intro c idle d k mem
    exact h.fresh c idle d k (same.1 mem)
  case entered =>
    intro n c known old
    refine (h.entered n c known old).imp_right ?_
    rintro ⟨d, k, mem⟩
    exact ⟨d, k, same.2 mem⟩
  case opened => exact h.opened
  case phis =>
    intro c
    rw [nodes.phis]
    exact h.phis c
  case slots => exact h.slots
  case waits =>
    intro x mem
    obtain new | old := List.mem_append.1 mem
    · exact waits x (List.mem_reverse.1 new)
    · exact h.waits x old

end Reending

lemma furnishes_scopeDepth {depth : Nat} :
    Furnishes f (f.modifyBlock b fun x => { x with scopeDepth := depth }) := by
  have alike : f.Alike (f.modifyBlock b fun x => { x with scopeDepth := depth }) :=
    Func.alike_scopeDepth fun _ => depth
  exact ⟨alike.toSameFlow, alike.phis, rfl, fun _ sound => sound.alike alike⟩

lemma Weaves.leave (h : Weaves s p count w f) (valid : p.Valid s.graph) (inner : b ≠ Func.entry ∧ b ≠ Func.exit)
    (there : b ∈ w.started) (nowhere : (f.terminator b).targets = []) (within : Within s p b l)
    (departs : Departs s p b l count f es f') :
    Weaves s p count { w with worklist := es.reverse ++ w.worklist } f' := by
  obtain ⟨t, depth, ⟨live, targets, rfl⟩, comes, perm⟩ := departs
  have same : (f.modifyBlock b fun x => { x with scopeDepth := depth }).handlersOf b = f.handlersOf b :=
    Func.handlersOf_modifyBlock fun _ => rfl
  have arrives (c kind) (mem : (c, kind) ∈ t.targets) : ∃ m, p.blocks.lookup m = some c ∧
      (m, kind) ∈ normalFrom s.graph l := by
    have listed : (c, b, kind) ∈ es.filterMap (·.arrival? p) :=
      perm.mem_iff.2 (List.mem_map_of_mem (f := fun e : BlockId × EdgeKind => (e.1, b, e.2)) mem)
    obtain ⟨x, waits, arrival⟩ := List.mem_filterMap.1 listed
    obtain ⟨frame, k, entry, -, edge⟩ := (comes x waits).entry
    rw [Pending.arrival?, entry] at arrival
    obtain ⟨c', known⟩ := Option.isSome_iff_exists.1 (comes x waits).known
    rw [known] at arrival
    obtain ⟨rfl, eq⟩ := Prod.mk.inj (Option.some.inj arrival)
    obtain ⟨-, rfl⟩ := Prod.mk.inj eq
    exact ⟨x.leader, known, edge⟩
  rw [← same]
  refine (h.furnish furnishes_scopeDepth).reend ?_ ?_ perm inner there ?_ ?_ (fun x mem => (comes x mem).waits) ?_
  · rw [furnishes_scopeDepth.flow.targets]
    exact nowhere
  · rwa [furnishes_scopeDepth.flow.isSome]
  · intro e mem
    rw [furnishes_scopeDepth.flow.isSome]
    exact targets e mem
  · intro e mem
    obtain ⟨m, known, -⟩ := arrives e.1 e.2 mem
    exact (valid.inner _ (mem_of_lookup known)).1
  · intro c kind mem
    obtain ⟨m, known, edge⟩ := arrives c kind mem
    exact ⟨l, m, within, known, edge⟩

end Leaving

section Running

variable (paired : s.Paired code handlers) (exact : p.Exact s.graph) (valid : p.Valid s.graph)
  (formed : s.Formed) (named : ∀ n i, s.instr? n = some i → ∀ r ∈ i.registers, r < count)

lemma furnishes_handlerFrame {bad : Fault → Prop} (inner : b ≠ Func.entry ∧ b ≠ Func.exit)
    (live : (f.block? b).isSome) : (handlerFrame b).Meets f (fun frame f' =>
      frame.locals.length = f.locals ∧ Furnishes f f') bad := by
  rw [handlerFrame]
  refine blames_freshVersion (.refl f) fun version f₁ first => ?_
  refine blames_appendNode inner rfl live first fun caught f₂ second => meets_get (meets_pure ⟨?_, second⟩)
  rw [List.length_map, List.length_range, second.locals]

include paired exact valid formed named

/-- A block is entered for the first time, filled and left, or the fault lies in the code. -/
lemma weaves_enter (h : Weaves s p count w f) (waiting : w.worklist = x :: rest)
    (found : p.blocks.lookup x.leader = some b) (new : b ∉ w.started) :
    (enter s p b x { w with worklist := rest }).Meets f (Weaves s p count) (·.isInCode) := by
  have inner := valid.inner _ (mem_of_lookup found)
  have live : (f.block? b).isSome := h.blocks _ (mem_of_lookup found)
  have nowhere : (f.terminator b).targets = [] := h.idle _ (mem_of_lookup found) new
  have known : (s.instr? x.leader).isSome := by
    have listed : x.leader ∈ p.blocks.map (·.1) := List.mem_map_of_mem (mem_of_lookup found)
    obtain ⟨q, stands⟩ := (mem_order paired.spec).1 ((exact.leaders _).1 listed).1
    obtain ⟨_, _, -, here⟩ := instr?_of_stands paired stands
    rw [here]
    rfl
  -- Whatever is done before, the block is filled and left.
  have fill {w' : Progress} {f₀ f₁ : Func} {frame : Frame} (h' : Weaves s p count w' f₀) (there : b ∈ w'.started)
      (open_ : (f₀.terminator b).targets = []) (before : Furnishes f₀ f₁) (locals : frame.locals.length = count) :
      (interpret s p b s.graph.graph.nodeCount x.leader frame).Meets f₁ (fun es f' =>
        Weaves s p count { w' with worklist := es.reverse ++ w'.worklist } f') (·.isInCode) := by
    have stretch : Stretch s x.leader ([] ++ [x.leader]) := stretch_singleton
    refine (departs_interpret paired exact formed named inner h'.blocks found stretch (by simpa using known)
      (Nat.le_refl _) before locals).imp ?_ fun _ same => same
    rintro es f' ⟨g, l, more, within, departs⟩
    refine (h'.furnish more).leave valid inner there ?_ within departs
    rw [more.flow.targets]
    exact open_
  rw [Lift.enter]
  dsimp only
  split
  · rename_i entry
    have entered := h.enter_handler waiting entry exact valid found new
    refine (furnishes_handlerFrame inner live).bind ?_
    rintro frame f₁ ⟨locals, more⟩
    rw [h.locals] at locals
    exact (fill entered List.mem_cons_self nowhere more locals).bind fun es f₂ woven => meets_pure woven
  · rename_i frame source kind entry
    have locals : frame.locals.length = count :=
      (h.waits x (by rw [waiting]; exact List.mem_cons_self)).locals _ entry
    split
    · rename_i join
      rw [openJoin, bind_assoc]
      refine meets_run_bind (appendPhis_eq_ok.2 ⟨live, rfl, rfl⟩) ?_
      rw [pure_bind]
      have length : frame.slots.length = frame.stack.length + frame.scope.length + count := by
        rw [Frame.slots, List.length_append, List.length_append, locals]
      have entered := h.enter_join waiting entry found new join inner frame.slots
        ⟨frame.stack.length, frame.scope.length, (List.range frame.slots.length).map (f.nodes.size + ·)⟩ length rfl
      rw [List.length_map]
      refine (fill entered List.mem_cons_self ?_ (.refl _) ?_).bind fun es f₂ woven => meets_pure woven
      · rw [Func.sameFlow_putPhis.targets]
        exact nowhere
      · simp [Frame.withSlots, length]
    · rename_i single
      have entered := h.enter_single waiting entry found new single
      exact (fill entered List.mem_cons_self nowhere (.refl f) locals).bind fun es f₁ woven => meets_pure woven

/-- Entering blocks one after another, the only faults are those of the code. -/
lemma weaves_run (joins : ∀ n b, p.blocks.lookup n = some b → 1 < (normalEdges s.graph n).length → b ∈ p.joins)
    (h : Weaves s p count w f) : (run s p fuel w).Meets f (Weaves s p count) (·.isInCode) := by
  induction fuel generalizing w f with
  | zero => exact meets_pure h
  | succ fuel ih =>
    rw [Lift.run]
    split
    · exact meets_pure h
    · rename_i x rest waiting
      obtain ⟨b, found⟩ := Option.isSome_iff_exists.1 (h.waits x (by rw [waiting]; exact List.mem_cons_self)).known
      refine blames_blockOf found ?_
      split
      · rename_i old
        split
        · rename_i frame source kind entry
          obtain ⟨j, joined⟩ := h.exists_join waiting entry found paired exact joins old
          rw [joined, Lift.merge]
          split
          · exact meets_throw_bind rfl
          · rename_i level
            rw [not_or, not_not, not_not] at level
            exact meets_modify (ih (h.merge waiting entry found old joined level.1 level.2))
        · rename_i entry
          exact ih (h.skip waiting entry)
      · rename_i new
        exact (weaves_enter paired exact valid formed named h waiting found new).bind fun w' f₁ woven => ih woven

end Running

end Lift

end Avm.Ir
