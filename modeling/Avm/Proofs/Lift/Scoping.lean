import Avm.Proofs.Ir.Scoping
import Avm.Proofs.Lift.Forming

/-!
# Scopes of lifted graphs

The depths with which lifting comes by the vertices are the depths at which the blocks of the leaders can be
entered.  Each block is drawn once, from the depth of its leader, and where it goes on there is a leader with the
depth at its end.

The main statement is `MethodBody.scoped_of_lift`.
-/

namespace Avm.Ir

namespace Lift

open Edit Func BlockGraph

variable {s : Source} {code : Code} {handlers : List (Handler Nat)} {p : Partition} {b t : BlockId} {n m : NodeId}
  {frame : Frame} {f f' : Func} {level : NodeId → Option Level} {started : List BlockId} {o : Outline}
  {ks : List NodeKind}

section Outlines

lemma outline_of_parts (isSome : (f'.block? t).isSome = (f.block? t).isSome)
    (body : (f'.body t).map f'.turn = (f.body t).map f.turn) (depth : f'.scopeDepth t = f.scopeDepth t)
    (targets : (f'.terminator t).targets = (f.terminator t).targets) : f'.outline t = f.outline t := by
  refine Option.ext fun o => ?_
  rw [outline_eq_some, outline_eq_some, isSome, body, depth, targets]

lemma map_turn_body (listed : f.Listed) (kept : ∀ v, (f.node? v).isSome → f'.node? v = f.node? v) :
    (f.body t).map f'.turn = (f.body t).map f.turn := by
  refine List.map_congr_left fun v mem => turn_congr ?_
  have owned := listed.owned t v (List.mem_append_right _ mem)
  rw [shape?, kept v, ← shape?]
  cases found : f.node? v with
  | none =>
    rw [found] at owned
    cases owned
  | some x => rfl

lemma Appends.outline (h : Appends b ks f f') (listed : f.Listed) : f'.outline t =
    if t = b then (f.outline t).map fun o => { o with turns := o.turns ++ ks.map NodeKind.turn } else f.outline t := by
  have old (t) : (f.body t).map f'.turn = (f.body t).map f.turn := map_turn_body listed h.kept
  split
  · rename_i same
    subst same
    obtain ⟨vs, here, kinds⟩ := h.here
    have new : vs.map f'.turn = ks.map NodeKind.turn := by
      have both := congrArg (List.map fun k => (Option.map NodeKind.turn k).getD .still) kinds
      rw [List.map_map, List.map_map] at both
      have turns : (fun v => (Option.map NodeKind.turn (f'.kind? v)).getD .still) = f'.turn :=
        funext fun v => turn_eq.symm
      rw [← turns]
      exact both
    cases found : f.block? t with
    | none =>
      rw [found] at here
      rw [Func.outline, Func.outline, here, found]
      rfl
    | some x =>
      have body : f.body t = x.body := by rw [Func.body, found]; rfl
      have before := old t
      rw [body] at before
      rw [found] at here
      rw [outline_of_block? here, outline_of_block? found, Option.map_some, outlineOf, outlineOf]
      dsimp only
      rw [List.map_append, before, new]
  · rename_i other
    have block := h.other t other
    refine outline_of_parts (by rw [block]) ?_ ?_ ?_
    · rw [Func.body, block, ← Func.body]
      exact old t
    · rw [scopeDepth, block, ← scopeDepth]
    · rw [terminator, block, ← terminator]

lemma Closes.outline {term : Terminator} {depth : Nat} (h : Closes b term depth f f') : f'.outline t =
    if t = b then (f.outline t).map fun o => { o with depth := depth, targets := term.targets.map (·.1) }
    else f.outline t := by
  obtain ⟨-, -, rfl⟩ := h
  rw [outline_reend, outline_setDepth]
  split
  · rw [Option.map_map]
    rfl
  · rfl

lemma outline_putPhis {inputs : List (List PhiInput)} (listed : f.Listed) :
    (f.putPhis b inputs).outline t = f.outline t := by
  refine outline_of_parts (sameFlow_putPhis.isSome t) ?_ ?_ (by rw [sameFlow_putPhis.targets])
  · rw [body_putPhis]
    exact map_turn_body listed fun v there => node?_putPhis_of_isSome there
  · exact Steady.scopeDepth_congr (map_modifyBlock fun _ => rfl)

lemma outline_modifyInputs {v : ValueId} {g : List PhiInput → List PhiInput} :
    (f.modifyInputs v g).outline t = f.outline t :=
  @outline_modifyPhis f t [v] g

end Outlines

/-- The vertex is where a handler of the code starts. -/
def Catches (s : Source) (n : NodeId) : Prop := ∃ k < s.code.handlers.length, s.graph.handlerTarget? k = some n

/-- What is known of a block that was filled: it starts with the depth of its leader, and goes on where leaders
have the depth at its end. -/
structure Drawn (s : Source) (p : Partition) (level : NodeId → Option Level) (n : NodeId) (o : Outline) : Prop where
  start : ∃ l, level n = some l ∧ o.Starts l.scope
  late : .catches ∉ o.turns.tail
  caught : .catches ∈ o.turns → Catches s n
  next : ∀ t ∈ o.targets, ∃ m l, (m, t) ∈ p.blocks ∧ normalEdges s.graph m ≠ [] ∧ level m = some l ∧ l.scope = o.depth

/-- What is known of a graph while its blocks are filled. -/
structure Draft (s : Source) (p : Partition) (level : NodeId → Option Level) (started : List BlockId) (f : Func) :
    Prop extends Ready p f where
  first : ∃ ts, f.outline Func.entry = some ⟨[], 0, ts⟩ ∧
    ∀ t ∈ ts, ∃ m l, (m, t) ∈ p.blocks ∧ normalEdges s.graph m ≠ [] ∧ level m = some l ∧ l.scope = 0
  last : f.outline Func.exit = some {}
  blocks : ∀ e ∈ p.blocks, ∃ o, f.outline e.2 = some o ∧
    (e.2 ∉ started ∧ o = {} ∨ e.2 ∈ started ∧ p.blocks.lookup e.1 = some e.2 ∧ Drawn s p level e.1 o)
  only : ∀ b, (f.block? b).isSome → b = Func.entry ∨ b = Func.exit ∨ ∃ n, (n, b) ∈ p.blocks
  handled : ∀ c ∈ f.handlers, ∃ n, Catches s n ∧ p.blocks.lookup n = some c.target
  handles : ∀ n, Catches s n → ∃ c ∈ f.handlers, p.blocks.lookup n = some c.target

lemma Draft.same (h : Draft s p level started f) (ready : Ready p f') (catches : f'.handlers = f.handlers)
    (outline : ∀ t, f'.outline t = f.outline t) : Draft s p level started f' where
  toReady := ready
  first := by rw [outline]; exact h.first
  last := by rw [outline]; exact h.last
  blocks e mem := by rw [outline]; exact h.blocks e mem
  only b live := by
    rw [← isSome_outline, outline, isSome_outline] at live
    exact h.only b live
  handled c mem := h.handled c (catches ▸ mem)
  handles n caught := by rw [catches]; exact h.handles n caught

lemma Draft.draw (h : Draft s p level started f) (valid : p.Valid s.graph) (own : (p.blocks.map (·.2)).Nodup)
    (found : p.blocks.lookup n = some b) (ready : Ready p f') (catches : f'.handlers = f.handlers)
    (other : ∀ t ≠ b, f'.outline t = f.outline t) (here : f'.outline b = some o) (drawn : Drawn s p level n o) :
    Draft s p level (b :: started) f' where
  toReady := ready
  first := by
    rw [other _ (valid.inner _ (mem_of_lookup found)).1.symm]
    exact h.first
  last := by
    rw [other _ (valid.inner _ (mem_of_lookup found)).2.symm]
    exact h.last
  blocks e there := by
    by_cases same : e.2 = b
    · have eq : e = (n, b) := List.inj_on_of_nodup_map own there (mem_of_lookup found) same
      rw [eq]
      exact ⟨o, here, .inr ⟨List.mem_cons_self, found, drawn⟩⟩
    · obtain ⟨o, before, ⟨none, blank⟩ | ⟨started, drawn⟩⟩ := h.blocks e there
      · refine ⟨o, (other _ same).trans before, .inl ⟨fun now => ?_, blank⟩⟩
        rcases List.mem_cons.1 now with now | before
        · exact same now
        · exact none before
      · exact ⟨o, (other _ same).trans before, .inr ⟨List.mem_cons_of_mem _ started, drawn⟩⟩
  only t live := by
    by_cases same : t = b
    · exact .inr (.inr ⟨n, same ▸ mem_of_lookup found⟩)
    · rw [← isSome_outline, other t same, isSome_outline] at live
      exact h.only t live
  handled c there := h.handled c (catches ▸ there)
  handles n caught := by rw [catches]; exact h.handles n caught

section Filling

variable {w w' : Progress} {x : Pending} {es : List Pending} {kind : EdgeKind}

lemma normal_of_interpret (paired : s.Paired code handlers) {fuel : Nat}
    (run : (interpret s p b fuel n frame).run f = .ok es f') : ∀ x ∈ es, normalEdges s.graph x.leader ≠ [] := by
  induction fuel generalizing n frame f with
  | zero => exact absurd run throw_ne_ok
  | succ fuel ih =>
    rw [interpret] at run
    split at run
    · exact absurd run throw_ne_ok
    · rename_i i found
      have here : s.instr? n = some i := found
      split at run
      · intro x mem
        obtain ⟨e, -, -, sends, -⟩ := ((meets_terminate paired here).of_ok run).effect
        obtain ⟨fr, kind, -, -, edge⟩ := sends.frames x mem
        exact List.ne_nil_of_mem (mem_normalEdges edge)
      · obtain ⟨fr, f₁, -, run⟩ := Edit.bind_eq_ok.1 run
        rw [successor] at run
        split at run
        · rename_i e there
          have mem : e ∈ s.graph.edgesFrom n := List.mem_of_find?_eq_some there
          have same : e.2 = .fallthrough := by simpa using List.find?_some there
          rw [pure_bind] at run
          split at run
          · obtain ⟨_, f₂, -, last⟩ := Edit.bind_eq_ok.1 run
            obtain ⟨rfl, -⟩ := Edit.pure_eq_ok.1 last
            intro x only
            rw [List.mem_singleton.1 only]
            refine List.ne_nil_of_mem (show (n, e.2) ∈ _ from mem_normalEdges (List.mem_filter.2 ⟨mem, ?_⟩))
            rw [same]
            rfl
          · exact ih run
        · obtain ⟨_, _, none, -⟩ := Edit.bind_eq_ok.1 run
          exact absurd none throw_ne_ok

/-- Something without an entry is a handler. -/
def Waits (s : Source) (level : NodeId → Option Level) (x : Pending) : Prop :=
  level x.leader = some x.level ∧ (x.entry = none → Catches s x.leader)

variable (paired : s.Paired code handlers) (levels : Levels s level) (valid : p.Valid s.graph)
  (parted : p.Exact s.graph)
include paired levels valid parted

/-- A block is filled from the depth of its leader, behind nodes that leave the scope stack alone. -/
lemma draft_interpret {fuel : Nat} {f₁ : Func} (draft : Draft s p level started f) (found : p.blocks.lookup n = some b)
    (arrived : level n = some frame.level) (catches : f₁.handlers = f.handlers)
    (ready : Ready p f₁) (other : ∀ t ≠ b, f₁.outline t = f.outline t) {l : List Turn}
    (opened : f₁.outline b = some { turns := l }) (begins : ∀ us, Turn.walk frame.scope.length (l ++ us) =
      Turn.walk frame.scope.length us) (alone : l = [] ∨ l = [.catches] ∧ Catches s n)
    (run : (interpret s p b fuel n frame).run f₁ = .ok es f') :
    Draft s p level (b :: started) f' ∧ ∀ x ∈ es, Waits s level x := by
  have inner := valid.inner _ (mem_of_lookup found)
  have ready' := (fills_interpret valid inner f₁ es f' run).ready ready
  have normal := normal_of_interpret paired run
  obtain ⟨entries, ks, d, t, f₂, appends, closes, walk, -, targets, kinds⟩ :=
    (meets_interpret paired levels arrived).of_ok run
  have plain : .catches ∉ ks.map NodeKind.turn := by
    intro mem
    obtain ⟨k, there, turn⟩ := List.mem_map.1 mem
    exact (kinds k there).2.1 (NodeKind.turn_eq_catches.1 turn)
  have outline (t') : f'.outline t' = if t' = b then some ⟨l ++ ks.map NodeKind.turn, d, t.targets.map (·.1)⟩
      else f.outline t' := by
    rw [closes.outline, appends.outline ready.shaped.toListed]
    split
    · rename_i same
      rw [same, opened]
      rfl
    · rename_i away
      rw [other _ away]
  refine ⟨draft.draw valid parted.own found ready' ?_ (fun t away => by rw [outline, if_neg away])
    (by rw [outline, if_pos rfl]) ⟨⟨_, arrived, ?_⟩, ?_, fun mem => ?_, fun t' there => ?_⟩, fun x there => ?_⟩
  · obtain ⟨-, -, rfl⟩ := closes
    exact sameNodes_reend.catches.trans (appends.catches.trans catches)
  · show Turn.walk frame.scope.length (l ++ ks.map NodeKind.turn) = some d
    rw [begins, ← NodeKind.scopeWalk_eq]
    exact walk
  · rcases alone with rfl | ⟨rfl, -⟩
    · exact fun late => plain (List.mem_of_mem_tail late)
    · exact plain
  · rcases alone with rfl | ⟨-, handler⟩
    · exact absurd mem plain
    · exact handler
  · obtain ⟨e, target, rfl⟩ := List.mem_map.1 there
    obtain ⟨x, sent, found, l', here, depth⟩ := targets e target
    exact ⟨x.leader, l', mem_of_lookup found, normal x sent, here, depth⟩
  · obtain ⟨fr, kind, entry, there⟩ := entries x there
    refine ⟨?_, fun none => ?_⟩
    · rw [there, Pending.level, entry]
      rfl
    · rw [entry] at none
      cases none

lemma draft_enter (draft : Draft s p level w.started f) (found : p.blocks.lookup x.leader = some b)
    (new : b ∉ w.started) (waits : ∀ y ∈ x :: w.worklist, Waits s level y)
    (run : (enter s p b x w).run f = .ok w' f') :
    Draft s p level w'.started f' ∧ ∀ y ∈ w'.worklist, Waits s level y := by
  have mem := mem_of_lookup found
  have inner := valid.inner _ mem
  obtain ⟨o, here, ⟨-, rfl⟩ | ⟨old, -⟩⟩ := draft.blocks _ mem
  swap
  · exact absurd old new
  obtain ⟨arrived, handler⟩ := waits x List.mem_cons_self
  have rest : ∀ y ∈ w.worklist, Waits s level y := fun y mem => waits y (List.mem_cons_of_mem _ mem)
  have more {es : List Pending} (each : ∀ y ∈ es, Waits s level y) :
      ∀ y ∈ es.reverse ++ w.worklist, Waits s level y := by
    intro y mem
    rcases List.mem_append.1 mem with sent | waiting
    · exact each y (List.mem_reverse.1 sent)
    · exact rest y waiting
  have listed := draft.shaped.toListed
  rw [enter] at run
  dsimp only at run
  split at run
  · rename_i entry
    obtain ⟨frame, f₁, first, run⟩ := Edit.bind_eq_ok.1 run
    obtain ⟨es, f₂, second, last⟩ := Edit.bind_eq_ok.1 run
    obtain ⟨rfl, rfl⟩ := Edit.pure_eq_ok.1 last
    obtain ⟨depth, scope, appends⟩ := meets_handlerFrame.of_ok first
    have outline (t) := appends.outline (t := t) listed
    rw [Pending.level, entry] at arrived
    have drawn := draft_interpret paired levels valid parted draft found (by rw [arrived, depth]; rfl) appends.catches
      ((fills_handlerFrame inner f _ f₁ first).ready draft.toReady) (fun t away => by rw [outline, if_neg away])
      (l := [.catches]) (by rw [outline, if_pos rfl, here]; rfl) (fun _ => rfl) (.inr ⟨rfl, handler entry⟩) second
    exact ⟨drawn.1, more drawn.2⟩
  · rename_i frame source kind entry
    rw [Pending.level, entry] at arrived
    split at run
    · rename_i join
      obtain ⟨⟨frame₁, phis⟩, f₁, first, run⟩ := Edit.bind_eq_ok.1 run
      obtain ⟨es, f₂, second, last⟩ := Edit.bind_eq_ok.1 run
      obtain ⟨rfl, rfl⟩ := Edit.pure_eq_ok.1 last
      have ready := (fills_openJoin inner join f _ _ first).ready draft.toReady
      obtain ⟨depth, -, -, inputs, same⟩ := meets_openJoin.of_ok first
      have catches : f₁.handlers = f.handlers := by rw [same]; rfl
      have outline (t) : f₁.outline t = f.outline t := by rw [same, outline_putPhis listed]
      have drawn := draft_interpret paired levels valid parted draft found (by rw [arrived, depth]; rfl) catches
        ready (fun t _ => outline t) (l := []) ((outline b).trans here) (fun _ => rfl) (.inl rfl) second
      exact ⟨drawn.1, more drawn.2⟩
    · obtain ⟨es, f₂, second, last⟩ := Edit.bind_eq_ok.1 run
      obtain ⟨rfl, rfl⟩ := Edit.pure_eq_ok.1 last
      have drawn := draft_interpret paired levels valid parted draft found arrived rfl draft.toReady (fun _ _ => rfl)
        (l := []) here (fun _ => rfl) (.inl rfl) second
      exact ⟨drawn.1, more drawn.2⟩

omit paired levels parted valid in
lemma draft_merge {source : BlockId} {join : Option JoinPhis} (draft : Draft s p level started f)
    (run : (merge b source kind frame join).run f = .ok () f') : Draft s p level started f' := by
  have ready := (fills_merge f _ f' run).ready draft.toReady
  obtain ⟨join, rfl, -⟩ := level_of_merge run
  rw [merge] at run
  split at run
  · obtain ⟨_, _, none, -⟩ := Edit.bind_eq_ok.1 run
    exact absurd none throw_ne_ok
  · rw [Edit.modify_eq_ok.1 run] at ready ⊢
    refine draft.same ready ?_ fun t => ?_
    · generalize join.slots.zip frame.slots = l
      clear run ready draft
      induction l generalizing f with
      | nil => rfl
      | cons e l ih => exact ih
    · generalize join.slots.zip frame.slots = l
      clear run ready draft
      induction l generalizing f with
      | nil => rfl
      | cons e l ih => exact ih.trans outline_modifyInputs

lemma draft_run {fuel : Nat} (draft : Draft s p level w.started f) (waits : ∀ y ∈ w.worklist, Waits s level y)
    (ran : (run s p fuel w).run f = .ok w' f') : Draft s p level w'.started f' := by
  induction fuel generalizing w f with
  | zero =>
    obtain ⟨rfl, rfl⟩ := Edit.pure_eq_ok.1 ran
    exact draft
  | succ fuel ih =>
    rw [run] at ran
    split at ran
    · obtain ⟨rfl, rfl⟩ := Edit.pure_eq_ok.1 ran
      exact draft
    · rename_i x rest waiting
      rw [waiting] at waits
      have left : ∀ y ∈ rest, Waits s level y := fun y mem => waits y (List.mem_cons_of_mem _ mem)
      dsimp only at ran
      obtain ⟨b, f₁, first, entered⟩ := Edit.bind_eq_ok.1 ran
      obtain ⟨found, rfl⟩ := blockOf_eq_ok.1 first
      by_cases again : b ∈ w.started
      · rw [if_pos again] at entered
        cases entry : x.entry with
        | none =>
          rw [entry] at entered
          exact ih (w := { w with worklist := rest }) draft left entered
        | some e =>
          rw [entry] at entered
          obtain ⟨_, f₂, second, later⟩ := Edit.bind_eq_ok.1 entered
          exact ih (w := { w with worklist := rest }) (draft_merge draft second) left later
      · rw [if_neg again] at entered
        obtain ⟨w₁, f₂, second, later⟩ := Edit.bind_eq_ok.1 entered
        obtain ⟨draft', waits'⟩ :=
          draft_enter paired levels valid parted (w := { w with worklist := rest }) draft found again
          waits second
        exact ih draft' waits' later

end Filling

section Starting

variable {es : List Pending} {body : MethodBody}

/-- A graph of which nothing is drawn. -/
structure Blank (p : Partition) (f : Func) : Prop where
  fixed : f.outline Func.entry = some {} ∧ f.outline Func.exit = some {}
  blocks : ∀ e ∈ p.blocks, f.outline e.2 = some {}
  only : ∀ b, (f.block? b).isSome → b = Func.entry ∨ b = Func.exit ∨ ∃ n, (n, b) ∈ p.blocks

lemma Blank.same (h : Blank p f) (outline : ∀ t, f'.outline t = f.outline t) : Blank p f' where
  fixed := by rw [outline, outline]; exact h.fixed
  blocks e mem := by rw [outline]; exact h.blocks e mem
  only b live := by
    rw [← isSome_outline, outline, isSome_outline] at live
    exact h.only b live

lemma blank_partitionFrom {g : FlowGraph} {ns : List NodeId} {q : Partition} (blank : Blank p f)
    (run : (partitionFrom g ns p).run f = .ok q f') : Blank q f' := by
  induction ns generalizing p f with
  | nil =>
    obtain ⟨rfl, rfl⟩ := Edit.pure_eq_ok.1 run
    exact blank
  | cons n ns ih =>
    obtain ⟨-, ⟨-, rest⟩ | ⟨-, rest⟩⟩ := partitionFrom_cons_eq_ok run
    · have pushed (t) (here : f.outline t = some {}) : (f.pushBlock {}).outline t = some {} := by
        rw [outline_pushBlock]
        split
        · rfl
        · exact here
      refine ih ⟨⟨pushed _ blank.fixed.1, pushed _ blank.fixed.2⟩, fun e mem => ?_, fun b live => ?_⟩ rest
      · rcases List.mem_append.1 mem with old | new
        · exact pushed _ (blank.blocks e old)
        · rw [List.mem_singleton.1 new, outline_pushBlock, if_pos rfl]
      · rw [← isSome_outline, outline_pushBlock] at live
        split at live
        · rename_i same
          exact .inr (.inr ⟨n, List.mem_append_right _ (same ▸ List.mem_singleton_self _)⟩)
        · rw [isSome_outline] at live
          rcases blank.only b live with entry | exit | ⟨m, old⟩
          · exact .inl entry
          · exact .inr (.inl exit)
          · exact .inr (.inr ⟨m, List.mem_append_left _ old⟩)
    · exact ih blank rest

lemma outline_addHandlers {k : Nat} {hs : List (Handler Marker)} (run : (addHandlers s p k hs).run f = .ok es f') :
    (∀ t, f'.outline t = f.outline t) ∧
    (∀ c ∈ f'.handlers, c ∈ f.handlers ∨
      ∃ n, (∃ j < k + hs.length, s.graph.handlerTarget? j = some n) ∧ p.blocks.lookup n = some c.target) ∧
    (∀ c ∈ f.handlers, c ∈ f'.handlers) ∧
    ∀ j n, k ≤ j → j < k + hs.length → s.graph.handlerTarget? j = some n →
      ∃ c ∈ f'.handlers, p.blocks.lookup n = some c.target := by
  induction hs generalizing k f es with
  | nil =>
    obtain ⟨-, rfl⟩ := Edit.pure_eq_ok.1 run
    exact ⟨fun _ => rfl, fun c mem => .inl mem, fun c mem => mem, fun j n above below => absurd below (by simp; omega)⟩
  | cons h hs ih =>
    have below {j : Nat} (inside : j < k + 1 + hs.length) : j < k + (h :: hs).length := by
      rw [List.length_cons]
      omega
    cases found : s.graph.handlerTarget? k with
    | none =>
      simp only [addHandlers, found] at run
      obtain ⟨outline, handled, kept, handles⟩ := ih run
      refine ⟨outline, fun c mem => ?_, kept, fun j n above inside target => ?_⟩
      · rcases handled c mem with old | ⟨n, ⟨j, inside, target⟩, place⟩
        · exact .inl old
        · exact .inr ⟨n, ⟨j, below inside, target⟩, place⟩
      · rcases Nat.eq_or_lt_of_le above with rfl | later
        · rw [found] at target
          cases target
        · exact handles j n later (by rw [List.length_cons] at inside; omega) target
    | some n =>
      obtain ⟨b, more, there, rest⟩ := addHandlers_cons_eq_ok run found
      obtain ⟨outline, handled, kept, handles⟩ := ih rest
      refine ⟨outline, fun c mem => ?_, fun c mem => kept c (List.mem_append_left _ mem),
        fun j m above inside target => ?_⟩
      · rcases handled c mem with old | ⟨m, ⟨j, inside, target⟩, place⟩
        · rcases List.mem_append.1 old with old | new
          · exact .inl old
          · rw [List.mem_singleton.1 new]
            exact .inr ⟨n, ⟨k, below (by omega), found⟩, there⟩
        · exact .inr ⟨m, ⟨j, below inside, target⟩, place⟩
      · rcases Nat.eq_or_lt_of_le above with rfl | later
        · obtain rfl := Option.some.inj (found.symm.trans target)
          exact ⟨_, kept _ (List.mem_append_right _ (List.mem_singleton_self _)), there⟩
        · exact handles j m later (by rw [List.length_cons] at inside; omega) target

lemma outline_coverBlocks {ns : List NodeId} {a : Unit} (run : (coverBlocks s p ns).run f = .ok a f') :
    (∀ t, f'.outline t = f.outline t) ∧ f'.handlers = f.handlers := by
  induction ns generalizing f with
  | nil =>
    obtain ⟨-, rfl⟩ := Edit.pure_eq_ok.1 run
    exact ⟨fun _ => rfl, rfl⟩
  | cons n ns ih =>
    rw [coverBlocks] at run
    split at run
    · exact ih run
    · dsimp only at run
      split at run
      · obtain ⟨_, f₁, first, rest⟩ := Edit.bind_eq_ok.1 run
        obtain ⟨-, -, rfl⟩ := Edit.setHandlers_eq_ok.1 first
        obtain ⟨outline, catches⟩ := ih rest
        exact ⟨fun t => (outline t).trans outline_reend_self, catches.trans sameNodes_reend.catches⟩
      · exact ih run

/-- At the start the entry leads to the first leader, and the handlers are to be entered. -/
lemma draft_seed (paired : s.Paired code handlers) (levels : Levels s level) (valid : p.Valid s.graph)
    (blank : Blank p f) (ready : Ready p f) (bare : f.handlers = []) (run : (seed s p body).run f = .ok es f') :
    Draft s p level [] f' ∧ ∀ x ∈ es, Waits s level x := by
  have seeds := meets_seed.of_ok run
  have ready' := (ready_seed valid run ready).1
  obtain ⟨hs, f₁, f₂, m, kind, b, first, second, head, found, live, rfl⟩ := seed_eq_ok run
  obtain ⟨added, handled, -, handles⟩ := outline_addHandlers first
  obtain ⟨covered, catches⟩ := outline_coverBlocks second
  have blank₂ := blank.same fun t => (covered t).trans (added t)
  constructor
  · have place := mem_of_lookup found
    have edge := List.mem_of_head? head
    obtain ⟨-, rfl⟩ := paired.stands_first edge
    refine ⟨ready', ⟨[b], ?_, fun t mem => ?_⟩, ?_, fun e mem => ⟨{}, ?_, .inl ⟨List.not_mem_nil, rfl⟩⟩,
      fun t there => ?_, fun c mem => ?_, fun n caught => ?_⟩
    · rw [outline_reend, if_pos rfl, blank₂.fixed.1]
      rfl
    · rw [List.mem_singleton.1 mem]
      refine ⟨m, ⟨0, 0⟩, place, List.ne_nil_of_mem (a := (FlowGraph.entry, .fallthrough)) ?_, levels.first m _ edge,
        rfl⟩
      exact List.mem_filter.2 ⟨Digraph.mem_incoming.2 (Digraph.mem_outgoing.1 edge), rfl⟩
    · rw [outline_reend, if_neg (by decide), blank₂.fixed.2]
    · rw [outline_reend, if_neg (valid.inner e mem).1, blank₂.blocks e mem]
    · rw [sameNodes_reend.isSome] at there
      exact blank₂.only t there
    · rw [sameNodes_reend.catches, catches] at mem
      rcases handled c mem with old | ⟨n, ⟨j, inside, target⟩, place⟩
      · rw [bare] at old
        cases old
      · rw [Nat.zero_add] at inside
        exact ⟨n, ⟨j, inside, target⟩, place⟩
    · obtain ⟨j, inside, target⟩ := caught
      obtain ⟨c, mem, found⟩ := handles j n (Nat.zero_le j) (by omega) target
      exact ⟨c, by rw [sameNodes_reend.catches, catches]; exact mem, found⟩
  · intro x mem
    rcases seeds.only x mem with ⟨entry, k, inside, target⟩ | ⟨kind, edge, frame, entry, depth⟩
    · refine ⟨?_, fun _ => ⟨k, inside, target⟩⟩
      rw [levels.handler k inside _ target, Pending.level, entry]
      rfl
    · refine ⟨?_, fun none => ?_⟩
      · rw [levels.first _ _ edge, Pending.level, entry]
        exact congrArg some depth.symm
      · rw [entry] at none
        cases none

end Starting

section Drawing

variable (draft : Draft s p level started f) (parted : p.Exact s.graph) (steady : Steady f f')
include draft steady

lemma Draft.drawn (gone : ∀ e ∈ p.blocks, e.2 ∉ started → f'.block? e.2 = none) {n : NodeId} {b : BlockId}
    {o' : Outline} (mem : (n, b) ∈ p.blocks) (there : f'.outline b = some o') :
    ∃ o, o'.Within o ∧ p.blocks.lookup n = some b ∧ Drawn s p level n o := by
  obtain ⟨o, here, within⟩ := steady.outline b o' there
  obtain ⟨o₁, found, ⟨none, -⟩ | ⟨-, drawn⟩⟩ := draft.blocks _ mem
  · have live := (outline_eq_some.1 there).1
    rw [gone _ mem none] at live
    cases live
  · obtain rfl := Option.some.inj (here.symm.trans found)
    exact ⟨_, within, drawn⟩

include parted

lemma Draft.not_handles {m : NodeId} {b : BlockId} (mem : (m, b) ∈ p.blocks)
    (normal : normalEdges s.graph m ≠ []) : ¬f'.Handles b := by
  rintro ⟨c, listed, rfl⟩
  rw [steady.catches] at listed
  obtain ⟨n, ⟨k, -, target⟩, found⟩ := draft.handled c listed
  obtain rfl : n = m :=
    congrArg Prod.fst (List.inj_on_of_nodup_map parted.own (mem_of_lookup found) mem rfl)
  have handler : s.graph.isHandlerTarget n = true := List.contains_iff_mem.2 (List.mem_of_getElem? target)
  exact normal (parted.refused n ((parted.leaders n).1 (List.mem_map_of_mem mem)).1 handler)

lemma Draft.leads (gone : ∀ e ∈ p.blocks, e.2 ∉ started → f'.block? e.2 = none) (intact : f'.Intact)
    {o' : Outline} {b t : BlockId} {d : Nat} (there : f'.outline b = some o') (mem : t ∈ o'.targets)
    (leads : ∃ m l, (m, t) ∈ p.blocks ∧ normalEdges s.graph m ≠ [] ∧ level m = some l ∧ l.scope = d) :
    f'.Enters t d ∧ ¬f'.Handles t := by
  obtain ⟨m, l, place, normal, here', rfl⟩ := leads
  refine ⟨?_, draft.not_handles parted steady place normal⟩
  obtain ⟨-, rfl⟩ := outline_eq_some.1 there
  obtain ⟨e, target, rfl⟩ := List.mem_map.1 mem
  have edge : e ∈ f'.succs b := by
    rw [intact.wired b id, edgesOf_eq]
    exact mem_edgesFrom.2 (.inl target)
  obtain ⟨o, here⟩ := exists_outline (intact.live b e edge)
  obtain ⟨o₁, within, -, ⟨l', there', starts⟩, -⟩ := draft.drawn steady gone place here
  obtain rfl := Option.some.inj (here'.symm.trans there')
  exact ⟨o, here, within.starts starts⟩

lemma Draft.scoped (levels : Levels s level) (valid : p.Valid s.graph) (intact : f'.Intact)
    (gone : ∀ e ∈ p.blocks, e.2 ∉ started → f'.block? e.2 = none) : f'.Scoped := by
  refine ⟨?_, fun b o' there => ?_, fun c listed => ?_⟩
  · obtain ⟨o', there⟩ := exists_outline intact.entry.1
    obtain ⟨o, here, within⟩ := steady.outline _ o' there
    obtain ⟨ts, first, -⟩ := draft.first
    obtain rfl := Option.some.inj (here.symm.trans first)
    rw [scopeDepth_of_outline there, within.depth]
  · obtain ⟨o, here, within⟩ := steady.outline b o' there
    rcases draft.only b (outline_eq_some.1 here).1 with rfl | rfl | ⟨n, mem⟩
    · obtain ⟨ts, first, leads⟩ := draft.first
      obtain rfl := Option.some.inj (here.symm.trans first)
      refine ⟨⟨0, within.starts rfl⟩, fun late => ?_, fun mem => ?_, fun t mem _ => ?_⟩
      · exact absurd (within.late late) List.not_mem_nil
      · exact absurd (within.catches mem) List.not_mem_nil
      · rw [within.depth]
        exact draft.leads parted steady gone intact there mem (leads t (within.targets mem))
    · obtain rfl := Option.some.inj (here.symm.trans draft.last)
      refine ⟨⟨0, within.starts rfl⟩, fun late => ?_, fun mem => ?_, fun t mem _ => ?_⟩
      · exact absurd (within.late late) List.not_mem_nil
      · exact absurd (within.catches mem) List.not_mem_nil
      · exact absurd (within.targets mem) List.not_mem_nil
    · obtain ⟨o₁, within, found, ⟨l, -, starts⟩, late, caught, next⟩ := draft.drawn steady gone mem there
      refine ⟨⟨l.scope, within.starts starts⟩, fun mem => late (within.late mem), fun mem' => ?_, fun t mem _ => ?_⟩
      · obtain ⟨c, listed, place⟩ := draft.handles n (caught (within.catches mem'))
        exact ⟨c, steady.catches ▸ listed, Option.some.inj (place.symm.trans found)⟩
      · rw [within.depth]
        exact draft.leads parted steady gone intact there mem (next t (within.targets mem))
  · rw [steady.catches] at listed
    obtain ⟨n, ⟨k, inside, target⟩, found⟩ := draft.handled c listed
    have place := mem_of_lookup found
    refine ⟨(valid.inner _ place).1, ?_, fun o' there => ?_⟩
    · obtain ⟨o, here, -⟩ := draft.blocks _ place
      rw [steady.size]
      exact lt_size_of_block? (outline_eq_some.1 here).1
    · obtain ⟨o₁, within, -, ⟨l, here', starts⟩, -⟩ := draft.drawn steady gone place there
      rw [levels.handler k inside n target] at here'
      obtain rfl := Option.some.inj here'
      exact within.starts starts

end Drawing

lemma isSome_removeBlocks {bs : List BlockId} {a : Unit} (run : (removeBlocks bs).run f = .ok a f') :
    (f'.block? t).isSome ↔ (f.block? t).isSome ∧ t ∉ bs := by
  induction bs generalizing f with
  | nil =>
    obtain ⟨-, rfl⟩ := Edit.pure_eq_ok.1 run
    exact ⟨fun live => ⟨live, List.not_mem_nil⟩, fun live => live.1⟩
  | cons b bs ih =>
    obtain ⟨_, f₁, first, rest⟩ := Edit.bind_eq_ok.1 run
    obtain ⟨-, x, -, rfl⟩ := Edit.removeBlock_eq_ok.1 first
    rw [ih rest, isSome_without, Bool.and_eq_true, decide_eq_true_iff, List.mem_cons, not_or]
    tauto

/-- What lifting builds has its scopes in order, and the blocks that handle exceptions are there. -/
lemma scoped_of_build (paired : s.Paired code handlers) {body : MethodBody} (bare : Bare f) (blank : Blank {} f)
    (run : (build s body).run f = .ok () f') : f'.Scoped ∧ f'.Manned := by
  have intact := intact_of_build run bare
  obtain ⟨S, complete⟩ := exists_track_of_build paired run
  have levels := complete.levels
  obtain ⟨p, f₁, first, run₁⟩ := Edit.bind_eq_ok.1 run
  obtain ⟨es, f₂, second, run₂⟩ := Edit.bind_eq_ok.1 run₁
  obtain ⟨w, f₃, third, run₃⟩ := Edit.bind_eq_ok.1 run₂
  obtain ⟨_, f₄, fourth, run₄⟩ := Edit.bind_eq_ok.1 run₃
  obtain ⟨_, f₅, fifth, run₅⟩ := Edit.bind_eq_ok.1 run₄
  obtain ⟨_, f₆, sixth, last⟩ := Edit.bind_eq_ok.1 run₅
  obtain ⟨rfl, rfl⟩ := Edit.get_eq_ok.1 sixth
  obtain ⟨-, rfl⟩ := Edit.ofExcept_eq_ok.1 last
  have parted := exact_of_partitionFrom first
  obtain ⟨valid, bare⟩ := valid_partitionFrom first ⟨⟨by simp, by simp⟩, by simp, by simp⟩ bare
  have ready : Ready p f₁ := ⟨bare.shaped, fun t _ => bare.phis t, by simp [bare.catches]⟩
  obtain ⟨draft, waits⟩ :=
    draft_seed paired levels valid (blank_partitionFrom blank first) ready bare.catches second
  have drawn := draft_run paired levels valid parted draft waits third
  have lessened : Lessened f₃ f₄ := by
    refine removeBlocks_induction fourth ⟨.refl f₃, drawn.shaped.toListed⟩ fun f b x h _ here => ?_
    exact ⟨h.toSteady.trans (.without h.toListed here), h.toListed.without here⟩
  have tidied : Steady f₄ f' ∧ Trims f₄ f' := by
    rw [Edit.modify_eq_ok.1 fifth]
    exact ⟨((steady_removeTrivialPhis f₄).trans (steady_removeRedundantCopies _)).trans (steady_removeDeadNodes _),
      ((trims_removeTrivialPhis f₄).trans (trims_removeRedundantCopies _)).trans (trims_removeDeadNodes _)⟩
  have steady := lessened.toSteady.trans tidied.1
  have live (t) : (f'.block? t).isSome ↔
      (f₃.block? t).isSome ∧ t ∉ (p.blocks.map (·.2)).filter (· ∉ w.started) := by
    rw [tidied.2.sameFlow.isSome, isSome_removeBlocks fourth]
  refine ⟨drawn.scoped parted steady levels valid intact fun e mem absent => ?_, fun c listed => ?_⟩
  · rw [← Option.not_isSome_iff_eq_none, live]
    exact fun there => there.2 (List.mem_filter.2 ⟨List.mem_map_of_mem mem, decide_eq_true absent⟩)
  · -- What handles exceptions was to be entered from the start.
    rw [steady.catches] at listed
    obtain ⟨n, ⟨k, inside, target⟩, found⟩ := drawn.handled c listed
    have seeds := meets_seed.of_ok second
    have enough := seeds.length
    obtain ⟨S', keeps, empty⟩ := (keeps_run paired parted (keeps_seeds paired seeds)
      (by dsimp only; omega)).of_ok third
    have started : c.target ∈ w.started := by
      refine (keeps.started n _ found).2 ?_
      rcases keeps.seeds _ (seeds.handler k inside n target) with ⟨frame, mem, -⟩ | waits
      · exact mem_visited.2 ⟨frame, mem⟩
      · rw [empty] at waits
        cases waits
    have place := mem_of_lookup found
    obtain ⟨o, here, -⟩ := drawn.blocks _ place
    refine ⟨(live _).2 ⟨(outline_eq_some.1 here).1, fun gone => ?_⟩, (valid.inner _ place).2⟩
    exact of_decide_eq_true (List.mem_filter.1 gone).2 started

end Lift

end Avm.Ir

namespace Avm

open Ir

/-- The scopes of a lifted graph are in order, and the blocks that handle exceptions are there. -/
lemma MethodBody.scoped_of_lift {body : MethodBody} {pool : Pool} {config : Config} {f : Func}
    (lifted : body.lift pool config = .ok f) : f.Scoped ∧ f.Manned := by
  rw [MethodBody.lift_eq] at lifted
  obtain ⟨⟨code, g⟩, paired, lifted⟩ := bind_eq_ok.1 lifted
  obtain ⟨_, -, lifted⟩ := bind_eq_ok.1 lifted
  obtain ⟨code', handlers, belongs⟩ := MethodBody.paired_of_pairing paired pool
  rw [Func.ofCode] at lifted
  split at lifted
  · rename_i f' run
    obtain rfl := Except.ok.inj lifted
    refine Lift.scoped_of_build belongs Lift.bare_empty ⟨⟨rfl, rfl⟩, List.forall_mem_nil _, fun b live => ?_⟩ run
    obtain _ | _ | b := b
    · exact .inl rfl
    · exact .inr (.inl rfl)
    · cases live
  · cases lifted

end Avm
