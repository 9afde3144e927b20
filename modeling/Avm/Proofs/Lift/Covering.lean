import Avm.Proofs.Ir.Consistency
import Avm.Proofs.Lift.Logging

/-!
# Covering the vertices

Lifting comes by every vertex once, and puts it into a block that is covered by the handlers that the
control flow graph lists for the vertex, in the same order.  Handlers are given to the blocks at the start,
by their leaders, and a block ends before the handlers change.

The main statement is `Func.ofCode_covers`.
-/

namespace Avm.Ir.Lift

open Edit BlockGraph

variable {s : Source} {p : Partition} {b : BlockId} {n : NodeId} {w : Progress} {code : Code}
  {handlers : List (Handler Nat)} {f f' : Func} {ns : List NodeId} {log : List (BlockId × List NodeId)}

section Seeding

/-- The handlers of the code that cover a vertex. -/
def Source.covering (s : Source) (n : NodeId) : List Nat :=
  (s.graph.coveringHandlers n).filter (· < s.code.handlers.length)

/-- A handler of a function graph catches what a handler of the code does, and starts at its vertex. -/
def Answers (s : Source) (p : Partition) (k : Nat) (c : Catch) (h : Handler Marker) : Prop :=
  c.excType = h.excType ∧ c.varName = h.varName ∧
    ∃ n, s.graph.handlerTarget? k = some n ∧ p.blocks.lookup n = some c.target

lemma catches_of_addHandlers {k : Nat} {hs : List (Handler Marker)} {es : List Pending}
    (run : (addHandlers s p k hs).run f = .ok es f')
    (targets : ∀ j < hs.length, (s.graph.handlerTarget? (k + j)).isSome) :
    ∃ cs, f' = f.withCatches cs ∧
      ∀ j h, hs[j]? = some h → ∃ c, cs[j]? = some c ∧ Answers s p (k + j) c h := by
  induction hs generalizing k f es with
  | nil =>
    obtain ⟨-, rfl⟩ := Edit.pure_eq_ok.1 run
    exact ⟨[], by simp [Func.withCatches], by simp⟩
  | cons h hs ih =>
    obtain ⟨n, target⟩ := Option.isSome_iff_exists.1 (targets 0 (by simp))
    obtain ⟨b, more, there, rest⟩ := addHandlers_cons_eq_ok run target
    obtain ⟨cs, rfl, answers⟩ := ih rest fun j lt => by
      have := targets (j + 1) (by simpa using lt)
      rwa [← Nat.add_assoc, Nat.add_right_comm] at this
    refine ⟨⟨b, h.excType, h.varName⟩ :: cs, by simp [Func.withCatches], fun j h' found => ?_⟩
    cases j with
    | zero =>
      obtain rfl := Option.some.inj found
      exact ⟨_, rfl, rfl, rfl, n, target, there⟩
    | succ j =>
      obtain ⟨c, here, answer⟩ := answers j h' found
      rw [Nat.add_right_comm, Nat.add_assoc] at answer
      exact ⟨c, here, answer⟩

lemma covering_of_coverBlocks (exact : p.Exact s.graph) {ns : List NodeId}
    (run : (coverBlocks s p ns).run f = .ok () f')
    (old : ∀ n b, p.blocks.lookup n = some b → f.handlersOf b = [] ∨ f.handlersOf b = s.covering n) :
    (∀ t, (f'.block? t).isSome = (f.block? t).isSome) ∧ f'.handlers = f.handlers ∧
      ∀ n b, p.blocks.lookup n = some b → n ∈ ns ∨ f.handlersOf b = s.covering n →
        f'.handlersOf b = s.covering n := by
  induction ns generalizing f with
  | nil =>
    obtain ⟨-, rfl⟩ := Edit.pure_eq_ok.1 run
    refine ⟨fun _ => rfl, rfl, fun n b found h => h.elim (fun mem => absurd mem List.not_mem_nil) id⟩
  | cons n ns ih =>
    -- Whatever is done about the first vertex, its block has its handlers then.
    obtain ⟨f₁, run, same, catches, kept⟩ : ∃ f₁, (coverBlocks s p ns).run f₁ = .ok () f' ∧
        (∀ t, (f₁.block? t).isSome = (f.block? t).isSome) ∧ f₁.handlers = f.handlers ∧
        ∀ n' b, p.blocks.lookup n' = some b → f₁.handlersOf b =
          if n' = n then s.covering n' else f.handlersOf b := by
      rw [coverBlocks] at run
      split at run
      · rename_i none
        refine ⟨f, run, fun _ => rfl, rfl, fun n' b found => ?_⟩
        rw [if_neg]
        rintro rfl
        rw [none] at found
        cases found
      · rename_i b found
        dsimp only at run
        split at run
        · obtain ⟨_, f₁, first, run⟩ := Edit.bind_eq_ok.1 run
          obtain ⟨-, live, rfl⟩ := setHandlers_eq_ok.1 first
          refine ⟨_, run, Func.sameNodes_reend.isSome, Func.sameNodes_reend.catches,
            fun n' c found' => ?_⟩
          rw [Func.handlersOf_reend live]
          by_cases eq : n' = n
          · obtain rfl := eq
            rw [if_pos (Option.some.inj (found'.symm.trans found)), if_pos rfl, Source.covering]
          · rw [if_neg eq, if_neg]
            rintro rfl
            exact eq (exact.inj found' found)
        · rename_i empty
          refine ⟨f, run, fun _ => rfl, rfl, fun n' c found' => ?_⟩
          split
          · rename_i eq
            obtain rfl := eq
            have none : s.covering n' = [] := by simpa [Source.covering] using empty
            obtain h | h := old n' c found'
            · rw [h, none]
            · exact h
          · rfl
    obtain ⟨same', catches', covering⟩ := ih run fun n' b found => by
      rw [kept n' b found]
      split
      · exact .inr rfl
      · exact old n' b found
    refine ⟨fun t => (same' t).trans (same t), catches'.trans catches, fun n' b found h => ?_⟩
    refine covering n' b found ?_
    rw [kept n' b found]
    split
    · exact .inr rfl
    · rename_i other
      exact h.imp_left fun mem => (List.mem_cons.1 mem).resolve_left other

/-- Behind the start the handlers are those of the code, and cover the blocks of the vertices that they
cover. -/
lemma covering_of_seed (exact : p.Exact s.graph) {body : MethodBody} {es : List Pending}
    (run : (seed s p body).run f = .ok es f') (catches : f.handlers = []) (bare : ∀ b, f.handlersOf b = [])
    (targets : ∀ j < s.code.handlers.length, (s.graph.handlerTarget? j).isSome) :
    (∀ t, (f'.block? t).isSome = (f.block? t).isSome) ∧
      (∀ k h, s.code.handlers[k]? = some h → ∃ c, f'.handlers[k]? = some c ∧ Answers s p k c h) ∧
      ∀ n ∈ s.graph.order, ∀ b, p.blocks.lookup n = some b → f'.handlersOf b = s.covering n := by
  obtain ⟨hs, f₁, f₂, m, kind, b, first, second, -, -, live, rfl⟩ := seed_eq_ok run
  obtain ⟨cs, rfl, answers⟩ := catches_of_addHandlers first (by simpa using targets)
  obtain ⟨same, kept, covering⟩ := covering_of_coverBlocks exact second fun n b _ => .inl (bare b)
  have ended : SameCover f₂ (f₂.reend Func.entry (.goto b) (f₂.handlersOf Func.entry)) := sameCover_reend live
  refine ⟨fun t => (ended.isSome t).trans (same t), fun k h found => ?_, fun n mem b found => ?_⟩
  · obtain ⟨c, here, answer⟩ := answers k h found
    rw [Nat.zero_add] at answer
    refine ⟨c, ?_, answer⟩
    rw [ended.catches, kept, Func.withCatches, catches, List.nil_append]
    exact here
  · rw [ended.handlersOf]
    exact covering n b found (.inl mem)

end Seeding

section Partitioning

lemma live_of_partitionFrom {g : FlowGraph} {q : Partition} (run : (partitionFrom g ns p).run f = .ok q f')
    (live : ∀ e ∈ p.blocks, (f.block? e.2).isSome) : ∀ e ∈ q.blocks, (f'.block? e.2).isSome := by
  induction ns generalizing p f with
  | nil =>
    obtain ⟨rfl, rfl⟩ := Edit.pure_eq_ok.1 run
    exact live
  | cons n ns ih =>
    obtain ⟨-, ⟨-, run⟩ | ⟨-, run⟩⟩ := partitionFrom_cons_eq_ok run
    · refine ih run fun e mem => ?_
      rw [Func.isSome_pushBlock]
      obtain mem | mem := List.mem_append.1 mem
      · rw [live e mem, Bool.or_true]
      · rw [List.mem_singleton.1 mem]
        simp
    · exact ih run live

lemma keys_of_partitionFrom {g : FlowGraph} {q : Partition}
    (run : (partitionFrom g ns p).run f = .ok q f') :
    q.blocks.map (·.1) = p.blocks.map (·.1) ++ ns.filter (isLeader g) := by
  induction ns generalizing p f with
  | nil =>
    obtain ⟨rfl, -⟩ := Edit.pure_eq_ok.1 run
    simp
  | cons n ns ih =>
    obtain ⟨-, ⟨leader, run⟩ | ⟨inner, run⟩⟩ := partitionFrom_cons_eq_ok run
    · rw [ih run, List.filter_cons_of_pos leader]
      simp [Partition.add]
    · rw [ih run, List.filter_cons_of_neg inner]

lemma nodup_order {g : FlowGraph} (spec : FlowGraph.Spec code handlers g) : g.order.Nodup := by
  have same : g.order = (code.instrs.map (·.1)).filterMap fun id =>
      g.graph.nodes.findIdx? (· == .instr id) := by
    rw [spec.order, List.filterMap_map]
    rfl
  rw [same]
  refine code.nodup.filterMap fun id id' n found found' => ?_
  have here := (findIdx?_beq_eq_some spec.nodup).1 found
  have there := (findIdx?_beq_eq_some spec.nodup).1 found'
  exact Vertex.instr.inj (Option.some.inj (here.symm.trans there))

end Partitioning

/-- A handler of the function graph catches what a handler of the code does, into the same variable, and
starts at the block of its vertex. -/
def Translates (s : Source) (log : List (BlockId × List NodeId)) (f : Func) (j k : Nat) : Prop :=
  ∃ c h n ns, f.handlers[j]? = some c ∧ s.code.handlers[k]? = some h ∧ c.excType = h.excType ∧
    c.varName = h.varName ∧ s.graph.handlerTarget? k = some n ∧ (c.target, n :: ns) ∈ log

/-- The vertices of the instructions are those that the blocks of a function graph come by, each of them
once.  Within a block one falls through to the next, and what covers the block covers all of them. -/
structure Covers (s : Source) (log : List (BlockId × List NodeId)) (f : Func) : Prop where
  own : (log.map (·.1)).Nodup
  live : ∀ e ∈ log, (f.block? e.1).isSome
  once : (log.flatMap (·.2)).Nodup
  all : ∀ n, n ∈ log.flatMap (·.2) ↔ (s.graph.instr? n).isSome
  chained : ∀ e ∈ log, e.2.IsChain fun n m => (m, .fallthrough) ∈ s.graph.edgesFrom n
  caught : ∀ e ∈ log, ∀ n ∈ e.2,
    List.Forall₂ (Translates s log f) (f.handlersOf e.1) (s.graph.coveringHandlers n)

lemma mem_order_iff_isSome (spec : FlowGraph.Spec code handlers s.graph) :
    n ∈ s.graph.order ↔ (s.graph.instr? n).isSome := by
  rw [mem_order spec, FlowGraph.instr?]
  constructor
  · rintro ⟨q, e, -, node⟩
    rw [node]
    rfl
  · intro some
    split at some
    · rename_i id node
      obtain ⟨q, i, here, -⟩ := spec.reached n id node
      exact ⟨q, _, here, node⟩
    · cases some

lemma isSome_handlerTarget? {g : FlowGraph} (spec : FlowGraph.Spec code handlers g) :
    ∀ j < code.handlers.length, (g.handlerTarget? j).isSome := by
  intro j lt
  rw [Code.length_resolvedHandlers spec.resolved, spec.targets.length_eq] at lt
  rw [FlowGraph.handlerTarget?, List.getElem?_eq_getElem lt]
  rfl

section Starting

variable {g : FlowGraph} {pool : Pool} {body : MethodBody} {f₁ f₂ f₃ : Func} {es : List Pending}

lemma started_of_lookup (spec : FlowGraph.Spec code handlers g)
    (parted : (partitionFrom g g.order {}).run f = .ok p f₁)
    (seeded : (seed ⟨code, g, pool⟩ p body).run f₁ = .ok es f₂)
    (ran : (run ⟨code, g, pool⟩ p (code.handlers.length + g.graph.edgeCount + 2)
      { worklist := es }).run f₂ = .ok w f₃) : ∀ n b, p.blocks.lookup n = some b → b ∈ w.started := by
  intro n b found
  have exact := exact_of_partitionFrom parted
  obtain ⟨S, complete, entered⟩ := exists_track_of_run (paired_of_build pool spec) parted seeded ran
  have ordered := ((exact.leaders n).1 (List.mem_map_of_mem (mem_of_lookup found))).1
  obtain ⟨q, stands⟩ := (mem_order spec).1 ordered
  obtain ⟨frame, passed⟩ := complete.exists_frame spec (stands.reachable spec.reached) n stands
  exact (entered n b found).2 (mem_visited.2 ⟨frame, passed⟩)

lemma unentered_eq_nil (spec : FlowGraph.Spec code handlers g)
    (parted : (partitionFrom g g.order {}).run f = .ok p f₁)
    (started : ∀ n b, p.blocks.lookup n = some b → b ∈ w.started) :
    (p.blocks.map (·.2)).filter (· ∉ w.started) = [] := by
  have keys : (p.blocks.map (·.1)).Nodup := by
    rw [keys_of_partitionFrom parted]
    exact (nodup_order spec).filter _
  refine List.filter_eq_nil_iff.2 fun b mem => ?_
  obtain ⟨e, listed, rfl⟩ := List.mem_map.1 mem
  simpa using started _ _ (lookup_of_mem keys listed)

end Starting

section Logging

variable {g : FlowGraph} {pool : Pool} (spec : FlowGraph.Spec code handlers g) (exact : p.Exact g)
  (logs : Logs ⟨code, g, pool⟩ p log)
  (all : ∀ n b, p.blocks.lookup n = some b → ∃ ns, (b, ns) ∈ log)
include spec exact logs all

lemma Logs.mem_flatMap_iff : n ∈ log.flatMap (·.2) ↔ (g.instr? n).isSome := by
  constructor
  · intro mem
    obtain ⟨e, mem, listed⟩ := List.mem_flatMap.1 mem
    obtain ⟨_, -, strand⟩ := logs e mem
    obtain ⟨i, here⟩ := Option.isSome_iff_exists.1 (strand.there n listed)
    obtain ⟨id, vertex, -⟩ := Option.bind_eq_some_iff.1 here
    exact Option.isSome_iff_exists.2 ⟨id, vertex⟩
  · intro there
    have ordered := (mem_order_iff_isSome (s := ⟨code, g, pool⟩) spec).2 there
    obtain ⟨q, stands⟩ := (mem_order spec).1 ordered
    exact logs.mem_of_reachable (paired_of_build pool spec) exact all (stands.reachable spec.reached) n stands

/-- The handlers of a block are those of its leader, and nothing else covers the vertices behind that. -/
lemma Logs.translates
    (answers : ∀ k h, code.handlers[k]? = some h →
      ∃ c, f.handlers[k]? = some c ∧ Answers ⟨code, g, pool⟩ p k c h)
    (covering : ∀ n ∈ g.order, ∀ b, p.blocks.lookup n = some b → f.handlersOf b = Source.covering ⟨code, g, pool⟩ n)
    {e : BlockId × List NodeId} (mem : e ∈ log) (listed : n ∈ e.2) :
    List.Forall₂ (Translates ⟨code, g, pool⟩ log f) (f.handlersOf e.1) (g.coveringHandlers n) := by
  obtain ⟨m, found, strand⟩ := logs e mem
  have ordered := ((exact.leaders m).1 (List.mem_map_of_mem (mem_of_lookup found))).1
  obtain ⟨q, stands⟩ := (mem_order spec).1 ordered
  have below : ∀ k ∈ g.coveringHandlers m, k < code.handlers.length := by
    intro k mem
    rw [spec.covering m q stands] at mem
    obtain ⟨h, found, -⟩ := FlowGraph.Builder.mem_handlersAt.1 mem
    rw [Code.length_resolvedHandlers spec.resolved]
    exact (List.getElem?_eq_some_iff.1 found).1
  rw [covering m ordered e.1 found, Source.covering, strand.covering listed,
    List.filter_eq_self.2 fun k mem => decide_eq_true (below k mem), List.forall₂_same]
  intro k mem
  obtain ⟨c, here, exc, var, n', target, block⟩ := answers k _ (List.getElem?_eq_getElem (below k mem))
  obtain ⟨ns, entry⟩ := all n' c.target block
  obtain ⟨n'', found', strand'⟩ := logs _ entry
  obtain rfl := exact.inj block found'
  obtain ⟨rest, rfl⟩ := List.head?_eq_some_iff.1 strand'.head
  exact ⟨c, _, n', rest, here, List.getElem?_eq_getElem (below k mem), exc, var, target, entry⟩

end Logging

lemma covers_of_fillLogged {g : FlowGraph} {pool : Pool} {body : MethodBody}
    (spec : FlowGraph.Spec code handlers g) (bare : Bare f)
    (run : (fillLogged ⟨code, g, pool⟩ body).run f = .ok log f') : Covers ⟨code, g, pool⟩ log f' := by
  obtain ⟨p, f₁, parted, run₁⟩ := Edit.bind_eq_ok.1 run
  obtain ⟨es, f₂, seeded, run₂⟩ := Edit.bind_eq_ok.1 run₁
  obtain ⟨⟨w, log'⟩, f₃, ran, run₃⟩ := Edit.bind_eq_ok.1 run₂
  obtain ⟨_, f₄, removed, last⟩ := Edit.bind_eq_ok.1 run₃
  obtain ⟨rfl, rfl⟩ := Edit.pure_eq_ok.1 last
  have exact := exact_of_partitionFrom parted
  obtain ⟨valid, bare⟩ := valid_partitionFrom parted ⟨⟨by simp, by simp⟩, by simp, by simp⟩ bare
  obtain ⟨logs, started, nodup, same⟩ := (meets_runLogged (paired_of_build pool spec) exact).of_ok ran
  rw [List.append_nil] at started
  have own : (log.map (·.1)).Nodup := by
    have once := nodup List.nodup_nil
    rw [started] at once
    exact List.nodup_reverse.1 once
  have erased : (Lift.run ⟨code, g, pool⟩ p (code.handlers.length + g.graph.edgeCount + 2)
      { worklist := es }).run f₂ = .ok w f₃ := by
    rw [run_eq, ← bind_pure_comp]
    exact Edit.bind_eq_ok.2 ⟨_, _, ran, rfl⟩
  have entered := started_of_lookup spec parted seeded erased
  have all : ∀ n b, p.blocks.lookup n = some b → ∃ ns, (b, ns) ∈ log := by
    intro n b found
    have mem := entered n b found
    rw [started, List.mem_reverse, List.mem_map] at mem
    obtain ⟨⟨_, ns⟩, listed, rfl⟩ := mem
    exact ⟨ns, listed⟩
  obtain rfl : f' = f₃ := by
    rw [unentered_eq_nil spec parted entered] at removed
    exact (Edit.pure_eq_ok.1 removed).2
  have uncovered : ∀ b, f₁.handlersOf b = [] := by
    intro b
    rw [List.eq_nil_iff_forall_not_mem]
    intro k mem
    obtain ⟨c, found, -⟩ := bare.shaped.covered b k mem
    rw [bare.catches] at found
    cases found
  obtain ⟨kept, answers, covering⟩ := covering_of_seed exact seeded bare.catches uncovered
    (isSome_handlerTarget? spec)
  refine ⟨own, fun e mem => ?_, logs.nodup exact own, fun n => logs.mem_flatMap_iff spec exact all,
    fun e mem => ?_, fun e mem n listed => logs.translates spec exact all ?_ ?_ mem listed⟩
  · obtain ⟨n, found, -⟩ := logs e mem
    rw [same.isSome, kept]
    exact live_of_partitionFrom parted (by simp) _ (mem_of_lookup found)
  · obtain ⟨_, -, strand⟩ := logs e mem
    exact strand.chained.imp fun x y edge => (List.mem_filter.1 edge).1
  · rw [same.catches]
    exact answers
  · intro n ordered b found
    rw [same.handlersOf, covering n ordered b found]

end Avm.Ir.Lift

namespace Avm.Ir.Func

open Lift

variable {code : Code} {g : FlowGraph}

/-- Lifting is filling a graph and tidying it up.  Filling comes by each instruction vertex of the control
flow graph once, in one block; it falls through from each vertex of a block to the next; and the handlers
of a block are those that cover its vertices, in their order. -/
theorem ofCode_covers (built : FlowGraph.build code = .ok g) {body : MethodBody} {pool : Pool} {f : Func}
    (lifted : ofCode body code g pool = .ok f) :
    build ⟨code, g, pool⟩ body = (fillLogged ⟨code, g, pool⟩ body >>= fun _ => tidy) ∧
    ∃ log f₀, (fillLogged ⟨code, g, pool⟩ body).run (.new body.method body.params body.flags
        (max body.locals (code.localCount body.params body.flags))) = .ok log f₀ ∧
      tidy.run f₀ = .ok () f ∧ Covers ⟨code, g, pool⟩ log f₀ := by
  obtain ⟨handlers, spec⟩ := FlowGraph.build_sound built
  refine ⟨build_eq, ?_⟩
  rw [ofCode] at lifted
  split at lifted
  · rename_i f' run
    obtain rfl := Except.ok.inj lifted
    rw [build_eq] at run
    obtain ⟨log, f₀, filled, tidied⟩ := Edit.bind_eq_ok.1 run
    exact ⟨log, f₀, filled, tidied, covers_of_fillLogged spec bare_empty filled⟩
  · cases lifted

/-- A conversion that one of two handlers covers is lifted. -/
theorem ofCode_covers_behindEmptyHandler : ∃ code g f log f₀,
    Code.decode MethodBody.behindEmptyHandler.code MethodBody.behindEmptyHandler.exceptions = .ok code ∧
    FlowGraph.build code = .ok g ∧ ofCode MethodBody.behindEmptyHandler code g {} = .ok f ∧
    (fillLogged ⟨code, g, {}⟩ MethodBody.behindEmptyHandler).run
      (.new 0 1 {} (max 2 (code.localCount 1 {}))) = .ok log f₀ ∧
    tidy.run f₀ = .ok () f ∧ Covers ⟨code, g, {}⟩ log f₀ := by
  have run : (do
      let code ← Code.decode MethodBody.behindEmptyHandler.code MethodBody.behindEmptyHandler.exceptions
      let g ← FlowGraph.build code
      ofCode MethodBody.behindEmptyHandler code g {}).isOk = true := by
    decide +kernel
  cases lifted : (do
      let code ← Code.decode MethodBody.behindEmptyHandler.code MethodBody.behindEmptyHandler.exceptions
      let g ← FlowGraph.build code
      ofCode MethodBody.behindEmptyHandler code g {}) with
  | error e =>
    rw [lifted] at run
    cases run
  | ok f =>
    obtain ⟨code, decoded, lifted⟩ := bind_eq_ok.1 lifted
    obtain ⟨g, built, lifted⟩ := bind_eq_ok.1 lifted
    obtain ⟨-, log, f₀, filled, tidied, covers⟩ := ofCode_covers built lifted
    exact ⟨code, g, f, log, f₀, decoded, built, lifted, filled, tidied, covers⟩

end Avm.Ir.Func
