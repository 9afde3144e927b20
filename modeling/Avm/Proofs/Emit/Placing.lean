import Avm.Proofs.Opt.Upkeep

/-!
# Handlers of blocks that are not placed

Writing asks for the marker of the target of each handler that a function graph has, before it looks for
the blocks that the handler covers.  Only blocks that control can reach have markers, so a handler that
covers nothing any more, and whose target control cannot reach, makes writing fail.

The main statement is `MethodBody.emit_error_of_handler`: an optimized method with such a handler is
never written.  `MethodBody.not_emits` is that this happens.
-/

/-! ## Steps of writing -/

namespace Avm.Emit.Write

variable {α β : Type} {d d' : Draft}

lemma bind_eq_ok {x : Write α} {g : α → Write β} {b : β} : (x >>= g).run d = .ok b d' ↔
    ∃ a d₁, x.run d = .ok a d₁ ∧ (g a).run d₁ = .ok b d' := by
  change EStateM.bind x g d = _ ↔ _
  rw [EStateM.bind]
  cases h : x d with
  | ok a d₁ => simp [EStateM.run, h]
  | error e d₁ => simp [EStateM.run, h]

@[simp] lemma pure_eq_ok {a b : α} : (pure a : Write α).run d = .ok b d' ↔ b = a ∧ d' = d := by
  change EStateM.Result.ok a d = .ok b d' ↔ _
  rw [EStateM.Result.ok.injEq, eq_comm, @eq_comm _ d]

@[simp] lemma get_eq_ok {e : Draft} : (get : Write Draft).run d = .ok e d' ↔ e = d ∧ d' = d := by
  change EStateM.Result.ok d d = .ok e d' ↔ _
  rw [EStateM.Result.ok.injEq, eq_comm, @eq_comm _ d]

@[simp] lemma set_eq_ok {e : Draft} {a : PUnit} :
    (set e : Write PUnit).run d = .ok a d' ↔ d' = e := by
  change EStateM.Result.ok PUnit.unit e = .ok a d' ↔ _
  rw [EStateM.Result.ok.injEq, @eq_comm _ e]
  simp

@[simp] lemma modify_eq_ok {u : Draft → Draft} {a : PUnit} :
    (modify u : Write PUnit).run d = .ok a d' ↔ d' = u d := by
  change EStateM.Result.ok PUnit.unit (u d) = .ok a d' ↔ _
  rw [EStateM.Result.ok.injEq, @eq_comm _ (u d)]
  simp

@[simp] lemma throw_ne_ok {e : Fault} {a : α} : ¬(throw e : Write α).run d = .ok a d' := by
  change ¬EStateM.Result.error e d = .ok a d'
  simp

@[simp] lemma ofExcept_eq_ok {x : Except Fault α} {a : α} :
    (ofExcept x).run d = .ok a d' ↔ x = .ok a ∧ d' = d := by
  cases x with
  | ok b => simp [ofExcept, eq_comm]
  | error e => simp [ofExcept]

@[simp] lemma label_eq_ok {p : Plan} {b : Ir.BlockId} {m : Marker} :
    (label p b).run d = .ok m d' ↔ p.order.findIdx? (· == b) = some m ∧ d' = d := by
  rw [label]
  cases found : p.order.findIdx? (· == b) with
  | none => simp
  | some n => simp [eq_comm]

end Avm.Emit.Write

/-! ## Placed blocks -/

namespace Avm.Ir.Func

variable {f f' : Func} {a b s t source target : BlockId} {kind : EdgeKind} {depth : Nat}

/-- Control can get from a block to another, by exceptions or without. -/
def Leads (f : Func) : BlockId → BlockId → Prop := Relation.ReflTransGen fun s t => t ∈ f.succIds s

lemma leads_of_mem_succs {e : BlockId × EdgeKind} (h : e ∈ f.succs s) : f.Leads s e.1 :=
  .single (List.mem_map_of_mem h)

/-- A block on an edge stands for the block that the edge leaves. -/
def standsFor (f : Func) (source b : BlockId) : BlockId := if b = f.blocks.size then source else b

lemma standsFor_of_lt (inside : b < f.blocks.size) : f.standsFor source b = b :=
  if_neg (Nat.ne_of_lt inside)

lemma standsFor_of_isSome (live : (f.block? b).isSome) : f.standsFor source b = b :=
  if_neg (size_ne_of_isSome live)

/-- An edge of the graph with a block on an edge is an edge of the graph, or stays where it was. -/
lemma Intact.leads_of_mem_succs_onEdge (h : Intact f) (edge : (target, kind) ∈ f.succs source)
    {e : BlockId × EdgeKind} (mem : e ∈ (f.onEdge source target kind depth).succs s) :
    f.Leads (f.standsFor source s) (f.standsFor source e.1) := by
  have live : (f.block? source).isSome := isSome_of_mem_succs edge
  -- An edge of the graph leads to a block that exists, which stands for itself.
  have old : ∀ {b : BlockId} {e : BlockId × EdgeKind}, e ∈ f.succs b →
      f.Leads b (f.standsFor source e.1) := by
    intro b e mem
    rw [standsFor_of_isSome (h.live b e mem)]
    exact leads_of_mem_succs mem
  have goesOn : f.Leads source (f.standsFor source target) := old edge
  have thrown : ∀ {k : Nat} {c : Catch}, k ∈ f.handlersOf source → f.handlers[k]? = some c →
      f.Leads source (f.standsFor source c.target) := by
    intro k c covers found
    have raises : (c.target, EdgeKind.raise) ∈ f.succs source := by
      rw [h.wired source id, edgesOf_eq, mem_edgesFrom]
      exact .inr (.inr ⟨k, covers, c, found, rfl⟩)
    exact old raises
  rw [succs_onEdge live] at mem
  split at mem
  · rename_i first
    subst first
    rw [standsFor_of_isSome live]
    obtain goes | leaves | ⟨k, covers, c, found, rfl⟩ := mem_edgesFrom.1 mem
    · obtain rfl | ⟨stays, -⟩ := Terminator.mem_targets_retarget goes
      · rw [standsFor, if_pos rfl]
        exact .refl
      · exact old (h.mem_succs_of_mem_targets stays)
    · rw [retargeted, Terminator.leaving_retarget] at leaves
      refine old (b := s) (e := e) ?_
      rw [h.wired s id, edgesOf_eq, mem_edgesFrom]
      exact .inr (.inl leaves)
    · exact thrown covers found
  · split at mem
    · rename_i new
      rw [standsFor, if_pos new]
      obtain goes | leaves | ⟨k, covers, c, found, rfl⟩ := mem_edgesFrom.1 mem
      · rw [List.mem_singleton.1 goes]
        exact goesOn
      · cases leaves
      · exact thrown covers found
    · rename_i other
      rw [standsFor, if_neg other]
      exact old mem

lemma Intact.leads_of_onEdge (h : Intact f) (edge : (target, kind) ∈ f.succs source)
    (path : (f.onEdge source target kind depth).Leads a b) :
    f.Leads (f.standsFor source a) (f.standsFor source b) := by
  induction path with
  | refl => exact .refl
  | tail _ step ih =>
    obtain ⟨e, mem, rfl⟩ := List.mem_map.1 step
    exact ih.trans (h.leads_of_mem_succs_onEdge edge mem)

end Avm.Ir.Func

namespace Avm.Emit

open Avm.Ir Avm.Ir.Func

variable {f f' : Func} {b t : BlockId} {c : Catch} {p : Plan} {d d' : Draft} {pool : Pool}

/-- What splitting edges leaves as it was: the graph is in order, its handlers are the same, and of the
blocks that had a number before control reaches no more. -/
structure Widens (f f' : Func) : Prop where
  intact : f'.Intact
  handlers : f'.handlers = f.handlers
  size : f.blocks.size ≤ f'.blocks.size
  leads : ∀ b < f.blocks.size, f'.Leads Func.entry b → f.Leads Func.entry b

lemma widens_splitEdge {source target : BlockId} {kind : EdgeKind} (h : f.Intact)
    (run : (Edit.splitEdge source target kind).run f = .ok t f') : Widens f f' := by
  by_cases allowed : (target, kind) ∈ f.succs source ∧ kind ≠ .raise
  · obtain ⟨edge, normal⟩ := allowed
    obtain ⟨-, rfl⟩ := EStateM.Result.ok.inj (run.symm.trans (Edit.splitEdge_eq_ok h edge normal))
    refine ⟨h.onEdge edge normal, ?_, ?_, fun b inside path => ?_⟩
    · rw [catches_onEdge]
    · rw [size_onEdge]
      exact Nat.le_succ _
    · have back := h.leads_of_onEdge edge path
      rwa [standsFor_of_isSome h.entry.1, standsFor_of_lt inside] at back
  · have refused : (!(f.succs source).contains (target, kind) || kind == .raise) = true := by
      rw [not_and_or, not_ne_iff] at allowed
      simpa using allowed
    rw [Edit.splitEdge, Edit.bind_eq_ok] at run
    obtain ⟨_, _, got, run⟩ := run
    obtain ⟨rfl, rfl⟩ := Edit.get_eq_ok.1 got
    rw [if_pos refused, Edit.bind_eq_ok] at run
    obtain ⟨_, _, thrown, -⟩ := run
    exact absurd thrown Edit.throw_ne_ok

lemma widens_splitEdges {es : List (BlockId × BlockId × EdgeKind)} {u : Unit} (h : f.Intact)
    (run : (splitEdges es).run f = .ok u f') : Widens f f' := by
  induction es generalizing f with
  | nil =>
    obtain ⟨-, rfl⟩ := Edit.pure_eq_ok.1 run
    exact ⟨h, rfl, Nat.le_refl _, fun _ _ path => path⟩
  | cons e es ih =>
    obtain ⟨source, target, kind⟩ := e
    rw [splitEdges, Edit.bind_eq_ok] at run
    obtain ⟨middle, f₁, first, run⟩ := run
    have wide := widens_splitEdge h first
    have rest := ih wide.intact run
    refine ⟨rest.intact, rest.handlers.trans wide.handlers, wide.size.trans rest.size,
      fun b inside path => ?_⟩
    exact wide.leads b inside (rest.leads b (Nat.lt_of_lt_of_le inside wide.size) path)

lemma widens_splitCriticalEdges {u : Unit} (h : f.Intact)
    (run : splitCriticalEdges.run f = .ok u f') : Widens f f' := by
  rw [splitCriticalEdges, Edit.bind_eq_ok] at run
  obtain ⟨_, _, got, run⟩ := run
  obtain ⟨rfl, rfl⟩ := Edit.get_eq_ok.1 got
  exact widens_splitEdges h run

lemma exists_mem_targets_of_preferred {term : Terminator} (next : preferred? term = some t) :
    ∃ kind, (t, kind) ∈ term.targets := by
  cases term with
  | goto s | jump s =>
    obtain rfl := Option.some.inj next
    exact ⟨_, List.mem_singleton_self _⟩
  | branch k operands onTrue onFalse =>
    obtain rfl := Option.some.inj next
    exact ⟨.whenFalse, by simp [Terminator.targets]⟩
  | switch index default cases => cases next
  | leave v | raise v => cases next
  | none => cases next

lemma mem_succs_of_preferred (h : f.Intact) {x : Block} (here : f.block? b = some x)
    (next : preferred? x.terminator = some t) : ∃ kind, (t, kind) ∈ f.succs b := by
  obtain ⟨kind, mem⟩ := exists_mem_targets_of_preferred next
  rw [← terminator_of_block? here] at mem
  exact ⟨kind, h.mem_succs_of_mem_targets mem⟩

/-- Only blocks that control can reach are placed: what waits behind a placed block is a block at which
it goes on. -/
lemma leads_of_mem_place (h : f.Intact) (fuel : Nat) (placed waiting : List BlockId)
    (reached : ∀ b ∈ placed ++ waiting, f.Leads Func.entry b) :
    ∀ b ∈ place f fuel placed waiting, f.Leads Func.entry b := by
  induction fuel generalizing placed waiting with
  | zero =>
    intro b mem
    exact reached b (List.mem_append_left _ mem)
  | succ fuel ih =>
    cases waiting with
    | nil =>
      intro b mem
      exact reached b (List.mem_append_left _ mem)
    | cons c waiting =>
      have here : f.Leads Func.entry c := reached c (by simp)
      have others : ∀ b ∈ placed ++ [c] ++ waiting, f.Leads Func.entry b := by
        intro b mem
        exact reached b (by simpa using mem)
      rw [place]
      split
      · refine ih placed waiting fun b mem => reached b ?_
        obtain mem | mem := List.mem_append.1 mem
        · exact List.mem_append_left _ mem
        · exact List.mem_append_right _ (List.mem_cons_of_mem _ mem)
      · split
        · exact ih (placed ++ [c]) waiting others
        · rename_i x found
          have edges : ∀ e ∈ x.succs, f.Leads Func.entry e.1 := by
            intro e mem
            rw [← succs_of_block? found] at mem
            exact here.trans (leads_of_mem_succs mem)
          refine ih (placed ++ [c]) _ fun b mem => ?_
          simp only [List.mem_append, List.mem_map, List.mem_filter, List.mem_reverse,
            Option.mem_toList, Option.filter_eq_some_iff] at mem
          obtain mem | ((⟨next, -⟩ | ⟨e, ⟨⟨mem, -⟩, -⟩, rfl⟩) | mem) | ⟨e, ⟨⟨mem, -⟩, -⟩, rfl⟩ := mem
          · exact others b (List.mem_append_left _ (by simpa using mem))
          · obtain ⟨kind, edge⟩ := mem_succs_of_preferred h found next
            exact here.trans (leads_of_mem_succs edge)
          · exact edges e mem
          · exact others b (List.mem_append_right _ mem)
          · exact edges e mem

lemma leads_of_mem_order (h : f.Intact) (mem : b ∈ order f) : f.Leads Func.entry b := by
  refine leads_of_mem_place h _ [] [Func.entry] (fun b mem => ?_) b mem
  rw [List.mem_singleton.1 mem]
  exact .refl

lemma orderFrom_spec (nesting : List (Nat × Nat)) (fuel : Nat) (left : List Nat) :
    orderFrom nesting fuel left ⊆ left ∧ (orderFrom nesting fuel left).Nodup := by
  induction fuel generalizing left with
  | zero => exact ⟨List.nil_subset _, List.nodup_nil⟩
  | succ fuel ih =>
    rw [orderFrom]
    split
    · exact ⟨List.nil_subset _, List.nodup_nil⟩
    · rename_i h found
      obtain ⟨inside, nodup⟩ := ih (left.filter (· != h))
      refine ⟨List.cons_subset.2 ⟨List.mem_of_find?_eq_some found, ?_⟩, List.nodup_cons.2 ⟨?_, nodup⟩⟩
      · exact fun x mem => List.mem_of_mem_filter (inside mem)
      · intro mem
        simpa using (List.mem_filter.1 (inside mem)).2

lemma mem_handlerOrder {hs : List Nat} (ordered : handlerOrder p = .ok hs) {k : Nat}
    (inside : k < p.func.handlers.length) : k ∈ hs := by
  simp only [handlerOrder] at ordered
  split at ordered
  · rename_i full
    cases ordered
    obtain ⟨sub, nodup⟩ := orderFrom_spec (nesting p) p.func.handlers.length
      (List.range p.func.handlers.length)
    refine ((nodup.subperm sub).perm_of_length_le ?_).symm.subset (List.mem_range.2 inside)
    rw [full, List.length_range]
  · cases ordered

lemma mem_order_of_handlers {hs : List Nat} {u : Unit}
    (run : (Write.handlers p hs).run d = .ok u d') {k : Nat} (mem : k ∈ hs)
    (found : p.func.handlers[k]? = some c) : c.target ∈ p.order := by
  induction hs generalizing d with
  | nil => cases mem
  | cons h hs ih =>
    rw [Write.handlers] at run
    split at run
    · rename_i missing
      obtain rfl | mem := List.mem_cons.1 mem
      · rw [missing] at found
        cases found
      · exact ih run mem
    · rename_i c' here
      obtain ⟨m, d₁, labelled, run⟩ := Write.bind_eq_ok.1 run
      obtain ⟨-, d₂, -, run⟩ := Write.bind_eq_ok.1 run
      obtain rfl | mem := List.mem_cons.1 mem
      · obtain rfl : c' = c := Option.some.inj (here.symm.trans found)
        obtain ⟨position, same, -⟩ := List.findIdx?_eq_some_iff_getElem.1 (Write.label_eq_ok.1 labelled).1
        rw [← beq_iff_eq.1 same]
        exact List.getElem_mem position
      · exact ih run mem

/-- A function graph in order is written only if control can reach the target of each of its handlers,
whether the handler still covers a block or not. -/
lemma leads_of_emit {code : Code} (h : f.Intact) (written : (emit f pool).1 = .ok code)
    (listed : c ∈ f.handlers) (inside : c.target < f.blocks.size) :
    f.Leads Func.entry c.target := by
  simp only [emit] at written
  split at written
  · cases written
  · rename_i u f' split
    have wide := widens_splitCriticalEdges h split
    split at written
    · rename_i u' d run
      obtain ⟨_, d₁, -, run⟩ := Write.bind_eq_ok.1 run
      obtain ⟨_, d₂, -, run⟩ := Write.bind_eq_ok.1 run
      obtain ⟨hs, d₃, asked, written⟩ := Write.bind_eq_ok.1 run
      obtain ⟨ordered, -⟩ := Write.ofExcept_eq_ok.1 asked
      obtain ⟨k, found⟩ := List.mem_iff_getElem?.1 listed
      rw [← wide.handlers] at found
      have kth : k < f'.handlers.length := (List.getElem?_eq_some_iff.1 found).1
      have placed := mem_order_of_handlers written (mem_handlerOrder ordered kth) found
      exact wide.leads _ inside (leads_of_mem_order wide.intact placed)
    · cases written

end Avm.Emit

namespace Avm.MethodBody

open Avm.Ir

variable {body : MethodBody} {pool : Pool} {env : Environment} {config : Config} {o : Optimized}

/-- An optimized method is not written, into whatever pool, if it has a handler whose target control
cannot reach. -/
theorem emit_error_of_handler (optimized : body.optimize pool env config = .ok o) {c : Catch}
    (listed : c ∈ o.func.handlers) (inside : c.target < o.func.blocks.size)
    (gone : ¬o.func.Leads Func.entry c.target) (pool' : Pool) :
    ∃ fault, (Emit.emit o.func pool').1 = .error fault ∧
      (body.emit o.func pool' config).1 = .error fault := by
  cases written : (Emit.emit o.func pool').1 with
  | ok code => exact absurd (Emit.leads_of_emit (Opt.intact_of_optimize optimized) written listed inside) gone
  | error fault =>
    refine ⟨fault, rfl, ?_⟩
    rw [MethodBody.emit]
    simp only [written]
    rfl

/-- A method that always passes over the code that its handler covers. -/
def deadHandler : MethodBody where
  params := 1
  locals := 2
  code := [0x26, 0x11, 0x03, 0x00, 0x00, 0xd1, 0x03, 0x29, 0x47]
  exceptions := [⟨5, 7, 7, 0, 0⟩]

lemma optimize_deadHandler : ∃ o, deadHandler.optimize {} .unknown {} = .ok o ∧
    o.func.handlers = [⟨4, 0, 0⟩] ∧ o.func.blocks.size = 6 ∧ o.func.block? 4 = none := by
  have facts : (deadHandler.optimize {} .unknown {}).toOption.map (fun o =>
      (o.func.handlers, o.func.blocks.size, o.func.block? 4)) = some ([⟨4, 0, 0⟩], 6, none) := by
    decide +kernel
  generalize deadHandler.optimize {} .unknown {} = result at facts
  cases result with
  | error fault => cases facts
  | ok o =>
    simp only [Except.toOption, Option.map_some, Option.some.injEq, Prod.mk.injEq] at facts
    exact ⟨o, rfl, facts⟩

/-- The block of the handler is gone, and the handler is still listed. -/
theorem emit_error_of_handler_dead : ∃ o fault, deadHandler.optimize {} .unknown {} = .ok o ∧
    (Emit.emit o.func {}).1 = .error fault ∧
      (deadHandler.emit o.func {} {}).1 = .error fault := by
  obtain ⟨o, optimized, handlers, size, gone⟩ := optimize_deadHandler
  have intact := Opt.intact_of_optimize optimized
  have apart : ¬o.func.Leads Func.entry 4 := by
    intro path
    obtain same | ⟨s, -, step⟩ := Relation.ReflTransGen.cases_tail path
    · cases same
    · obtain ⟨e, mem, target⟩ := List.mem_map.1 step
      have live := intact.live s e mem
      rw [target, gone] at live
      cases live
  have listed : (⟨4, 0, 0⟩ : Catch) ∈ o.func.handlers := by
    rw [handlers]
    exact List.mem_cons_self
  have inside : 4 < o.func.blocks.size := by
    rw [size]
    decide
  obtain ⟨fault, written, processed⟩ := emit_error_of_handler optimized listed inside apart {}
  exact ⟨o, fault, optimized, written, processed⟩

/-- Not every optimized method can be written. -/
theorem not_emits : ¬∀ (body : MethodBody) (pool : Pool) (env : Environment) (config : Config)
    (o : Optimized), body.optimize pool env config = .ok o →
      ∃ code, (Emit.emit o.func pool).1 = .ok code := by
  intro all
  have facts : (deadHandler.optimize {} .unknown {}).toOption.map (fun o =>
      (Emit.emit o.func {}).1) = some (.error (.emit (.notPlaced 4))) := by
    decide +kernel
  obtain ⟨o, optimized, -⟩ := optimize_deadHandler
  obtain ⟨code, written⟩ := all deadHandler {} .unknown {} o optimized
  rw [optimized] at facts
  simp only [Except.toOption, Option.map_some, Option.some.injEq] at facts
  rw [facts] at written
  cases written

end Avm.MethodBody
