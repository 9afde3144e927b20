import Avm.Proofs.Flow.Pruning
import Avm.Proofs.Flow.Sweep

/-!
# Sweeping removes what is not needed

Sweeping goes back and forth between two steps.  The instructions without a vertex go, and the handlers whose range is
empty then.  Neither touches what control can reach in the end: each instruction that stays has the edges and the
handlers that it had, and the first one and those that edges lead to from it stay.  With every
round there are fewer handlers, so the rounds end, and then nothing more can go.

The main statement is `exists_sweep`.
-/

namespace Avm.Code

open FlowGraph

variable {c c' c'' : Code} {g g' g'' : FlowGraph} {hs hs' : List (Handler Nat)} {id : InstrId}
  {i : Instruction Marker} {p q : Nat} {kind : EdgeKind} {place : Option Nat} {x : Vertex} {h : Handler Marker}

lemma resolveHandlerMarker_eq_ok {m : Marker} : c.resolveHandlerMarker m = .ok q ↔ c.resolve? m = some q := by
  rw [resolveHandlerMarker]
  cases c.resolve? m <;> simp

lemma resolve?_of_resolveHandler {y : Handler Nat} (found : c.resolveHandler h = .ok y) :
    c.resolve? h.start = some y.start ∧ c.resolve? h.stop = some y.stop ∧ c.resolve? h.target = some y.target := by
  obtain ⟨start, first, rest⟩ := bind_eq_ok.1 found
  obtain ⟨stop, second, rest⟩ := bind_eq_ok.1 rest
  obtain ⟨target, third, last⟩ := bind_eq_ok.1 rest
  cases last
  exact ⟨resolveHandlerMarker_eq_ok.1 first, resolveHandlerMarker_eq_ok.1 second, resolveHandlerMarker_eq_ok.1 third⟩

section Trimming

lemma filter_protects {l : List (Handler Marker)}
    (all : List.Forall₂ (fun a b => c.resolveHandler a = .ok b) l hs) :
    (((l.zip hs).filter fun e => e.2.start < e.2.stop).map (·.1)).filter (c.protects q) = l.filter (c.protects q) := by
  induction all with
  | nil => rfl
  | @cons a b l hs found _ ih =>
    rw [List.zip_cons_cons, List.filter_cons]
    by_cases covers : b.start < b.stop
    · rw [if_pos (decide_eq_true covers), List.map_cons, List.filter_cons, ih, List.filter_cons]
    · obtain ⟨start, stop, -⟩ := resolve?_of_resolveHandler found
      have outside : c.protects q a = false := by
        rw [protects, start, stop, Option.any_some, Option.any_some, ← Bool.decide_and, decide_eq_false_iff_not]
        omega
      rw [if_neg (by simpa using covers), ih, List.filter_cons, outside, if_neg Bool.false_ne_true]

lemma Way.of_branchesTo (branches : ∀ m q, c.BranchesTo m q → c'.BranchesTo m q) (way : Way c p i kind q) :
    Way c' p i kind q := by
  cases way with
  | next flow => exact .next flow
  | jump flow operands goes => exact .jump flow operands (branches _ _ goes)
  | whenTrue flow operands goes => exact .whenTrue flow operands (branches _ _ goes)
  | whenFalse flow operands => exact .whenFalse flow operands
  | switchDefault flow operands goes => exact .switchDefault flow operands (branches _ _ goes)
  | switchCase flow operands case goes => exact .switchCase flow operands case (branches _ _ goes)

lemma way_trimmed : Way (c.trimmed hs) p i kind q ↔ Way c p i kind q :=
  ⟨.of_branchesTo fun _ _ => id, .of_branchesTo fun _ _ => id⟩

lemma prescribes_trimmed : Prescribes (c.trimmed hs) (hs.filter fun x => x.start < x.stop) p i kind place ↔
    Prescribes c hs p i kind place := by
  have stays (h : Handler Nat) (mem : h ∈ hs) (covers : h.Covers p) : h ∈ hs.filter fun x => x.start < x.stop :=
    List.mem_filter.2 ⟨mem, decide_eq_true (Nat.lt_of_le_of_lt covers.1 covers.2)⟩
  constructor
  · intro goes
    cases goes with
    | way way => exact .way (way_trimmed.1 way)
    | leave flow => exact .leave flow
    | escape flow uncovered => exact .escape flow fun h mem covers => uncovered h (stays h mem covers) covers
    | caught throws mem covers => exact .caught throws (List.mem_filter.1 mem).1 covers
  · intro goes
    cases goes with
    | way way => exact .way (way_trimmed.2 way)
    | leave flow => exact .leave flow
    | escape flow uncovered => exact .escape flow fun h mem covers => uncovered h (List.mem_filter.1 mem).1 covers
    | caught throws mem covers => exact .caught throws (stays _ mem covers) covers

variable (resolved : c.resolvedHandlers = .ok hs)
include resolved

lemma covering_trimmed : (c.trimmed hs).covering q = c.covering q := by
  rw [resolvedHandlers, mapM_eq_ok] at resolved
  exact filter_protects resolved

lemma reachable_of_trimmed (reach : (c.trimmed hs).Reachable p) : c.Reachable p := by
  induction reach with
  | first => exact .first
  | handler found mem =>
    rw [resolvedHandlers_trimmed resolved] at found
    cases found
    exact .handler resolved (List.mem_filter.1 mem).1
  | next _ here way ih => exact .next ih here (way_trimmed.1 way)

end Trimming

/-- What a step of sweeping keeps: instructions and handlers only go, and each instruction that is still reached has the
edges and the handlers that it had. -/
structure Pares (c : Code) (g : FlowGraph) (c' : Code) (g' : FlowGraph) : Prop where
  first : c'.at? 0 = c.at? 0
  instrs : c'.instrs.Sublist c.instrs
  handlers : c'.handlers.Sublist c.handlers
  edges : ∀ id, g'.contains id = true → g.contains id = true ∧ ∀ kind x, g'.Leads id kind x ↔ g.Leads id kind x
  covering : ∀ e p q, c.at? p = some e → c'.at? q = some e → c'.covering q = c.covering p

namespace Pares

lemma refl (c : Code) (g : FlowGraph) : Pares c g c g where
  first := rfl
  instrs := .refl _
  handlers := .refl _
  edges id there := ⟨there, fun _ _ => Iff.rfl⟩
  covering e p q here there := by rw [at?_inj here there]

lemma trans (pares : Pares c g c' g') (pares' : Pares c' g' c'' g'') : Pares c g c'' g'' where
  first := pares'.first.trans pares.first
  instrs := pares'.instrs.trans pares.instrs
  handlers := pares'.handlers.trans pares.handlers
  edges id there := by
    obtain ⟨there', same'⟩ := pares'.edges id there
    obtain ⟨there, same⟩ := pares.edges id there'
    exact ⟨there, fun kind x => (same' kind x).trans (same kind x)⟩
  covering e p q here there := by
    obtain ⟨r, middle⟩ := List.getElem?_of_mem (pares'.instrs.subset (List.mem_of_getElem? there))
    exact (pares'.covering e r q middle there).trans (pares.covering e p r here middle)

end Pares

lemma exists_sweepOnce (covers : c.markers.Covers) (built : build c = .ok g) :
    ∃ c' n g', c.sweepOnce g = .ok (c', n) ∧ c'.size + n = c.size ∧ c'.markers.Covers ∧ c'.handlers = c.handlers ∧
      build c' = .ok g' ∧ c'.AllReached g' ∧ Pares c g c' g' := by
  obtain ⟨hs, spec⟩ := build_sound built
  have once : ((c.instrs.map (·.1)).filter fun id => !g.contains id).Nodup := c.nodup.filter _
  obtain ⟨c', removed, thins⟩ := exists_removeAll covers once fun id mem => by
    obtain ⟨e, there, rfl⟩ := List.mem_map.1 (List.mem_filter.1 mem).1
    obtain ⟨p, here⟩ := List.getElem?_of_mem there
    exact ⟨p, e.2, here⟩
  have prunes : Prunes hs g.contains c c' := by
    refine spec.prunes (thins.congr fun e mem => ?_)
    rw [Bool.not_eq_eq_eq_not, Bool.eq_iff_iff, List.contains_iff_mem, List.mem_filter,
      and_iff_right (List.mem_map_of_mem mem)]
  obtain ⟨g', built'⟩ := prunes.exists_build
  obtain ⟨hs', spec'⟩ := build_sound built'
  refine ⟨c', ((c.instrs.map (·.1)).filter fun id => !g.contains id).length, g', ?_, ?_, prunes.covers,
    prunes.handlers, built', fun e mem => ?_, ?_, ?_, ?_, ?_, ?_⟩
  · rw [sweepOnce, removed]
    rfl
  · rw [size, prunes.instrs, List.filter_map, List.length_map]
    exact (List.length_eq_length_filter_add _).symm
  · obtain ⟨q, there⟩ := List.getElem?_of_mem mem
    exact spec'.contains_iff.2 ⟨q, e.2, there, prunes.reachable_of_at? there⟩
  · obtain ⟨e, here⟩ := prunes.inside 0 .first
    exact (prunes.at?_ahead .first here).trans here.symm
  · exact prunes.instrs ▸ List.filter_sublist
  · rw [prunes.handlers]
  · intro id there
    obtain ⟨q, i, there, -⟩ := spec'.contains_iff.1 there
    obtain ⟨p, here, kept, -⟩ := prunes.exists_at? there
    exact ⟨kept, fun kind x => prunes.leads_iff spec spec' here ((prunes.kept p _ here).1 kept)⟩
  · intro e p q here there
    obtain ⟨r, here', kept, rfl⟩ := prunes.exists_at? there
    obtain rfl := at?_inj here here'
    exact prunes.covering_eq here kept

lemma exists_trimmed (built : build c = .ok g) (resolved : c.resolvedHandlers = .ok hs) :
    ∃ g', build (c.trimmed hs) = .ok g' ∧ Pares c g (c.trimmed hs) g' := by
  obtain ⟨nonempty, handlers, -, -, -, -, found, inside, -⟩ := build_eq_ok built
  obtain rfl := Except.ok.inj (found.symm.trans resolved)
  obtain ⟨handlers', spec⟩ := build_sound built
  obtain rfl := Except.ok.inj (spec.resolved.symm.trans resolved)
  have resolved' := resolvedHandlers_trimmed resolved
  obtain ⟨g', built'⟩ : ∃ g', build (c.trimmed handlers') = .ok g' :=
    FlowGraph.exists_build nonempty resolved' (fun h mem => inside h (List.mem_filter.1 mem).1)
      fun p id i reach here => spec.defined p id i (reachable_of_trimmed resolved reach) here
  obtain ⟨hs', spec'⟩ := build_sound built'
  obtain rfl := Except.ok.inj (resolved'.symm.trans spec'.resolved)
  refine ⟨g', built', rfl, .refl _, ?_, fun id there => ?_, fun e p q here there => ?_⟩
  · have first : (c.handlers.zip handlers').map (·.1) = c.handlers :=
      List.map_fst_zip (length_resolvedHandlers resolved).le
    conv_rhs => rw [← first]
    exact List.filter_sublist.map _
  · obtain ⟨p, i, here, reach'⟩ := spec'.contains_iff.1 there
    have reach := reachable_of_trimmed resolved reach'
    refine ⟨spec.contains_iff.2 ⟨p, i, here, reach⟩, fun kind x => ?_⟩
    rw [spec'.leads_iff here reach', spec.leads_iff here reach]
    exact exists_congr fun place => and_congr_left' prescribes_trimmed
  · rw [at?_inj here there]
    exact covering_trimmed resolved

/-- Each round drops a handler, so the rounds end with handlers that all cover something. -/
lemma exists_sweepHandlers {fuel : Nat} (removed : Nat) (covers : c.markers.Covers) (built : build c = .ok g)
    (all : c.AllReached g) (enough : c.handlers.length < fuel) :
    ∃ c' n g', c.sweepHandlers fuel removed = .ok (c', n) ∧ c'.size + n = c.size + removed ∧ build c' = .ok g' ∧
      c'.AllReached g' ∧ Pares c g c' g' ∧ ∃ hs, c'.resolvedHandlers = .ok hs ∧ ∀ h ∈ hs, h.start < h.stop := by
  induction fuel generalizing c g removed with
  | zero => exact absurd enough (Nat.not_lt_zero _)
  | succ fuel ih =>
    obtain ⟨-, hs, -, -, -, -, resolved, -⟩ := build_eq_ok built
    by_cases none : c.emptyCount hs = 0
    · have full := (emptyCount_eq_zero resolved).1 none
      exact ⟨c, removed, g, sweepHandlers_of_covers resolved full, rfl, built, all, .refl c g, hs, resolved, full⟩
    · obtain ⟨g₁, built₁, pares₁⟩ := exists_trimmed built resolved
      obtain ⟨c₂, more, g₂, once, fewer, covers₂, same, built₂, all₂, pares₂⟩ :=
        exists_sweepOnce (c := c.trimmed hs) covers built₁
      have less : c₂.handlers.length < fuel := by
        rw [emptyCount] at none
        rw [same]
        omega
      obtain ⟨c', n, g', rest, count, built', all', pares', full⟩ := ih (removed + more) covers₂ built₂ all₂ less
      refine ⟨c', n, g', ?_, ?_, built', all', (pares₁.trans pares₂).trans pares', full⟩
      · simp only [sweepHandlers, dropEmptyHandlers_eq resolved, ok_bind, if_neg none, built₁, once]
        exact rest
      · change c₂.size + more = c.size at fewer
        omega

/-- Sweeping succeeds, says how many instructions went, and leaves instructions and handlers in their order.  Each
instruction that stays has a vertex, with the edges and the handlers that it had; those to which edges lead from the
first one stay; each handler that stays covers an instruction; and sweeping again changes nothing.
A marker table that operations have made covers its anchors. -/
theorem exists_sweep (covers : c.markers.Covers) (built : build c = .ok g) :
    ∃ c' n g', c.sweep g = .ok (c', n) ∧ c'.size + n = c.size ∧ c'.instrs.Sublist c.instrs ∧
      c'.handlers.Sublist c.handlers ∧ build c' = .ok g' ∧
      (∀ e ∈ c'.instrs, g'.contains e.1 = true ∧ ∀ kind x, g'.Leads e.1 kind x ↔ g.Leads e.1 kind x) ∧
      (∀ e id, c.at? 0 = some e → Relation.ReflTransGen (fun a b => ∃ kind, g.Leads a kind (.instr b)) e.1 id →
        ∃ i, (id, i) ∈ c'.instrs) ∧
      (∀ h ∈ c'.handlers, ∃ q < c'.size, c'.protects q h = true) ∧
      (∀ e p q, c.at? p = some e → c'.at? q = some e → c'.covering q = c.covering p) ∧
      c'.sweep g' = .ok (c', 0) := by
  obtain ⟨c₁, removed, g₁, once, fewer, covers₁, -, built₁, all₁, pares₁⟩ := exists_sweepOnce covers built
  obtain ⟨c', n, g', rest, count, built', all, pares', hs, resolved, full⟩ :=
    exists_sweepHandlers removed covers₁ built₁ all₁ (Nat.lt_succ_self _)
  have pares := pares₁.trans pares'
  refine ⟨c', n, g', ?_, count.trans fewer, pares.instrs, pares.handlers, built', fun e mem => ?_,
    fun e id here path => ?_, fun h mem => ?_, pares.covering, ?_⟩
  · rw [sweep, once]
    exact rest
  · exact ⟨all e mem, (pares.edges e.1 (all e mem)).2⟩
  · obtain ⟨_, spec'⟩ := build_sound built'
    induction path with
    | refl => exact ⟨e.2, List.mem_of_getElem? (pares.first.trans here)⟩
    | @tail a b _ edge ih =>
      obtain ⟨i, mem⟩ := ih
      obtain ⟨kind, leads⟩ := edge
      obtain ⟨n, m, -, -, node⟩ := ((pares.edges a (all (a, i) mem)).2 kind (.instr b)).2 leads
      obtain ⟨q, j, there, -⟩ := spec'.reached m b node
      exact ⟨j, List.mem_of_getElem? there⟩
  · obtain ⟨y, listed, found⟩ := exists_mem_of_mem_left (mapM_eq_ok.1 resolved) mem
    obtain ⟨start, stop, -⟩ := resolve?_of_resolveHandler found
    refine ⟨y.start, Nat.lt_of_lt_of_le (full y listed) (le_of_resolve? stop), ?_⟩
    rw [protects, start, stop]
    simp [full y listed]
  · rw [sweep, sweepOnce_eq_ok_zero.2 ⟨rfl, all⟩]
    exact sweepHandlers_of_covers resolved full

/-- Code with a handler for an instruction that nothing reaches. -/
def orphaned : Code where
  instrs := [(0, ⟨.jump, .branch 0⟩), (1, ⟨.getLocal1, .none⟩), (2, ⟨.returnVoid, .none⟩), (3, ⟨.pop, .none⟩),
    (4, ⟨.returnVoid, .none⟩)]
  markers := {
    bindings := [.bound (.instr 2), .bound (.instr 1), .bound (.instr 3)]
    canonical := [(.instr 2, 0), (.instr 1, 1), (.instr 3, 2)] }
  handlers := [⟨1, 0, 2, 0, 0⟩]
  nextId := 5

lemma covers_orphaned : orphaned.markers.Covers := by
  intro a m bound
  match m with
  | 0 | 1 | 2 =>
    cases bound
    rfl
  | m + 3 => cases bound

/-- With the instruction the handler goes, and with the handler the instructions that it leads to. -/
theorem exists_sweep_orphaned : orphaned.markers.Covers ∧ ∃ g c' g', build orphaned = .ok g ∧
    orphaned.sweep g = .ok (c', 3) ∧ c'.size = 2 ∧ build c' = .ok g' ∧ c'.sweep g' = .ok (c', 0) := by
  have run : (build orphaned >>= fun g => orphaned.sweep g >>= fun r => .ok r.2) = .ok 3 := by decide +kernel
  obtain ⟨g, built, rest⟩ := bind_eq_ok.1 run
  obtain ⟨⟨c, n⟩, swept, three⟩ := bind_eq_ok.1 rest
  obtain ⟨c', n', g', swept', count, -, -, built', -, -, -, -, again⟩ := exists_sweep covers_orphaned built
  obtain ⟨rfl, rfl⟩ := Prod.mk.inj (Except.ok.inj (swept.symm.trans swept'))
  obtain rfl : n = 3 := Except.ok.inj three
  exact ⟨covers_orphaned, g, c, g', built, swept, Nat.add_right_cancel count, built', again⟩

end Avm.Code
