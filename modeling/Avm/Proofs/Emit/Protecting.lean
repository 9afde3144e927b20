import Avm.Proofs.Emit.Labelling
import Avm.Proofs.Emit.Parting
import Avm.Proofs.Flow.Pruning

/-!
# What handlers protect

A handler is written for each run of blocks that name it, unless the run has no instructions.  So an instruction of a
block lies in the range of just one entry for each handler of the block, and the entries come in the order in which the
block lists its handlers: handlers are put in an order in which each comes before those that it lies inside of in some
block.

The main statement is `covering_of_emit`.
-/

namespace Avm.Emit

open Avm.Ir Avm.Ir.Func

variable {f : Func} {p : Plan} {d d' d'' : Draft} {b : BlockId} {c : Catch} {pool : Pool} {target : Marker} {i j : Nat}
  {start : Option Nat} {bits : List Bool} {rs : List (Nat × Nat)} {hs : List Nat}

section Order

variable {h k : Nat} {left before after : List Nat} {nesting : List (Nat × Nat)}

/-- A handler is chosen only when what lies inside of it has been. -/
lemma mem_of_orderFrom {fuel : Nat} (inner : (h, k) ∈ nesting) (waits : h ∈ left)
    (chosen : orderFrom nesting fuel left = before ++ k :: after) : h ∈ before := by
  induction fuel generalizing left before with
  | zero => simp [orderFrom] at chosen
  | succ fuel ih =>
    rw [orderFrom] at chosen
    split at chosen
    · simp at chosen
    · rename_i first found
      cases before with
      | nil =>
        obtain ⟨rfl, -⟩ := List.cons.inj chosen
        -- Nothing that waits lies inside of the one that is chosen.
        have free := List.find?_some found
        rw [Bool.not_eq_true', List.any_eq_false] at free
        have blocked := free _ inner
        simp [waits] at blocked
      | cons g before =>
        obtain ⟨rfl, rest⟩ := List.cons.inj chosen
        by_cases here : h = first
        · exact here ▸ List.mem_cons_self
        · apply List.mem_cons_of_mem
          apply ih _ rest
          exact List.mem_filter.2 ⟨waits, bne_iff_ne.2 here⟩

lemma eq_take_append_pair {l : List Nat} {i : Nat} (more : i + 1 < l.length) :
    l = l.take i ++ l[i] :: l[i + 1] :: l.drop (i + 2) := by
  rw [← List.drop_eq_getElem_cons, ← List.drop_eq_getElem_cons, List.take_append_drop]

/-- Of two handlers that a block lists one behind the other, the first one lies inside the second. -/
lemma mem_nesting (placed : b ∈ p.order) (listed : p.func.handlersOf b = before ++ h :: k :: after) (other : h ≠ k) :
    (h, k) ∈ Emit.nesting p := by
  refine List.mem_filter.2 ⟨List.mem_flatMap.2 ⟨b, placed, ?_⟩, bne_iff_ne.2 other⟩
  rw [neighbours, listed]
  clear listed
  induction before with
  | nil => exact List.mem_cons_self
  | cons g before ih =>
    rw [List.cons_append, List.drop_one, List.tail_cons]
    cases before with
    | nil => exact List.mem_cons_of_mem _ List.mem_cons_self
    | cons g' before =>
      apply List.mem_cons_of_mem
      exact ih

/-- Of the handlers in their order, those that cover a block come as the block lists them. -/
theorem filter_handlerOrder (ordered : handlerOrder p = .ok hs) (placed : b ∈ p.order)
    (once : (p.func.handlersOf b).Nodup)
    (covered : ∀ h ∈ p.func.handlersOf b, h < p.func.handlers.length) :
    hs.filter (fun h => (p.func.handlersOf b).contains h) = p.func.handlersOf b := by
  have all (k : Nat) (inside : k < p.func.handlers.length) : k ∈ hs := mem_handlerOrder ordered inside
  obtain ⟨fuel, eq⟩ : ∃ fuel, hs = orderFrom (Emit.nesting p) fuel (List.range p.func.handlers.length) := by
    simp only [handlerOrder] at ordered
    split at ordered
    · exact ⟨_, (Except.ok.inj ordered).symm⟩
    · cases ordered
  have distinct : hs.Nodup := eq ▸ (orderFrom_spec _ _ _).2
  -- Both lists are in the order in which handlers stand in `hs`.
  have sorted : hs.Pairwise fun h k => hs.idxOf h < hs.idxOf k := by
    refine List.pairwise_iff_getElem.2 fun i j inside inside' less => ?_
    rwa [distinct.idxOf_getElem, distinct.idxOf_getElem]
  have listed : (p.func.handlersOf b).Pairwise fun h k => hs.idxOf h < hs.idxOf k := by
    refine List.isChain_iff_pairwise.1 (List.isChain_iff_getElem.2 fun i more => ?_)
    have split := eq_take_append_pair more
    have other := List.pairwise_iff_getElem.1 once i (i + 1) (by omega) more (Nat.lt_succ_self i)
    obtain ⟨before, after, chosen⟩ := List.append_of_mem (all _ (covered _ (List.getElem_mem more)))
    have inside := mem_of_orderFrom (mem_nesting placed split other)
      (List.mem_range.2 (covered _ (List.getElem_mem (Nat.lt_of_succ_lt more)))) (eq ▸ chosen)
    have new : (p.func.handlersOf b)[i + 1] ∉ before := by
      rw [chosen] at distinct
      exact fun mem => (List.nodup_append.1 distinct).2.2 _ mem _ List.mem_cons_self rfl
    rw [chosen, List.idxOf_append_of_mem inside, List.idxOf_append_of_notMem new, List.idxOf_cons_self, Nat.add_zero]
    exact List.idxOf_lt_length_iff.2 inside
  have perm : (hs.filter fun h => (p.func.handlersOf b).contains h).Perm (p.func.handlersOf b) := by
    refine (List.perm_ext_iff_of_nodup (distinct.filter _) once).2 fun h => ?_
    rw [List.mem_filter, List.contains_iff_mem, and_iff_right_iff_imp]
    exact fun mem => all h (covered h mem)
  exact perm.eq_of_pairwise (fun h k _ _ less less' => absurd less (Nat.lt_asymm less')) (sorted.filter _) listed

end Order

section Runs

/-- The element lies in the run. -/
def within (j : Nat) (r : Nat × Nat) : Bool := r.1 ≤ j && j < r.2

lemma lt_of_or (before : ∀ s, start = some s → s < i) {s : Nat} (here : start.or (some i) = some s) : s < i + 1 := by
  cases start with
  | none =>
    cases here
    exact Nat.lt_succ_self i
  | some s' =>
    cases here
    exact Nat.lt_succ_of_lt (before s rfl)

lemma length_filter_closed : ((start.map fun s => (s, i)).toList.filter (within j)).length =
    if j < i && start.any (· ≤ j) then 1 else 0 := by
  cases start with
  | none => simp
  | some s =>
    rw [Option.map_some, Option.toList_some, List.filter_singleton, within, Bool.and_comm, Option.any_some]
    cases decide (j < i) && decide (s ≤ j) <;> rfl

lemma bounds_of_mem_closed {r : Nat × Nat} (before : ∀ s, start = some s → s < i)
    (mem : r ∈ (start.map fun s => (s, i)).toList) : r.1 < r.2 ∧ r.2 = i := by
  obtain ⟨s, here, rfl⟩ := Option.map_eq_some_iff.1 (Option.mem_toList.1 mem)
  exact ⟨before s here, rfl⟩

/-- An element lies in one run if it is set and in none otherwise; those before are in the run that is open. -/
lemma length_filter_runsFrom (before : ∀ s, start = some s → s < i) :
    ((runsFrom start i bits).filter (within j)).length =
    if (if j < i then start.any (· ≤ j) else bits[j - i]? == some true) then 1 else 0 := by
  induction bits generalizing start i with
  | nil =>
    rw [runsFrom, length_filter_closed]
    by_cases less : j < i <;> simp [less]
  | cons bit bits ih =>
    have later (less : i < j) : (bit :: bits)[j - i]? = bits[j - (i + 1)]? := by
      rw [show j - i = j - (i + 1) + 1 by omega, List.getElem?_cons_succ]
    cases bit with
    | true =>
      rw [runsFrom, ih fun s here => lt_of_or before here]
      rcases Nat.lt_trichotomy j i with less | rfl | more
      · rw [if_pos less, if_pos (Nat.lt_succ_of_lt less)]
        cases start with
        | none => simp [less]
        | some s => rfl
      · have open_ : (start.or (some j)).any (· ≤ j) = true := by
          cases start with
          | none => simp
          | some s => simpa using (before s rfl).le
        rw [if_pos (Nat.lt_succ_self j), if_neg (Nat.lt_irrefl j), open_, Nat.sub_self]
        rfl
      · rw [if_neg (Nat.not_lt.2 more), if_neg (Nat.not_lt.2 more.le), later more]
    | false =>
      rw [runsFrom, List.filter_append, List.length_append, length_filter_closed, ih fun _ here => by cases here]
      rcases Nat.lt_trichotomy j i with less | rfl | more
      · simp [less, Nat.lt_succ_of_lt less]
      · simp
      · rw [if_neg (by simp; omega), if_neg (Nat.not_lt.2 more), if_neg (Nat.not_lt.2 more.le), later more,
          Nat.zero_add]

lemma bounds_of_mem_runsFrom {r : Nat × Nat} (before : ∀ s, start = some s → s < i) (mem : r ∈ runsFrom start i bits) :
    r.1 < r.2 ∧ r.2 ≤ i + bits.length := by
  induction bits generalizing start i with
  | nil =>
    obtain ⟨less, rfl⟩ := bounds_of_mem_closed before mem
    exact ⟨less, Nat.le_refl _⟩
  | cons bit bits ih =>
    rw [List.length_cons, Nat.add_comm bits.length, ← Nat.add_assoc]
    cases bit with
    | true => exact ih (fun s here => lt_of_or before here) mem
    | false =>
      rcases List.mem_append.1 mem with ended | later
      · obtain ⟨less, rfl⟩ := bounds_of_mem_closed before ended
        exact ⟨less, by omega⟩
      · exact ih (fun _ here => by cases here) later

lemma bounds_of_mem_coveredRuns {h : Nat} {r : Nat × Nat} (mem : r ∈ coveredRuns p h) :
    r.1 < r.2 ∧ r.2 ≤ p.order.length := by
  have bounds := bounds_of_mem_runsFrom (fun _ here => by cases here) mem
  rwa [List.length_map, Nat.zero_add] at bounds

/-- A block lies in one run of a handler that it names, and in no run of another one. -/
lemma length_filter_coveredRuns {h : Nat} (placed : p.order[j]? = some b) :
    ((coveredRuns p h).filter (within j)).length = if h ∈ p.func.handlersOf b then 1 else 0 := by
  rw [coveredRuns, length_filter_runsFrom (fun _ here => by cases here), if_neg (Nat.not_lt_zero j), Nat.sub_zero,
    List.getElem?_map, placed]
  simp

end Runs

/-- The run of blocks has instructions. -/
def Draft.holds (d : Draft) (r : Nat × Nat) : Bool := d.bounds[r.1]? != d.bounds[r.2]?

/-- What writing handlers leaves as it was. -/
structure Draft.Keeps (d d' : Draft) : Prop where
  instrs : d'.code.instrs = d.code.instrs
  starts : d'.starts = d.starts
  targets : ∀ m a, d.code.markers.target? m = some a → d'.code.markers.target? m = some a

namespace Draft.Keeps

lemma refl (d : Draft) : Keeps d d := ⟨rfl, rfl, fun _ _ same => same⟩

lemma trans (keeps : Keeps d d') (keeps' : Keeps d' d'') : Keeps d d'' :=
  ⟨keeps'.instrs.trans keeps.instrs, keeps'.starts.trans keeps.starts,
    fun m a bound => keeps'.targets m a (keeps.targets m a bound)⟩

lemma size (keeps : Keeps d d') : d'.code.size = d.code.size := congrArg List.length keeps.instrs

lemma bounds (keeps : Keeps d d') : d'.bounds = d.bounds := by
  rw [Draft.bounds, Draft.bounds, keeps.starts, keeps.size]

lemma holds (keeps : Keeps d d') : d'.holds = d.holds := by
  funext r
  rw [Draft.holds, Draft.holds, keeps.bounds]

lemma resolve? (keeps : Keeps d d') {m : Marker} {s : Nat} (found : d.code.resolve? m = some s) :
    d'.code.resolve? m = some s := by
  cases bound : d.code.markers.target? m with
  | none =>
    rw [Code.resolve?, bound] at found
    cases found
  | some a =>
    rw [Code.resolve?, keeps.targets m a bound]
    rw [Code.resolve?, bound] at found
    unfold Code.position? Code.size at found ⊢
    rw [keeps.instrs]
    exact found

end Draft.Keeps

lemma Draft.Settled.keep (settled : d.Settled p) (keeps : d.Keeps d') (agrees : d'.code.markers.Agrees) :
    d'.Settled p where
  agrees := agrees
  count := keeps.starts ▸ settled.count
  rising := keeps.bounds ▸ settled.rising
  resolves m s starts := keeps.resolve? (settled.resolves m s (keeps.starts ▸ starts))

lemma Draft.Settled.resolve?_bounds (settled : d.Settled p) (placed : i < p.order.length) :
    d.code.resolve? i = d.bounds[i]? := by
  have started : i < d.starts.length := settled.count ▸ placed
  rw [Draft.bounds, List.getElem?_append_left started, List.getElem?_eq_getElem started]
  exact settled.resolves i _ (List.getElem?_eq_getElem started)

lemma stopLabel_eq_ok {m : Marker} (settled : d.Settled p) (once : p.order.Nodup) (inside : i ≤ p.order.length)
    (run : (Write.stopLabel p i).run d = .ok m d') :
    d'.Settled p ∧ d.Keeps d' ∧ d'.code.handlers = d.code.handlers ∧ d'.code.resolve? m = d.bounds[i]? := by
  rw [Write.stopLabel] at run
  split at run
  · rename_i b found
    obtain ⟨more, rfl⟩ := List.getElem?_eq_some_iff.1 found
    obtain ⟨index, rfl⟩ := Write.label_eq_ok.1 run
    have split : p.order = p.order.take i ++ p.order[i] :: p.order.drop (i + 1) := by
      rw [← List.drop_eq_getElem_cons, List.take_append_drop]
    obtain rfl : i = m := by
      rw [findIdx?_order once split, List.length_take_of_le inside] at index
      exact Option.some.inj index
    exact ⟨settled, .refl d', rfl, settled.resolve?_bounds more⟩
  · rename_i none
    obtain rfl : i = p.order.length := Nat.le_antisymm inside (List.getElem?_eq_none_iff.1 none)
    change EStateM.Result.ok (d.code.markers.mark .codeEnd).2
      { d with code := { d.code with markers := (d.code.markers.mark .codeEnd).1 } } = _ at run
    obtain ⟨rfl, rfl⟩ := EStateM.Result.ok.inj run
    have keeps : d.Keeps { d with code := { d.code with markers := (d.code.markers.mark .codeEnd).1 } } := by
      refine ⟨rfl, rfl, fun k a bound => ?_⟩
      have there := (List.getElem?_eq_some_iff.1 (MarkerTable.target?_eq_some.1 bound)).1
      rw [MarkerTable.target?_mark, if_neg fun new => Nat.ne_of_lt there new.2]
      exact bound
    refine ⟨settled.keep keeps settled.agrees.mark, keeps, rfl, ?_⟩
    rw [Code.resolve?, settled.agrees.target?_mark_self, Draft.bounds, ← settled.count,
      List.getElem?_append_right (Nat.le_refl _), Nat.sub_self]
    rfl

/-- The entry is for a handler and a run of blocks. -/
structure Draft.Fits (p : Plan) (d : Draft) (w : Nat × Nat × Nat) (e : Handler Marker) : Prop where
  inside : w.2.1 < w.2.2 ∧ w.2.2 ≤ p.order.length
  start : d.code.resolve? e.start = d.bounds[w.2.1]?
  stop : d.code.resolve? e.stop = d.bounds[w.2.2]?
  names : ∃ c, p.func.handlers[w.1]? = some c ∧ p.order.findIdx? (· == c.target) = some e.target ∧
    e.excType = c.excType ∧ e.varName = c.varName

lemma Draft.Settled.getElem?_bounds (settled : d.Settled p) (inside : i ≤ p.order.length) :
    ∃ s, d.bounds[i]? = some s := by
  refine ⟨_, List.getElem?_eq_getElem ?_⟩
  rw [Draft.bounds, List.length_append, settled.count]
  exact Nat.lt_succ_of_le inside

lemma Draft.Fits.keep {w : Nat × Nat × Nat} {e : Handler Marker} (fits : d.Fits p w e) (settled : d.Settled p)
    (keeps : d.Keeps d') : d'.Fits p w e := by
  obtain ⟨s, here⟩ := settled.getElem?_bounds (Nat.le_trans fits.inside.1.le fits.inside.2)
  obtain ⟨t, there⟩ := settled.getElem?_bounds fits.inside.2
  refine ⟨fits.inside, ?_, ?_, fits.names⟩
  · rw [keeps.bounds, here]
    exact keeps.resolve? (fits.start.trans here)
  · rw [keeps.bounds, there]
    exact keeps.resolve? (fits.stop.trans there)

/-- The draft with one more entry. -/
def Draft.protect (d : Draft) (e : Handler Marker) : Draft :=
  { d with code := { d.code with handlers := d.code.handlers ++ [e] } }

lemma Draft.keeps_protect {e : Handler Marker} : d.Keeps (d.protect e) := ⟨rfl, rfl, fun _ _ same => same⟩

lemma handlerRuns_cons_eq_ok {r : Nat × Nat} {u : Unit}
    (run : (Write.handlerRuns p c target (r :: rs)).run d = .ok u d') :
    if d.holds r then ∃ m d₁, (Write.stopLabel p r.2).run d = .ok m d₁ ∧
      (Write.handlerRuns p c target rs).run (d₁.protect ⟨r.1, m, target, c.excType, c.varName⟩) = .ok u d'
    else (Write.handlerRuns p c target rs).run d = .ok u d' := by
  rw [Write.handlerRuns, Write.bind_eq_ok] at run
  obtain ⟨e, d₀, got, rest⟩ := run
  obtain ⟨same, same'⟩ := Write.get_eq_ok.1 got
  rw [same, same'] at rest
  dsimp only at rest
  split at rest
  · rename_i some
    rw [if_pos (show d.holds r = true from some)]
    obtain ⟨m, d₁, stop, rest⟩ := Write.bind_eq_ok.1 rest
    obtain ⟨_, d₂, modified, last⟩ := Write.bind_eq_ok.1 rest
    rw [Write.modify_eq_ok] at modified
    subst modified
    exact ⟨m, d₁, stop, last⟩
  · rename_i none
    rwa [if_neg (show ¬d.holds r = true from none)]

lemma handlerRuns_eq_ok {h : Nat} {u : Unit} (settled : d.Settled p) (once : p.order.Nodup)
    (found : p.func.handlers[h]? = some c) (index : p.order.findIdx? (· == c.target) = some target)
    (inside : ∀ r ∈ rs, r.1 < r.2 ∧ r.2 ≤ p.order.length) (run : (Write.handlerRuns p c target rs).run d = .ok u d') :
    d'.Settled p ∧ d.Keeps d' ∧ ∃ es, d'.code.handlers = d.code.handlers ++ es ∧
      List.Forall₂ (d'.Fits p) ((rs.filter d.holds).map (h, ·)) es := by
  induction rs generalizing d with
  | nil =>
    obtain ⟨-, rfl⟩ := Write.pure_eq_ok.1 run
    exact ⟨settled, .refl d', [], (List.append_nil _).symm, .nil⟩
  | cons r rs ih =>
    obtain ⟨⟨less, last⟩, others⟩ := List.forall_mem_cons.1 inside
    have cases := handlerRuns_cons_eq_ok run
    split at cases
    · rename_i some
      obtain ⟨m, d₁, stop, rest⟩ := cases
      obtain ⟨settled₁, keeps₁, handlers₁, resolves⟩ := stopLabel_eq_ok settled once last stop
      have keeps₂ := keeps₁.trans (Draft.keeps_protect (e := ⟨r.1, m, target, c.excType, c.varName⟩))
      have settled₂ := settled.keep keeps₂ settled₁.agrees
      obtain ⟨settled', keeps', es, handlers', fits⟩ := ih settled₂ others rest
      refine ⟨settled', keeps₂.trans keeps', ⟨r.1, m, target, c.excType, c.varName⟩ :: es, ?_, ?_⟩
      · rw [handlers', Draft.protect, handlers₁, List.append_assoc]
        rfl
      · rw [List.filter_cons_of_pos some, List.map_cons]
        refine .cons (Draft.Fits.keep ⟨⟨less, last⟩, ?_, ?_, c, found, index, rfl, rfl⟩ settled₂ keeps')
          (keeps₂.holds ▸ fits)
        · exact settled₂.resolve?_bounds (Nat.lt_of_lt_of_le less last)
        · rw [keeps₂.bounds]
          exact resolves
    · rename_i none
      obtain ⟨settled', keeps', es, handlers', fits⟩ := ih settled others cases
      refine ⟨settled', keeps', es, handlers', ?_⟩
      rwa [List.filter_cons_of_neg none]

lemma handlers_eq_ok {u : Unit} (settled : d.Settled p) (once : p.order.Nodup)
    (known : ∀ h ∈ hs, h < p.func.handlers.length) (run : (Write.handlers p hs).run d = .ok u d') :
    d'.Settled p ∧ d.Keeps d' ∧ ∃ es, d'.code.handlers = d.code.handlers ++ es ∧
      List.Forall₂ (d'.Fits p) (hs.flatMap fun h => ((coveredRuns p h).filter d.holds).map (h, ·)) es := by
  induction hs generalizing d with
  | nil =>
    obtain ⟨-, rfl⟩ := Write.pure_eq_ok.1 run
    exact ⟨settled, .refl d', [], (List.append_nil _).symm, .nil⟩
  | cons h hs ih =>
    obtain ⟨here, others⟩ := List.forall_mem_cons.1 known
    rw [Write.handlers, List.getElem?_eq_getElem here] at run
    obtain ⟨target, d₁, labelled, rest⟩ := Write.bind_eq_ok.1 run
    obtain ⟨index, rfl⟩ := Write.label_eq_ok.1 labelled
    obtain ⟨_, d₂, first, last⟩ := Write.bind_eq_ok.1 rest
    obtain ⟨settled₂, keeps₂, es, handlers₂, fits⟩ :=
      handlerRuns_eq_ok settled once (List.getElem?_eq_getElem here) index (fun r => bounds_of_mem_coveredRuns) first
    obtain ⟨settled', keeps', es', handlers', fits'⟩ := ih settled₂ others last
    refine ⟨settled', keeps₂.trans keeps', es ++ es', ?_, ?_⟩
    · rw [handlers', handlers₂, List.append_assoc]
    · rw [List.flatMap_cons]
      exact List.rel_append (fits.imp fun w e fit => fit.keep settled₂ keeps') (keeps₂.holds ▸ fits')

namespace Draft.Settled

variable (settled : d.Settled p) {q s t : Nat} (starts : d.bounds[j]? = some s) (stops : d.bounds[j + 1]? = some t)
  (above : s ≤ q) (below : q < t)

include settled in
lemma bounds_mono {s t : Nat} (first : d.bounds[i]? = some s) (second : d.bounds[j]? = some t) (less : i ≤ j) :
    s ≤ t := by
  obtain ⟨inside, rfl⟩ := List.getElem?_eq_some_iff.1 first
  obtain ⟨inside', rfl⟩ := List.getElem?_eq_some_iff.1 second
  rcases Nat.eq_or_lt_of_le less with rfl | less
  · exact Nat.le_refl _
  · exact List.pairwise_iff_getElem.1 settled.rising i j inside inside' less

include settled starts stops above below

/-- A position in a block lies behind the start of a block that does not come later. -/
lemma le_iff {s' : Nat} (bound : d.bounds[i]? = some s') : s' ≤ q ↔ i ≤ j := by
  constructor
  · intro less
    by_contra later
    have rises := settled.bounds_mono stops bound (Nat.lt_of_not_le later)
    omega
  · intro before
    exact Nat.le_trans (settled.bounds_mono bound starts before) above

lemma protects_eq {w : Nat × Nat × Nat} {e : Handler Marker} (fits : d.Fits p w e) :
    d.code.protects q e = within j w.2 := by
  obtain ⟨s', first⟩ := settled.getElem?_bounds (Nat.le_trans fits.inside.1.le fits.inside.2)
  obtain ⟨t', last⟩ := settled.getElem?_bounds fits.inside.2
  rw [Code.protects, within, fits.start, fits.stop, first, last, Option.any_some, Option.any_some,
    Bool.eq_iff_iff, Bool.and_eq_true, Bool.and_eq_true, decide_eq_true_iff, decide_eq_true_iff, decide_eq_true_iff,
    decide_eq_true_iff, settled.le_iff starts stops above below first, ← Nat.not_le, ← Nat.not_le,
    settled.le_iff starts stops above below last]

/-- The entries in whose range a position in a block lies are those whose runs the block is one of. -/
lemma forall₂_covering {ws : List (Nat × Nat × Nat)} (fits : List.Forall₂ (d.Fits p) ws d.code.handlers) :
    List.Forall₂ (d.Fits p) (ws.filter fun w => within j w.2) (d.code.covering q) := by
  apply List.rel_filter _ fits
  intro w e fit
  exact iff_of_eq (congrArg (· = true) (settled.protects_eq starts stops above below fit).symm)

lemma holds_of_within {r : Nat × Nat} (last : r.2 ≤ p.order.length) (here : within j r = true) : d.holds r = true := by
  rw [within, Bool.and_eq_true, decide_eq_true_iff, decide_eq_true_iff] at here
  obtain ⟨s', first⟩ := settled.getElem?_bounds (Nat.le_trans (Nat.le_trans here.1 here.2.le) last)
  obtain ⟨t', second⟩ := settled.getElem?_bounds last
  rw [Draft.holds, first, second, bne_iff_ne]
  intro same
  have less := (settled.le_iff starts stops above below first).2 here.1
  rw [Option.some.inj same, settled.le_iff starts stops above below second] at less
  exact absurd here.2 (Nat.not_lt.2 less)

lemma map_fst_within (placed : p.order[j]? = some b) :
    ((hs.flatMap fun h => ((coveredRuns p h).filter d.holds).map (h, ·)).filter fun w => within j w.2).map (·.1) =
      hs.filter fun h => (p.func.handlersOf b).contains h := by
  induction hs with
  | nil => rfl
  | cons h hs ih =>
    have kept : ((coveredRuns p h).filter d.holds).filter (within j) = (coveredRuns p h).filter (within j) := by
      rw [List.filter_filter]
      refine List.filter_congr fun r mem => ?_
      rw [Bool.and_eq_left_iff_imp]
      exact settled.holds_of_within starts stops above below (bounds_of_mem_coveredRuns mem).2
    have here : ((((coveredRuns p h).filter d.holds).map (h, ·)).filter fun w => within j w.2).map (·.1) =
        if h ∈ p.func.handlersOf b then [h] else [] := by
      rw [List.filter_map, List.map_map]
      change (((coveredRuns p h).filter d.holds).filter (within j)).map (fun _ => h) = _
      rw [kept, List.map_const', length_filter_coveredRuns placed]
      split <;> rfl
    rw [List.flatMap_cons, List.filter_append, List.map_append, ih, here, List.filter_cons]
    simp only [List.contains_iff_mem]
    split <;> rfl

end Draft.Settled

/-- The instructions of a block stand from a position up to another one. -/
def Spans (p : Plan) (pool : Pool) (b : BlockId) (s t : Nat) : Prop :=
  ∃ before after d d', p.order = before ++ b :: after ∧ (Write.blocks p before).run (.start p pool) = .ok () d ∧
    (Write.blocks p [b]).run d = .ok () d' ∧ d.code.size = s ∧ d'.code.size = t

section Spans

variable (written : (Write.blocks p p.order).run (.start p pool) = .ok () d)

include written in
lemma exists_spans (placed : b ∈ p.order) : ∃ s t, Spans p pool b s t := by
  obtain ⟨before, after, split⟩ := List.append_of_mem placed
  rw [split, Write.blocks_append] at written
  obtain ⟨d₁, first, rest⟩ := written
  rw [← List.singleton_append, Write.blocks_append] at rest
  obtain ⟨d₂, here, -⟩ := rest
  exact ⟨_, _, before, after, d₁, d₂, split, first, here, rfl, rfl⟩

include written in
/-- The instructions of a block stand between the place where it starts and the one where the next block does. -/
lemma bounds_of_spans {s t : Nat} (once : p.order.Nodup) (spans : Spans p pool b s t) :
    ∃ j, p.order[j]? = some b ∧ d.bounds[j]? = some s ∧ d.bounds[j + 1]? = some t := by
  obtain ⟨before, after, d₁, d₂, split, first, here, rfl, rfl⟩ := spans
  have split' : p.order = before ++ [b] ++ after := by rw [split, List.append_assoc, List.singleton_append]
  rw [split', List.append_assoc, Write.blocks_append] at written
  obtain ⟨d₁', first', rest⟩ := written
  obtain rfl : d₁ = d₁' := (EStateM.Result.ok.inj (first.symm.trans first')).2
  obtain ⟨d₂', here', last⟩ := Write.blocks_append.1 rest
  obtain rfl : d₂ = d₂' := (EStateM.Result.ok.inj (here.symm.trans here')).2
  have none : Draft.Laid p ([] : List BlockId).length (.start p pool) := .start p pool
  obtain ⟨laid₁, -, -⟩ := none.blocks once (show p.order = [] ++ before ++ b :: after from split) first
  obtain ⟨laid₂, -, starts⟩ := laid₁.blocks once split' here
  have whole : p.order = before ++ [b] ++ after ++ [] := by rw [split', List.append_nil]
  obtain ⟨-, ⟨more, kept⟩, later⟩ := laid₂.blocks once whole last
  have known : d₂.starts[before.length]? = some d₁.code.size := starts (List.cons_ne_nil b [])
  refine ⟨before.length, by rw [split]; simp, ?_, ?_⟩
  · rw [Draft.bounds, ← kept, List.append_assoc, List.getElem?_append_left (List.getElem?_eq_some_iff.1 known).1]
    exact known
  · have count : d₂.starts.length = before.length + 1 := laid₂.count.trans List.length_append
    cases after with
    | nil =>
      obtain ⟨-, rfl⟩ := Write.pure_eq_ok.1 last
      rw [Draft.bounds, ← count, List.getElem?_append_right (Nat.le_refl _), Nat.sub_self]
      rfl
    | cons c after =>
      have next := later (List.cons_ne_nil c after)
      rw [← laid₂.count, count] at next
      rw [Draft.bounds, List.getElem?_append_left (List.getElem?_eq_some_iff.1 next).1]
      exact next

end Spans

lemma lt_of_mem_handlerOrder (ordered : handlerOrder p = .ok hs) : ∀ h ∈ hs, h < p.func.handlers.length := by
  simp only [handlerOrder] at ordered
  split at ordered
  · cases ordered
    exact fun h mem => List.mem_range.1 ((orderFrom_spec _ _ _).1 mem)
  · cases ordered

/-- What is known when a function graph is written: blocks are where they start, and the entries are for the runs of
handlers that have instructions. -/
lemma entries_of_all {u : Unit} (once : p.order.Nodup) (run : (Write.all p).run (.start p pool) = .ok u d) :
    ∃ d₁ hs, (Write.blocks p p.order).run (.start p pool) = .ok () d₁ ∧ (d.code.instrs = d₁.code.instrs ∧
      d.bounds = d₁.bounds) ∧ d.Settled p ∧
      handlerOrder p = .ok hs ∧
      List.Forall₂ (d.Fits p) (hs.flatMap fun h => ((coveredRuns p h).filter d.holds).map (h, ·)) d.code.handlers := by
  obtain ⟨_, d₁, blocks, rest⟩ := Write.bind_eq_ok.1 run
  obtain ⟨_, d₂, finish, rest⟩ := Write.bind_eq_ok.1 rest
  obtain ⟨hs, d₃, asked, last⟩ := Write.bind_eq_ok.1 rest
  obtain ⟨ordered, rfl⟩ := Write.ofExcept_eq_ok.1 asked
  have none : Draft.Laid p ([] : List BlockId).length (.start p pool) := .start p pool
  obtain ⟨laid, -, -⟩ := none.blocks once (show p.order = [] ++ p.order ++ [] from (List.append_nil _).symm) blocks
  obtain ⟨settled, starts, instrs, bare⟩ := settled_of_finish laid finish
  obtain ⟨settled', keeps, es, handlers, fits⟩ := handlers_eq_ok settled once (lt_of_mem_handlerOrder ordered) last
  rw [bare, List.nil_append] at handlers
  refine ⟨d₁, hs, blocks, ⟨keeps.instrs.trans instrs, ?_⟩, settled', ordered, ?_⟩
  · rw [keeps.bounds, Draft.bounds, Draft.bounds, starts, Code.size, Code.size, instrs]
  · rw [handlers, keeps.holds]
    exact fits

/-- The entry has the label of a handler's target block, which stands for where that block starts, and the type and the
variable of the handler. -/
def Lists (p : Plan) (pool : Pool) (code : Code) (h : Nat) (e : Handler Marker) : Prop :=
  ∃ c s t, p.func.handlers[h]? = some c ∧ p.order.findIdx? (· == c.target) = some e.target ∧ Spans p pool c.target s t ∧
    code.resolve? e.target = some s ∧ e.excType = c.excType ∧ e.varName = c.varName

section All

variable {u : Unit} (once : p.order.Nodup) (run : (Write.all p).run (.start p pool) = .ok u d)
include once run

lemma lists_of_fits {w : Nat × Nat × Nat} {e : Handler Marker} (fit : d.Fits p w e) : Lists p pool d.code w.1 e := by
  obtain ⟨d₁, hs, written, ⟨-, bounds⟩, settled, -, -⟩ := entries_of_all once run
  obtain ⟨c, found, index, excType, varName⟩ := fit.names
  obtain ⟨inside, same, -⟩ := List.findIdx?_eq_some_iff_getElem.1 index
  have target : p.order[e.target]? = some c.target := by
    rw [List.getElem?_eq_getElem inside, beq_iff_eq.1 same]
  obtain ⟨s, t, spans⟩ := exists_spans written (List.mem_of_getElem? target)
  refine ⟨c, s, t, found, index, spans, ?_, excType, varName⟩
  obtain ⟨i, placed, starts, -⟩ := bounds_of_spans written once spans
  obtain rfl : e.target = i := (List.getElem?_inj inside once).1 (target.trans placed.symm)
  rw [settled.resolve?_bounds inside, bounds]
  exact starts

/-- An instruction of a block lies in the range of one entry for each handler of the block. -/
lemma covering_of_all {q s t : Nat} (covered : ∀ h ∈ p.func.handlersOf b, h < p.func.handlers.length)
    (spans : Spans p pool b s t) (distinct : (p.func.handlersOf b).Nodup) (above : s ≤ q) (below : q < t) :
    List.Forall₂ (Lists p pool d.code) (p.func.handlersOf b) (d.code.covering q) := by
  obtain ⟨d₁, hs, written, ⟨-, bounds⟩, settled, ordered, fits⟩ := entries_of_all once run
  obtain ⟨j, placed, starts, stops⟩ := bounds_of_spans written once spans
  rw [← bounds] at starts stops
  rw [← filter_handlerOrder ordered (List.mem_of_getElem? placed) distinct covered,
    ← settled.map_fst_within starts stops above below placed, List.forall₂_map_left_iff]
  exact (settled.forall₂_covering starts stops above below fits).imp fun w e fit => lists_of_fits once run fit

lemma lt_of_all {e : Handler Marker} (mem : e ∈ d.code.handlers) :
    ∃ s t, d.code.resolve? e.start = some s ∧ d.code.resolve? e.stop = some t ∧ s < t := by
  obtain ⟨d₁, hs, written, ⟨-, bounds⟩, settled, ordered, fits⟩ := entries_of_all once run
  obtain ⟨w, row, fit⟩ := exists_mem_of_mem_right fits mem
  obtain ⟨h, -, row⟩ := List.mem_flatMap.1 row
  obtain ⟨r, some, rfl⟩ := List.mem_map.1 row
  obtain ⟨s, first⟩ := settled.getElem?_bounds (Nat.le_trans fit.inside.1.le fit.inside.2)
  obtain ⟨t, last⟩ := settled.getElem?_bounds fit.inside.2
  refine ⟨s, t, fit.start.trans first, fit.stop.trans last, Nat.lt_of_le_of_ne ?_ ?_⟩
  · exact settled.bounds_mono first last fit.inside.1.le
  · rintro rfl
    have differ := (List.mem_filter.1 some).2
    rw [Draft.holds, first, last, bne_self_eq_false] at differ
    cases differ

end All

lemma exists_all_of_emit {code : Code} (emitted : (emit f pool).1 = .ok code) :
    ∃ g d, splitCriticalEdges.run f = .ok () g ∧ (Write.all (.ofFunc g)).run (.start (.ofFunc g) pool) = .ok () d ∧
      d.code = code := by
  rw [emit] at emitted
  split at emitted
  case _ => cases emitted
  case _ u g split =>
    dsimp only at emitted
    split at emitted
    case _ u d run => exact ⟨g, d, split, run, Except.ok.inj emitted⟩
    case _ => cases emitted

/-- When a function graph is written, an instruction of a block lies in the range of one entry for each handler of the
block, in their order, and each of these has the target, the type and the variable of its handler.
No range is empty. -/
theorem covering_of_emit {code : Code} (linked : Linked (fun _ => False) f) (emitted : (emit f pool).1 = .ok code) :
    ∃ g, splitCriticalEdges.run f = .ok () g ∧ Covered f g ∧
      (∀ b ∈ order g, ∃ s t, Spans (.ofFunc g) pool b s t) ∧
      (∀ b s t, Spans (.ofFunc g) pool b s t → (g.handlersOf b).Nodup → ∀ q, s ≤ q → q < t →
        List.Forall₂ (Lists (.ofFunc g) pool code) (g.handlersOf b) (code.covering q)) ∧
      ∀ e ∈ code.handlers, ∃ s t, code.resolve? e.start = some s ∧ code.resolve? e.stop = some t ∧ s < t := by
  obtain ⟨g, d, split, run, rfl⟩ := exists_all_of_emit emitted
  obtain ⟨g', split', linked', covered, -⟩ := exists_splitCriticalEdges linked
  obtain rfl : g = g' := (EStateM.Result.ok.inj (split.symm.trans split')).2
  have once : (Plan.ofFunc g).order.Nodup := nodup_order g
  obtain ⟨d₁, hs, written, -⟩ := entries_of_all once run
  refine ⟨g, split, covered, fun b placed => exists_spans written placed, fun b s t spans distinct q above below => ?_,
    fun e mem => lt_of_all once run mem⟩
  exact covering_of_all once run (linked'.covered b) spans distinct above below

/-- A block that two handlers cover, of which the second one covers the next block too. -/
def nested : List Change :=
  [.addBlock, .addBlock, .addBlock, .setTerminator 0 (.goto 2), .setTerminator 2 (.leave none),
    .setTerminator 3 (.leave none), .setTerminator 4 (.leave none), .addHandler ⟨3, 0, 0⟩, .addHandler ⟨4, 5, 0⟩,
    .setHandlers 0 [1, 0], .setHandlers 2 [0], .appendNode 0 (.store 0 (.const (.int 7)))]

/-- The graph is written, and the first block has instructions. -/
def nests (f : Func) : Bool :=
  match splitCriticalEdges.run f, (emit f {}).1 with
  | .ok _ g, .ok _ => decide ((Plan.ofFunc g).order = [0, 2, 3, 4] ∧ g.handlersOf 0 = [1, 0]) &&
      (Draft.behind? (Write.blocks (.ofFunc g) [0]) (.start (.ofFunc g) {})).any fun d => 0 < d.code.size
  | _, _ => false

/-- The first instruction of the first block lies in the range of one entry for each of its handlers. -/
theorem covering_of_emit_nested : ∃ f g code t, build? nested (.new 0 1 {} 2) = some f ∧ Linked (fun _ => False) f ∧
    (emit f {}).1 = .ok code ∧ splitCriticalEdges.run f = .ok () g ∧ Spans (.ofFunc g) {} 0 0 t ∧ 0 < t ∧
      g.handlersOf 0 = [1, 0] ∧ List.Forall₂ (Lists (.ofFunc g) {} code) [1, 0] (code.covering 0) := by
  have facts : (build? nested (.new 0 1 {} 2)).any
      (fun f => (f.block? entry).isSome && f.verify.isOk && decide (nests f = true)) = true := by decide +kernel
  obtain ⟨f, built, -, nests⟩ := exists_checked facts
  obtain ⟨linked, -⟩ := build?_keeps linked_new filed_new built
  rw [Emit.nests] at nests
  split at nests
  case _ g code split emitted =>
    obtain ⟨shape, some⟩ := Bool.and_eq_true_iff.1 nests
    obtain ⟨placed, handlers⟩ := of_decide_eq_true shape
    obtain ⟨d, written, more⟩ := (Option.any_eq_true _ _).1 some
    have spans : Spans (.ofFunc g) {} 0 0 d.code.size :=
      ⟨[], [2, 3, 4], _, d, placed, rfl, Draft.behind?_eq_some.1 written, rfl, rfl⟩
    obtain ⟨g', split', -, -, covering, -⟩ := covering_of_emit linked emitted
    obtain rfl : g = g' := (EStateM.Result.ok.inj (split.symm.trans split')).2
    have found := covering 0 0 _ spans (by rw [handlers]; decide) 0 (Nat.le_refl 0) (of_decide_eq_true more)
    rw [handlers] at found
    exact ⟨f, g, code, _, built, linked, emitted, split, spans, of_decide_eq_true more, handlers, found⟩
  case _ => cases nests

end Avm.Emit
