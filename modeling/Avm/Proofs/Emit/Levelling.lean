import Avm.Proofs.Emit.Climbing
import Avm.Proofs.Emit.Flowing
import Avm.Proofs.Flow.Sweeping
import Avm.Proofs.Lift.Acceptance
import Avm.Proofs.Opt.Unwinding

/-!
# Depths at the positions of written code

The scopes of a graph tell at which depth each block is entered: with the exception on the operand stack if the block
handles exceptions, and with nothing on it otherwise.  Behind its end, the operand stack is empty,
and the scope stack is as deep as the blocks expect it to which the end leads.  So wherever control
gets in the code, the depths of the stacks are the same on all ways.

The main statement is `levelled_of_emit`.
-/

namespace Avm.Ir

namespace Outline

variable {o : Outline} {n : Nat}

/-- The depth of the scope stack from which the nodes lead to the one at the end. -/
def start (o : Outline) : Nat := ((o.depth : Int) - (o.turns.map Turn.change).sum).toNat

lemma start_eq (starts : o.Starts n) : o.start = n := by
  have sum := Turn.eq_add_of_walk starts
  rw [start]
  omega

end Outline

namespace Func

variable {f : Func} {b : BlockId} {n : Nat}

/-- The depths at which a block is entered.  A handler finds the exception on the operand stack. -/
def level (f : Func) (b : BlockId) : Level :=
  ⟨(f.handlers.any (·.target == b)).toNat, ((f.outline b).map Outline.start).getD 0⟩

lemma any_handlers : f.handlers.any (·.target == b) = true ↔ f.Handles b := by
  simp only [List.any_eq_true, beq_iff_eq, Handles]

lemma level_of_enters (enters : f.Enters b n) (apart : ¬f.Handles b) : f.level b = ⟨0, n⟩ := by
  obtain ⟨o, here, starts⟩ := enters
  rw [level, here, Bool.eq_false_iff.2 fun any => apart (any_handlers.1 any), Option.map_some, Option.getD_some,
    Outline.start_eq starts]
  rfl

namespace Scoped

/-- The nodes of a block lead from the depth at which it is entered to the one at its end. -/
lemma walk_level (scopes : f.Scoped) (live : (f.block? b).isSome) :
    Turn.walk (f.level b).scope ((f.body b).map f.turn) = some (f.scopeDepth b) := by
  obtain ⟨o, here⟩ := exists_outline live
  obtain ⟨n, starts⟩ := (scopes.blocks b o here).starts
  have same : (f.level b).scope = n := by
    rw [level, here, Option.map_some, Option.getD_some, Outline.start_eq starts]
  rw [same]
  obtain ⟨-, rfl⟩ := outline_eq_some.1 here
  exact starts

/-- Where control goes on, it gets with the depth at the end of the block and nothing on the operand stack. -/
lemma level_of_mem_targets (scopes : f.Scoped) (live : (f.block? b).isSome) {e : BlockId × EdgeKind}
    (goes : e ∈ (f.terminator b).targets) (inner : e.1 ≠ Func.exit) : f.level e.1 = ⟨0, f.scopeDepth b⟩ := by
  obtain ⟨o, here⟩ := exists_outline live
  have target : e.1 ∈ o.targets := by
    obtain ⟨-, rfl⟩ := outline_eq_some.1 here
    exact List.mem_map_of_mem goes
  obtain ⟨enters, apart⟩ := (scopes.blocks b o here).next e.1 target inner
  rw [scopeDepth_of_outline here, level_of_enters enters apart]

lemma level_of_mem_handlers (scopes : f.Scoped) {c : Catch} (listed : c ∈ f.handlers)
    (live : (f.block? c.target).isSome) :
    f.level c.target = ⟨1, 0⟩ := by
  obtain ⟨o, here⟩ := exists_outline live
  rw [level, here, any_handlers.2 ⟨c, listed, rfl⟩, Option.map_some, Option.getD_some,
    Outline.start_eq ((scopes.handler c listed).2.2 o here)]
  rfl

lemma level_entry (scopes : f.Scoped) (intact : f.Intact) : f.level entry = ⟨0, 0⟩ := by
  refine level_of_enters ?_ fun ⟨c, listed, same⟩ => (scopes.handler c listed).1 same
  obtain ⟨o, here⟩ := exists_outline intact.entry.1
  refine ⟨o, here, ?_⟩
  obtain ⟨-, rfl⟩ := outline_eq_some.1 here
  rw [Outline.Starts, intact.entry.2.2.1, scopes.start]
  rfl

lemma handles_of_takesException (scopes : f.Scoped) (live : (f.block? b).isSome)
    (takes : Emit.takesException f b = true) :
    f.handlers.any (·.target == b) = true := by
  obtain ⟨o, here⟩ := exists_outline live
  refine any_handlers.2 ((scopes.blocks b o here).caught ?_)
  obtain ⟨-, rfl⟩ := outline_eq_some.1 here
  rw [Emit.takesException] at takes
  cases body : f.body b with
  | nil =>
    rw [body] at takes
    cases takes
  | cons v rest =>
    rw [body] at takes
    have caught : f.kind? v = some .caught := beq_iff_eq.1 takes
    exact List.mem_map.2 ⟨v, List.mem_cons_self, turn_of_kind? caught⟩

end Scoped

end Func

end Avm.Ir

namespace Avm.Emit

open Avm.Ir Avm.Ir.Func Avm.Ir.Level

variable {f : Func} {p : Plan} {d : Draft} {b : BlockId} {t : Terminator} {js ks : List (Instruction Marker)}
  {i : Instruction Marker} {pool P : Pool} {j q s s' : Nat} {l l' : Level}

lemma Closes.behind (h : Closes p b t ks) (passes : ∀ i, ks.getLast? = some i → ¬departs i) :
    ∃ e ∈ t.targets, next? p.order b = some e.1 := by
  have departs_jump {m : Marker} : departs (.branch .jump m) := by simp [departs, Instruction.branch]; decide
  cases h with
  | falls only next => exact ⟨_, mem_targets_of_onlyEdge? only, next⟩
  | inverts inverse next known => exact ⟨_, List.mem_cons_self, next⟩
  | branches known next => exact ⟨_, List.mem_cons_of_mem _ List.mem_cons_self, next⟩
  | jumps | parts => exact absurd departs_jump (passes _ rfl)
  | switches => exact absurd (by simp [departs, Instruction.switch]; decide) (passes _ rfl)
  | leaves | returns | raises => exact absurd (by simp [departs]; decide) (passes _ rfl)

/-- Of a draft, the block with a number has its instructions between two positions, and they lead from the depths at
which it is entered to those that its end takes. -/
structure Draft.Climbs (f : Func) (P : Pool) (d : Draft) (j : Nat) (b : BlockId) (js ks : List (Instruction Marker))
    (s s' : Nat) : Prop where
  placed : (Plan.ofFunc f).order[j]? = some b
  starts : d.bounds[j]? = some s
  stops : d.bounds[j + 1]? = some s'
  within : ∃ before after, d.written = before ++ (js ++ ks) ++ after ∧ before.length = s ∧ s + (js ++ ks).length = s'
  straight : ∀ i ∈ js, i.opcode.flow = .next
  closes : Closes (.ofFunc f) b (f.terminator b) ks
  climbs : climb? P (f.level b) js = some ⟨(f.terminator b).operands.length, f.scopeDepth b⟩

/-- Before the instruction at a position, the stacks have the depths to which those before it in its block lead. -/
def Draft.At (f : Func) (P : Pool) (d : Draft) (q : Nat) (l : Level) : Prop :=
  ∃ j b js ks s s', d.Climbs f P j b js ks s s' ∧ s ≤ q ∧ q < s' ∧ climb? P (f.level b) ((js ++ ks).take (q - s)) =
    some l

namespace Draft.Climbs

variable (h : d.Climbs f P j b js ks s s')
include h

lemma slice : js ++ ks = (d.written.drop s).take (s' - s) := by
  obtain ⟨before, after, parts, rfl, rfl⟩ := h.within
  rw [parts, List.append_assoc before, List.drop_left, Nat.add_sub_cancel_left, List.take_left]

lemma getElem? (above : s ≤ q) (below : q < s') : (js ++ ks)[q - s]? = d.written[q]? := by
  rw [h.slice, List.getElem?_take_of_lt (Nat.sub_lt_sub_right above below), List.getElem?_drop,
    Nat.add_sub_cancel' above]

lemma length : s + (js ++ ks).length = s' := by
  obtain ⟨-, -, -, -, length⟩ := h.within
  exact length

lemma ends (writable : f.Writable P) (n : Nat) :
    climb? P (f.level b) (js ++ ks.take (n + 1)) = some ⟨0, f.scopeDepth b⟩ :=
  climb?_trans h.climbs (h.closes.climbs (writable.ends b) P _ n)

lemma whole (writable : f.Writable P) : climb? P (f.level b) (js ++ ks) = some ⟨0, f.scopeDepth b⟩ := by
  rw [← h.ends writable ks.length, List.take_of_length_le (Nat.le_succ _)]

end Draft.Climbs

lemma Draft.At.unique (settled : d.Settled p) (here : d.At f P q l) (there : d.At f P q l') : l = l' := by
  obtain ⟨j, b, js, ks, s, t, first, above, below, climbs⟩ := here
  obtain ⟨j', b', js', ks', s', t', second, above', below', climbs'⟩ := there
  obtain rfl : j = j' := by
    rcases Nat.lt_trichotomy j j' with less | same | less
    · exact absurd (settled.bounds_mono first.stops second.starts less) (by omega)
    · exact same
    · exact absurd (settled.bounds_mono second.stops first.starts less) (by omega)
  obtain rfl := Option.some.inj (first.placed.symm.trans second.placed)
  obtain rfl := Option.some.inj (first.starts.symm.trans second.starts)
  obtain rfl := Option.some.inj (first.stops.symm.trans second.stops)
  rw [first.slice] at climbs
  rw [second.slice] at climbs'
  exact Option.some.inj (climbs.symm.trans climbs')

lemma Draft.At.lt_size (here : d.At f P q l) : q < d.code.size := by
  obtain ⟨j, b, js, ks, s, s', climbs, -, below, -⟩ := here
  obtain ⟨before, after, parts, rfl, rfl⟩ := climbs.within
  refine Nat.lt_of_lt_of_le below ?_
  have length := congrArg List.length parts
  simp only [d.length_written, List.length_append] at length ⊢
  omega

section Order

lemma nodup_placed : (Plan.ofFunc f).order.Nodup := nodup_order f

lemma orderly_of_intact (intact : f.Intact) : Orderly f ((Plan.ofFunc f).order, []) :=
  orderly_order fun b => intact.wired b id

lemma order_zero (intact : f.Intact) : (Plan.ofFunc f).order[0]? = some entry := by
  have orderly := orderly_of_intact intact
  have some : entry ∈ (Plan.ofFunc f).order := entry_mem_order f
  cases placed : (Plan.ofFunc f).order with
  | nil => exact absurd placed (List.ne_nil_of_mem some)
  | cons b rest =>
    obtain rfl | ⟨a, mem, -⟩ := orderly.comes [] b rest placed
    · rfl
    · cases mem

lemma ne_exit_of_placed (intact : f.Intact) (placed : b ∈ (Plan.ofFunc f).order) : b ≠ exit := by
  rintro rfl
  exact (orderly_of_intact intact).inner placed

lemma isSome_of_placed (intact : f.Intact) (placed : b ∈ (Plan.ofFunc f).order) : (f.block? b).isSome := by
  obtain ⟨before, rest, split⟩ := List.append_of_mem placed
  obtain rfl | ⟨a, -, goes⟩ := (orderly_of_intact intact).comes before b rest split
  · exact intact.entry.1
  · obtain ⟨e, edge, rfl⟩ := List.mem_map.1 goes
    exact intact.live a e edge

end Order

section All

variable {u : Unit} (intact : f.Intact) (scopes : f.Scoped) (writable : f.Writable P)
  (run : (Write.all (Plan.ofFunc f)).run (.start (Plan.ofFunc f) pool) = .ok u d)
include intact scopes writable run

lemma exists_climbs (placed : (Plan.ofFunc f).order[j]? = some b) : ∃ js ks s s', d.Climbs f P j b js ks s s' := by
  have live : (f.block? b).isSome := isSome_of_placed intact (List.mem_of_getElem? placed)
  have straight : f.Straight := fun v k i does here => (writable.kind does i here).1
  obtain ⟨d₁, hs, written, ⟨instrs, bounds⟩, -⟩ := entries_of_all nodup_placed run
  have same : d.written = d₁.written := by rw [Draft.written, instrs, Draft.written]
  obtain ⟨js, ks, s, s', holds, climbs⟩ :=
    exists_climbing intact.toListed (scopes.handles_of_takesException live) written placed
  refine ⟨js, ks, s, s', placed, bounds ▸ holds.starts, bounds ▸ holds.stops, same ▸ holds.within,
    fun i mem => (holds.meant i mem).flow straight, holds.closes, climbs P _ _ writable (scopes.walk_level live)⟩

lemma exists_at (inside : q < d.code.size) : ∃ l, d.At f P q l := by
  obtain ⟨d₁, hs, written, ⟨instrs, bounds⟩, -⟩ := entries_of_all nodup_placed run
  have inside : q < d₁.code.size := by rwa [Code.size, ← instrs]
  obtain ⟨j, b, js', ks', s', t', holds, above, below⟩ := exists_holds_of_lt nodup_placed written inside
  obtain ⟨js, ks, s, t, climbs⟩ := exists_climbs intact scopes writable run holds.placed
  obtain rfl := Option.some.inj (climbs.starts.symm.trans (bounds ▸ holds.starts))
  obtain rfl := Option.some.inj (climbs.stops.symm.trans (bounds ▸ holds.stops))
  have whole := climbs.whole writable
  rw [← List.take_append_drop (q - s) (js ++ ks), climb?_append, Option.bind_eq_some_iff] at whole
  obtain ⟨l, before, -⟩ := whole
  exact ⟨l, j, b, js, ks, s, t, climbs, above, below, before⟩

lemma at_first (placed : (Plan.ofFunc f).order[j]? = some b) (starts : d.bounds[j]? = some s) :
    d.At f P s (f.level b) := by
  -- A block without instructions goes on to the next one, and the last block has instructions.
  induction left : (Plan.ofFunc f).order.length - j generalizing j b with
  | zero => exact absurd (List.getElem?_eq_some_iff.1 placed).1 (by omega)
  | succ n ih =>
    obtain ⟨js, ks, s, s', climbs⟩ := exists_climbs intact scopes writable run placed
    obtain rfl := Option.some.inj (climbs.starts.symm.trans starts)
    rcases Nat.eq_zero_or_pos (js ++ ks).length with none | some
    · have whole := climbs.whole writable
      have stops := climbs.stops
      rw [← climbs.length, none, Nat.add_zero] at stops
      obtain ⟨rfl, rfl⟩ := List.append_eq_nil_iff.1 (List.length_eq_zero_iff.1 none)
      obtain ⟨e, goes, next⟩ := climbs.closes.behind fun i ends => by cases ends
      rw [next?_eq nodup_placed placed] at next
      have live := isSome_of_placed intact (List.mem_of_getElem? placed)
      have inner := ne_exit_of_placed intact (List.mem_of_getElem? next)
      rw [Option.some.inj whole, ← scopes.level_of_mem_targets live goes inner]
      exact ih next stops (by omega)
    · refine ⟨j, b, js, ks, s, s', climbs, Nat.le_refl s, ?_, ?_⟩
      · rw [← climbs.length]
        exact Nat.lt_add_of_pos_right some
      · rw [Nat.sub_self]
        rfl

lemma at_marker {c : BlockId} {m : Marker} (known : (Plan.ofFunc f).marker? c = some m)
    (leads : d.code.BranchesTo m q) :
    d.At f P q (f.level c) := by
  have nonempty : (Plan.ofFunc f).order ≠ [] := List.ne_nil_of_mem (entry_mem_order f)
  obtain ⟨s, starts, there⟩ := branchesTo_of_marker? nodup_placed nonempty run known
  obtain rfl : q = s := there.iff_eq.1 leads
  exact at_first intact scopes writable run ((findIdx?_beq_eq_some nodup_placed).1 known) starts

/-- An instruction finds what it takes, and leaves what is expected wherever it hands control to. -/
lemma at_way {id : InstrId} (here : d.code.at? q = some (id, i)) (at_ : d.At f P q l) : ∃ e, i.effect P = .ok e ∧
    l.Affords e ∧ ∀ kind r, d.code.Way q i kind r → d.At f P r (l.after e) := by
  obtain ⟨j, b, js, ks, s, s', climbs, above, below, before⟩ := at_
  have whole := climbs.whole writable
  have there : (js ++ ks)[q - s]? = some i := by
    rw [climbs.getElem? above below]
    exact Draft.getElem?_written.2 ⟨id, here⟩
  obtain ⟨m, m', first, step, upTo⟩ := exists_step? whole there
  obtain rfl := Option.some.inj (before.symm.trans first)
  obtain ⟨e, effect, affords, rfl⟩ := step?_eq_some.1 step
  have live := isSome_of_placed intact (List.mem_of_getElem? climbs.placed)
  have count := climbs.length
  refine ⟨e, effect, affords, fun kind r way => ?_⟩
  -- Where control goes on to the next instruction, that is one of the block, or the block that comes next starts there.
  have passes (goesOn : ¬departs i) : d.At f P (q + 1) (l.after e) := by
    have shift : q + 1 - s = q - s + 1 := Nat.succ_sub above
    obtain more | last : q + 1 < s' ∨ q + 1 = s' := Nat.lt_or_eq_of_le below
    · exact ⟨j, b, js, ks, s, s', climbs, Nat.le_succ_of_le above, more, by rwa [shift]⟩
    · have all : (js ++ ks).take (q - s + 1) = js ++ ks := List.take_of_length_le (by omega)
      rw [all, whole, Option.some.injEq] at upTo
      obtain ⟨e', goes, next⟩ := climbs.closes.behind fun i' ends => by
        have final : (js ++ ks).getLast? = some i := by
          rw [List.getLast?_eq_getElem?, ← there]
          congr 1
          omega
        rw [List.getLast?_append, ends, Option.some_or, Option.some.injEq] at final
        rwa [final]
      rw [next?_eq nodup_placed climbs.placed] at next
      have inner := ne_exit_of_placed intact (List.mem_of_getElem? next)
      rw [← upTo, ← scopes.level_of_mem_targets live goes inner, last]
      exact at_first intact scopes writable run next climbs.stops
  by_cases early : q - s < js.length
  · have mem : i ∈ js := List.mem_of_getElem? (List.getElem?_append_left early ▸ there)
    have flow := climbs.straight i mem
    obtain ⟨-, rfl⟩ := (Code.way_next flow).1 way
    exact passes fun departs => departs.1 flow
  · have late := Nat.le_of_not_lt early
    rw [List.getElem?_append_right late] at there
    have mem : i ∈ ks := List.mem_of_getElem? there
    obtain ⟨suits, targets⟩ := climbs.closes.suits mem
    have empty : l.after e = ⟨0, f.scopeDepth b⟩ := by
      have parts : (js ++ ks).take (q - s + 1) = js ++ ks.take (q - s - js.length + 1) := by
        rw [List.take_append, List.take_of_length_le (Nat.le_succ_of_le late), Nat.succ_sub late]
      rw [parts, climbs.ends writable] at upTo
      exact (Option.some.inj upTo).symm
    have goes {m : Marker} (mem : m ∈ i.targets) (leads : d.code.BranchesTo m r) : d.At f P r (l.after e) := by
      obtain ⟨e', goes, known⟩ := targets m mem
      have placed : e'.1 ∈ (Plan.ofFunc f).order := List.mem_of_getElem? ((findIdx?_beq_eq_some nodup_placed).1 known)
      rw [empty, ← scopes.level_of_mem_targets live goes (ne_exit_of_placed intact placed)]
      exact at_marker intact scopes writable run known leads
    have targets {operands : Operands Marker} (same : i.operands = operands) : i.targets = operands.targets :=
      congrArg Operands.targets same
    cases way with
    | next flow => exact passes fun departs => departs.1 flow
    | whenFalse flow => exact passes fun departs => departs.2 flow
    | jump flow same leads | whenTrue flow same leads | switchDefault flow same leads =>
      exact goes (by rw [targets same]; exact List.mem_cons_self) leads
    | switchCase flow same found leads =>
      exact goes (by rw [targets same]; exact List.mem_cons_of_mem _ (List.mem_of_getElem? found)) leads

lemma at_handler {handlers : List (Handler Nat)} (resolved : d.code.resolvedHandlers = .ok handlers) {h : Handler Nat}
    (mem : h ∈ handlers) : d.At f P h.target ⟨1, 0⟩ := by
  obtain ⟨d₁, hs, -, -, -, -, fits⟩ := entries_of_all nodup_placed run
  rw [Code.resolvedHandlers, mapM_eq_ok] at resolved
  obtain ⟨e, there, resolves⟩ := exists_mem_of_mem_right resolved mem
  obtain ⟨w, -, fit⟩ := exists_mem_of_mem_right fits there
  obtain ⟨c, found, known, -⟩ := fit.names
  have listed : c ∈ f.handlers := List.mem_of_getElem? found
  have placed : c.target ∈ (Plan.ofFunc f).order := List.mem_of_getElem? ((findIdx?_beq_eq_some nodup_placed).1 known)
  have nonempty : (Plan.ofFunc f).order ≠ [] := List.ne_nil_of_mem placed
  obtain ⟨s, -, leads⟩ := branchesTo_of_marker? nodup_placed nonempty run known
  obtain ⟨-, -, target⟩ := Code.resolve?_of_resolveHandler resolves
  obtain rfl := Option.some.inj (leads.1.symm.trans target)
  rw [← scopes.level_of_mem_handlers listed (isSome_of_placed intact placed)]
  exact at_marker intact scopes writable run known leads

lemma levelled_of_all : ∃ depth, d.code.Levelled P depth := by
  obtain ⟨d₁, hs, written, ⟨instrs, bounds⟩, settled, -⟩ := entries_of_all nodup_placed run
  have some (q : Nat) (inside : q < d.code.size) : ∃ l, d.At f P q l := exists_at intact scopes writable run inside
  have : Nonempty Level := ⟨⟨0, 0⟩⟩
  choose! depth known using some
  have depth_eq {q : Nat} {l : Level} (at_ : d.At f P q l) : depth q = l :=
    (known q at_.lt_size).unique settled at_
  refine ⟨depth, ?_, fun handlers resolved h mem => ?_, fun q id i _ here => ?_⟩
  · have starts := getElem?_bounds_zero nodup_placed written
    rw [← bounds] at starts
    rw [← scopes.level_entry intact]
    exact depth_eq (at_first intact scopes writable run (order_zero intact) starts)
  · exact depth_eq (at_handler intact scopes writable run resolved mem)
  · have inside : q < d.code.size := (List.getElem?_eq_some_iff.1 here).1
    obtain ⟨e, effect, affords, goes⟩ := at_way intact scopes writable run here (known q inside)
    exact ⟨e, effect, affords, fun kind r way => depth_eq (goes kind r way)⟩

end All

lemma kept_of_splitEdges {g : Func} {es : List (BlockId × BlockId × EdgeKind)} {u : Unit} (kept : f.Kept)
    (run : (splitEdges es).run f = .ok u g) : g.Kept := by
  induction es generalizing f with
  | nil =>
    obtain ⟨-, rfl⟩ := Edit.pure_eq_ok.1 run
    exact kept
  | cons e es ih =>
    obtain ⟨source, target, kind⟩ := e
    rw [splitEdges, Edit.bind_eq_ok] at run
    obtain ⟨middle, f₁, first, run⟩ := run
    obtain ⟨edge, normal⟩ := edge_of_splitEdge first
    rw [Edit.splitEdge_eq_ok kept.intact edge normal] at first
    obtain ⟨rfl, rfl⟩ := EStateM.Result.ok.inj first
    exact ih (kept.onEdge edge normal) run

/-- Code that is written for a graph with its scopes in order, whose nodes and ends can be written,
has depths that agree with each other. -/
theorem levelled_of_emit {code : Code} (kept : f.Kept) (writable : f.Writable P)
    (emitted : (emit f pool).1 = .ok code) :
    ∃ depth, code.Levelled P depth := by
  obtain ⟨g, d, split, run, rfl⟩ := exists_all_of_emit emitted
  have writable' := retains_splitCriticalEdges.of_ok writable split
  rw [splitCriticalEdges, Edit.bind_eq_ok] at split
  obtain ⟨_, _, got, split⟩ := split
  obtain ⟨rfl, rfl⟩ := Edit.get_eq_ok.1 got
  have kept' := kept_of_splitEdges kept split
  exact levelled_of_all kept'.intact kept'.scopes writable' run

end Avm.Emit
