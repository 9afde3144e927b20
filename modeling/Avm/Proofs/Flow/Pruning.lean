import Avm.Proofs.Code.Thinning
import Avm.Proofs.Flow.Exactness

/-!
# Code without what control cannot reach

The instructions that control can reach lead to each other only.  So when the others go, control goes the same ways
between those that stay, and each of these is covered by the same handlers.

The main statements are `Thins.covering_eq` and `Prunes.leads_iff`.
-/

namespace Avm

/-- A handler with its places moved. -/
def Handler.shift (f : Nat → Nat) (h : Handler Nat) : Handler Nat :=
  { h with start := f h.start, stop := f h.stop, target := f h.target }

namespace Code

variable {c c' : Code} {keep : InstrId → Bool} {id : InstrId} {i : Instruction Marker} {p q r : Nat} {m : Marker}
  {e : InstrId × Instruction Marker} {hs : List (Handler Nat)} {kind : EdgeKind} {place : Option Nat}

/-- A position lies in the range of a handler. -/
def protects (c : Code) (q : Nat) (h : Handler Marker) : Bool :=
  (c.resolve? h.start).any (· ≤ q) && (c.resolve? h.stop).any (q < ·)

/-- The handlers of code in whose range a position lies. -/
def covering (c : Code) (q : Nat) : List (Handler Marker) := c.handlers.filter (c.protects q)

section Order

lemma ahead_lt_iff (here : c.at? p = some e) (kept : keep e.1 = true) : c.ahead keep p < c.ahead keep q ↔ p < q := by
  have next : c.ahead keep (p + 1) = c.ahead keep p + 1 := by rw [ahead_succ here, if_pos kept]
  constructor
  · intro less
    by_contra later
    exact absurd (ahead_mono (Nat.le_of_not_lt later)) (Nat.not_le.2 less)
  · intro less
    exact Nat.lt_of_lt_of_le (next ▸ Nat.lt_succ_self _) (ahead_mono less)

lemma ahead_le_iff (here : c.at? p = some e) (kept : keep e.1 = true) : c.ahead keep q ≤ c.ahead keep p ↔ q ≤ p := by
  rw [← Nat.not_lt, ahead_lt_iff here kept, Nat.not_lt]

end Order

namespace Thins

variable (thins : Thins keep c c')
include thins

lemma exists_at? (there : c'.at? q = some e) : ∃ p, c.at? p = some e ∧ keep e.1 = true ∧ c.ahead keep p = q := by
  have mem := List.mem_of_getElem? there
  rw [thins.instrs, List.mem_filter] at mem
  obtain ⟨p, here⟩ := List.getElem?_of_mem mem.1
  exact ⟨p, here, mem.2, at?_inj (at?_ahead thins.instrs here mem.2) there⟩

lemma protects_eq (here : c.at? p = some e) (kept : keep e.1 = true) (h : Handler Marker) :
    c'.protects (c.ahead keep p) h = c.protects p h := by
  rw [protects, protects, thins.resolve?, thins.resolve?, Option.any_map, Option.any_map]
  congr 2
  · funext s
    exact decide_eq_decide.2 (ahead_le_iff here kept)
  · funext s
    exact decide_eq_decide.2 (ahead_lt_iff here kept)

lemma covering_eq (here : c.at? p = some e) (kept : keep e.1 = true) :
    c'.covering (c.ahead keep p) = c.covering p := by
  rw [covering, covering, thins.handlers]
  exact List.filter_congr fun h _ => thins.protects_eq here kept h

lemma resolvedHandlers_eq (resolved : c.resolvedHandlers = .ok hs) :
    c'.resolvedHandlers = .ok (hs.map (.shift (c.ahead keep))) := by
  rw [resolvedHandlers, mapM_eq_ok] at resolved ⊢
  rw [thins.handlers, List.forall₂_map_right_iff]
  refine resolved.imp fun h x found => ?_
  have moved (m : Marker) (q : Nat) (bound : c.resolveHandlerMarker m = .ok q) :
      c'.resolveHandlerMarker m = .ok (c.ahead keep q) := by
    rw [resolveHandlerMarker] at bound ⊢
    split at bound
    · rename_i position stands
      cases bound
      rw [thins.resolve?, stands]
      rfl
    · cases bound
  rw [resolveHandler] at found ⊢
  obtain ⟨start, first, rest⟩ := bind_eq_ok.1 found
  obtain ⟨stop, second, rest⟩ := bind_eq_ok.1 rest
  obtain ⟨target, third, last⟩ := bind_eq_ok.1 rest
  cases last
  rw [moved _ _ first, moved _ _ second, moved _ _ third]
  rfl

end Thins

/-- The instructions that control can reach are those that stay. -/
structure Prunes (hs : List (Handler Nat)) (keep : InstrId → Bool) (c c' : Code) : Prop extends Thins keep c c' where
  resolved : c.resolvedHandlers = .ok hs
  inside : ∀ p, c.Reachable p → ∃ e, c.at? p = some e
  defined : ∀ p id i, c.Reachable p → c.at? p = some (id, i) → c.Defined p i
  kept : ∀ p e, c.at? p = some e → (keep e.1 = true ↔ c.Reachable p)

namespace Prunes

variable (prunes : Prunes hs keep c c')
include prunes

lemma at?_ahead (reach : c.Reachable p) (here : c.at? p = some e) : c'.at? (c.ahead keep p) = some e :=
  Code.at?_ahead prunes.instrs here ((prunes.kept p e here).2 reach)

lemma ahead_next (reach : c.Reachable p) (here : c.at? p = some e) : c.ahead keep (p + 1) = c.ahead keep p + 1 := by
  rw [ahead_succ here, if_pos ((prunes.kept p e here).2 reach)]

lemma branchesTo (reach : c.Reachable q) (branches : c.BranchesTo m q) : c'.BranchesTo m (c.ahead keep q) := by
  obtain ⟨e, there⟩ := prunes.inside q reach
  refine ⟨?_, lt_size_of_at? (prunes.at?_ahead reach there)⟩
  rw [prunes.resolve?, branches.1]
  rfl

lemma way_iff (reach : c.Reachable p) (here : c.at? p = some (id, i)) :
    Way c' (c.ahead keep p) i kind r ↔ ∃ q, Way c p i kind q ∧ c.ahead keep q = r := by
  have defined := prunes.defined p id i reach here
  have goes {m : Marker} {q : Nat} {kind : EdgeKind} (way : Way c p i kind q) (branches : c.BranchesTo m q)
      (branches' : c'.BranchesTo m r) : c.ahead keep q = r :=
    ((prunes.branchesTo (.next reach here way) branches).iff_eq.1 branches').symm
  constructor
  · intro way
    cases way with
    | next flow => exact ⟨p + 1, .next flow, prunes.ahead_next reach here⟩
    | whenFalse flow operands => exact ⟨p + 1, .whenFalse flow operands, prunes.ahead_next reach here⟩
    | jump flow operands branches' =>
      rw [Defined, flow, operands] at defined
      obtain ⟨q, branches⟩ := defined
      exact ⟨q, .jump flow operands branches, goes (.jump flow operands branches) branches branches'⟩
    | whenTrue flow operands branches' =>
      rw [Defined, flow, operands] at defined
      obtain ⟨⟨q, branches⟩, -⟩ := defined
      exact ⟨q, .whenTrue flow operands branches, goes (.whenTrue flow operands branches) branches branches'⟩
    | @switchDefault m ms _ flow operands branches' =>
      rw [Defined, flow, operands] at defined
      obtain ⟨q, branches⟩ := defined m List.mem_cons_self
      exact ⟨q, .switchDefault flow operands branches, goes (.switchDefault flow operands branches) branches branches'⟩
    | @switchCase m ms k x _ flow operands case branches' =>
      rw [Defined, flow, operands] at defined
      obtain ⟨q, branches⟩ := defined x (List.mem_cons_of_mem _ (List.mem_of_getElem? case))
      exact ⟨q, .switchCase flow operands case branches,
        goes (.switchCase flow operands case branches) branches branches'⟩
  · rintro ⟨q, way, rfl⟩
    have reach' : c.Reachable q := .next reach here way
    cases way with
    | next flow => exact prunes.ahead_next reach here ▸ .next flow
    | whenFalse flow operands => exact prunes.ahead_next reach here ▸ .whenFalse flow operands
    | jump flow operands branches => exact .jump flow operands (prunes.branchesTo reach' branches)
    | whenTrue flow operands branches => exact .whenTrue flow operands (prunes.branchesTo reach' branches)
    | switchDefault flow operands branches => exact .switchDefault flow operands (prunes.branchesTo reach' branches)
    | switchCase flow operands case branches => exact .switchCase flow operands case (prunes.branchesTo reach' branches)

lemma defined_ahead (reach : c.Reachable p) (here : c.at? p = some (id, i)) : c'.Defined (c.ahead keep p) i := by
  have defined := prunes.defined p id i reach here
  have next (way : ∃ kind, Way c p i kind (p + 1)) : c.ahead keep p + 1 < c'.size := by
    obtain ⟨kind, way⟩ := way
    have reach' : c.Reachable (p + 1) := .next reach here way
    obtain ⟨e, there⟩ := prunes.inside _ reach'
    rw [← prunes.ahead_next reach here]
    exact lt_size_of_at? (prunes.at?_ahead reach' there)
  have goes {m : Marker} (branches : ∃ q kind, c.BranchesTo m q ∧ Way c p i kind q) : ∃ q, c'.BranchesTo m q := by
    obtain ⟨q, kind, branches, way⟩ := branches
    exact ⟨_, prunes.branchesTo (.next reach here way) branches⟩
  rw [Defined] at defined ⊢
  split at defined
  case h_1 flow =>
    exact next ⟨_, .next flow⟩
  case h_2 m flow operands =>
    obtain ⟨q, branches⟩ := defined
    exact goes ⟨q, _, branches, .jump flow operands branches⟩
  case h_3 m flow operands =>
    obtain ⟨⟨q, branches⟩, -⟩ := defined
    exact ⟨goes ⟨q, _, branches, .whenTrue flow operands branches⟩, next ⟨_, .whenFalse flow operands⟩⟩
  case h_4 m ms flow operands =>
    intro x mem
    obtain ⟨q, branches⟩ := defined x mem
    rcases List.mem_cons.1 mem with rfl | mem
    · exact goes ⟨q, _, branches, .switchDefault flow operands branches⟩
    · obtain ⟨k, case⟩ := List.getElem?_of_mem mem
      exact goes ⟨q, _, branches, .switchCase flow operands case branches⟩
  case h_5 => trivial
  case h_6 => trivial
  case h_7 => exact defined.elim

lemma reachable_iff : c'.Reachable r ↔ ∃ q, c.Reachable q ∧ c.ahead keep q = r := by
  have resolved' := prunes.resolvedHandlers_eq prunes.resolved
  constructor
  · intro reach
    induction reach with
    | first => exact ⟨0, .first, rfl⟩
    | handler found mem =>
      rw [resolved'] at found
      cases found
      obtain ⟨h, listed, rfl⟩ := List.mem_map.1 mem
      exact ⟨h.target, .handler prunes.resolved listed, rfl⟩
    | next _ there way ih =>
      obtain ⟨p, reach, rfl⟩ := ih
      obtain ⟨e, here⟩ := prunes.inside p reach
      obtain rfl := Option.some.inj ((prunes.at?_ahead reach here).symm.trans there)
      obtain ⟨q, goes, rfl⟩ := (prunes.way_iff reach here).1 way
      exact ⟨q, .next reach here goes, rfl⟩
  · rintro ⟨q, reach, rfl⟩
    induction reach with
    | first => exact .first
    | @handler hs' h found mem =>
      obtain rfl := Except.ok.inj (prunes.resolved.symm.trans found)
      exact Reachable.handler resolved' (List.mem_map_of_mem mem)
    | next reach here way ih =>
      exact .next ih (prunes.at?_ahead reach here) ((prunes.way_iff reach here).2 ⟨_, way, rfl⟩)

lemma reachable_of_at? (there : c'.at? r = some e) : c'.Reachable r := by
  obtain ⟨p, here, kept, rfl⟩ := prunes.exists_at? there
  exact prunes.reachable_iff.2 ⟨p, (prunes.kept p e here).1 kept, rfl⟩

lemma prescribes_iff (reach : c.Reachable p) (here : c.at? p = some (id, i)) :
    Prescribes c' (hs.map (.shift (c.ahead keep))) (c.ahead keep p) i kind place ↔
      ∃ before, Prescribes c hs p i kind before ∧ before.map (c.ahead keep) = place := by
  have kept := (prunes.kept p (id, i) here).2 reach
  have covers (h : Handler Nat) : (h.shift (c.ahead keep)).Covers (c.ahead keep p) ↔ h.Covers p :=
    and_congr (ahead_le_iff here kept) (ahead_lt_iff here kept)
  constructor
  · intro goes
    cases goes with
    | way way =>
      obtain ⟨q, before, rfl⟩ := (prunes.way_iff reach here).1 way
      exact ⟨some q, .way before, rfl⟩
    | leave flow => exact ⟨none, .leave flow, rfl⟩
    | escape flow uncovered =>
      exact ⟨none, .escape flow fun h mem inside => uncovered _ (List.mem_map_of_mem mem) ((covers h).2 inside), rfl⟩
    | caught throws mem inside =>
      obtain ⟨h, listed, rfl⟩ := List.mem_map.1 mem
      exact ⟨some h.target, .caught throws listed ((covers h).1 inside), rfl⟩
  · rintro ⟨before, goes, rfl⟩
    cases goes with
    | way way => exact .way ((prunes.way_iff reach here).2 ⟨_, way, rfl⟩)
    | leave flow => exact .leave flow
    | escape flow uncovered =>
      refine .escape flow fun x mem inside => ?_
      obtain ⟨h, listed, rfl⟩ := List.mem_map.1 mem
      exact uncovered h listed ((covers h).1 inside)
    | @caught h throws mem inside => exact Prescribes.caught throws (List.mem_map_of_mem mem) ((covers h).2 inside)

end Prunes

/-- The vertex of a place. -/
def vertexAt? (c : Code) : Option Nat → Option Vertex
  | none => some .exit
  | some q => (c.at? q).map fun e => .instr e.1

end Code

namespace FlowGraph

open Code

variable {c c' : Code} {g g' : FlowGraph} {hs : List (Handler Nat)} {keep : InstrId → Bool} {id : InstrId}
  {i : Instruction Marker} {p : Nat} {kind : EdgeKind} {x : Vertex}

/-- An edge leads from an instruction to a vertex. -/
def Leads (g : FlowGraph) (id : InstrId) (kind : EdgeKind) (x : Vertex) : Prop :=
  ∃ n m, g.graph.node? n = some (.instr id) ∧ (m, kind) ∈ g.edgesFrom n ∧ g.graph.node? m = some x

namespace Spec

variable (spec : Spec c hs g)
include spec

lemma contains_iff : g.contains id = true ↔ ∃ p i, c.at? p = some (id, i) ∧ c.Reachable p := by
  rw [contains, vertex?, Option.isSome_iff_exists]
  constructor
  · rintro ⟨n, found⟩
    exact spec.reached n id ((findIdx?_beq_eq_some spec.nodup).1 found)
  · rintro ⟨p, i, here, reach⟩
    obtain ⟨n, e, there, node⟩ := spec.vertex p reach
    obtain rfl := Option.some.inj (here.symm.trans there)
    exact ⟨n, (findIdx?_beq_eq_some spec.nodup).2 node⟩

lemma leads_iff (here : c.at? p = some (id, i)) (reach : c.Reachable p) :
    g.Leads id kind x ↔ ∃ place, Prescribes c hs p i kind place ∧ c.vertexAt? place = some x := by
  have last : g.graph.node? FlowGraph.exit = some .exit := List.prefix_iff_getElem?.1 spec.outside 1 (by decide)
  constructor
  · rintro ⟨n, m, node, edge, vertex⟩
    obtain ⟨place, goes, stands⟩ := (spec.exact.edges n p id i node here m kind).1 edge
    refine ⟨place, goes, ?_⟩
    cases place with
    | none =>
      obtain rfl : m = FlowGraph.exit := stands
      exact last.symm.trans vertex
    | some q =>
      obtain ⟨e, there, node'⟩ := stands
      rw [vertexAt?, there]
      exact node'.symm.trans vertex
  · rintro ⟨place, goes, vertex⟩
    obtain ⟨n, e, there, node⟩ := spec.vertex p reach
    obtain rfl := Option.some.inj (here.symm.trans there)
    have edge (m : NodeId) (stands : Stands c g.graph m place) : (m, kind) ∈ g.edgesFrom n :=
      (spec.exact.edges n p id i node here m kind).2 ⟨place, goes, stands⟩
    cases place with
    | none => exact ⟨n, _, node, edge _ rfl, last.trans vertex⟩
    | some q =>
      obtain ⟨m, stands⟩ := spec.vertex q (goes.reachable spec.resolved reach here)
      have found := stands
      obtain ⟨e, there, node'⟩ := found
      rw [vertexAt?, there] at vertex
      exact ⟨n, m, node, edge m stands, node'.trans vertex⟩

lemma prunes (thins : Thins g.contains c c') : Prunes hs g.contains c c' where
  toThins := thins
  resolved := spec.resolved
  inside p reach := by
    obtain ⟨n, e, here, -⟩ := spec.vertex p reach
    exact ⟨e, here⟩
  defined := spec.defined
  kept p e here := by
    rw [spec.contains_iff]
    constructor
    · rintro ⟨q, i, there, reach⟩
      rwa [at?_inj here there]
    · intro reach
      exact ⟨p, e.2, here, reach⟩

end Spec

end FlowGraph

namespace Code.Prunes

open FlowGraph

variable {c c' : Code} {g g' : FlowGraph} {hs hs' : List (Handler Nat)} {keep : InstrId → Bool} {id : InstrId}
  {i : Instruction Marker} {p : Nat} {kind : EdgeKind} {x : Vertex} (prunes : Prunes hs keep c c')
include prunes

lemma exists_build : ∃ g', build c' = .ok g' := by
  have resolved' := prunes.resolvedHandlers_eq prunes.resolved
  refine FlowGraph.exists_build ?_ resolved' (fun h mem => ?_) fun r id i reach there => ?_
  · obtain ⟨e, here⟩ := prunes.inside 0 .first
    exact List.ne_nil_of_mem (List.mem_of_getElem? (prunes.at?_ahead .first here))
  · obtain ⟨h, listed, rfl⟩ := List.mem_map.1 mem
    have reach : c.Reachable h.target := .handler prunes.resolved listed
    obtain ⟨e, here⟩ := prunes.inside _ reach
    exact lt_size_of_at? (prunes.at?_ahead reach here)
  · obtain ⟨p, before, rfl⟩ := prunes.reachable_iff.1 reach
    obtain ⟨e, here⟩ := prunes.inside p before
    obtain rfl := Option.some.inj ((prunes.at?_ahead before here).symm.trans there)
    exact prunes.defined_ahead before here

lemma leads_iff (spec : Spec c hs g) (spec' : Spec c' hs' g') (here : c.at? p = some (id, i)) (reach : c.Reachable p) :
    g'.Leads id kind x ↔ g.Leads id kind x := by
  obtain rfl : hs.map (.shift (c.ahead keep)) = hs' :=
    Except.ok.inj ((prunes.resolvedHandlers_eq prunes.resolved).symm.trans spec'.resolved)
  have vertex (place : Option Nat) (goes : Prescribes c hs p i kind place) :
      c'.vertexAt? (place.map (c.ahead keep)) = c.vertexAt? place := by
    cases place with
    | none => rfl
    | some q =>
      have reach' := goes.reachable prunes.resolved reach here
      obtain ⟨e, there⟩ := prunes.inside q reach'
      rw [Option.map_some, vertexAt?, vertexAt?, there, prunes.at?_ahead reach' there]
  rw [spec.leads_iff here reach, spec'.leads_iff (prunes.at?_ahead reach here) (prunes.reachable_iff.2 ⟨p, reach, rfl⟩)]
  constructor
  · rintro ⟨place, goes, there⟩
    obtain ⟨before, goes', rfl⟩ := (prunes.prescribes_iff reach here).1 goes
    exact ⟨before, goes', (vertex before goes').symm.trans there⟩
  · rintro ⟨before, goes, there⟩
    exact ⟨_, (prunes.prescribes_iff reach here).2 ⟨before, goes, rfl⟩, (vertex before goes).trans there⟩

end Code.Prunes

end Avm
