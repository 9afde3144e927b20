import Avm.Proofs.Opt.Clearing
import Avm.Proofs.Opt.Living
import Avm.Proofs.Opt.Provenance

/-!
# Stores that no reading sees

Each store is judged by the registers that are live behind it in the graph as it is, and then all stores that were
found dead are removed together.  That is sound since the last node that sets a register before a reading of it is
never among them: behind that node the register stays live up to the reading, whichever way control takes and
wherever an exception leaves a block.

The main statement is `lastSet_of_removeDeadStores`.
-/

namespace Avm.Ir.Func

variable {f g : Func} {b t : BlockId} {v : ValueId} {rest past : List ValueId}

lemma Passed.inside (way : f.Passed b rest past) (checked : Checked f) : (f.block? b).isSome ∧ rest <:+ f.body b := by
  induction way with
  | start => exact ⟨checked.start, List.suffix_rfl⟩
  | node _ ih => exact ⟨ih.1, (List.suffix_cons _ _).trans ih.2⟩
  | edge _ edge => exact ⟨checked.live edge, List.suffix_rfl⟩
  | raise _ edge => exact ⟨checked.live edge, List.suffix_rfl⟩

lemma Passed.skip (keep : ValueId → Bool) (way : f.Passed b rest past) : ∃ rest' past', f.Passed b rest' past' ∧
    rest'.filter keep = rest.filter keep ∧ past'.filter keep = past.filter keep ∧
      ∀ v, rest'.head? = some v → keep v = true := by
  induction rest generalizing past with
  | nil => exact ⟨[], past, way, rfl, rfl, nofun⟩
  | cons v rest ih =>
    cases keeps : keep v with
    | true =>
      refine ⟨v :: rest, past, way, rfl, rfl, fun w first => ?_⟩
      rw [← Option.some.inj first]
      exact keeps
    | false =>
      obtain ⟨rest', past', there, same, same', first⟩ := ih way.node
      rw [List.filter_cons_of_neg (by simp [keeps])] at same' ⊢
      exact ⟨rest', past', there, same, same', first⟩

lemma Filed.eq_of_split (filed : Filed f) {c : BlockId} {before before' rest' : List ValueId}
    (here : f.body b = before ++ v :: rest) (there : f.body c = before' ++ v :: rest') : b = c ∧ rest = rest' := by
  have owner : b = c := filed.toListed.eq_of_mem_body (v := v) (by rw [here]; simp) (by rw [there]; simp)
  subst owner
  have once : (f.body b).Nodup := (List.nodup_append.1 (filed.nodup b)).2.1
  have tail {before rest : List ValueId} (split : f.body b = before ++ v :: rest) :
      (f.body b).dropWhile (· != v) = v :: rest := by
    rw [split] at once ⊢
    have apart : ∀ w ∈ before, (w != v) = true := by
      intro w mem
      rw [bne_iff_ne]
      rintro rfl
      exact (List.nodup_append.1 once).2.2 w mem w List.mem_cons_self rfl
    rw [List.dropWhile_append_of_pos apart, List.dropWhile_cons_of_neg (by simp)]
  refine ⟨rfl, ?_⟩
  have same := tail here
  rw [tail there] at same
  exact (List.cons.inj same).2.symm

end Avm.Ir.Func

namespace Avm.Opt.Copying

open Avm.Ir Avm.Ir.Func Liveness

variable {f g : Func} {b t : BlockId} {v s : ValueId} {r : Nat} {x : Value} {rest past : List ValueId}

/-- The node that set a register last on a way. -/
def lastSet (f : Func) (past : List ValueId) (r : Nat) : Option ValueId := past.find? fun v => (settings f v).contains r

/-- A register is read at a place in a block: by an operand of the next node or of the end of the block, directly
or through phis, by an iteration that comes next, or by the input of a phi for an edge that may be taken there. -/
inductive ReadsAt (f : Func) (b : BlockId) : List ValueId → Nat → Prop
  | operand {v : ValueId} {rest : List ValueId} {k : NodeKind} {x : Value} {r : Nat} :
    f.kind? v = some k → x ∈ k.operands → f.Reads x r → ReadsAt f b (v :: rest) r
  | iteration {v : ValueId} {rest : List ValueId} {object index r : Nat} :
    f.kind? v = some (.hasNext2 object index) → r = object ∨ r = index → ReadsAt f b (v :: rest) r
  | ends {x : Value} {r : Nat} : x ∈ (f.terminator b).operands → f.Reads x r → ReadsAt f b [] r
  | edge {t : BlockId} {kind : EdgeKind} {p : ValueId} {is : List PhiInput} {i : PhiInput} {r : Nat} :
    (t, kind) ∈ f.succs b → kind ≠ .raise → p ∈ f.phis t → f.inputs? p = some is → i ∈ is →
      i.source = b ∧ i.kind = kind → f.Reads i.value r → ReadsAt f b [] r
  | raise {t : BlockId} {p : ValueId} {is : List PhiInput} {i : PhiInput} {rest : List ValueId} {r : Nat} :
    (t, .raise) ∈ f.succs b → p ∈ f.phis t → f.inputs? p = some is → i ∈ is →
      i.source = b ∧ i.kind = .raise → f.Reads i.value r → ReadsAt f b rest r

section Places

/-- What is live in a graph at the starts of blocks. -/
def starts (f : Func) : Liveness := .of f (accesses f)

/-- What a block does to registers. -/
def access (f : Func) (b : BlockId) : BlockAccess := .of f (.of f) b

/-- What a node does to registers, if it exists. -/
def access? (f : Func) (v : ValueId) : Option NodeAccess := (f.kind? v).map (BlockAccess.ofNode (.of f) v)

/-- The registers that handlers of a block may look at. -/
def caughtLive (f : Func) (b : BlockId) : List Nat := watched (starts f) (access f b)

/-- The registers that are live at a place in a block, given the nodes that are still to come there. -/
def liveBefore (f : Func) (b : BlockId) (rest : List ValueId) : List Nat :=
  (rest.reverse.filterMap (access? f)).foldl (before (caughtLive f b)) (atEnd (starts f) (access f b) (caughtLive f b))

lemma liveBefore_cons (v : ValueId) (rest : List ValueId) : liveBefore f b (v :: rest) =
    (access? f v).toList.foldl (before (caughtLive f b)) (liveBefore f b rest) := by
  rw [liveBefore, List.reverse_cons, List.filterMap_append, List.foldl_append, ← liveBefore]
  cases here : access? f v with
  | none => rw [List.filterMap_cons_none here]; rfl
  | some n => rw [List.filterMap_cons_some here]; rfl

/-- A register is live before a node if the node reads it, or if it is live behind the node, which does not set it
unless handlers may look at it. -/
lemma mem_liveBefore_cons {k : NodeKind} (here : f.kind? v = some k) : r ∈ liveBefore f b (v :: rest) ↔
    (r ∈ liveBefore f b rest ∧ (r ∈ k.written → r ∈ caughtLive f b)) ∨ r ∈ (BlockAccess.ofNode (.of f) v k).reads := by
  rw [liveBefore_cons, access?, here]
  exact mem_before

lemma mem_liveBefore_of_cons (live : r ∈ liveBefore f b rest) (other : r ∉ settings f v) :
    r ∈ liveBefore f b (v :: rest) := by
  cases here : f.kind? v with
  | none =>
    rw [liveBefore_cons, access?, here]
    exact live
  | some k =>
    rw [settings, here, Option.map_some, Option.getD_some] at other
    exact (mem_liveBefore_cons here).2 (.inl ⟨live, fun set => absurd set other⟩)

lemma caughtLive_subset (rest : List ValueId) : caughtLive f b ⊆ liveBefore f b rest := by
  intro r mem
  induction rest with
  | nil => exact mem_atEnd.2 (.inl mem)
  | cons v rest ih =>
    cases here : f.kind? v with
    | none =>
      rw [liveBefore_cons, access?, here]
      exact ih
    | some k => exact (mem_liveBefore_cons here).2 (.inl ⟨ih, fun _ => mem⟩)

lemma liveBefore_body (live : (f.block? b).isSome) : liveBefore f b (f.body b) = atStart (starts f) b :=
  (atStart_of live).symm

lemma mem_edges_access {e : BlockId × EdgeKind} (edge : e ∈ f.succs b) :
    BlockAccess.ofEdge f (.of f) b e ∈ (access f b).edges := List.mem_map_of_mem edge

lemma mem_liveBefore_of_edge {kind : EdgeKind} (edge : (t, kind) ∈ f.succs b) (leaves : kind ≠ .raise)
    (there : r ∈ atStart (starts f) t ∨ r ∈ (BlockAccess.ofEdge f (.of f) b (t, kind)).reads) :
    r ∈ liveBefore f b [] :=
  mem_atEnd.2 (.inr (.inl ⟨_, mem_edges_access edge, beq_false_of_ne leaves, there⟩))

lemma mem_liveBefore_of_raise (edge : (t, .raise) ∈ f.succs b)
    (there : r ∈ atStart (starts f) t ∨ r ∈ (BlockAccess.ofEdge f (.of f) b (t, .raise)).reads) :
    r ∈ liveBefore f b rest :=
  caughtLive_subset rest (mem_watched.2 ⟨_, mem_edges_access edge, rfl, there⟩)

lemma mem_liveBefore_of_readsAt (reads : ReadsAt f b rest r) : r ∈ liveBefore f b rest := by
  cases reads with
  | operand here mem read =>
    exact (mem_liveBefore_cons here).2 (.inr (BlockAccess.mem_reads_ofNode.2 (.inr ⟨_, mem, read⟩)))
  | iteration here named =>
    exact (mem_liveBefore_cons here).2 (.inr (BlockAccess.mem_reads_ofNode.2 (.inl ⟨_, _, rfl, named⟩)))
  | ends mem read => exact mem_atEnd.2 (.inr (.inr (PhiReads.mem_values.2 ⟨_, mem, read⟩)))
  | edge edge leaves phi inputs mem own read =>
    exact mem_liveBefore_of_edge edge leaves
      (.inr (BlockAccess.mem_reads_ofEdge.2 ⟨_, phi, _, inputs, _, mem, own, read⟩))
  | raise edge phi inputs mem own read =>
    exact mem_liveBefore_of_raise edge
      (.inr (BlockAccess.mem_reads_ofEdge.2 ⟨_, phi, _, inputs, _, mem, own, read⟩))

end Places

section Dead

/-- The nodes of a list that goes backwards through a block, each with what is live behind it. -/
lemma exists_of_mem_behind {watched live live' : List Nat} {vs : List ValueId}
    (mem : (v, live') ∈ behind watched (vs.filterMap (access? f)) live) :
    ∃ later earlier, vs = later ++ v :: earlier ∧
      live' = (later.filterMap (access? f)).foldl (before watched) live := by
  induction vs generalizing live with
  | nil => cases mem
  | cons u vs ih =>
    cases here : access? f u with
    | none =>
      rw [List.filterMap_cons_none here] at mem
      obtain ⟨later, earlier, rfl, rfl⟩ := ih mem
      exact ⟨u :: later, earlier, rfl, by rw [List.filterMap_cons_none here]⟩
    | some n =>
      rw [List.filterMap_cons_some here, behind] at mem
      have named : n.node = u := by
        obtain ⟨k, -, rfl⟩ := Option.map_eq_some_iff.1 here
        rfl
      rcases List.mem_cons.1 mem with first | more
      · obtain ⟨rfl, rfl⟩ := Prod.mk.inj first
        exact ⟨[], vs, by rw [named]; rfl, rfl⟩
      · obtain ⟨later, earlier, rfl, rfl⟩ := ih more
        exact ⟨u :: later, earlier, rfl, by rw [List.filterMap_cons_some here]; rfl⟩

lemma exists_of_mem_deadStores (dead : v ∈ deadStores f) : ∃ r x, f.kind? v = some (.store r x) ∧
    ∃ b before rest, f.body b = before ++ v :: rest ∧ r ∉ liveBefore f b rest := by
  obtain ⟨p, block, listed⟩ := List.mem_flatMap.1 dead
  obtain ⟨e, stored, rfl⟩ := List.mem_map.1 listed
  obtain ⟨b, -, rfl⟩ := List.mem_map.1 block
  obtain ⟨mem, isDead⟩ := List.mem_filter.1 stored
  obtain ⟨v, live⟩ := e
  obtain ⟨later, earlier, body, rfl⟩ := exists_of_mem_behind (f := f) mem
  rw [isDeadStore] at isDead
  split at isDead
  · rename_i r x here
    refine ⟨r, x, here, b, earlier.reverse, later.reverse, ?_, ?_⟩
    · rw [← List.reverse_reverse (f.body b), body]
      simp
    · rw [liveBefore, List.reverse_reverse]
      rw [Bool.not_eq_true', List.contains_eq_mem, decide_eq_false_iff_not] at isDead
      exact isDead
  · cases isDead

lemma notMem_deadStores_of_lastSet (checked : Checked f) (way : f.Passed b rest past) (live : r ∈ liveBefore f b rest)
    (last : lastSet f past r = some s) : s ∉ deadStores f := by
  induction way with
  | start => cases last
  | @node b v rest past way ih =>
    rw [lastSet, List.find?_cons] at last
    split at last
    · rename_i set
      obtain rfl := Option.some.inj last
      rw [List.contains_iff_mem] at set
      intro dead
      obtain ⟨r', x, here, c, before, rest', there, notLive⟩ := exists_of_mem_deadStores dead
      obtain ⟨before', split⟩ := (way.inside checked).2
      obtain ⟨rfl, rfl⟩ := checked.toFiled.eq_of_split split.symm there
      rw [settings, here, Option.map_some, Option.getD_some, NodeKind.written, List.mem_singleton] at set
      exact notLive (set ▸ live)
    · rename_i other
      exact ih (mem_liveBefore_of_cons live (by simpa using other)) last
  | edge way edge leaves ih =>
    rw [liveBefore_body (checked.live edge)] at live
    exact ih (mem_liveBefore_of_edge edge leaves (.inl live)) last
  | raise way edge ih =>
    rw [liveBefore_body (checked.live edge)] at live
    exact ih (mem_liveBefore_of_raise edge (.inl live)) last

end Dead

section Removal

/-- The node is not removed. -/
def kept (f : Func) (v : ValueId) : Bool := !(deadStores f).contains v

lemma kept_eq_true : kept f v = true ↔ v ∉ deadStores f := by
  rw [kept, Bool.not_eq_true', ← Bool.not_eq_true, List.contains_iff_mem]

/-- A graph without some of its stores. -/
structure Pared (keep : ValueId → Bool) (f g : Func) : Prop extends SameFlow f g where
  phis : ∀ b, g.phis b = f.phis b
  body : ∀ b, g.body b = (f.body b).filter keep
  terminator_eq : ∀ b, g.terminator b = f.terminator b
  kind : ∀ v, keep v = true → g.kind? v = f.kind? v
  inputs : ∀ v, g.inputs? v = f.inputs? v

lemma inputs?_of_mem_deadStores (dead : v ∈ deadStores f) : f.inputs? v = none := by
  obtain ⟨r, x, here, -⟩ := exists_of_mem_deadStores dead
  rw [inputs?, here]
  rfl

lemma lists_foldl_dropNode (listed : Listed f) (vs : List ValueId) (b : BlockId) :
    (vs.foldl dropNode f).phis b = (f.phis b).filter (fun v => !vs.contains v) ∧
      (vs.foldl dropNode f).body b = (f.body b).filter fun v => !vs.contains v := by
  induction vs generalizing f with
  | nil => simp
  | cons v vs ih =>
    obtain ⟨phis, body⟩ := ih (listed.dropNode v)
    rw [List.foldl_cons, phis, body, (listed.lists_dropNode v b).1, (listed.lists_dropNode v b).2, List.filter_filter,
      List.filter_filter]
    constructor
    · refine List.filter_congr fun w _ => ?_
      by_cases same : w = v <;> simp [same]
    · refine List.filter_congr fun w _ => ?_
      by_cases same : w = v <;> simp [same]

lemma pared_removeDeadStores (listed : Listed f) : Pared (kept f) f (removeDeadStores f).1 where
  toSameFlow := (Trims.foldl_dropNode (deadStores f) f).sameFlow
  phis b := by
    rw [removeDeadStores, (lists_foldl_dropNode listed _ b).1, List.filter_eq_self]
    intro v mem
    refine kept_eq_true.2 fun dead => ?_
    have phi := listed.phi b v mem
    rw [inputs?_of_mem_deadStores dead] at phi
    cases phi
  body b := (lists_foldl_dropNode listed _ b).2
  terminator_eq b := terminator_foldl_dropNode _
  kind v keep := by
    rw [removeDeadStores, kind?, node?_foldl_dropNode, if_neg (kept_eq_true.1 keep), ← kind?]
  inputs v := by
    by_cases dead : v ∈ deadStores f
    · rw [removeDeadStores, inputs?_eq, node?_foldl_dropNode, if_pos dead, inputs?_of_mem_deadStores dead]
      rfl
    · rw [removeDeadStores, inputs?_eq, node?_foldl_dropNode, if_neg dead, ← inputs?_eq]

namespace Pared

variable {keep : ValueId → Bool} (pared : Pared keep f g)
include pared

lemma reads : g.Reads x r ↔ f.Reads x r := by
  constructor
  · refine Reads.mono fun v is inputs i mem => ⟨is, ?_, i, mem, rfl⟩
    rw [← pared.inputs, inputs]
  · refine Reads.mono fun v is inputs i mem => ⟨is, ?_, i, mem, rfl⟩
    rw [pared.inputs, inputs]

lemma passed (way : f.Passed b rest past) : g.Passed b (rest.filter keep) (past.filter keep) := by
  induction way with
  | start =>
    rw [← pared.body]
    exact .start
  | @node b v rest past _ ih =>
    cases keeps : keep v with
    | true =>
      rw [List.filter_cons_of_pos keeps] at ih ⊢
      exact ih.node
    | false =>
      rw [List.filter_cons_of_neg (by simp [keeps])] at ih ⊢
      exact ih
  | @edge b t kind past _ edge leaves ih =>
    rw [← pared.body]
    exact ih.edge (by rw [pared.succs]; exact edge) leaves
  | @raise b t rest past _ edge ih =>
    rw [← pared.body]
    exact ih.raise (by rw [pared.succs]; exact edge)

/-- A way through what is left of the graph is one through the graph, and what is read there is read here. -/
lemma exists_passed (way : g.Passed b rest past) : ∃ rest' past', f.Passed b rest' past' ∧
    rest = rest'.filter keep ∧ past = past'.filter keep ∧ ∀ v, rest'.head? = some v → keep v = true := by
  have enter {b past} (way : f.Passed b (f.body b) past) : ∃ rest' past', f.Passed b rest' past' ∧
      g.body b = rest'.filter keep ∧ past.filter keep = past'.filter keep ∧ ∀ v, rest'.head? = some v →
        keep v = true := by
    obtain ⟨rest', past', there, rest, past, first⟩ := way.skip keep
    exact ⟨rest', past', there, by rw [rest, pared.body], past.symm, first⟩
  induction way with
  | start => exact enter .start
  | @node b v rest past _ ih =>
    obtain ⟨rest', past', there, same, rfl, first⟩ := ih
    cases rest' with
    | nil => cases same
    | cons w rest' =>
      rw [List.filter_cons_of_pos (first w rfl)] at same
      obtain ⟨rfl, rfl⟩ := List.cons.inj same
      obtain ⟨rest'', past'', there', same', past', first'⟩ := there.node.skip keep
      refine ⟨rest'', past'', there', same'.symm, ?_, first'⟩
      rw [past', List.filter_cons_of_pos (first v rfl)]
  | @edge b t kind past _ edge leaves ih =>
    obtain ⟨rest', past', there, same, rfl, first⟩ := ih
    rw [pared.succs] at edge
    cases rest' with
    | nil => exact enter (there.edge edge leaves)
    | cons w rest' =>
      rw [List.filter_cons_of_pos (first w rfl)] at same
      cases same
  | @raise b t rest past _ edge ih =>
    obtain ⟨rest', past', there, -, rfl, -⟩ := ih
    rw [pared.succs] at edge
    exact enter (there.raise edge)

lemma readsAt (reads : ReadsAt g b (rest.filter keep) r) (first : ∀ v, rest.head? = some v → keep v = true) :
    ReadsAt f b rest r := by
  generalize same : rest.filter keep = rest' at reads
  have ends (none : rest' = []) : rest = [] := by
    cases rest with
    | nil => rfl
    | cons w rest =>
      rw [none, List.filter_cons_of_pos (first w rfl)] at same
      cases same
  have next {v : ValueId} {later : List ValueId} (begins : rest' = v :: later) :
    keep v = true ∧ ∃ more, rest = v :: more := by
    cases rest with
    | nil =>
      rw [begins] at same
      cases same
    | cons w rest =>
      rw [begins, List.filter_cons_of_pos (first w rfl)] at same
      obtain ⟨rfl, -⟩ := List.cons.inj same
      exact ⟨first w rfl, rest, rfl⟩
  cases reads with
  | operand here mem read =>
    obtain ⟨keeps, more, rfl⟩ := next rfl
    exact .operand (by rw [← pared.kind _ keeps]; exact here) mem (pared.reads.1 read)
  | iteration here named =>
    obtain ⟨keeps, more, rfl⟩ := next rfl
    exact .iteration (by rw [← pared.kind _ keeps]; exact here) named
  | ends mem read =>
    obtain rfl := ends rfl
    exact .ends (by rw [← pared.terminator_eq]; exact mem) (pared.reads.1 read)
  | edge edge leaves phi inputs mem own read =>
    obtain rfl := ends rfl
    rw [pared.succs] at edge
    rw [pared.phis] at phi
    rw [pared.inputs] at inputs
    exact .edge edge leaves phi inputs mem own (pared.reads.1 read)
  | raise edge phi inputs mem own read =>
    rw [pared.succs] at edge
    rw [pared.phis] at phi
    rw [pared.inputs] at inputs
    exact .raise edge phi inputs mem own (pared.reads.1 read)

lemma lastSet (keeps : ∀ s, Copying.lastSet f past r = some s → keep s = true) :
    Copying.lastSet g (past.filter keep) r = Copying.lastSet f past r := by
  have sets : ∀ v, keep v = true → settings g v = settings f v := by
    intro v keep
    rw [settings, pared.kind v keep, ← settings]
  induction past with
  | nil => rfl
  | cons v past ih =>
    rw [Copying.lastSet, List.find?_cons] at keeps
    cases set : (settings f v).contains r with
    | true =>
      rw [set] at keeps
      have keep : keep v = true := keeps v rfl
      rw [List.filter_cons_of_pos keep, Copying.lastSet, Copying.lastSet, List.find?_cons, List.find?_cons,
        sets v keep, set]
    | false =>
      rw [set] at keeps
      have later := ih keeps
      cases keep : keep v with
      | true =>
        rw [List.filter_cons_of_pos keep, Copying.lastSet, Copying.lastSet, List.find?_cons, List.find?_cons,
          sets v keep, set]
        exact later
      | false =>
        rw [List.filter_cons_of_neg (by simp [keep]), Copying.lastSet.eq_1 f, List.find?_cons, set]
        exact later

end Pared

/-- The removal of dead stores changes no reading.  Every way through the graph is one through what is left of it,
and the other way round, and whatever register is read on the way was set last by the same node, which does what it
did. -/
theorem lastSet_of_removeDeadStores (f : Func) (checked : Checked f) :
    (∀ b rest past, f.Passed b rest past →
      (removeDeadStores f).1.Passed b (rest.filter (kept f)) (past.filter (kept f)) ∧
        ∀ r, ReadsAt f b rest r →
          Copying.lastSet (removeDeadStores f).1 (past.filter (kept f)) r = Copying.lastSet f past r) ∧
      (∀ b rest past, (removeDeadStores f).1.Passed b rest past → ∃ rest' past', f.Passed b rest' past' ∧
        rest = rest'.filter (kept f) ∧ past = past'.filter (kept f) ∧
          ∀ r, ReadsAt (removeDeadStores f).1 b rest r → ReadsAt f b rest' r) ∧
      ∀ v, kept f v = true → (removeDeadStores f).1.kind? v = f.kind? v := by
  have pared := pared_removeDeadStores checked.toListed
  refine ⟨fun b rest past way => ⟨pared.passed way, fun r reads => pared.lastSet fun s last => ?_⟩,
    fun b rest past way => ?_, pared.kind⟩
  · exact kept_eq_true.2 (notMem_deadStores_of_lastSet checked way (mem_liveBefore_of_readsAt reads) last)
  · obtain ⟨rest', past', there, rfl, rfl, first⟩ := pared.exists_passed way
    exact ⟨rest', past', there, rfl, rfl, fun r reads => pared.readsAt reads first⟩

/-- A handler reads a register that is set twice in the block that it covers; another store is for nobody. -/
def watchedTwice : List Change :=
  [.addBlock, .addBlock, .addBlock, .addHandler ⟨4, 0, 0⟩, .setHandlers 2 [0], .setTerminator 0 (.goto 2),
    .appendNode 2 (.store 1 (.const (.int 1))), .appendNode 2 (.store 1 (.const (.int 2))),
    .appendNode 2 (.store 2 (.const (.int 3))), .setTerminator 2 (.goto 3), .setTerminator 3 (.leave none),
    .appendNode 4 .caught, .setTerminator 4 (.leave (some (.reg 1 0)))]

/-- What there is in that graph. -/
def Watches (f : Func) : Prop :=
  deadStores f = [2] ∧ (2, .fallthrough) ∈ f.succs 0 ∧ (4, .raise) ∈ f.succs 2 ∧ f.body 0 = [] ∧ f.body 2 = [0, 1, 2] ∧
    f.body 4 = [3] ∧ f.terminator 4 = .leave (some (.reg 1 0)) ∧ Copying.lastSet f [3, 0] 1 = some 0

instance (f : Func) : Decidable (Watches f) := inferInstanceAs (Decidable (_ ∧ _))

/-- An exception between the two stores brings the first one to the handler. -/
theorem lastSet_of_removeDeadStores_watched : ∃ f, build? watchedTwice (.new 0 0 {} 3) = some f ∧ Checked f ∧
    deadStores f = [2] ∧ f.Passed 4 [] [3, 0] ∧ ReadsAt f 4 [] 1 ∧ (removeDeadStores f).1.Passed 4 [] [3, 0] ∧
      Copying.lastSet (removeDeadStores f).1 [3, 0] 1 = some 0 := by
  have facts : (build? watchedTwice (.new 0 0 {} 3)).any (fun f => (f.block? entry).isSome && f.verify.isOk &&
      decide (Watches f)) = true := by decide +kernel
  obtain ⟨f, built, checked, dead, first, caught, body₀, body₂, body₄, ending, last⟩ := exists_checked facts
  have origin : f.Passed entry (f.body entry) [] := .start
  rw [entry, body₀] at origin
  have between : f.Passed 2 [1, 2] [0] := by
    refine .node ?_
    rw [← body₂]
    exact origin.edge first (by decide)
  have way : f.Passed 4 [] [3, 0] := by
    refine .node ?_
    rw [← body₄]
    exact between.raise caught
  have reads : ReadsAt f 4 [] 1 := by
    refine @ReadsAt.ends f 4 (.reg 1 0) 1 ?_ .reg
    rw [ending]
    exact List.mem_singleton_self _
  obtain ⟨there, same⟩ := (lastSet_of_removeDeadStores f checked).1 4 [] [3, 0] way
  have stays : [3, 0].filter (kept f) = [3, 0] := by simp [kept, dead]
  rw [stays] at there same
  exact ⟨f, built, checked, dead, way, reads, there, (same 1 reads).trans last⟩

end Removal

end Avm.Opt.Copying
