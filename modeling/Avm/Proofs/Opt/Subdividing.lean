import Avm.Proofs.Ir.Reading
import Avm.Proofs.Opt.Relocating

/-!
# Loops and edges that are split

A block that is put on the edge into a loop, under the handlers of the block at which the loop is entered, makes no
loop and breaks none.  A region that has both ends of the edge gets the new block too (`grown`), and so do just those of
its loops that have both ends; the others are the loops that were there.  The new block leads where the edge led, and
where exceptions at both ends of the edge lead, so it is passed over on a path between blocks that were there, and it is
on a cycle if both ends are.  Nor is there a loop behind that is entered by a single edge and was not before.

The main statements are `Splits.exists_of_mem_loops` and `Splits.sole_of_grown`.
-/

namespace Avm.Ir.Func

variable {f g : Func} {b s t h : BlockId} {kind k : EdgeKind} {depth : Nat}

/-- What is kept of a graph that passes the check while edges are split: a new block need not bring anything to the phis
where exceptions lead. -/
structure Workable (f : Func) : Prop extends Lawful f where
  wired : Wired (fun _ => False) f
  sparse : Sparse f
  leaves : (f.block? exit).isSome
  ended : f.terminator exit = .none

/-- One edge of a graph has a block put on it, where exceptions at the start of the edge lead where those at its end
do. -/
structure Splits (f : Func) (s h : BlockId) (kind : EdgeKind) (g : Func) : Prop where
  edge : (h, kind) ∈ f.succs s
  normal : kind ≠ .raise
  old : ∀ b, ∀ e ∈ f.succs b, e.1 < f.blocks.size
  shared : ∀ t, (t, .raise) ∈ f.succs s → (t, .raise) ∈ f.succs h
  size : g.blocks.size = f.blocks.size + 1
  split : g.succs s = (f.succs s).map fun e => if e = (h, kind) then (f.blocks.size, kind) else e
  onward : g.succs f.blocks.size = (h, .fallthrough) :: (f.succs s).filter (·.2 == .raise)
  succs : ∀ t ≠ f.blocks.size, t ≠ s → g.succs t = f.succs t
  handlersOf : ∀ t, g.handlersOf t = f.handlersOf (if t = f.blocks.size then s else t)

namespace Workable

lemma of_verify (lawful : Lawful f) (verified : f.verify = .ok ())
    (ended : (f.block? exit).map (·.terminator) = some .none) : Workable f := by
  obtain ⟨wired, fed⟩ := lawful.verify_eq_ok.1 verified
  obtain ⟨x, here, ended⟩ := Option.map_eq_some_iff.1 ended
  refine ⟨lawful, wired, fed.sparse, by rw [here]; rfl, ?_⟩
  rw [terminator, here]
  exact ended

lemma lt_size {e : BlockId × EdgeKind} (work : Workable f) (edge : e ∈ f.succs b) : e.1 < f.blocks.size :=
  lt_size_of_block? (work.wired.live b e edge)

lemma nodup_succs (work : Workable f) (b : BlockId) : (f.succs b).Nodup := by
  rw [work.wired.wired b id, edgesOf_eq]
  exact nodup_edgesFrom

lemma nodup_preds (work : Workable f) (b : BlockId) : (f.preds b).Nodup := by
  cases here : f.block? b with
  | none =>
    rw [(parts_of_isNone here).2.2.2.2.2]
    exact List.nodup_nil
  | some x =>
    refine List.nodup_iff_count_le_one.2 fun e => ?_
    rw [work.wired.agreed b (by rw [here]; rfl)]
    exact List.nodup_iff_count_le_one.1 (work.nodup_succs e.1) _

lemma mem_preds_iff (work : Workable f) : (b, k) ∈ f.preds t ↔ (t, k) ∈ f.succs b := by
  rw [← List.count_pos_iff, ← List.count_pos_iff]
  constructor
  · intro some_
    rwa [← work.wired.agreed t (isSome_of_mem_preds (List.count_pos_iff.1 some_))]
  · intro some_
    rwa [work.wired.agreed t (work.wired.live b _ (List.count_pos_iff.1 some_))]

/-- Exceptions lead from two blocks to the same ones if both are covered by the same handlers and control goes on at the
end of the first. -/
lemma shared (work : Workable f) (edge : (h, kind) ∈ f.succs s) (normal : kind ≠ .raise) (on : kind ≠ .leave)
    (covered : f.handlersOf h = f.handlersOf s) (raises : (t, .raise) ∈ f.succs s) : (t, .raise) ∈ f.succs h := by
  apply work.wired.mem_succs_of_caught
  rw [covered]
  rw [work.wired.wired s id, edgesOf_eq] at raises
  rcases mem_edgesFrom.1 raises with goes | leaves | caught
  · exact absurd rfl (Terminator.ne_raise_of_mem_targets goes)
  · rw [leaving_eq_nil (work.wired.goes edge normal on)] at leaves
    cases leaves
  · exact mem_edgesFrom.2 (.inr (.inr caught))

lemma splits (work : Workable f) (edge : (h, kind) ∈ f.succs s) (normal : kind ≠ .raise) (on : kind ≠ .leave)
    (covered : f.handlersOf h = f.handlersOf s) : Splits f s h kind (f.onEdge s h kind depth) where
  edge := edge
  normal := normal
  old _ _ := work.lt_size
  shared _ := work.shared edge normal on covered
  size := size_onEdge
  split := by
    rw [succs_onEdge (isSome_of_mem_succs edge), if_pos rfl, work.wired.edgesFrom_retargeted edge normal on]
  onward := by
    rw [succs_onEdge (isSome_of_mem_succs edge), if_neg (size_ne_of_isSome (isSome_of_mem_succs edge)).symm, if_pos rfl,
      work.wired.onward_eq edge normal on]
  succs t new other := by rw [succs_onEdge (isSome_of_mem_succs edge), if_neg other, if_neg new]
  handlersOf t := by
    rw [handlersOf_onEdge (isSome_of_mem_succs edge)]
    split <;> rfl

lemma onEdge (work : Workable f) (edge : (h, kind) ∈ f.succs s) (normal : kind ≠ .raise) (on : kind ≠ .leave)
    (depth : Nat) : Workable (f.onEdge s h kind depth) where
  toLawful := work.toLawful.onEdge (isSome_of_mem_succs edge) depth
  wired := work.wired.onEdge edge depth
  sparse := work.sparse.onEdge work.toLawful edge depth
  leaves := by rw [isSome_onEdge, work.leaves, Bool.or_true]
  ended := by
    have other : exit ≠ s := by
      rintro rfl
      have goes := work.wired.goes edge normal on
      rw [work.ended] at goes
      cases goes
    rw [terminator_onEdge (isSome_of_mem_succs edge), if_neg other, if_neg (size_ne_of_isSome work.leaves), work.ended]

lemma run_splitEdge (work : Workable f) (edge : (h, kind) ∈ f.succs s) (normal : kind ≠ .raise) :
    (Edit.splitEdge s h kind).run f = .ok f.blocks.size (f.onEdge s h kind (f.scopeDepth s)) := by
  apply Edit.run_splitEdge edge normal (work.covered s) (work.wired.live s _ edge)
  intro e goes
  apply work.wired.live s e
  rw [work.wired.wired s id, edgesOf_eq]
  exact mem_edgesFrom.2 (.inl goes)

lemma exists_input_onEdge (work : Workable f) (edge : (h, kind) ∈ f.succs s) (normal : kind ≠ .raise)
    (on : kind ≠ .leave)
    {v : ValueId} {is : List PhiInput} {i : PhiInput} (inputs : f.inputs? v = some is) (mem : i ∈ is) :
    ∃ is', (f.onEdge s h kind depth).inputs? v = some is' ∧ ∃ i' ∈ is', i'.value = i.value := by
  by_cases listed : ∃ t, v ∈ f.phis t
  · obtain ⟨t, there⟩ := listed
    have comes : f.incoming v i.source i.kind = some i.value := by
      rw [incoming, inputs]
      exact incoming?_of_mem (work.sparse.once t v there is inputs) mem
    obtain ⟨s', k', comes'⟩ := work.sparse.exists_incoming_onEdge work.wired work.toLawful there edge normal on comes
    obtain ⟨is', inputs', found⟩ := Option.bind_eq_some_iff.1 comes'
    obtain ⟨i', mem', -, -, same⟩ := exists_of_incoming? found
    exact ⟨is', inputs', i', mem', same⟩
  · rw [not_exists] at listed
    refine ⟨is, ?_, i, mem, rfl⟩
    rw [inputs?_eq, node?_onEdge_of_notMem listed, ← inputs?_eq]
    exact inputs

lemma reads_onEdge (work : Workable f) (edge : (h, kind) ∈ f.succs s) (normal : kind ≠ .raise) (on : kind ≠ .leave)
    {x : Value} {r : Nat} (reads : f.Reads x r) : (f.onEdge s h kind depth).Reads x r :=
  reads.mono fun _ _ inputs _ mem => work.exists_input_onEdge edge normal on inputs mem

end Workable

namespace Splits

variable (splits : Splits f s h kind g)
include splits

lemma start_lt : s < f.blocks.size := lt_size_of_block? (isSome_of_mem_succs splits.edge)

lemma target_lt : h < f.blocks.size := splits.old s _ splits.edge

lemma edge_of_old (old : b ≠ f.blocks.size) (old' : t ≠ f.blocks.size) (edge : (t, k) ∈ g.succs b) :
    (t, k) ∈ f.succs b := by
  by_cases first : b = s
  · subst first
    rw [splits.split, List.mem_map] at edge
    obtain ⟨e, mem, same⟩ := edge
    split at same
    · exact absurd (Prod.mk.inj same).1.symm old'
    · subst same
      exact mem
  · rwa [splits.succs b old first] at edge

lemma mem_of_old (old : b ≠ f.blocks.size) (old' : t ≠ f.blocks.size) (next : t ∈ g.succIds b) : t ∈ f.succIds b := by
  obtain ⟨⟨t, k⟩, edge, rfl⟩ := List.mem_map.1 next
  exact List.mem_map_of_mem (splits.edge_of_old old old' edge)

lemma mem_new : f.blocks.size ∈ g.succIds b ↔ b = s := by
  have absent (b k) : (f.blocks.size, k) ∉ f.succs b := fun edge => (splits.old b _ edge).false
  constructor
  · intro next
    obtain ⟨⟨t, k⟩, edge, rfl⟩ := List.mem_map.1 next
    by_contra other
    by_cases new : b = f.blocks.size
    · subst new
      rw [splits.onward, List.mem_cons] at edge
      rcases edge with same | raises
      · exact absurd (Prod.mk.inj same).1.symm splits.target_lt.ne
      · exact absent s k (List.mem_of_mem_filter raises)
    · rw [splits.succs b new other] at edge
      exact absent b k edge
  · rintro rfl
    rw [succIds, splits.split]
    exact List.mem_map.2 ⟨_, List.mem_map.2 ⟨_, splits.edge, if_pos rfl⟩, rfl⟩

lemma mem_of_new (next : t ∈ g.succIds f.blocks.size) : t ∈ f.succIds s ∧ (t = h ∨ t ∈ f.succIds h) := by
  obtain ⟨⟨t, k⟩, edge, rfl⟩ := List.mem_map.1 next
  rw [splits.onward, List.mem_cons] at edge
  rcases edge with same | raises
  · obtain ⟨rfl, -⟩ := Prod.mk.inj same
    exact ⟨List.mem_map.2 ⟨_, splits.edge, rfl⟩, .inl rfl⟩
  · obtain ⟨raises, kind⟩ := List.mem_filter.1 raises
    obtain rfl : k = .raise := by simpa using kind
    exact ⟨List.mem_map_of_mem raises, .inr (List.mem_map_of_mem (splits.shared t raises))⟩

lemma onward_mem : h ∈ g.succIds f.blocks.size := by
  rw [succIds, splits.onward]
  exact List.mem_cons_self

lemma mem_kept {k : EdgeKind} (edge : (t, k) ∈ f.succs b) (kept : ¬(b = s ∧ t = h ∧ k = kind)) :
    (t, k) ∈ g.succs b := by
  by_cases first : b = s
  · subst first
    rw [splits.split]
    exact List.mem_map.2 ⟨(t, k), edge, if_neg fun same => kept ⟨rfl, Prod.mk.inj same⟩⟩
  · rwa [splits.succs b (size_ne_of_isSome (isSome_of_mem_succs edge)) first]

lemma mem_succIds_kept (next : t ∈ f.succIds b) (kept : ¬(b = s ∧ t = h)) : t ∈ g.succIds b := by
  obtain ⟨⟨t, k⟩, edge, rfl⟩ := List.mem_map.1 next
  exact List.mem_map_of_mem (splits.mem_kept edge fun all => kept ⟨all.1, all.2.1⟩)

end Splits

end Avm.Ir.Func

namespace Avm.Opt.Hoisting

open Avm.Graph Avm.Ir Avm.Ir.Func Relation

variable {f g : Func} {members l : List BlockId} {cut : Option BlockId} {b c t s h : BlockId} {kind : EdgeKind}
  {e : Entrance}

/-- Loops are the largest sets of blocks of a region that reach each other, listed in ascending order. -/
lemma mem_loops_iff (small : ∀ b ∈ members, b < f.blocks.size) : l ∈ loops f members cut ↔ l.Pairwise (· < ·) ∧
    ∃ b ∈ members, TransGen (Inner f members cut) b b ∧ ∀ t, t ∈ l ↔
      t ∈ members ∧ ReflTransGen (Inner f members cut) b t ∧ ReflTransGen (Inner f members cut) t b := by
  have regions : Condenses members (Inner f members cut) _ (components members f.blocks.size
      (innerSuccs f (.ofList f.blocks.size members) cut)) := condenses_region small
  rw [mem_loops]
  constructor
  · rintro ⟨c, comp, cyclic, rfl⟩
    obtain ⟨b, here⟩ := List.exists_mem_of_ne_nil c (regions.full c comp)
    refine ⟨Ascending.pairwise_ofList c, b, (regions.all b).1 (List.mem_flatten_of_mem comp here),
      (regions.cyclic c comp).1 cyclic b here, fun t => ?_⟩
    rw [Ascending.mem_ofList]
    constructor
    · intro there
      have inside := (regions.all t).1 (List.mem_flatten_of_mem comp there)
      exact ⟨inside, (regions.joined c comp b here t inside).1 there⟩
    · rintro ⟨inside, around⟩
      exact (regions.joined c comp b here t inside).2 around
  · rintro ⟨sorted, b, inside, cycle, same⟩
    obtain ⟨c, comp, here⟩ := List.mem_flatten.1 ((regions.all b).2 inside)
    refine ⟨c, comp, (regions.cyclic c comp).2 fun t there => ?_, ?_⟩
    · obtain ⟨path, back⟩ := (regions.joined c comp b here t
        ((regions.all t).1 (List.mem_flatten_of_mem comp there))).1 there
      exact (TransGen.trans_right back cycle).trans_left path
    · apply sorted.eq_of_mem_iff (Ascending.pairwise_ofList c)
      intro t
      rw [same, Ascending.mem_ofList]
      constructor
      · rintro ⟨there, around⟩
        exact (regions.joined c comp b here t there).2 around
      · intro there
        have inside' := (regions.all t).1 (List.mem_flatten_of_mem comp there)
        exact ⟨inside', (regions.joined c comp b here t inside').1 there⟩

/-- Blocks with the block on an edge if both of its ends are among them. -/
def grown (p s h : BlockId) (l : List BlockId) : List BlockId := if s ∈ l ∧ h ∈ l then l ++ [p] else l

lemma mem_grown {p : BlockId} : b ∈ grown p s h l ↔ b ∈ l ∨ b = p ∧ s ∈ l ∧ h ∈ l := by
  rw [grown]
  split
  · rename_i both
    rw [List.mem_append, List.mem_singleton, and_iff_left both]
  · rename_i neither
    rw [or_iff_left fun all => neither all.2]

lemma mem_grown_of_ne {p : BlockId} (old : b ≠ p) : b ∈ grown p s h l ↔ b ∈ l := by
  rw [mem_grown, or_iff_left fun both => old both.1]

lemma pairwise_grown {p : BlockId} (sorted : l.Pairwise (· < ·)) (old : ∀ b ∈ l, b < p) :
    (grown p s h l).Pairwise (· < ·) := by
  rw [grown]
  split
  · refine List.pairwise_append.2 ⟨sorted, List.pairwise_singleton _ _, fun b mem t last => ?_⟩
    rw [List.mem_singleton.1 last]
    exact old b mem
  · exact sorted

section Regions

variable (splits : Splits f s h kind g) (small : ∀ b ∈ members, b < f.blocks.size)
  (apart : s ∈ members → h ∈ members → some h ≠ cut) (young : cut ≠ some f.blocks.size)
include splits

section Leads

include apart young

lemma leads_of_inner (start : b ∈ members) (next : Inner f members cut b t) :
    TransGen (Inner g (grown f.blocks.size s h members) cut) b t := by
  obtain ⟨edge, inside, kept⟩ := next
  by_cases split : b = s ∧ t = h
  · obtain ⟨rfl, rfl⟩ := split
    have first : Inner g (grown f.blocks.size b t members) cut b f.blocks.size :=
      ⟨splits.mem_new.2 rfl, mem_grown.2 (.inr ⟨rfl, start, inside⟩), fun same => young same.symm⟩
    exact .tail (.single first) ⟨splits.onward_mem, mem_grown.2 (.inl inside), kept⟩
  · exact .single ⟨splits.mem_succIds_kept edge split, mem_grown.2 (.inl inside), kept⟩

lemma leads_grown (start : b ∈ members) (path : ReflTransGen (Inner f members cut) b t) :
    ReflTransGen (Inner g (grown f.blocks.size s h members) cut) b t := by
  suffices all : t ∈ members ∧ ReflTransGen (Inner g (grown f.blocks.size s h members) cut) b t from all.2
  induction path with
  | refl => exact ⟨start, .refl⟩
  | tail _ next ih => exact ⟨next.2.1, ih.2.trans (leads_of_inner splits apart young ih.1 next).to_reflTransGen⟩

end Leads

section Back

/-- A path to a block that was there passes over the new block, and one to the new block comes from the start of the
edge. -/
lemma leads_of_grown (old : b ≠ f.blocks.size) (path : TransGen (Inner g (grown f.blocks.size s h members) cut) b t) :
    (t ≠ f.blocks.size → TransGen (Inner f members cut) b t) ∧
      (t = f.blocks.size → ReflTransGen (Inner f members cut) b s) := by
  have onward {c t} (next : Inner g (grown f.blocks.size s h members) cut c t) (before : c ≠ f.blocks.size)
      (behind : t ≠ f.blocks.size) : Inner f members cut c t :=
    ⟨splits.mem_of_old before behind next.1, (mem_grown_of_ne behind).1 next.2.1, next.2.2⟩
  induction path with
  | single next =>
    refine ⟨fun behind => .single (onward next old behind), ?_⟩
    rintro rfl
    rw [splits.mem_new.1 next.1]
  | @tail c t _ next ih =>
    by_cases through : c = f.blocks.size
    · -- The path comes by the new block, so it came from the start of the edge, which leads on as well.
      subst through
      have on := (splits.mem_of_new next.1).1
      have behind : t ≠ f.blocks.size := by
        rintro rfl
        obtain ⟨e, edge, same⟩ := List.mem_map.1 on
        exact (splits.old s e edge).ne same
      exact ⟨fun _ => .tail' (ih.2 rfl) ⟨on, (mem_grown_of_ne behind).1 next.2.1, next.2.2⟩, fun same =>
        absurd same behind⟩
    · have path := ih.1 through
      refine ⟨fun behind => path.tail (onward next through behind), ?_⟩
      rintro rfl
      rw [← splits.mem_new.1 next.1]
      exact path.to_reflTransGen

lemma reaches_of_grown (old : b ≠ f.blocks.size) (old' : t ≠ f.blocks.size)
    (path : ReflTransGen (Inner g (grown f.blocks.size s h members) cut) b t) :
      ReflTransGen (Inner f members cut) b t := by
  rcases reflTransGen_iff_eq_or_transGen.1 path with rfl | path
  · exact .refl
  · exact ((leads_of_grown splits old path).1 old').to_reflTransGen

include small

lemma lt_size_of_mem_grown (mem : b ∈ grown f.blocks.size s h members) : b < g.blocks.size := by
  rw [splits.size]
  rcases mem_grown.1 mem with old | ⟨rfl, -⟩
  · exact (small b old).trans (Nat.lt_succ_self _)
  · exact Nat.lt_succ_self _

omit splits in
lemma ends_of_mem_grown (mem : f.blocks.size ∈ grown f.blocks.size s h members) : s ∈ members ∧ h ∈ members := by
  rcases mem_grown.1 mem with old | ⟨-, both⟩
  · exact absurd (small _ old) (Nat.lt_irrefl _)
  · exact both

lemma exists_old_of_cycle (mem : b ∈ grown f.blocks.size s h members)
    (cycle : TransGen (Inner g (grown f.blocks.size s h members) cut) b b) : ∃ c ∈ members,
      TransGen (Inner g (grown f.blocks.size s h members) cut) c c ∧
      ReflTransGen (Inner g (grown f.blocks.size s h members) cut) b c ∧
      ReflTransGen (Inner g (grown f.blocks.size s h members) cut) c b := by
  by_cases new : b = f.blocks.size
  · subst new
    obtain ⟨c, path, next⟩ := TransGen.tail'_iff.1 cycle
    obtain rfl := splits.mem_new.1 next.1
    exact ⟨c, (ends_of_mem_grown small mem).1, .head' next path, path, .single next⟩
  · exact ⟨b, (mem_grown_of_ne new).1 mem, cycle, .refl, .refl⟩

include apart young

/-- The new block is on a cycle with a block that was there if both ends of the edge are. -/
lemma mem_new_iff (inside : b ∈ members) : (f.blocks.size ∈ grown f.blocks.size s h members ∧
      ReflTransGen (Inner g (grown f.blocks.size s h members) cut) b f.blocks.size ∧
      ReflTransGen (Inner g (grown f.blocks.size s h members) cut) f.blocks.size b) ↔
    (s ∈ members ∧ ReflTransGen (Inner f members cut) b s ∧ ReflTransGen (Inner f members cut) s b) ∧
      h ∈ members ∧ ReflTransGen (Inner f members cut) b h ∧ ReflTransGen (Inner f members cut) h b := by
  have old : b ≠ f.blocks.size := (small b inside).ne
  constructor
  · rintro ⟨mem, path, back⟩
    obtain ⟨first, last⟩ := ends_of_mem_grown small mem
    have enters : Inner g (grown f.blocks.size s h members) cut s f.blocks.size :=
      ⟨splits.mem_new.2 rfl, mem, fun same => young same.symm⟩
    have start : ReflTransGen (Inner f members cut) b s := by
      rcases reflTransGen_iff_eq_or_transGen.1 path with same | path
      · exact absurd same.symm old
      · exact (leads_of_grown splits old path).2 rfl
    refine ⟨⟨first, start, reaches_of_grown splits (small s first).ne old (.head enters back)⟩, last,
      start.tail ⟨List.mem_map_of_mem splits.edge, last, apart first last⟩, ?_⟩
    -- Where the new block leads on, the end of the edge leads too.
    rcases ReflTransGen.cases_head back with same | ⟨t, next, path⟩
    · exact absurd same.symm old
    · have behind : t ≠ f.blocks.size := by
        rintro rfl
        exact absurd (splits.mem_new.1 next.1) splits.start_lt.ne'
      have on := reaches_of_grown splits behind old path
      rcases (splits.mem_of_new next.1).2 with rfl | edge
      · exact on
      · exact .head ⟨edge, (mem_grown_of_ne behind).1 next.2.1, next.2.2⟩ on
  · rintro ⟨⟨first, path, -⟩, last, -, back⟩
    have mem : f.blocks.size ∈ grown f.blocks.size s h members := mem_grown.2 (.inr ⟨rfl, first, last⟩)
    refine ⟨mem, ?_, ?_⟩
    · exact (leads_grown splits apart young inside path).tail
        ⟨splits.mem_new.2 rfl, mem, fun same => young same.symm⟩
    · exact .head ⟨splits.onward_mem, mem_grown.2 (.inl last), apart first last⟩
        (leads_grown splits apart young last back)

/-- No loop is made: each is one that was there, with the new block if it has both ends of the edge. -/
lemma exists_of_mem_loops {l' : List BlockId} (mem : l' ∈ loops g (grown f.blocks.size s h members) cut) :
    ∃ l ∈ loops f members cut, l' = grown f.blocks.size s h l := by
  obtain ⟨sorted, b', inside', cycle', same'⟩ :=
    (mem_loops_iff fun b mem => lt_size_of_mem_grown splits small mem).1 mem
  obtain ⟨b, inside, cycle, path, back⟩ := exists_old_of_cycle splits small inside' cycle'
  have old : b ≠ f.blocks.size := (small b inside).ne
  have same (t) : t ∈ l' ↔ t ∈ grown f.blocks.size s h members ∧
      ReflTransGen (Inner g (grown f.blocks.size s h members) cut) b t ∧
      ReflTransGen (Inner g (grown f.blocks.size s h members) cut) t b := by
    rw [same']
    refine and_congr_right fun _ => and_congr ⟨back.trans, path.trans⟩ ⟨fun h => h.trans path, fun h => h.trans back⟩
  have mem_l (t) : t ∈ l'.filter (· != f.blocks.size) ↔ t ∈ members ∧
      ReflTransGen (Inner f members cut) b t ∧ ReflTransGen (Inner f members cut) t b := by
    rw [List.mem_filter, bne_iff_ne, same]
    constructor
    · rintro ⟨⟨there, path, back⟩, behind⟩
      exact ⟨(mem_grown_of_ne behind).1 there, reaches_of_grown splits old behind path,
        reaches_of_grown splits behind old back⟩
    · rintro ⟨there, path, back⟩
      exact ⟨⟨mem_grown.2 (.inl there), leads_grown splits apart young inside path,
        leads_grown splits apart young there back⟩, (small t there).ne⟩
  have sorted_l : (l'.filter (· != f.blocks.size)).Pairwise (· < ·) := sorted.sublist List.filter_sublist
  refine ⟨l'.filter (· != f.blocks.size), (mem_loops_iff small).2 ⟨sorted_l, b, inside,
    (leads_of_grown splits old cycle).1 old, mem_l⟩, ?_⟩
  apply sorted.eq_of_mem_iff (pairwise_grown sorted_l fun t mem => small t ((mem_l t).1 mem).1)
  intro t
  by_cases new : t = f.blocks.size
  · subst new
    rw [same, mem_new_iff splits small apart young inside, ← mem_l, ← mem_l, mem_grown,
      or_iff_right fun both => (small _ ((mem_l _).1 both).1).false, and_iff_right rfl]
  · rw [mem_grown_of_ne new, List.mem_filter, bne_iff_ne, and_iff_left new]

end Back

end Regions

section Entrances

/-- One edge enters some blocks, and no exception takes it. -/
structure Sole (f : Func) (l : List BlockId) (e : Entrance) : Prop where
  inside : e.header ∈ l
  outside : e.source ∉ l
  edge : (e.header, e.kind) ∈ f.succs e.source
  normal : e.kind ≠ .raise
  only : ∀ b ∉ l, ∀ t ∈ l, ∀ k, (t, k) ∈ f.succs b → b = e.source ∧ t = e.header ∧ k = e.kind

lemma entrance?_eq_some_iff_sole (work : Workable f) (small : ∀ b ∈ l, b < f.blocks.size) (once : l.Nodup) :
    entrance? f l = some e ↔ Sole f l e := by
  have mem (d : Entrance) : d ∈ entrances f l ↔ d.header ∈ l ∧ (d.header, d.kind) ∈ f.succs d.source ∧
    d.source ∉ l := by
    rw [mem_entrances, work.mem_preds_iff, ← Bool.not_eq_true, Marks.has_ofList]
    refine and_congr_right fun _ => and_congr_right fun _ => not_congr (and_iff_left_of_imp (small d.source))
  have distinct : (entrances f l).Nodup := by
    rw [entrances, List.nodup_flatMap]
    refine ⟨fun b _ => ?_, once.imp fun {b t} other d mem mem' => ?_⟩
    · refine ((work.nodup_preds b).filter _).map fun d d' same => ?_
      obtain ⟨source, -, kind⟩ := Entrance.mk.inj same
      exact Prod.ext source kind
    · obtain ⟨a, -, here⟩ := List.mem_map.1 mem
      obtain ⟨a', -, there⟩ := List.mem_map.1 mem'
      exact other (congrArg Entrance.header (here.trans there.symm))
  rw [entrance?_eq_some_iff]
  constructor
  · rintro ⟨only, normal⟩
    obtain ⟨inside, edge, outside⟩ := (mem e).1 (only ▸ List.mem_singleton_self e)
    refine ⟨inside, outside, edge, normal, fun b away t here k edge => ?_⟩
    have listed := (mem ⟨b, t, k⟩).2 ⟨here, edge, away⟩
    rw [only, List.mem_singleton] at listed
    subst listed
    exact ⟨rfl, rfl, rfl⟩
  · intro sole
    refine ⟨?_, sole.normal⟩
    have listed := (mem e).2 ⟨sole.inside, sole.edge, sole.outside⟩
    apply List.perm_singleton.1
    apply (List.perm_ext_iff_of_nodup distinct (List.nodup_singleton e)).2
    intro d
    rw [mem, List.mem_singleton]
    constructor
    · rintro ⟨here, edge, away⟩
      obtain ⟨source, header, kind⟩ := sole.only d.source away d.header here d.kind edge
      cases d
      cases e
      exact Entrance.mk.injEq .. ▸ ⟨source, header, kind⟩
    · rintro rfl
      exact ⟨sole.inside, sole.edge, sole.outside⟩

/-- What is entered by a single edge behind was so before, at the same block and under the same handlers. -/
lemma sole_of_grown (splits : Splits f s h kind g) (small : ∀ b ∈ l, b < f.blocks.size) {e' : Entrance}
    (sole : Sole g (grown f.blocks.size s h l) e') : ∃ e, Sole f l e ∧ e.header = e'.header ∧
      g.handlersOf e'.source = f.handlersOf e.source ∧ g.handlersOf e'.header = f.handlersOf e.header := by
  have source_old {b t k} (edge : (t, k) ∈ f.succs b) : b ≠ f.blocks.size :=
    (lt_size_of_block? (isSome_of_mem_succs edge)).ne
  have inner : e'.header ≠ f.blocks.size := by
    intro new
    have mem := sole.inside
    rw [new] at mem
    obtain ⟨first, -⟩ := ends_of_mem_grown small mem
    have next : f.blocks.size ∈ g.succIds e'.source := by
      rw [← new]
      exact List.mem_map_of_mem sole.edge
    rw [← splits.mem_new.1 next] at first
    exact sole.outside (mem_grown.2 (.inl first))
  have inside : e'.header ∈ l := (mem_grown_of_ne inner).1 sole.inside
  have handlers : g.handlersOf e'.header = f.handlersOf e'.header := by rw [splits.handlersOf, if_neg inner]
  by_cases new : e'.source = f.blocks.size
  · have edge := sole.edge
    rw [new, splits.onward, List.mem_cons] at edge
    rcases edge with same | raises
    · obtain ⟨same, -⟩ := Prod.mk.inj same
      rw [same] at inside
      refine ⟨⟨s, h, kind⟩, ⟨inside, fun first => ?_, splits.edge, splits.normal, ?_⟩, same.symm, ?_, ?_⟩
      · exact sole.outside (new ▸ mem_grown.2 (.inr ⟨rfl, first, inside⟩))
      · intro b away t here k edge
        by_contra other
        have stays := splits.mem_kept edge other
        have away' : b ∉ grown f.blocks.size s h l := fun mem => away ((mem_grown_of_ne (source_old edge)).1 mem)
        have from_ := (sole.only b away' t (mem_grown.2 (.inl here)) k stays).1
        exact source_old edge (from_.trans new)
      · rw [new, splits.handlersOf, if_pos rfl]
      · rw [handlers, same]
    · exact absurd (by simpa using (List.mem_filter.1 raises).2) sole.normal
  · refine ⟨e', ⟨inside, fun here => sole.outside (mem_grown.2 (.inl here)), splits.edge_of_old new inner sole.edge,
      sole.normal, ?_⟩, rfl, ?_, handlers⟩
    · intro b away t here k edge
      have away' : b ∉ grown f.blocks.size s h l := fun mem => away ((mem_grown_of_ne (source_old edge)).1 mem)
      by_cases split : b = s ∧ t = h ∧ k = kind
      · obtain ⟨rfl, rfl, rfl⟩ := split
        have out : f.blocks.size ∉ grown f.blocks.size b t l := fun mem => away (ends_of_mem_grown small mem).1
        have onward : (t, .fallthrough) ∈ g.succs f.blocks.size := by
          rw [splits.onward]
          exact List.mem_cons_self
        exact absurd (sole.only _ out t (mem_grown.2 (.inl here)) _ onward).1.symm new
      · exact sole.only b away' t (mem_grown.2 (.inl here)) k (splits.mem_kept edge split)
    · rw [splits.handlersOf, if_neg new]

end Entrances

end Avm.Opt.Hoisting
