import Avm.Flow.Depth
import Avm.Proofs.Graph.Search

/-!
# Merged chains and deleted orphans

A trail is a path from the root that passes no node twice.  `DepthGraph.Bounded` says of a number that
no trail gets deeper on one of the two stacks; the bounds that are computed are such numbers.

Two of the three ways in which a graph of summaries is made smaller: a node that is the only way on
from another, which is the only way to it, is merged into that one, and nodes that nothing leads to are
deleted.  Neither loses depth: a trail of the graph has a counterpart in the smaller one that gets at
least as deep.

The main statements are `shrinks_mergeChains` and `shrinks_deleteOrphans`.
-/

/-! ## Trails -/

namespace Avm

/-- One of the two stacks. -/
inductive StackKind where
  | operand
  | scope
deriving DecidableEq, Repr

/-- The effect on one of the stacks. -/
def Summary.on (s : Summary) : StackKind → Delta
  | .operand => s.stack
  | .scope => s.scope

@[simp] lemma Summary.on_default (k : StackKind) : ({} : Summary).on k = {} := by
  cases k <;> rfl

@[simp] lemma Summary.on_andThen (s t : Summary) (k : StackKind) :
    (s.andThen t).on k = (s.on k).andThen (t.on k) := by
  cases k <;> rfl

@[simp] lemma Summary.on_join (s t : Summary) (k : StackKind) :
    (s.join t).on k = (s.on k).join (t.on k) := by
  cases k <;> rfl

namespace DepthGraph

variable {g : DepthGraph} {n m a b : Nat} {d : DepthNode}

section Updates

@[simp] lemma size_setNode : (g.setNode n d).size = g.size := by
  simp [size, setNode]

@[simp] lemma size_removeNode : (g.removeNode n).size = g.size := by
  simp [size, removeNode]

lemma node?_setNode_self (lt : n < g.size) : (g.setNode n d).node? n = some d := by
  have bound : n < g.nodes.size := lt
  simp [node?, setNode, bound]

lemma node?_setNode_ne (ne : m ≠ n) : (g.setNode n d).node? m = g.node? m := by
  rw [node?, node?, setNode, Array.getElem?_setIfInBounds_ne ne.symm]

lemma node?_removeNode : (g.removeNode n).node? m = if m = n then none
    else (g.node? m).map fun d => { d with succs := d.succs.filter (· != n) } := by
  simp only [node?, removeNode, List.getElem?_toArray, List.getElem?_map, Array.getElem?_toList]
  split
  · rename_i same
    subst same
    rw [Array.getElem?_setIfInBounds_self]
    split
    · rfl
    · rfl
  · rename_i ne
    rw [Array.getElem?_setIfInBounds_ne (Ne.symm ne)]
    cases g.nodes[m]? with
    | none => rfl
    | some o => cases o <;> rfl

lemma succs_setNode_self (lt : n < g.size) : (g.setNode n d).succs n = d.succs := by
  rw [succs, node?_setNode_self lt]
  rfl

lemma succs_setNode_ne (ne : m ≠ n) : (g.setNode n d).succs m = g.succs m := by
  rw [succs, succs, node?_setNode_ne ne]

lemma summary_setNode_self (lt : n < g.size) : (g.setNode n d).summary n = d.summary := by
  rw [summary, node?_setNode_self lt]
  rfl

lemma summary_setNode_ne (ne : m ≠ n) : (g.setNode n d).summary m = g.summary m := by
  rw [summary, summary, node?_setNode_ne ne]

lemma succs_removeNode (ne : m ≠ n) :
    (g.removeNode n).succs m = (g.succs m).filter (· != n) := by
  rw [succs, succs, node?_removeNode, if_neg ne]
  cases g.node? m <;> rfl

lemma succs_removeNode_self : (g.removeNode n).succs n = [] := by
  rw [succs, node?_removeNode, if_pos rfl]
  rfl

lemma summary_removeNode (ne : m ≠ n) : (g.removeNode n).summary m = g.summary m := by
  rw [summary, summary, node?_removeNode, if_neg ne]
  cases g.node? m <;> rfl

lemma isSome_node?_removeNode :
    ((g.removeNode n).node? m).isSome = true ↔ m ≠ n ∧ (g.node? m).isSome = true := by
  rw [node?_removeNode]
  by_cases same : m = n
  · simp [same]
  · simp [same]

end Updates

lemma isSome_of_mem_succs (h : m ∈ g.succs n) : (g.node? n).isSome = true := by
  rw [succs] at h
  cases node : g.node? n with
  | none =>
    rw [node] at h
    exact absurd h List.not_mem_nil
  | some d => rfl

lemma lt_size_of_isSome (h : (g.node? n).isSome = true) : n < g.size := by
  by_contra le
  rw [node?, Array.getElem?_eq_none (Nat.le_of_not_lt le)] at h
  exact Bool.false_ne_true h

lemma lt_size_of_mem_succs (h : m ∈ g.succs n) : n < g.size :=
  lt_size_of_isSome (isSome_of_mem_succs h)

lemma mem_predsFrom {ns : List (Option DepthNode)} {i : Nat} : a ∈ predsFrom n i ns ↔
    ∃ k d, a = i + k ∧ ns[k]? = some (some d) ∧ n ∈ d.succs := by
  induction ns generalizing i with
  | nil => simp [predsFrom]
  | cons o rest ih =>
    have shift : (∃ k d, a = i + k ∧ (o :: rest)[k]? = some (some d) ∧ n ∈ d.succs) ↔
        (a = i ∧ o.any (·.succs.contains n) = true) ∨
        ∃ k d, a = i + 1 + k ∧ rest[k]? = some (some d) ∧ n ∈ d.succs := by
      constructor
      · rintro ⟨k, d, rfl, node, mem⟩
        cases k with
        | zero =>
          obtain rfl : o = some d := Option.some.inj node
          exact .inl ⟨rfl, by simpa using mem⟩
        | succ k => exact .inr ⟨k, d, by omega, node, mem⟩
      · rintro (⟨rfl, mem⟩ | ⟨k, d, rfl, node, mem⟩)
        · cases o with
          | none => exact absurd mem Bool.false_ne_true
          | some d => exact ⟨0, d, rfl, rfl, by simpa using mem⟩
        · exact ⟨k + 1, d, by omega, node, mem⟩
    rw [predsFrom, shift]
    split
    · rename_i here
      simp only [List.mem_cons, ih, here, and_true]
    · rename_i absent
      simp only [ih, absent, Bool.false_eq_true, and_false, false_or]

lemma mem_preds : a ∈ g.preds n ↔ n ∈ g.succs a := by
  rw [preds, mem_predsFrom, succs, node?]
  simp only [Nat.zero_add, exists_eq_left', Array.getElem?_toList, exists_and_left]
  cases g.nodes[a]? with
  | none => simp
  | some o =>
    cases o with
    | none => simp
    | some d => simp

lemma eq_of_hasOnePred {degrees : Array Nat} (one : g.hasOnePred degrees n = true)
    (ha : n ∈ g.succs a) (hb : n ∈ g.succs b) : a = b := by
  simp only [hasOnePred, Bool.and_eq_true, beq_iff_eq] at one
  obtain ⟨c, only⟩ := List.length_eq_one_iff.1 one.2
  rw [← mem_preds, only, List.mem_singleton] at ha hb
  exact ha.trans hb.symm

/-- What holds of the graphs that are made smaller: edges lead to nodes, each edge is there once, and
only the root may lead to the root. -/
structure Tidy (g : DepthGraph) : Prop where
  closed : ∀ n m, m ∈ g.succs n → (g.node? m).isSome = true
  nodup : ∀ n, (g.succs n).Nodup
  root : ∀ n, 0 ∈ g.succs n → n = 0

/-- The list is a path from the root that passes no node twice; its last node comes first. -/
inductive Trail (g : DepthGraph) : List Nat → Prop
  | root : Trail g [0]
  | step {a b rest} : Trail g (a :: rest) → b ∈ g.succs a → b ∉ a :: rest →
      Trail g (b :: a :: rest)

/-- What nodes add to the depth of a stack. -/
def height (g : DepthGraph) (k : StackKind) (ns : List Nat) : Int :=
  (ns.map fun n => ((g.summary n).on k).net).sum

/-- No trail gets deeper on the stack than the bound. -/
def Bounded (g : DepthGraph) (k : StackKind) (bound : Int) : Prop :=
  ∀ n rest, g.Trail (n :: rest) → g.height k rest + ((g.summary n).on k).peak ≤ bound

@[simp] lemma height_nil {k : StackKind} : g.height k [] = 0 := rfl

@[simp] lemma height_cons {k : StackKind} {ns : List Nat} :
    g.height k (n :: ns) = ((g.summary n).on k).net + g.height k ns := rfl

lemma Trail.nodup {t : List Nat} (h : g.Trail t) : t.Nodup := by
  induction h with
  | root => exact List.nodup_singleton 0
  | step _ _ new ih => exact List.nodup_cons.2 ⟨new, ih⟩

lemma Trail.isSome_of_mem {rest : List Nat} (h : g.Trail (n :: rest)) (mem : m ∈ rest) :
    (g.node? m).isSome = true := by
  generalize eq : n :: rest = t at h
  induction h generalizing n rest with
  | root =>
    obtain ⟨-, rfl⟩ := List.cons.inj eq
    exact absurd mem List.not_mem_nil
  | step _ edge _ ih =>
    obtain ⟨-, rfl⟩ := List.cons.inj eq
    obtain rfl | mem := List.mem_cons.1 mem
    · exact isSome_of_mem_succs edge
    · exact ih mem rfl

end DepthGraph

end Avm

/-! ## Smaller graphs -/

namespace Avm

namespace DepthGraph

variable {g g' g'' : DepthGraph} {n m a b : Nat} {k : StackKind} {bound : Int} {rest : List Nat}

/-- The second graph is tidy if the first is, and no trail of the first gets deeper than it allows. -/
def Shrinks (g g' : DepthGraph) : Prop :=
  g.Tidy → g'.Tidy ∧ ∀ k bound, g'.Bounded k bound → g.Bounded k bound

lemma Shrinks.refl (g : DepthGraph) : Shrinks g g := fun tidy => ⟨tidy, fun _ _ h => h⟩

lemma Shrinks.trans (h : Shrinks g g') (h' : Shrinks g' g'') : Shrinks g g'' := by
  intro tidy
  obtain ⟨tidy', deep⟩ := h tidy
  obtain ⟨tidy'', deep'⟩ := h' tidy'
  exact ⟨tidy'', fun k bound h => deep k bound (deep' k bound h)⟩

section Merging

/-- The second node is the only way on from the first, which is the only way to it. -/
structure Chain (g : DepthGraph) (a b : Nat) : Prop where
  only : g.succs a = [b]
  other : b ≠ a
  inner : b ≠ 0
  entered : ∀ x, b ∈ g.succs x → x = a

lemma chain_of_chainSucc? {degrees : Array Nat} (h : g.chainSucc? degrees a = some b) :
    g.Chain a b := by
  rw [chainSucc?] at h
  split at h
  · rename_i c only
    split_ifs at h with none
    obtain rfl := Option.some.inj h
    simp only [not_or, Bool.not_eq_true', Bool.not_eq_false] at none
    obtain ⟨other, inner, one⟩ := none
    have edge : c ∈ g.succs a := only ▸ List.mem_singleton_self c
    exact ⟨only, other, inner, fun x edge' => eq_of_hasOnePred one edge' edge⟩
  · cases h

variable (chain : g.Chain a b)

include chain

lemma Chain.lt_size : a < (g.removeNode b).size := by
  rw [size_removeNode]
  exact lt_size_of_mem_succs (chain.only ▸ List.mem_singleton_self b)

lemma Chain.mem_succs_self :
    m ∈ (g.mergeWith a b).succs a ↔ ∃ s ∈ g.succs b, (if s = b then a else s) = m := by
  rw [mergeWith, succs_setNode_self chain.lt_size]
  simp

lemma Chain.summary_self :
    (g.mergeWith a b).summary a = (g.summary a).andThen (g.summary b) := by
  rw [mergeWith, summary_setNode_self chain.lt_size]

omit chain in
lemma succs_mergeWith (na : n ≠ a) (nb : n ≠ b) :
    (g.mergeWith a b).succs n = (g.succs n).filter (· != b) := by
  rw [mergeWith, succs_setNode_ne na, succs_removeNode nb]

omit chain in
lemma summary_mergeWith (na : n ≠ a) (nb : n ≠ b) :
    (g.mergeWith a b).summary n = g.summary n := by
  rw [mergeWith, summary_setNode_ne na, summary_removeNode nb]

/-- A trail stays one without the second node.  It is left at the same depth, unless it ends between
the two or at the second, where the depth before the first counts. -/
lemma trail_mergeWith (k : StackKind) (trail : g.Trail (n :: rest)) :
    (g.mergeWith a b).Trail ((n :: rest).filter (· != b)) ∧
    (n ≠ b → (g.mergeWith a b).height k (rest.filter (· != b)) = g.height k rest) ∧
    (n = b → ∃ before, rest = a :: before ∧
      (g.mergeWith a b).height k (before.filter (· != b)) = g.height k before) := by
  generalize eq : n :: rest = t at trail
  induction trail generalizing n rest with
  | root =>
    obtain ⟨rfl, rfl⟩ := List.cons.inj eq
    have keep : [0].filter (· != b) = [0] := by simp [chain.inner.symm]
    rw [keep]
    exact ⟨.root, fun _ => rfl, fun same => absurd same.symm chain.inner⟩
  | @step p q before trail edge new ih =>
    obtain ⟨rfl, rfl⟩ := List.cons.inj eq
    obtain ⟨trail', same, merged⟩ := ih rfl
    by_cases nb : n = b
    · -- The second node comes right behind the first.
      subst nb
      obtain rfl := chain.entered p edge
      have keep : (n :: p :: before).filter (· != n) = (p :: before).filter (· != n) := by simp
      rw [keep]
      exact ⟨trail', fun ne => absurd rfl ne, fun _ => ⟨before, rfl, same chain.other.symm⟩⟩
    · have keep : (n :: p :: before).filter (· != b) = n :: (p :: before).filter (· != b) := by
        simp [nb]
      have fresh : n ∉ (p :: before).filter (· != b) := fun mem => new (List.mem_filter.1 mem).1
      rw [keep]
      by_cases pb : p = b
      · -- The ways on from the second node are those of the first now.
        subst pb
        obtain ⟨rest, rfl, height⟩ := merged rfl
        have keep' : (p :: a :: rest).filter (· != p) = a :: rest.filter (· != p) := by
          simp [chain.other.symm]
        rw [keep'] at trail' fresh ⊢
        have edge' : n ∈ (g.mergeWith a p).succs a :=
          chain.mem_succs_self.2 ⟨n, edge, if_neg nb⟩
        refine ⟨trail'.step edge' fresh, fun _ => ?_, fun same => absurd same nb⟩
        rw [height_cons, height, chain.summary_self, height_cons, height_cons, Summary.on_andThen,
          Delta.andThen]
        ring
      · have pa : p ≠ a := by
          rintro rfl
          rw [chain.only, List.mem_singleton] at edge
          exact nb edge
        have keep' : (p :: before).filter (· != b) = p :: before.filter (· != b) := by simp [pb]
        rw [keep'] at trail' fresh ⊢
        have edge' : n ∈ (g.mergeWith a b).succs p := by
          rw [succs_mergeWith pa pb]
          exact List.mem_filter.2 ⟨edge, by simpa using nb⟩
        refine ⟨trail'.step edge' fresh, fun _ => ?_, fun same => absurd same nb⟩
        rw [height_cons, height_cons, same pb, summary_mergeWith pa pb]

lemma bounded_of_mergeWith (h : (g.mergeWith a b).Bounded k bound) : g.Bounded k bound := by
  intro n rest trail
  obtain ⟨trail', same, merged⟩ := trail_mergeWith chain k trail
  by_cases nb : n = b
  · subst nb
    obtain ⟨before, rfl, height⟩ := merged rfl
    have keep : (n :: a :: before).filter (· != n) = a :: before.filter (· != n) := by
      simp [chain.other.symm]
    rw [keep] at trail'
    have deep := h a _ trail'
    rw [height, chain.summary_self, Summary.on_andThen, Delta.andThen] at deep
    rw [height_cons]
    have := le_max_right ((g.summary a).on k).peak
      (((g.summary a).on k).net + ((g.summary n).on k).peak)
    dsimp only at deep
    omega
  · have keep : (n :: rest).filter (· != b) = n :: rest.filter (· != b) := by simp [nb]
    rw [keep] at trail'
    have deep := h n _ trail'
    rw [same nb] at deep
    by_cases na : n = a
    · subst na
      rw [chain.summary_self, Summary.on_andThen, Delta.andThen] at deep
      have := le_max_left ((g.summary n).on k).peak
        (((g.summary n).on k).net + ((g.summary b).on k).peak)
      dsimp only at deep
      omega
    · rwa [summary_mergeWith na nb] at deep

lemma Tidy.mergeWith (tidy : g.Tidy) : (g.mergeWith a b).Tidy := by
  have gone : (g.mergeWith a b).succs b = [] := by
    rw [DepthGraph.mergeWith, succs_setNode_ne chain.other, succs_removeNode_self]
  have there {n : Nat} (h : (g.node? n).isSome = true) (nb : n ≠ b) :
      ((g.mergeWith a b).node? n).isSome = true := by
    rw [DepthGraph.mergeWith]
    by_cases na : n = a
    · rw [na, node?_setNode_self chain.lt_size]
      rfl
    · rw [node?_setNode_ne na, isSome_node?_removeNode]
      exact ⟨nb, h⟩
  have first : (g.node? a).isSome = true :=
    isSome_of_mem_succs (chain.only ▸ List.mem_singleton_self b)
  constructor
  case closed =>
    intro n m edge
    by_cases na : n = a
    · subst na
      obtain ⟨s, step, rfl⟩ := chain.mem_succs_self.1 edge
      split
      · exact there first chain.other.symm
      · rename_i nb
        exact there (tidy.closed b s step) nb
    · by_cases nb : n = b
      · rw [nb, gone] at edge
        exact absurd edge List.not_mem_nil
      · rw [succs_mergeWith na nb] at edge
        obtain ⟨edge, keep⟩ := List.mem_filter.1 edge
        exact there (tidy.closed n m edge) (by simpa using keep)
  case nodup =>
    intro n
    by_cases na : n = a
    · rw [na, DepthGraph.mergeWith, succs_setNode_self chain.lt_size]
      exact Ascending.nodup_ofList _
    · by_cases nb : n = b
      · rw [nb, gone]
        exact List.nodup_nil
      · rw [succs_mergeWith na nb]
        exact (tidy.nodup n).filter _
  case root =>
    intro n edge
    by_cases na : n = a
    · subst na
      obtain ⟨s, edge, eq⟩ := chain.mem_succs_self.1 edge
      split at eq
      · exact eq
      · subst eq
        exact absurd (tidy.root b edge) chain.inner
    · by_cases nb : n = b
      · rw [nb, gone] at edge
        exact absurd edge List.not_mem_nil
      · rw [succs_mergeWith na nb] at edge
        exact tidy.root n (List.mem_filter.1 edge).1

lemma shrinks_mergeWith : Shrinks g (g.mergeWith a b) :=
  fun tidy => ⟨tidy.mergeWith chain, fun _ _ => bounded_of_mergeWith chain⟩

omit chain

lemma shrinks_mergeChain {degrees : Array Nat} {fuel : Nat} :
    Shrinks g (mergeChain degrees a fuel g) := by
  induction fuel generalizing g with
  | zero => exact .refl g
  | succ fuel ih =>
    rw [mergeChain]
    split
    · exact .refl g
    · rename_i b found
      exact (shrinks_mergeWith (chain_of_chainSucc? found)).trans ih

lemma shrinks_mergeChains : Shrinks g g.mergeChains := by
  have fold : ∀ (ns : List Nat) (degrees : Array Nat) (g : DepthGraph),
      Shrinks g (ns.foldl (fun g a => mergeChain degrees a g.size g) g) := by
    intro ns degrees
    induction ns with
    | nil => exact .refl
    | cons n rest ih => exact fun g => shrinks_mergeChain.trans (ih _)
  exact fold _ _ g

end Merging

section Orphans

variable (orphan : ∀ x, n ∉ g.succs x)

include orphan

lemma not_mem_of_trail {t : List Nat} (inner : n ≠ 0) (trail : g.Trail t) : n ∉ t := by
  induction trail with
  | root => simpa using inner
  | @step p q _ _ edge _ ih =>
    rw [List.mem_cons, not_or]
    refine ⟨?_, ih⟩
    rintro rfl
    exact orphan p edge

lemma trail_removeNode {t : List Nat} (inner : n ≠ 0) (trail : g.Trail t) :
    (g.removeNode n).Trail t := by
  induction trail with
  | root => exact .root
  | @step p q rest trail edge new ih =>
    have absent := not_mem_of_trail orphan inner (trail.step edge new)
    simp only [List.mem_cons, not_or] at absent
    refine ih.step ?_ new
    rw [succs_removeNode (Ne.symm absent.2.1)]
    exact List.mem_filter.2 ⟨edge, by simpa using Ne.symm absent.1⟩

lemma bounded_of_removeNode (inner : n ≠ 0) (h : (g.removeNode n).Bounded k bound) :
    g.Bounded k bound := by
  intro m rest trail
  have absent := not_mem_of_trail orphan inner trail
  have same : ∀ x ∈ m :: rest, (g.removeNode n).summary x = g.summary x := by
    intro x mem
    refine summary_removeNode ?_
    rintro rfl
    exact absent mem
  obtain ⟨last, before⟩ := List.forall_mem_cons.1 same
  have deep := h m rest (trail_removeNode orphan inner trail)
  rw [last] at deep
  have heights : (g.removeNode n).height k rest = g.height k rest := by
    rw [height, height]
    refine congrArg List.sum (List.map_congr_left fun x mem => ?_)
    rw [before x mem]
  rwa [heights] at deep

omit orphan

lemma mem_succs_removeNode {x : Nat} :
    m ∈ (g.removeNode n).succs x ↔ x ≠ n ∧ m ≠ n ∧ m ∈ g.succs x := by
  by_cases same : x = n
  · rw [same, succs_removeNode_self]
    simp
  · rw [succs_removeNode same, List.mem_filter]
    simp only [same, ne_eq, not_false_eq_true, true_and, bne_iff_ne]
    exact and_comm

lemma Tidy.removeNode (tidy : g.Tidy) : (g.removeNode n).Tidy := by
  constructor
  case closed =>
    intro x m edge
    obtain ⟨-, other, edge⟩ := mem_succs_removeNode.1 edge
    exact isSome_node?_removeNode.2 ⟨other, tidy.closed x m edge⟩
  case nodup =>
    intro x
    by_cases same : x = n
    · rw [same, succs_removeNode_self]
      exact List.nodup_nil
    · rw [succs_removeNode same]
      exact (tidy.nodup x).filter _
  case root =>
    intro x edge
    exact tidy.root x (mem_succs_removeNode.1 edge).2.2

lemma shrinks_removeNode (orphan : ∀ x, n ∉ g.succs x) (inner : n ≠ 0) :
    Shrinks g (g.removeNode n) :=
  fun tidy => ⟨tidy.removeNode, fun _ _ => bounded_of_removeNode orphan inner⟩

lemma shrinks_foldl_removeNode {ns : List Nat}
    (h : ∀ n ∈ ns, n ≠ 0 ∧ ∀ x, n ∉ g.succs x) : Shrinks g (ns.foldl removeNode g) := by
  induction ns generalizing g with
  | nil => exact .refl g
  | cons n rest ih =>
    obtain ⟨⟨inner, orphan⟩, others⟩ := List.forall_mem_cons.1 h
    refine (shrinks_removeNode orphan inner).trans (ih ?_)
    intro m mem
    refine ⟨(others m mem).1, fun x edge => ?_⟩
    exact (others m mem).2 x (mem_succs_removeNode.1 edge).2.2

lemma shrinks_deleteOrphans : Shrinks g g.deleteOrphans := by
  refine shrinks_foldl_removeNode fun n mem => ?_
  obtain ⟨-, test⟩ := List.mem_filter.1 mem
  simp only [Bool.and_eq_true, bne_iff_ne, List.isEmpty_iff] at test
  refine ⟨test.1.1, fun x edge => ?_⟩
  rw [← mem_preds, test.2] at edge
  exact List.not_mem_nil edge

end Orphans

end DepthGraph

end Avm
