import Avm.Proofs.Ir.Scoping
import Avm.Proofs.Ir.Weighing
import Avm.Proofs.Run.Detours

/-!
# Plain nodes in rows

Several plain nodes are put into a block one after another, and get successive numbers.  What an edit does to a few
blocks leaves the others as they were (`Apart`): their nodes, their ends, and what they bring to phis.

The main statements are `Apart.onEdge` and `Apart.reend`.
-/

namespace Avm.Ir.Func

variable {f g h : Func} {b s t source target : BlockId} {c v w : ValueId} {index r : Nat} {k : NodeKind}
  {ks ls : List NodeKind} {kind : EdgeKind}

section Rows

/-- The graph with nodes that are put into a block one after another. -/
def putNodes (f : Func) (b : BlockId) (index : Nat) : List NodeKind → Func
  | [] => f
  | k :: ks => (f.putNode b index k).putNodes b (index + 1) ks

lemma putNodes_append : f.putNodes b index (ks ++ ls) = (f.putNodes b index ks).putNodes b (index + ks.length) ls := by
  induction ks generalizing f index with
  | nil => rfl
  | cons k ks ih =>
    rw [List.cons_append, putNodes, ih, putNodes, List.length_cons]
    congr 1
    omega

lemma size_putNode : (f.putNode b index k).nodes.size = f.nodes.size + 1 := Array.size_push ..

lemma size_putNodes : (f.putNodes b index ks).nodes.size = f.nodes.size + ks.length := by
  induction ks generalizing f index with
  | nil => rfl
  | cons k ks ih =>
    rw [putNodes, ih, size_putNode, List.length_cons]
    omega

lemma sameFlow_putNodes : SameFlow f (f.putNodes b index ks) := by
  induction ks generalizing f index with
  | nil => exact SameFlow.refl f
  | cons k ks ih => exact sameFlow_putNode.trans ih

lemma title_putNodes : (f.putNodes b index ks).title = f.title := by
  induction ks generalizing f index with
  | nil => rfl
  | cons k ks ih =>
    rw [putNodes, ih]
    rfl

lemma map_putNodes {γ : Type} {p : Block → γ} (keeps : ∀ x vs ws, p { x with phis := vs, body := ws } = p x) :
    ((f.putNodes b index ks).block? t).map p = (f.block? t).map p := by
  induction ks generalizing f index with
  | nil => rfl
  | cons k ks ih => rw [putNodes, ih, map_putNode keeps]

lemma node?_putNodes : (f.putNodes b index ks).node? w =
    if w < f.nodes.size then f.node? w else ks[w - f.nodes.size]?.map fun k => ⟨k, b⟩ := by
  induction ks generalizing f index with
  | nil =>
    rw [putNodes, List.getElem?_nil, Option.map_none]
    split
    · rfl
    · rename_i above
      cases here : f.node? w with
      | none => rfl
      | some n => exact absurd (lt_size_of_node? (by rw [here]; rfl)) above
  | cons k ks ih =>
    rw [putNodes, ih, size_putNode, node?_putNode]
    rcases Nat.lt_trichotomy w f.nodes.size with below | rfl | above
    · rw [if_pos (Nat.lt_succ_of_lt below), if_neg below.ne, if_pos below]
    · rw [if_pos (Nat.lt_succ_self _), if_pos rfl, if_neg (Nat.lt_irrefl _), Nat.sub_self]
      rfl
    · have next : w - f.nodes.size = w - (f.nodes.size + 1) + 1 :=
        (Nat.succ_pred_eq_of_pos (Nat.sub_pos_of_lt above)).symm
      rw [if_neg (Nat.not_lt.2 above), if_neg above.not_gt, next, List.getElem?_cons_succ]

lemma body_putNodes_of_ne (other : t ≠ b) : (f.putNodes b index ks).body t = f.body t := by
  induction ks generalizing f index with
  | nil => rfl
  | cons k ks ih => rw [putNodes, ih, body_putNode_of_ne other]

variable (plain : ∀ k ∈ ks, k.isPhi = false)
include plain

lemma phis_putNodes : (f.putNodes b index ks).phis t = f.phis t := by
  induction ks generalizing f index with
  | nil => rfl
  | cons k ks ih =>
    rw [putNodes, ih fun k mem => plain k (List.mem_cons_of_mem _ mem),
      phis_putNode_of_plain (plain k List.mem_cons_self)]

variable (live : (f.block? b).isSome) {before after : List ValueId} (here : f.body b = before ++ after)
include live here

omit plain in
lemma body_putNode_between (noPhi : k.isPhi = false) :
    (f.putNode b before.length k).body b = before ++ f.nodes.size :: after := by
  have behind (l : List ValueId) : (l ++ after).insertIdx l.length f.nodes.size = l ++ f.nodes.size :: after := by
    induction l with
    | nil => rfl
    | cons v l ih => rw [List.cons_append, List.length_cons, List.insertIdx_succ_cons, ih, List.cons_append]
  rw [(lists_putNode_self live).2, noPhi, here]
  exact behind before

lemma body_putNodes :
    (f.putNodes b before.length ks).body b = before ++ List.range' f.nodes.size ks.length ++ after := by
  induction ks generalizing f before with
  | nil => rw [putNodes, List.length_nil, List.range'_zero, List.append_nil, here]
  | cons k ks ih =>
    have one := body_putNode_between live here (plain k List.mem_cons_self)
    rw [List.append_cons] at one
    have there : ((f.putNode b before.length k).block? b).isSome := by rw [sameFlow_putNode.isSome, live]
    have rest := ih (fun k mem => plain k (List.mem_cons_of_mem _ mem)) there one
    rw [List.length_append, List.length_singleton] at rest
    rw [putNodes, rest, size_putNode, List.length_cons, List.range'_succ, List.append_assoc before,
      List.singleton_append]

omit live here in
lemma putNodes_putNodes {b : BlockId} (live : (f.block? b).isSome) :
    (f.putNodes b (f.body b).length ks).putNodes b ((f.putNodes b (f.body b).length ks).body b).length ls =
      f.putNodes b (f.body b).length (ks ++ ls) := by
  have grown := body_putNodes plain live (List.append_nil (f.body b)).symm
  rw [grown, List.append_nil, List.length_append, List.length_range', putNodes_append]

lemma keeps_putNodes {P : Func → Prop} (put : ∀ g index, ∀ k ∈ ks, P g → (g.block? b).isSome → g.Fits b index k →
    P (g.putNode b index k)) (start : P f) : P (f.putNodes b before.length ks) := by
  induction ks generalizing f before with
  | nil => exact start
  | cons k ks ih =>
    have noPhi := plain k List.mem_cons_self
    have one := body_putNode_between live here noPhi
    rw [List.append_cons] at one
    have fits : f.Fits b before.length k := by
      rw [Fits, noPhi, here]
      simp
    have there : ((f.putNode b before.length k).block? b).isSome := by rw [sameFlow_putNode.isSome, live]
    have rest := ih (fun k mem => plain k (List.mem_cons_of_mem _ mem)) there one
      (fun g index k mem => put g index k (List.mem_cons_of_mem _ mem))
        (put f before.length k List.mem_cons_self start live fits)
    rw [List.length_append, List.length_singleton] at rest
    exact rest

lemma Listed.putNodes (listed : Listed f) : Listed (f.putNodes b before.length ks) :=
  keeps_putNodes plain live here (fun _ _ _ _ listed live fits => listed.putNode live fits) listed

end Rows

lemma incoming_reend_of_ne {term : Terminator} {hs : List Nat} (listed : Listed f) (mem : v ∈ f.phis t)
    (other : s ≠ b) :
    (f.reend b term hs).incoming v s kind = f.incoming v s kind := by
  have nodes : SameNodes f (f.withEnd b term hs) := sameNodes_withEnd
  have old : (f.withEnd b term hs).inputs? v = f.inputs? v := inputs?_modifyBlock
  rw [reend, incoming, inputs?_rewire (listed.sameNodes nodes) (by rw [nodes.phis]; exact mem), old, incoming]
  split
  · cases f.inputs? v with
    | none => rfl
    | some is =>
      rw [Option.map_some, Option.bind_some, Option.bind_some, reconcile]
      split
      · rfl
      · dsimp only
        rw [incoming?_append, incoming?_filter_source, if_neg other, incoming?_map, if_neg fun both => other both.1,
          Option.or_none]
  · rfl

lemma node?_eq_of_kind? (kinds : g.kind? v = f.kind? v)
    (owner : (g.node? v).map (·.block) = (f.node? v).map (·.block)) : g.node? v = f.node? v := by
  rw [kind?, kind?] at kinds
  cases here : f.node? v with
  | none =>
    rw [here, Option.map_none, Option.map_eq_none_iff] at owner
    exact owner
  | some n =>
    rw [here] at kinds owner
    obtain ⟨m, there, block⟩ := Option.map_eq_some_iff.1 owner
    rw [there, Option.map_some, Option.map_some, Option.some.injEq] at kinds
    obtain ⟨kind, at_⟩ := m
    obtain ⟨kind', at_'⟩ := n
    obtain rfl : kind = kind' := kinds
    obtain rfl : at_ = at_' := block
    exact there

lemma node?_reend {term : Terminator} {hs : List Nat} (plain : f.inputs? v = none) :
    (f.reend b term hs).node? v = f.node? v := node?_eq_of_kind? (kind?_reend plain) (sameNodes_reend.owner v)

lemma gone_of_owner (owner : (g.node? v).map (·.block) = (f.node? v).map (·.block)) (absent : f.node? v = none) :
    g.node? v = none := by
  rw [absent, Option.map_none] at owner
  exact Option.map_eq_none_iff.1 owner

/-- One graph is another one but for some blocks: of the others, the nodes and the ends are the same, and what they
bring to phis. -/
structure Apart (P : BlockId → Prop) (f g : Func) : Prop where
  title : g.title = f.title
  size : f.nodes.size ≤ g.nodes.size
  live : ∀ t, (f.block? t).isSome → (g.block? t).isSome
  phis : ∀ t, g.phis t = f.phis t
  body : ∀ t, ¬P t → g.body t = f.body t
  nodes : ∀ t, ¬P t → ∀ v ∈ f.body t, g.node? v = f.node? v
  depth : ∀ t, ¬P t → g.scopeDepth t = f.scopeDepth t
  terminator : ∀ t, ¬P t → g.terminator t = f.terminator t
  incoming : ∀ t, ¬P t → ∀ u, ∀ v ∈ f.phis u, ∀ kind, g.incoming v t kind = f.incoming v t kind
  /-- What was removed does not come back. -/
  gone : ∀ v < f.nodes.size, f.node? v = none → g.node? v = none

namespace Apart

variable {P Q : BlockId → Prop}

lemma refl (f : Func) : Apart P f f where
  title := rfl
  size := Nat.le_refl _
  live _ live := live
  phis _ := rfl
  body _ _ := rfl
  nodes _ _ _ _ := rfl
  depth _ _ := rfl
  terminator _ _ := rfl
  incoming _ _ _ _ _ _ := rfl
  gone _ _ none := none

lemma mono (apart : Apart P f g) (more : ∀ t, P t → Q t) : Apart Q f g :=
  { apart with
    body := fun t away => apart.body t fun here => away (more t here)
    nodes := fun t away => apart.nodes t fun here => away (more t here)
    depth := fun t away => apart.depth t fun here => away (more t here)
    terminator := fun t away => apart.terminator t fun here => away (more t here)
    incoming := fun t away => apart.incoming t fun here => away (more t here) }

lemma trans (first : Apart P f g) (second : Apart P g h) : Apart P f h where
  title := second.title.trans first.title
  size := first.size.trans second.size
  live t live := second.live t (first.live t live)
  phis t := (second.phis t).trans (first.phis t)
  body t away := (second.body t away).trans (first.body t away)
  nodes t away v mem := by
    rw [second.nodes t away v (by rwa [first.body t away]), first.nodes t away v mem]
  depth t away := (second.depth t away).trans (first.depth t away)
  terminator t away := (second.terminator t away).trans (first.terminator t away)
  incoming t away u v mem kind := by
    rw [second.incoming t away u v (by rwa [first.phis]), first.incoming t away u v mem]
  gone v below none := second.gone v (below.trans_le first.size) (first.gone v below none)

lemma title_reend {term : Terminator} {hs : List Nat} : (f.reend b term hs).title = f.title := title_rewire

lemma reend {term : Terminator} {hs : List Nat} (listed : Listed f) (live : (f.block? b).isSome) :
    Apart (· = b) f (f.reend b term hs) where
  title := title_reend
  size := (ages_reend f b term hs).nodes
  live t there := by rwa [sameNodes_reend.isSome]
  phis t := sameNodes_reend.phis t
  body t _ := sameNodes_reend.body t
  nodes t _ v mem := node?_reend (listed.plain t v mem)
  depth t away := by rw [scopeDepth_eq, outline_reend, if_neg away, ← scopeDepth_eq]
  terminator t away := by rw [terminator_reend live, if_neg away]
  incoming t away u v mem kind := incoming_reend_of_ne listed mem away
  gone v _ none := gone_of_owner (sameNodes_reend.owner v) none

lemma title_onEdge {depth : Nat} : (f.onEdge source target kind depth).title = f.title := by
  rw [Func.onEdge, title_reend, enteredEdge, title_reend, preparedEdge, title_modifyPhis, beside, title_reend]
  rfl

lemma size_le_onEdge {depth : Nat} : f.nodes.size ≤ (f.onEdge source target kind depth).nodes.size := by
  have beside : f.nodes.size ≤ (f.beside source depth).nodes.size := (ages_reend (f.withBlock depth) _ _ _).nodes
  have prepared : f.nodes.size ≤ (f.preparedEdge source target kind depth).nodes.size :=
    beside.trans (ages_modifyPhis _ _ _).nodes
  have entered : f.nodes.size ≤ (f.enteredEdge source target kind depth).nodes.size :=
    prepared.trans (ages_reend _ _ _ _).nodes
  exact entered.trans (ages_reend _ _ _ _).nodes

lemma onEdge (depth : Nat) (checked : Checked f) (bare : Bare f)
    (goes : (target, kind) ∈ (f.terminator source).targets) :
    Apart (fun t => t = source ∨ f.block? t = none) f (f.onEdge source target kind depth) := by
  have live : (f.block? source).isSome := isSome_of_mem_succs (checked.mem_succs_of_mem_targets goes)
  have old {t} (away : ¬(t = source ∨ f.block? t = none)) : t ≠ source ∧ t ≠ f.blocks.size := by
    refine ⟨fun here => away (.inl here), ?_⟩
    rintro rfl
    exact away (.inr block?_size)
  exact {
    title := title_onEdge
    size := size_le_onEdge
    live := fun t there => by rw [isSome_onEdge, there, Bool.or_true]
    phis := fun t => phis_onEdge
    body := fun t _ => body_onEdge
    nodes := fun t _ v mem => node?_eq_of_kind? (kind?_onEdge (checked.plain t v mem)) frame_onEdge.1
    depth := fun t away => by
      rw [scopeDepth_eq, outline_onEdge live, if_neg (old away).2, if_neg (old away).1, ← scopeDepth_eq]
    terminator := fun t away => by rw [terminator_onEdge live, if_neg (old away).1, if_neg (old away).2]
    incoming := fun t away u v mem kind' => by
      rw [incoming_onEdge checked bare goes mem, if_neg (old away).2,
        if_neg fun both : t = source ∧ kind' = kind => (old away).1 both.1, ite_self]
    gone := fun v _ none => gone_of_owner frame_onEdge.1 none }

end Apart

lemma mem_allNodes_iff {n : Node} : n ∈ f.allNodes ↔ ∃ v, f.node? v = some n := by
  rw [allNodes, List.mem_filterMap]
  constructor
  · rintro ⟨place, mem, here⟩
    obtain ⟨v, inside, there⟩ := List.mem_iff_getElem.1 mem
    refine ⟨v, ?_⟩
    rw [Array.length_toList] at inside
    rw [Array.getElem_toList] at there
    rw [node?, Array.getElem?_eq_getElem inside, there]
    exact here
  · rintro ⟨v, here⟩
    exact ⟨some n, Array.mem_toList_iff.2 (Array.mem_of_getElem? (Option.join_eq_some_iff.1 here)), rfl⟩

lemma mem_registerWrites {r : Nat} : r ∈ f.registerWrites ↔ ∃ v k, f.kind? v = some k ∧ r ∈ k.written := by
  rw [registerWrites, List.mem_flatMap]
  constructor
  · rintro ⟨n, mem, sets⟩
    obtain ⟨v, there⟩ := mem_allNodes_iff.1 mem
    exact ⟨v, n.kind, by rw [kind?, there]; rfl, sets⟩
  · rintro ⟨v, k, does, sets⟩
    obtain ⟨n, there, rfl⟩ := Option.map_eq_some_iff.1 does
    exact ⟨n, mem_allNodes_iff.2 ⟨v, there⟩, sets⟩

lemma shape?_onEdge {depth : Nat} : (f.onEdge source target kind depth).shape? v = f.shape? v := by
  rw [onEdge, shape?_reend, enteredEdge, shape?_reend, preparedEdge, shape?_modifyPhis, shape?_beside]

lemma mem_registerWrites_congr {r : Nat} (same : ∀ v, g.shape? v = f.shape? v) :
    r ∈ g.registerWrites ↔ r ∈ f.registerWrites := by
  have written (k : NodeKind) : k.shape.written = k.written := by cases k <;> rfl
  have shapes {f : Func} : r ∈ f.registerWrites ↔ ∃ v k, f.shape? v = some k ∧ r ∈ k.written := by
    rw [mem_registerWrites]
    constructor
    · rintro ⟨v, k, does, sets⟩
      exact ⟨v, k.shape, shape?_of_kind? does, by rwa [written]⟩
    · rintro ⟨v, k, does, sets⟩
      obtain ⟨n, there, rfl⟩ := Option.map_eq_some_iff.1 does
      exact ⟨v, n.kind, by rw [kind?, there]; rfl, by rwa [written] at sets⟩
  rw [shapes, shapes]
  simp only [same]

/-- The last node of a block makes way for other nodes, and the block has no scopes at its end. -/
structure Rewrites (b : BlockId) (c : ValueId) (ks : List NodeKind) (f g : Func) : Prop where
  flow : SameFlow f g
  filed : g.Filed
  apart : Apart (· = b) f g
  terminator : g.terminator b = f.terminator b
  body : ∃ before, f.body b = before ++ [c] ∧ g.body b = before ++ List.range' f.nodes.size ks.length ∧
    ∀ v ∈ before, g.node? v = f.node? v
  phis : ∀ t, ∀ v ∈ f.phis t, g.node? v = f.node? v
  gone : g.node? c = none
  kinds : ∀ i k, ks[i]? = some k → g.kind? (f.nodes.size + i) = some k
  written : ∀ r, r ∈ g.registerWrites ↔ (∃ k ∈ ks, r ∈ k.written) ∨ r ∈ f.registerWrites

/-- The graph in which the node at a place of a block has made way for others. -/
def rewritten (f : Func) (b : BlockId) (c : ValueId) (position : Nat) (copies rest : List NodeKind) : Func :=
  (((f.putNodes b position copies).dropNode c).putNodes b (position + copies.length) rest).modifyBlock b
    fun x => { x with scopeDepth := 0 }

lemma size_dropNode : (f.dropNode v).nodes.size = f.nodes.size := by
  rw [dropNode]
  split
  · rfl
  · exact Array.size_setIfInBounds ..

section Rewriting

variable {copies rest : List NodeKind} {before : List ValueId}

lemma sameFlow_rewritten {position : Nat} : SameFlow f (f.rewritten b c position copies rest) :=
  ((sameFlow_putNodes.trans sameFlow_dropNode).trans sameFlow_putNodes).trans (alike_scopeDepth fun _ => 0).toSameFlow

lemma map_rewritten {γ : Type} {p : Block → γ} {position : Nat}
    (keeps : ∀ x vs ws d, p { x with phis := vs, body := ws, scopeDepth := d } = p x) :
    ((f.rewritten b c position copies rest).block? t).map p = (f.block? t).map p := by
  rw [rewritten, map_modifyBlock fun x => keeps x x.phis x.body 0, map_putNodes fun x vs ws =>
    keeps x vs ws x.scopeDepth,
    map_dropNode fun x vs ws => keeps x vs ws x.scopeDepth, map_putNodes fun x vs ws => keeps x vs ws x.scopeDepth]

variable (listed : f.Listed) (here : f.body b = before ++ [c])
include listed here

lemma lt_size_of_last : c < f.nodes.size := by
  have mem : c ∈ f.nodesOf b := by
    rw [nodesOf, here]
    simp
  exact lt_size_of_node? (listed.isSome_node? mem)

lemma notMem_before : c ∉ before := by
  have once := (List.nodup_append.1 (listed.nodup b)).2.1
  rw [here] at once
  intro mem
  exact (List.nodup_append.1 once).2.2 c mem c (List.mem_singleton_self c) rfl

lemma notMem_of_last : (∀ t, c ∉ f.phis t) ∧ ∀ t ≠ b, c ∉ f.body t := by
  have mem : c ∈ f.body b := by
    rw [here]
    simp
  refine ⟨fun t phi => ?_, fun t other there => ?_⟩
  · have phi := listed.phi t c phi
    rw [listed.plain b c mem] at phi
    cases phi
  · exact other (listed.eq_of_mem_body there mem)

lemma node?_rewritten {position : Nat} : (f.rewritten b c position copies rest).node? v =
    if v = c then none else if v < f.nodes.size then f.node? v
      else (copies ++ rest)[v - f.nodes.size]?.map fun k => ⟨k, b⟩ := by
  have below := lt_size_of_last listed here
  rw [rewritten, node?_modifyBlock, node?_putNodes, size_dropNode, size_putNodes, node?_dropNode, node?_putNodes]
  by_cases same : v = c
  · rw [if_pos same, if_pos same, if_pos (same ▸ Nat.lt_add_right _ below)]
  · rw [if_neg same, if_neg same, List.getElem?_append]
    by_cases old : v < f.nodes.size
    · rw [if_pos (Nat.lt_add_right _ old), if_pos old, if_pos old]
    · have split : v < f.nodes.size + copies.length ↔ v - f.nodes.size < copies.length :=
        (Nat.sub_lt_iff_lt_add' (Nat.le_of_not_lt old)).symm
      rw [if_neg old, if_neg old]
      by_cases first : v - f.nodes.size < copies.length
      · rw [if_pos (split.2 first), if_pos first]
      · rw [if_neg (mt split.1 first), if_neg first, Nat.sub_sub]

lemma node?_rewritten_new {position i : Nat} {k : NodeKind} (new : (copies ++ rest)[i]? = some k) :
    (f.rewritten b c position copies rest).node? (f.nodes.size + i) = some ⟨k, b⟩ := by
  have below := lt_size_of_last listed here
  have beyond : f.nodes.size ≤ f.nodes.size + i := Nat.le_add_right _ _
  rw [node?_rewritten listed here, if_neg (below.trans_le beyond).ne', if_neg beyond.not_gt, Nat.add_sub_cancel_left,
    new]
  rfl

lemma node?_rewritten_old {position : Nat} (old : (f.node? v).isSome) (other : v ≠ c) :
    (f.rewritten b c position copies rest).node? v = f.node? v := by
  rw [node?_rewritten listed here, if_neg other, if_pos (lt_size_of_node? old)]

lemma body_dropNode_putNodes (plain : ∀ k ∈ copies, k.isPhi = false) (live : (f.block? b).isSome) :
    ((f.putNodes b before.length copies).dropNode c).body b = before ++ List.range' f.nodes.size copies.length := by
  have kept : (before ++ List.range' f.nodes.size copies.length).filter (· != c) =
      before ++ List.range' f.nodes.size copies.length := by
    refine List.filter_eq_self.2 fun v mem => bne_iff_ne.2 ?_
    rintro rfl
    rcases List.mem_append.1 mem with mem | mem
    · exact notMem_before listed here mem
    · exact absurd (lt_size_of_last listed here) (List.mem_range'_1.1 mem).1.not_gt
  rw [((Listed.putNodes plain live here listed).lists_dropNode c b).2, body_putNodes plain live here,
    List.filter_append, kept, List.filter_singleton, bne_self_eq_false, cond_false, List.append_nil]

omit listed in
lemma isSome_of_last : (f.block? b).isSome := by
  refine isSome_of_mem_nodesOf (v := c) ?_
  rw [nodesOf, here]
  simp

variable (plain : ∀ k ∈ copies ++ rest, k.isPhi = false)
include plain

/-- The block is still there when the copies are put and the node is dropped, and ends with the copies. -/
lemma half_rewritten : (((f.putNodes b before.length copies).dropNode c).block? b).isSome ∧
    ((f.putNodes b before.length copies).dropNode c).body b = (before ++ List.range' f.nodes.size copies.length) ++ [] ∧
      (before ++ List.range' f.nodes.size copies.length).length = before.length + copies.length := by
  have live := isSome_of_last here
  refine ⟨?_, ?_, by simp⟩
  · rw [sameFlow_dropNode.isSome, sameFlow_putNodes.isSome, live]
  · rw [List.append_nil]
    exact body_dropNode_putNodes listed here (fun k mem => plain k (List.mem_append_left _ mem)) live

lemma keeps_rewritten {P : Func → Prop}
    (put : ∀ g index, ∀ k ∈ copies ++ rest, P g → (g.block? b).isSome → g.Fits b index k →
    P (g.putNode b index k)) (drop : ∀ g, P g → P (g.dropNode c))
    (depth : ∀ g, P g → P (g.modifyBlock b fun x => { x with scopeDepth := 0 })) (start : P f) :
    P (f.rewritten b c before.length copies rest) := by
  have plainCopies : ∀ k ∈ copies, k.isPhi = false := fun k mem => plain k (List.mem_append_left _ mem)
  have plainRest : ∀ k ∈ rest, k.isPhi = false := fun k mem => plain k (List.mem_append_right _ mem)
  obtain ⟨live, dropped, length⟩ := half_rewritten listed here plain
  have last := keeps_putNodes plainRest live dropped (fun g index k mem => put g index k (List.mem_append_right _ mem))
    (drop _ (keeps_putNodes plainCopies (isSome_of_last here) here
      (fun g index k mem => put g index k (List.mem_append_left _ mem)) start))
  rw [length] at last
  exact depth _ last

lemma body_rewritten : (f.rewritten b c before.length copies rest).body b =
    before ++ List.range' f.nodes.size (copies ++ rest).length := by
  obtain ⟨live, dropped, length⟩ := half_rewritten listed here plain
  have filled := body_putNodes (fun k mem => plain k (List.mem_append_right _ mem)) live dropped
  rw [length] at filled
  refine ((alike_scopeDepth fun _ => 0).body b).trans ?_
  rw [filled, size_dropNode, size_putNodes, List.append_nil, List.append_assoc,
    List.range'_append_1, List.length_append]

lemma lists_rewritten : (∀ t, (f.rewritten b c before.length copies rest).phis t = f.phis t) ∧
    ∀ t ≠ b, (f.rewritten b c before.length copies rest).body t = f.body t := by
  have plainCopies : ∀ k ∈ copies, k.isPhi = false := fun k mem => plain k (List.mem_append_left _ mem)
  have plainRest : ∀ k ∈ rest, k.isPhi = false := fun k mem => plain k (List.mem_append_right _ mem)
  have listed₁ := Listed.putNodes plainCopies (isSome_of_last here) here listed
  have unlisted {l : List ValueId} (none : c ∉ l) : l.filter (· != c) = l :=
    List.filter_eq_self.2 fun v mem => bne_iff_ne.2 fun same => none (same ▸ mem)
  obtain ⟨noPhi, apart⟩ := notMem_of_last listed here
  refine ⟨fun t => ((alike_scopeDepth fun _ => 0).phis t).trans ?_, fun t other =>
    ((alike_scopeDepth fun _ => 0).body t).trans ?_⟩
  · rw [phis_putNodes plainRest, (listed₁.lists_dropNode c t).1, phis_putNodes plainCopies, unlisted (noPhi t)]
  · rw [body_putNodes_of_ne other, (listed₁.lists_dropNode c t).2, body_putNodes_of_ne other, unlisted (apart t other)]

omit listed here plain in
lemma terminator_rewritten {position : Nat} : (f.rewritten b c position copies rest).terminator t = f.terminator t :=
  congrArg (·.getD Terminator.none) (map_rewritten fun _ _ _ _ => rfl)

omit listed here plain in
lemma title_rewritten {position : Nat} : (f.rewritten b c position copies rest).title = f.title := by
  refine Eq.trans (b := (((f.putNodes b position copies).dropNode c).putNodes b _ rest).title) rfl ?_
  rw [title_putNodes, title_dropNode, title_putNodes]

omit plain in
lemma mem_registerWrites_rewritten {position r : Nat} (still : ∀ k, f.kind? c = some k → k.written = []) :
    r ∈ (f.rewritten b c position copies rest).registerWrites ↔ (∃ k ∈ copies ++ rest, r ∈ k.written) ∨
      r ∈ f.registerWrites := by
  rw [mem_registerWrites, mem_registerWrites]
  constructor
  · rintro ⟨v, k, does, sets⟩
    obtain ⟨n, there, rfl⟩ := Option.map_eq_some_iff.1 does
    rw [node?_rewritten listed here] at there
    split at there
    · cases there
    · split at there
      · exact .inr ⟨v, n.kind, by rw [kind?, there]; rfl, sets⟩
      · obtain ⟨k, new, rfl⟩ := Option.map_eq_some_iff.1 there
        exact .inl ⟨k, List.mem_of_getElem? new, sets⟩
  · rintro (⟨k, new, sets⟩ | ⟨v, k, does, sets⟩)
    · obtain ⟨i, inside, rfl⟩ := List.mem_iff_getElem.1 new
      refine ⟨f.nodes.size + i, _, ?_, sets⟩
      rw [kind?, node?_rewritten_new listed here (List.getElem?_eq_getElem inside), Option.map_some]
    · have other : v ≠ c := by
        rintro rfl
        rw [still k does] at sets
        cases sets
      obtain ⟨n, there, rfl⟩ := Option.map_eq_some_iff.1 does
      refine ⟨v, n.kind, ?_, sets⟩
      rw [kind?, node?_rewritten_old listed here (by rw [there]; rfl) other, there, Option.map_some]

omit listed in
lemma rewrites_rewritten (filed : f.Filed) (still : ∀ k, f.kind? c = some k → k.written = []) :
    Rewrites b c (copies ++ rest) f (f.rewritten b c before.length copies rest) := by
  have listed := filed.toListed
  obtain ⟨noPhi, apart⟩ := notMem_of_last listed here
  obtain ⟨phis, lists⟩ := lists_rewritten listed here plain
  have nodes {v t} (mem : v ∈ f.nodesOf t) (other : v ≠ c) :
      (f.rewritten b c before.length copies rest).node? v = f.node? v :=
    node?_rewritten_old listed here (listed.isSome_node? mem) other
  have phiNodes (t v) (mem : v ∈ f.phis t) : (f.rewritten b c before.length copies rest).node? v = f.node? v := by
    exact nodes (List.mem_append_left _ mem) fun same => noPhi t (same ▸ mem)
  have depth (t) (other : t ≠ b) : (f.rewritten b c before.length copies rest).scopeDepth t = f.scopeDepth t := by
    rw [scopeDepth, rewritten, block?_modifyBlock, if_neg other.symm, map_putNodes fun _ _ _ => rfl,
      map_dropNode fun _ _ _ => rfl, map_putNodes fun _ _ _ => rfl, scopeDepth]
  have size : (f.rewritten b c before.length copies rest).nodes.size = f.nodes.size + copies.length + rest.length := by
    refine Eq.trans (b := (((f.putNodes b before.length copies).dropNode c).putNodes b _ rest).nodes.size) rfl ?_
    rw [size_putNodes, size_dropNode, size_putNodes]
  refine {
    flow := sameFlow_rewritten
    filed := keeps_rewritten listed here plain (fun _ _ _ _ filed live fits => filed.putNode live fits)
      (fun _ filed => filed.dropNode c) (fun _ filed => filed.sameNodes (sameNodes_modifyBlock (fun _ => rfl) fun _ =>
        rfl)) filed
    terminator := terminator_rewritten
    body := ⟨before, here, body_rewritten listed here plain,
      fun v mem => nodes (t := b) ?_ fun same => notMem_before listed here (same ▸ mem)⟩
    phis := phiNodes
    gone := by rw [node?_rewritten listed here, if_pos rfl]
    kinds := fun i k new => by rw [kind?, node?_rewritten_new listed here new]; rfl
    written := fun r => mem_registerWrites_rewritten listed here still
    apart := {
      title := title_rewritten
      size := by rw [size, Nat.add_assoc]; exact Nat.le_add_right _ _
      live := fun t there => by rwa [sameFlow_rewritten.isSome]
      phis := phis
      body := lists
      nodes := fun t other v mem => nodes (List.mem_append_right _ mem) fun same => apart t other (same ▸ mem)
      depth := depth
      terminator := fun t _ => terminator_rewritten
      incoming := fun t _ u v mem kind => by rw [incoming, incoming, inputs?_eq, inputs?_eq, phiNodes u v mem]
      gone := fun v below none => by rw [node?_rewritten listed here, if_pos below, none, ite_self] } }
  rw [Func.nodesOf, here]
  exact List.mem_append_right _ (List.mem_append_left _ mem)

end Rewriting

end Avm.Ir.Func
