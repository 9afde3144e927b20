import Avm.Proofs.Ir.Failing
import Avm.Proofs.Ir.Inputs

/-!
# What every edit keeps

Not all that holds of a graph is looked at by `Func.verify`.  Nodes are listed once and under the
right heading, handlers that cover blocks exist, and a block knows of no more edges into it than
there are: this is so of a graph without nodes, and each edit keeps it, whether it succeeds, fails
and leaves the graph alone, or fails halfway.  If the graph passes the check besides, the edges at both ends agree.

A phi is known by the value that comes in on each edge into its block.  When a block gets another end, the phis that it
leads to keep what comes in on edges that stay; an edge to a block with phis that was not there before brings what came
first on the old ones; and what came in on edges that are gone is forgotten.  A graph passes the check if its edges are
in order at both ends and each phi has one input for each edge into its block.

The main statements are `lawful_of_changes` and `Lawful.verify_eq_ok`.
-/

/-! ## Lawful graphs -/

namespace Avm.Ir.Func

variable {f f' : Func} {b s t : BlockId} {v w : ValueId} {kind : EdgeKind} {index depth depth' : Nat}
  {term : Terminator}
  {hs : List Nat}

/-- What every edit keeps and the check does not look at. -/
structure Lawful (f : Func) : Prop extends Listed f where
  /-- Handlers that cover a block exist. -/
  covered : ∀ b, ∀ k ∈ f.handlersOf b, k < f.handlers.length
  /-- A block knows of no more edges into it than there are. -/
  backed : ∀ t s kind, (f.preds t).count (s, kind) ≤ (f.succs s).count (t, kind)

lemma backed_of_linked
    (linked : ∀ t, (f.block? t).isSome → ∀ s kind, (f.preds t).count (s, kind) = (f.succs s).count (t, kind))
    (t s : BlockId) (kind : EdgeKind) : (f.preds t).count (s, kind) ≤ (f.succs s).count (t, kind) := by
  by_cases live : (f.block? t).isSome
  · exact (linked t live s kind).le
  · rw [(parts_of_isNone (Option.not_isSome_iff_eq_none.1 live)).2.2.2.2.2]
    exact Nat.zero_le _

lemma Shaped.toLawful (h : Shaped f) : Lawful f where
  toListed := h.toListed
  covered := h.lt_of_mem_handlersOf
  backed := backed_of_linked h.linked

namespace Lawful

lemma sameFlow (h : Lawful f) (flow : SameFlow f f') (listed : Listed f') : Lawful f' where
  toListed := listed
  covered b k mem := by
    rw [flow.handlersOf] at mem
    rw [flow.catches]
    exact h.covered b k mem
  backed t s kind := by
    rw [flow.preds, flow.succs]
    exact h.backed t s kind

lemma withCatches (h : Lawful f) (cs : List Catch) : Lawful (f.withCatches cs) where
  owned := h.owned
  phi := h.phi
  plain := h.plain
  nodup := h.nodup
  covered b k mem := by
    rw [Func.withCatches, List.length_append]
    exact Nat.lt_add_right _ (h.covered b k mem)
  backed := h.backed

lemma pushBlock (h : Lawful f) : Lawful (f.pushBlock {}) where
  owned b v mem := by
    rw [nodesOf, phis_pushBlock, body_pushBlock] at mem
    exact h.owned b v mem
  phi b v mem := by
    rw [phis_pushBlock] at mem
    exact h.phi b v mem
  plain b v mem := by
    rw [body_pushBlock] at mem
    exact h.plain b v mem
  nodup b := by
    rw [nodesOf, phis_pushBlock, body_pushBlock]
    exact h.nodup b
  covered b k mem := by
    rw [handlersOf_pushBlock] at mem
    exact h.covered b k mem
  backed t s kind := by
    rw [preds_pushBlock, succs_pushBlock]
    exact h.backed t s kind

lemma withBlock (h : Lawful f) (depth : Nat) : Lawful (f.withBlock depth) :=
  h.pushBlock.sameFlow alike_withBlock.toSameFlow (h.pushBlock.toListed.sameNodes alike_withBlock.toSameNodes)

lemma reend (h : Lawful f) (live : (f.block? b).isSome) (covers : ∀ k ∈ hs, k < f.handlers.length) :
    Lawful (f.reend b term hs) where
  toListed := h.toListed.sameNodes sameNodes_reend
  covered c k mem := by
    rw [handlersOf_reend live] at mem
    rw [sameNodes_reend.catches]
    split at mem
    · exact covers k mem
    · exact h.covered c k mem
  backed t s kind := by
    cases there : f.block? t with
    | none =>
      have gone : (f.reend b term hs).block? t = none := by
        rw [← Option.not_isSome_iff_eq_none, sameNodes_reend.isSome, there]
        exact Bool.false_ne_true
      rw [(parts_of_isNone gone).2.2.2.2.2]
      exact Nat.zero_le _
    | some x =>
      rw [Func.reend, count_preds_rewire (by rw [sameNodes_withEnd.isSome, there]; rfl), edgesOf_withEnd live,
        preds_withEnd, succs_withEnd, ← Func.reend, succs_reend live]
      split
      · rw [Nat.sub_eq_zero_of_le (h.backed t b kind), Nat.zero_add]
      · exact h.backed t s kind

lemma withEnd (h : Lawful f) (live : (f.block? b).isSome) (term : Terminator) :
    Lawful (f.withEnd b term (f.handlersOf b)) where
  toListed := h.toListed.sameNodes sameNodes_withEnd
  covered c k mem := by
    rw [handlersOf_withEnd live] at mem
    rw [sameNodes_withEnd.catches]
    split at mem
    · exact h.covered b k mem
    · exact h.covered c k mem
  backed t s kind := by
    rw [preds_withEnd, succs_withEnd]
    exact h.backed t s kind

lemma beside (h : Lawful f) (s : BlockId) (depth : Nat) : Lawful (f.beside s depth) :=
  (h.withBlock depth).reend isSome_withBlock_self (h.covered s)

section Splits

variable {source target : BlockId}

lemma preparedEdge (h : Lawful f) (depth : Nat) : Lawful (f.preparedEdge source target kind depth) :=
  (h.beside source depth).sameFlow sameFlow_modifyPhis ((h.beside source depth).toListed.sameNodes sameNodes_modifyPhis)

lemma enteredEdge (h : Lawful f) (depth : Nat) : Lawful (f.enteredEdge source target kind depth) := by
  refine (h.preparedEdge depth).reend ?_ ?_
  · rw [isSome_preparedEdge, decide_eq_true rfl, Bool.true_or]
  · rw [catches_preparedEdge]
    exact h.covered source

lemma onEdge (h : Lawful f) (live : (f.block? source).isSome) (depth : Nat) :
    Lawful (f.onEdge source target kind depth) := by
  refine (h.enteredEdge depth).reend ?_ ?_
  · rw [isSome_enteredEdge, live, Bool.or_true]
  · rw [catches_enteredEdge]
    exact h.covered source

lemma cutBody (h : Lawful f) (live : (f.block? b).isSome) (index depth depth' : Nat) :
    Lawful ((f.beside b depth).cutBody b f.blocks.size index depth') := by
  exact (h.beside b depth).sameFlow sameFlow_cutBody
    ((h.beside b depth).toListed.cutBody isSome_beside_size (size_ne_of_isSome live).symm nodesOf_beside_size)

lemma preparedCut (h : Lawful f) (live : (f.block? b).isSome) (index depth depth' : Nat) :
    Lawful (f.preparedCut b index depth depth') := by
  have shared := h.cutBody live index depth depth'
  exact shared.sameFlow sameFlow_handPhis (shared.toListed.sameNodes sameNodes_handPhis)

lemma withEnd_preparedCut (h : Lawful f) (live : (f.block? b).isSome) (index depth depth' : Nat) :
    Lawful ((f.preparedCut b index depth depth').withEnd b .none (f.handlersOf b)) := by
  have ended := (h.preparedCut live index depth depth').withEnd (isSome_preparedCut_self live) .none
  rwa [handlersOf_preparedCut, if_neg (size_ne_of_isSome live)] at ended

lemma enteredCut (h : Lawful f) (live : (f.block? b).isSome) (index depth depth' : Nat) :
    Lawful (f.enteredCut b index depth depth') := by
  refine (h.withEnd_preparedCut live index depth depth').reend isSome_withEnd_preparedCut ?_
  rw [sameNodes_withEnd.catches, catches_preparedCut]
  exact h.covered b

lemma cut (h : Lawful f) (live : (f.block? b).isSome) (index depth depth' : Nat) :
    Lawful (f.cut b index depth depth') := by
  refine (h.enteredCut live index depth depth').reend (isSome_enteredCut_self live) ?_
  rw [catches_enteredCut]
  exact h.covered b

end Splits

lemma without (h : Lawful f) {x : Block} (here : f.block? b = some x) : Lawful (f.without b x) where
  toListed := h.toListed.without here
  covered c k mem := by
    rw [handlersOf_without] at mem
    rw [catches_without]
    split at mem
    · cases mem
    · exact h.covered c k mem
  backed t s kind := by
    rw [preds_without, succs_without]
    by_cases gone : t = b
    · rw [if_pos gone]
      exact Nat.zero_le _
    rw [if_neg gone]
    by_cases from_ : s = b
    · -- The block has told where its edges led, so no other block knows of an edge from it.
      subst from_
      rw [if_pos rfl, List.count_nil, Nat.le_zero, List.count_eq_zero, List.mem_filter]
      rintro ⟨mem, kept⟩
      have edge : (t, kind) ∈ f.succs s :=
        List.count_pos_iff.1 ((List.count_pos_iff.2 mem).trans_le (h.backed t s kind))
      rw [succs_of_block? here] at edge
      simp [edge] at kept
    · rw [if_neg from_, List.count_filter (by simp [from_]), List.count_filter (by simp [gone])]
      exact h.backed t s kind

lemma putNode (h : Lawful f) {k : NodeKind} (live : (f.block? b).isSome) (fits : f.Fits b index k) :
    Lawful (f.putNode b index k) :=
  h.sameFlow sameFlow_putNode (h.toListed.putNode live fits)

lemma dropNode (h : Lawful f) (v : ValueId) : Lawful (f.dropNode v) :=
  h.sameFlow sameFlow_dropNode (h.toListed.dropNode v)

lemma moveTo (h : Lawful f) {n : Node} (found : f.node? v = some n) (plain : n.kind.isPhi = false)
    (live : (f.block? b).isSome) : Lawful (f.moveTo v n.block b index) :=
  h.sameFlow sameFlow_moveTo (h.toListed.moveTo found plain live)

lemma takeOut (h : Lawful f) (b : BlockId) (v : ValueId) :
    Lawful (f.modifyBlock b fun s => { s with body := s.body.filter (· != v) }) := by
  have flow : SameFlow f (f.modifyBlock b fun s => { s with body := s.body.filter (· != v) }) :=
    sameFlow_of_map size_modifyBlock rfl fun keeps _ => map_modifyBlock fun x => keeps x _ _ _
  have fewer (t) : ((f.modifyBlock b fun s => { s with body := s.body.filter (· != v) }).body t).Sublist
    (f.body t) := by
    rw [body, body, block?_modifyBlock]
    split
    · cases f.block? t with
      | none => exact .slnil
      | some x => exact List.filter_sublist
    · exact .refl _
  have phis (t) : (f.modifyBlock b fun s => { s with body := s.body.filter (· != v) }).phis t = f.phis t :=
    phis_modifyBlock fun _ => rfl
  have part (t) : ((f.modifyBlock b fun s => { s with body := s.body.filter (· != v) }).nodesOf t).Sublist
    (f.nodesOf t) := by
    rw [nodesOf, phis]
    exact (fewer t).append_left _
  refine h.sameFlow flow ⟨fun t w mem => ?_, fun t w mem => ?_, fun t w mem => ?_, fun t => ?_⟩
  · exact h.owned t w ((part t).mem mem)
  · rw [phis] at mem
    exact h.phi t w mem
  · exact h.plain t w ((fewer t).mem mem)
  · exact (h.nodup t).sublist (part t)

end Lawful

variable {method : MethodId} {params locals : Nat} {flags : MethodFlags}

lemma lawful_new : Lawful (Func.new method params flags locals) where
  toListed := filed_new.toListed
  covered := linked_new.covered
  backed t s kind := by
    rw [(@parts_new method params locals flags t).2.2.2.2.2]
    exact Nat.zero_le _

end Avm.Ir.Func

namespace Avm.Ir

variable {f f' : Func} {c : Change}

/-- The graph behind a change, whether or not it succeeds. -/
def Change.after (f : Func) (c : Change) : Func :=
  match c.edit.run f with
  | .ok _ f' => f'
  | .error _ f' => f'

open Func (Lawful)

lemma Change.lawful_of_mem_ruins (h : Lawful f) (mem : f' ∈ c.ruins f) (halts : c.Halts f) : Lawful f' := by
  cases c with
  | moveNode v b index =>
    obtain ⟨n, found, -⟩ := halts
    rw [ruins, found] at mem
    obtain rfl := List.mem_singleton.1 mem
    exact h.takeOut n.block v
  | splitEdge source target kind =>
    simp only [ruins, List.mem_cons, List.not_mem_nil, or_false] at mem
    obtain rfl | rfl | rfl := mem
    · exact h.withBlock _
    · exact h.preparedEdge _
    · exact h.enteredEdge _
  | splitBlock b index =>
    simp only [ruins, List.mem_cons, List.not_mem_nil, or_false] at mem
    obtain rfl | rfl := mem
    · exact h.withBlock _
    · exact h.withEnd_preparedCut halts.1 index _ _
  | _ => exact absurd mem List.not_mem_nil

lemma Change.lawful_of_ok (h : Lawful f) (run : c.edit.run f = .ok () f') : Lawful f' := by
  cases c with
  | addBlock =>
    obtain ⟨a, run⟩ := exists_of_discard run
    obtain ⟨-, rfl⟩ := Edit.addBlock_eq_ok.1 run
    exact h.pushBlock
  | appendNode b kind =>
    obtain ⟨a, run⟩ := exists_of_discard run
    obtain ⟨live, -, rfl⟩ := Edit.appendNode_eq_ok.1 run
    exact h.putNode live Func.fits_place
  | insertNode b index kind =>
    obtain ⟨a, run⟩ := exists_of_discard run
    obtain ⟨live, fits, -, rfl⟩ := Edit.insertNode_eq_ok.1 run
    exact h.putNode live fits
  | removeNode v =>
    obtain ⟨a, run⟩ := exists_of_discard run
    obtain ⟨-, rfl⟩ := Edit.removeNode_eq_ok.1 run
    exact h.dropNode v
  | moveNode v b index =>
    obtain ⟨n, found, plain, -, live, rfl⟩ := Edit.moveNode_eq_ok.1 run
    exact h.moveTo found plain live
  | addHandler c =>
    obtain ⟨a, run⟩ := exists_of_discard run
    obtain ⟨-, rfl⟩ := Edit.addHandler_eq_ok.1 run
    exact h.withCatches [c]
  | setHandlers b handlers =>
    obtain ⟨covers, live, rfl⟩ := Edit.setHandlers_eq_ok.1 run
    exact h.reend live covers
  | setTerminator b t =>
    obtain ⟨-, live, rfl⟩ := Edit.setTerminator_eq_ok.1 run
    exact h.reend live (h.covered b)
  | splitEdge source target kind =>
    obtain ⟨a, run⟩ := exists_of_discard run
    obtain ⟨⟨-, rfl⟩, -⟩ := Edit.leaves_splitEdge.of_ok run
    exact h.onEdge (Func.isSome_of_mem_succs (edge_of_splitEdge run).1) _
  | splitBlock b index =>
    obtain ⟨a, run⟩ := exists_of_discard run
    obtain ⟨⟨-, rfl⟩, -⟩ := Edit.leaves_splitBlock.of_ok run
    exact h.cut (place_of_splitBlock run).1 index _ _
  | removeBlock b =>
    obtain ⟨-, x, here, rfl⟩ := Edit.removeBlock_eq_ok.1 run
    exact h.without here

lemma Change.lawful_after (h : Lawful f) (c : Change) : Lawful (c.after f) := by
  rw [after]
  split
  · rename_i run
    exact lawful_of_ok h run
  · rename_i run
    obtain ⟨rfl, -⟩ | ⟨mem, halts⟩ := (c.leaves f).of_error run
    · exact h
    · exact lawful_of_mem_ruins h mem halts

/-- So does any sequence of changes, of which some may fail. -/
theorem lawful_of_changes (cs : List Change) (method : MethodId) (params : Nat) (flags : MethodFlags) (locals : Nat) :
    Lawful (cs.foldl Change.after (.new method params flags locals)) :=
  List.foldlRecOn cs _ Func.lawful_new fun _ h c _ => Change.lawful_after h c

namespace Func

variable {b s t : BlockId} {kind : EdgeKind}

lemma Lawful.count_preds (h : Lawful f) (verified : f.verify = .ok ()) (t s : BlockId) (kind : EdgeKind) :
    (f.preds t).count (s, kind) = (f.succs s).count (t, kind) := by
  refine Nat.le_antisymm (h.backed t s kind) ?_
  by_cases mem : (t, kind) ∈ f.succs s
  · have once : (f.succs s).Nodup := by
      rw [wired_of_verify verified, edgesOf_eq]
      exact nodup_edgesFrom
    obtain ⟨x, here⟩ := Option.isSome_iff_exists.1 (isSome_of_mem_succs mem)
    have back := (verifyBlock_eq_ok.1 (verify_eq_ok.1 verified s x here)).2.1 (t, kind)
      (by rw [← succs_of_block? here]; exact mem)
    rw [once.count, if_pos mem]
    exact List.count_pos_iff.2 back
  · rw [List.count_eq_zero.2 mem]
    exact Nat.zero_le _

end Func

end Avm.Ir

/-! ## What comes into phis -/

namespace Avm.Ir

variable {s b t : BlockId} {v : ValueId} {kind : EdgeKind} {is : List PhiInput}

/-- The value that comes first among those from one block. -/
def arriving? (is : List PhiInput) (b : BlockId) : Option Value := (is.find? (·.source == b)).map (·.value)

/-- Inputs are brought in line with edges: an edge keeps its value, or gets the first one from its block. -/
lemma incoming?_reconcile_eq {kinds : List EdgeKind} : incoming? (Func.reconcile b kinds is) s kind =
    if s = b then if kind ∈ kinds then (incoming? is b kind).or (arriving? is b) else none
    else incoming? is s kind := by
  have first : arriving? is b = ((is.filter (·.source == b)).head?).map (·.value) := by
    rw [arriving?, List.head?_filter]
  rw [Func.reconcile]
  split
  · rename_i own
    have none_ : incoming? is b kind = none := by
      rw [incoming?, ← find?_source, own]
      rfl
    rw [first, own]
    split
    · rename_i here
      rw [here, none_]
      simp
    · rfl
  · rename_i x more own
    dsimp only
    rw [incoming?_append, incoming?_filter_source, incoming?_map]
    by_cases here : s = b
    · subst here
      rw [if_pos rfl, if_pos rfl, Option.none_or, first, own, incoming?, ← find?_source, own]
      refine if_congr (and_iff_right rfl) ?_ rfl
      cases (x :: more).find? (·.kind == kind) with
      | none => rfl
      | some i => rfl
    · rw [if_neg here, if_neg here, if_neg fun both => here both.1, Option.or_none]

namespace Func

variable {f f' : Func} {term : Terminator} {hs : List Nat} {depth : Nat}

/-- The value that comes first into a phi from a block. -/
def arriving (f : Func) (v : ValueId) (b : BlockId) : Option Value := (f.inputs? v).bind fun is => arriving? is b

/-- A phi has at most one input for each edge. -/
def Once (f : Func) (v : ValueId) : Prop := ∀ is, f.inputs? v = some is → (keysOf is).Nodup

section Reend

variable (listed : Listed f) (mem : v ∈ f.phis t) (live : (f.block? b).isSome)
include listed mem live

lemma inputs?_reend : (f.reend b term hs).inputs? v =
    if t ∈ targetsOf (f.succs b ++ edgesFrom f.handlers term hs) then
      (f.inputs? v).map (reconcile b (((edgesFrom f.handlers term hs).filter (·.1 == t)).map (·.2)))
    else f.inputs? v := by
  have nodes : SameNodes f (f.withEnd b term hs) := sameNodes_withEnd
  rw [reend, inputs?_rewire (listed.sameNodes nodes) (by rw [nodes.phis]; exact mem), edgesOf_withEnd live,
    succs_withEnd]
  rfl

lemma incoming_reend_eq (known : ∀ k, (f.incoming v b k).isSome = true →
      ∃ k', (t, k') ∈ f.succs b ∨ (t, k') ∈ edgesFrom f.handlers term hs) :
    (f.reend b term hs).incoming v s kind = if s = b then
      if (t, kind) ∈ edgesFrom f.handlers term hs then (f.incoming v b kind).or (f.arriving v b) else none
      else f.incoming v s kind := by
  have kinds : kind ∈ ((edgesFrom f.handlers term hs).filter (·.1 == t)).map (·.2) ↔
      (t, kind) ∈ edgesFrom f.handlers term hs := by
    rw [← List.count_pos_iff, count_map_filter, List.count_pos_iff]
  rw [incoming, inputs?_reend listed mem live]
  split
  · rw [incoming, incoming, arriving]
    cases f.inputs? v with
    | none => simp
    | some is =>
      simp only [Option.map_some, Option.bind_some]
      rw [incoming?_reconcile_eq, if_congr kinds rfl rfl]
  · rename_i untouched
    rw [mem_targetsOf] at untouched
    have absent : (t, kind) ∉ edgesFrom f.handlers term hs := fun there =>
      untouched ⟨kind, List.mem_append_right _ there⟩
    rw [← incoming, if_neg absent]
    split
    · rename_i here
      subst here
      by_contra some_
      obtain ⟨k, edge⟩ := known kind (Option.isSome_iff_ne_none.2 some_)
      exact untouched ⟨k, List.mem_append.2 edge⟩
    · rfl

lemma once_reend (once : f.Once v) : (f.reend b term hs).Once v := by
  intro is inputs
  rw [inputs?_reend listed mem live] at inputs
  split at inputs
  · obtain ⟨js, before, rfl⟩ := Option.map_eq_some_iff.1 inputs
    refine nodup_keysOf_reconcile (once js before) (List.nodup_iff_count_le_one.2 fun k => ?_)
    rw [count_map_filter]
    exact List.nodup_iff_count_le_one.1 nodup_edgesFrom _
  · exact once is inputs

end Reend

/-- Edges are those that blocks call for, but for blocks that are `stale`; they lead to blocks that exist, and are known
there. -/
structure Wired (stale : BlockId → Prop) (f : Func) : Prop where
  wired : ∀ b, ¬stale b → f.succs b = f.edgesOf b
  live : ∀ b, ∀ e ∈ f.succs b, (f.block? e.1).isSome
  agreed : ∀ t, (f.block? t).isSome → ∀ s kind, (f.preds t).count (s, kind) = (f.succs s).count (t, kind)

namespace Wired

variable {stale stale' : BlockId → Prop}

lemma mono (h : Wired stale f) (more : ∀ b, stale b → stale' b) : Wired stale' f :=
  { h with wired := fun b fresh => h.wired b fun old => fresh (more b old) }

lemma sameFlow (h : Wired stale f) (same : SameFlow f f') : Wired stale f' where
  wired b fresh := by
    rw [same.succs, same.edgesOf]
    exact h.wired b fresh
  live b e mem := by
    rw [same.succs] at mem
    rw [same.isSome]
    exact h.live b e mem
  agreed t live s kind := by
    rw [same.isSome] at live
    rw [same.preds, same.succs]
    exact h.agreed t live s kind

lemma reend (h : Wired stale f) (live : (f.block? b).isSome)
    (targets : ∀ e ∈ edgesFrom f.handlers term hs, (f.block? e.1).isSome) :
    Wired (fun c => stale c ∧ c ≠ b) (f.reend b term hs) where
  wired := wired_reend live h.wired
  live := live_of_mem_succs_reend live targets h.live
  agreed := agreed_reend live h.agreed

lemma size_notMem (h : Wired stale f) : (f.blocks.size, kind) ∉ f.succs s := by
  intro mem
  have live := h.live s _ mem
  rw [block?_size] at live
  cases live

lemma withBlock (h : Wired (fun _ => False) f) (depth : Nat) : Wired (fun _ => False) (f.withBlock depth) := by
  refine sameFlow (f := f.pushBlock {}) ⟨fun b _ => ?_, fun b e mem => ?_, fun t live s kind => ?_⟩
    alike_withBlock.toSameFlow
  · rw [succs_pushBlock, edgesOf_eq, terminator_pushBlock, handlersOf_pushBlock, handlers_pushBlock, ← edgesOf_eq]
    exact h.wired b id
  · rw [succs_pushBlock] at mem
    rw [isSome_pushBlock, h.live b e mem, Bool.or_true]
  · rw [preds_pushBlock, succs_pushBlock]
    rw [isSome_pushBlock, Bool.or_eq_true, decide_eq_true_eq] at live
    obtain rfl | old := live
    · rw [(parts_of_isNone block?_size).2.2.2.2.2, List.count_eq_zero.2 h.size_notMem]
      rfl
    · exact h.agreed t old s kind

lemma mem_succs_of_caught (h : Wired (fun _ => False) f) {e : BlockId × EdgeKind}
    (mem : e ∈ edgesFrom f.handlers .none (f.handlersOf b)) : e ∈ f.succs b := by
  rw [h.wired b id, edgesOf_eq]
  obtain none | none | caught := mem_edgesFrom.1 mem
  · cases none
  · cases none
  · exact mem_edgesFrom.2 (.inr (.inr caught))

lemma beside (h : Wired (fun _ => False) f) (s : BlockId) (depth : Nat) :
    Wired (fun _ => False) (f.beside s depth) := by
  refine ((h.withBlock depth).reend isSome_withBlock_self fun e mem => ?_).mono fun _ old => old.1
  rw [isSome_withBlock, h.live s e (h.mem_succs_of_caught mem), Bool.or_true]

end Wired

/-- A phi has one input for each edge into its block. -/
structure Fed (f : Func) : Prop where
  known : ∀ t, ∀ v ∈ f.phis t, ∀ s kind, (f.incoming v s kind).isSome = true ↔ (t, kind) ∈ f.succs s
  once : ∀ t, ∀ v ∈ f.phis t, f.Once v

lemma Lawful.verify_eq_ok (h : Lawful f) : f.verify = .ok () ↔ Wired (fun _ => False) f ∧ Fed f := by
  constructor
  · intro verified
    have checked {b x} (here : f.block? b = some x) :=
      verifyBlock_eq_ok.1 (Func.verify_eq_ok.1 verified b x here)
    have wired (b) : f.succs b = f.edgesOf b := wired_of_verify verified b
    have distinct (b) : (f.succs b).Nodup := by
      rw [wired, edgesOf_eq]
      exact nodup_edgesFrom
    have count {t v is} (mem : v ∈ f.phis t) (inputs : f.inputs? v = some is) (s kind) :
        (keysOf is).count (s, kind) = (f.succs s).count (t, kind) := by
      obtain ⟨x, here⟩ := Option.isSome_iff_exists.1 (isSome_of_mem_nodesOf (List.mem_append_left (f.body t) mem))
      rw [phis_of_block? here] at mem
      have perm := ((checked here).2.2.2 v mem).2
      rw [keys_of_inputs? inputs] at perm
      rw [← h.count_preds verified, preds_of_block? here, ← perm.count_eq, keysOf]
    refine ⟨⟨fun b _ => wired b, fun b e mem => ?_, fun t _ s kind => h.count_preds verified t s kind⟩,
      ⟨fun t v mem s kind => ?_, fun t v mem is inputs => ?_⟩⟩
    · obtain ⟨x, here⟩ := Option.isSome_iff_exists.1 (isSome_of_mem_succs mem)
      rw [succs_of_block? here] at mem
      exact isSome_of_mem_preds ((checked here).2.1 e mem)
    · obtain ⟨is, inputs⟩ := Option.isSome_iff_exists.1 (h.phi t v mem)
      rw [incoming, inputs, Option.bind_some, incoming?_isSome, ← List.count_pos_iff, count mem inputs,
        List.count_pos_iff]
    · refine List.nodup_iff_count_le_one.2 fun e => ?_
      rw [count mem inputs]
      exact List.nodup_iff_count_le_one.1 (distinct _) _
  · rintro ⟨edges, fed⟩
    refine Func.verify_eq_ok.2 fun b x here => verifyBlock_eq_ok.2 ⟨?_, fun e mem => ?_, fun v mem => ?_, fun v mem =>
      ?_⟩
    · rw [← succs_of_block? here, edges.wired b id]
    · rw [← succs_of_block? here] at mem
      rw [← List.count_pos_iff, edges.agreed e.1 (edges.live b e mem), List.count_pos_iff]
      exact mem
    · refine h.owned b v ?_
      rwa [nodesOf, phis_of_block? here, body_of_block? here]
    · rw [← phis_of_block? here] at mem
      obtain ⟨is, inputs⟩ := Option.isSome_iff_exists.1 (h.phi b v mem)
      refine ⟨h.phi b v mem, List.perm_iff_count.2 fun e => ?_⟩
      have distinct : (f.succs e.1).Nodup := by
        rw [edges.wired e.1 id, edgesOf_eq]
        exact nodup_edgesFrom
      have known := fed.known b v mem e.1 e.2
      rw [incoming, inputs, Option.bind_some, incoming?_isSome] at known
      rw [keys_of_inputs? inputs, ← keysOf, (fed.once b v mem is inputs).count, ← preds_of_block? here,
        edges.agreed b (by rw [here]; rfl), distinct.count]
      exact if_congr known rfl rfl

end Func

end Avm.Ir
