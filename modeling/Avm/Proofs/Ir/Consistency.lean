import Avm.Proofs.Ir.Splitting
import Avm.Proofs.Ir.Removing

/-!
# Edges and lists stay consistent

What any sequence of edits keeps, whatever graph it makes of an empty one.  `Linked` says that edges are
known at both ends and are those that their block calls for, `Filed` that blocks and nodes agree about which
node is where.  Neither asks for phis with the right inputs, and nothing is asked of the entry and the exit,
so these hold of graphs that are far from being in order.

One thing goes wrong.  A handler may be left behind when the block that it leads to is removed, and it may
cover blocks later.  Then the covered blocks have an edge to the gap, which nothing can know of at its other
end; `Dangles` says where that is so.

The main statement is `consistent_of_build`.
-/

namespace Avm.Ir.Func

variable {f f' : Func} {b t : BlockId} {v w : ValueId} {n : Node} {k : NodeKind} {index depth : Nat}
  {term : Terminator} {hs : List Nat}

/-- Edges are known at both ends and are those that their block calls for, but for blocks that are
`stale`. -/
structure Linked (stale : BlockId → Prop) (f : Func) : Prop where
  /-- The edges that leave a block are those that it calls for. -/
  wired : ∀ b, ¬stale b → f.succs b = f.edgesOf b
  /-- An edge into a block that exists is known at its other end, as often as it is there. -/
  linked : ∀ t, (f.block? t).isSome → ∀ s kind,
    (f.preds t).count (s, kind) = (f.succs s).count (t, kind)
  /-- Terminators lead to blocks that exist. -/
  ends : ∀ b, ∀ e ∈ (f.terminator b).targets, (f.block? e.1).isSome
  /-- The exit exists. -/
  exit : (f.block? Func.exit).isSome
  /-- Handlers that cover a block exist. -/
  covered : ∀ b, ∀ h ∈ f.handlersOf b, h < f.handlers.length
  /-- Handlers lead to blocks that exist or did so once. -/
  caught : ∀ c ∈ f.handlers, c.target < f.blocks.size

/-- Blocks and nodes agree about which node is where, and no node is listed nowhere. -/
structure Filed (f : Func) : Prop extends Listed f where
  /-- The block that a node names lists it. -/
  filed : ∀ v n, f.node? v = some n → v ∈ f.nodesOf n.block

section Edges

variable {stale : BlockId → Prop}

lemma Linked.sameFlow (h : Linked stale f) (same : SameFlow f f') : Linked stale f' where
  wired b fresh := by
    rw [same.succs, same.edgesOf]
    exact h.wired b fresh
  linked t live s kind := by
    rw [same.isSome] at live
    rw [same.preds, same.succs]
    exact h.linked t live s kind
  ends b e mem := by
    rw [same.targets] at mem
    rw [same.isSome]
    exact h.ends b e mem
  exit := by
    rw [same.isSome]
    exact h.exit
  covered b k mem := by
    rw [same.handlersOf] at mem
    rw [same.catches]
    exact h.covered b k mem
  caught c mem := by
    rw [same.catches] at mem
    rw [same.size]
    exact h.caught c mem

lemma Linked.mono {stale' : BlockId → Prop} (h : Linked stale f) (more : ∀ b, stale b → stale' b) :
    Linked stale' f :=
  { h with wired := fun b fresh => h.wired b fun old => fresh (more b old) }

lemma Linked.target_of_mem (h : Linked stale f) (fresh : ¬stale b) {e : BlockId × EdgeKind}
    (mem : e ∈ f.succs b) : (f.block? e.1).isSome ∨
      e.2 = .raise ∧ ∃ k ∈ f.handlersOf b, ∃ c, f.handlers[k]? = some c ∧ c.target = e.1 := by
  rw [h.wired b fresh, edgesOf_eq] at mem
  obtain goes | leaves | ⟨k, covers, c, found, rfl⟩ := mem_edgesFrom.1 mem
  · exact .inl (h.ends b e goes)
  · rw [Terminator.eq_exit_of_mem_leaving leaves]
    exact .inl h.exit
  · exact .inr ⟨rfl, k, covers, c, found, rfl⟩

lemma Linked.lt_size (h : Linked (fun _ => False) f) {e : BlockId × EdgeKind} (mem : e ∈ f.succs b) :
    e.1 < f.blocks.size := by
  obtain live | ⟨-, k, -, c, found, same⟩ := h.target_of_mem id mem
  · exact lt_size_of_block? live
  · rw [← same]
    exact h.caught c (List.mem_of_getElem? found)

lemma Linked.reend (h : Linked stale f) (live : (f.block? b).isSome)
    (targets : ∀ e ∈ term.targets, (f.block? e.1).isSome) (covers : ∀ k ∈ hs, k < f.handlers.length) :
    Linked (fun c => stale c ∧ c ≠ b) (f.reend b term hs) where
  wired := wired_reend live h.wired
  linked := agreed_reend live h.linked
  ends c e mem := by
    rw [terminator_reend live] at mem
    rw [sameNodes_reend.isSome]
    split at mem
    · exact targets e mem
    · exact h.ends c e mem
  exit := by
    rw [sameNodes_reend.isSome]
    exact h.exit
  covered c k mem := by
    rw [handlersOf_reend live] at mem
    rw [sameNodes_reend.catches]
    split at mem
    · exact covers k mem
    · exact h.covered c k mem
  caught c mem := by
    rw [sameNodes_reend.catches] at mem
    rw [sameNodes_reend.size]
    exact h.caught c mem

lemma Linked.pushBlock (h : Linked (fun _ => False) f) : Linked (fun _ => False) (f.pushBlock {}) where
  wired b _ := by
    rw [succs_pushBlock, edgesOf_eq, terminator_pushBlock, handlersOf_pushBlock, handlers_pushBlock,
      ← edgesOf_eq]
    exact h.wired b id
  linked t live s kind := by
    rw [preds_pushBlock, succs_pushBlock]
    rw [isSome_pushBlock, Bool.or_eq_true, decide_eq_true_eq] at live
    obtain rfl | old := live
    · -- No edge leads to a block before it is there.
      have none : (f.blocks.size, kind) ∉ f.succs s := fun mem => Nat.lt_irrefl _ (h.lt_size mem)
      rw [(parts_of_isNone block?_size).2.2.2.2.2, List.count_eq_zero.2 none]
      rfl
    · exact h.linked t old s kind
  ends b e mem := by
    rw [terminator_pushBlock] at mem
    rw [isSome_pushBlock, h.ends b e mem, Bool.or_true]
  exit := by rw [isSome_pushBlock, h.exit, Bool.or_true]
  covered b k mem := by
    rw [handlersOf_pushBlock] at mem
    exact h.covered b k mem
  caught c mem := by
    rw [size_pushBlock]
    exact Nat.lt_succ_of_lt (h.caught c mem)

lemma Linked.withCatches (h : Linked stale f) {c : Catch} (inside : (f.block? c.target).isSome) :
    Linked stale (f.withCatches [c]) where
  wired b fresh := by
    have same : ((f.withCatches [c]).handlersOf b).filterMap (fun k =>
        (f.withCatches [c]).handlers[k]?.map fun c => (c.target, EdgeKind.raise)) =
          (f.handlersOf b).filterMap fun k => f.handlers[k]?.map fun c => (c.target, .raise) := by
      refine List.filterMap_congr fun k mem => ?_
      rw [Func.withCatches, List.getElem?_append_left (h.covered b k mem)]
    rw [edgesOf_eq, edgesFrom, same]
    exact (h.wired b fresh).trans edgesOf_eq
  linked := h.linked
  ends := h.ends
  exit := h.exit
  covered b k mem := by
    rw [Func.withCatches, List.length_append]
    exact Nat.lt_add_right _ (h.covered b k mem)
  caught d mem := by
    obtain old | new := List.mem_append.1 mem
    · exact h.caught d old
    · rw [List.mem_singleton.1 new]
      exact lt_size_of_block? inside

lemma Linked.without (h : Linked (fun _ => False) f) {x : Block} (here : f.block? b = some x)
    (inner : b ≠ Func.exit) (alone : ∀ e ∈ f.preds b, f.block? e.1 = none) :
    Linked (fun _ => False) (f.without b x) := by
  -- A block that is gone has no edges, so none at all lead here.
  have none (s kind) : (b, kind) ∉ f.succs s := by
    intro edge
    have back : (s, kind) ∈ f.preds b := by
      rw [← List.count_pos_iff, h.linked b (by rw [here]; rfl), List.count_pos_iff]
      exact edge
    have live := isSome_of_mem_succs edge
    rw [alone _ back] at live
    cases live
  refine ⟨fun c _ => ?_, fun t live s kind => ?_, fun c e mem => ?_, ?_, fun c k mem => ?_, fun c mem => ?_⟩
  · rw [succs_without, edgesOf_eq, terminator_without, handlersOf_without, catches_without]
    split
    · simp [edgesFrom, Terminator.targets, Terminator.leaving]
    · rw [← edgesOf_eq, ← h.wired c id, List.filter_eq_self]
      rintro ⟨d, kind⟩ mem
      have other : d ≠ b := fun same => none c kind (same ▸ mem)
      simp [other]
  · rw [isSome_without, Bool.and_eq_true, decide_eq_true_eq] at live
    rw [count_preds_without (h.linked t live.2 b) here live.1, count_succs_without live.1]
    split
    · rfl
    · exact h.linked t live.2 s kind
  · rw [terminator_without] at mem
    split at mem
    · cases mem
    · have edge : e ∈ f.succs c := by
        rw [h.wired c id, edgesOf_eq, mem_edgesFrom]
        exact .inl mem
      have other : e.1 ≠ b := fun same => none c e.2 (by rwa [← same])
      rw [isSome_without, h.ends c e mem, decide_eq_true other]
      rfl
  · rw [isSome_without, h.exit, decide_eq_true inner.symm]
    rfl
  · rw [handlersOf_without] at mem
    rw [catches_without]
    split at mem
    · cases mem
    · exact h.covered c k mem
  · rw [catches_without] at mem
    rw [size_without]
    exact h.caught c mem

end Edges

section Nodes

lemma Filed.sameNodes (h : Filed f) (same : SameNodes f f') : Filed f' :=
  { h.toListed.sameNodes same with
    filed := fun v n found => by
      have owner := same.owner v
      rw [found, Option.map_some] at owner
      obtain ⟨m, there, names⟩ := Option.map_eq_some_iff.1 owner.symm
      rw [same.nodesOf, ← names]
      exact h.filed v m there }

lemma Filed.pushBlock (h : Filed f) : Filed (f.pushBlock {}) where
  owned b v mem := by
    rw [nodesOf, phis_pushBlock, body_pushBlock] at mem
    exact h.owned b v mem
  phi b v mem := by
    rw [phis_pushBlock] at mem
    exact h.phi b v mem
  plain b v mem := by
    rw [body_pushBlock] at mem
    exact h.plain b v mem
  nodup b := by
    rw [nodesOf, phis_pushBlock, body_pushBlock]
    exact h.nodup b
  filed v n found := by
    rw [nodesOf, phis_pushBlock, body_pushBlock]
    exact h.filed v n found

lemma Filed.putNode (h : Filed f) (live : (f.block? b).isSome) (fits : f.Fits b index k) :
    Filed (f.putNode b index k) :=
  { h.toListed.putNode live fits with
    filed := fun v n found => by
      rw [node?_putNode] at found
      rw [mem_nodesOf_putNode live fits]
      split at found
      · rename_i new
        obtain rfl := Option.some.inj found
        exact .inl ⟨rfl, new⟩
      · exact .inr (h.filed v n found) }

lemma Filed.dropNode (h : Filed f) (v : ValueId) : Filed (f.dropNode v) :=
  { h.toListed.dropNode v with
    filed := fun w n found => by
      rw [node?_dropNode] at found
      split at found
      · cases found
      · rename_i other
        rw [nodesOf, (h.lists_dropNode v n.block).1, (h.lists_dropNode v n.block).2, ← List.filter_append]
        exact List.mem_filter.2 ⟨h.filed w n found, bne_iff_ne.2 other⟩ }

lemma Filed.moveTo (h : Filed f) (found : f.node? v = some n) (plain : n.kind.isPhi = false)
    (live : (f.block? b).isSome) : Filed (f.moveTo v n.block b index) :=
  { h.toListed.moveTo found plain live with
    filed := fun w m there => by
      rw [nodesOf, List.mem_append, phis_moveTo, (h.perm_body_moveTo found live index m.block).mem_iff]
      rw [node?_moveTo] at there
      split at there
      · rename_i same
        subst same
        rw [found] at there
        obtain rfl := Option.some.inj there
        rw [if_pos rfl]
        exact .inr List.mem_cons_self
      · rename_i other
        obtain phi | plain := List.mem_append.1 (h.filed w m there)
        · exact .inl phi
        · have kept : w ∈ (f.body m.block).filter (· != v) :=
            List.mem_filter.2 ⟨plain, bne_iff_ne.2 (Ne.symm other)⟩
          split
          · exact .inr (List.mem_cons_of_mem _ kept)
          · exact .inr kept }

lemma Filed.cutBody (h : Filed f) {tail : BlockId} (there : (f.block? tail).isSome) (other : tail ≠ b)
    (empty : f.nodesOf tail = []) : Filed (f.cutBody b tail index depth) :=
  { h.toListed.cutBody there other empty with
    filed := fun w n found => by
      rw [nodesOf, List.mem_append, phis_cutBody, body_cutBody there other]
      rw [node?_cutBody] at found
      split at found
      · rename_i moved
        obtain ⟨m, -, rfl⟩ := Option.map_eq_some_iff.1 found
        rw [if_pos rfl]
        exact .inr moved
      · rename_i kept
        have old := h.filed w n found
        have elsewhere : n.block ≠ tail := by
          rintro same
          rw [same, empty] at old
          cases old
        rw [if_neg elsewhere]
        refine (List.mem_append.1 old).imp id fun mem => ?_
        split
        · rename_i same
          rw [same, ← List.take_append_drop index (f.body b), List.mem_append] at mem
          exact mem.resolve_right kept
        · exact mem }

lemma Filed.without (h : Filed f) {x : Block} (here : f.block? b = some x) : Filed (f.without b x) :=
  { h.toListed.without here with
    filed := fun w n found => by
      rw [Func.without, node?_eraseNodes] at found
      split at found
      · cases found
      · rename_i kept
        rw [node?, nodes_forget, ← node?] at found
        have owner : ((f.clearBlock b).node? w).map (·.block) = some n.block := by
          rw [← frame_unlink.1, found]
          rfl
        obtain ⟨m, there, names⟩ := Option.map_eq_some_iff.1 owner
        have old := h.filed w m there
        have elsewhere : m.block ≠ b := by
          rintro same
          rw [same, nodesOf, phis_of_block? here, body_of_block? here] at old
          exact kept old
        rw [← names, nodesOf, phis_without, body_without, if_neg elsewhere, if_neg elsewhere]
        exact old }

lemma isPhi_eq_isSome_inputs? (k : NodeKind) : k.isPhi = k.inputs?.isSome := by
  cases k <;> rfl

/-- Phis are listed among the phis of the block that they name, and other nodes among its other nodes. -/
lemma Filed.mem_iff (h : Filed f) (found : f.node? v = some n) (b : BlockId) :
    (v ∈ f.phis b ↔ b = n.block ∧ n.kind.isPhi = true) ∧
      (v ∈ f.body b ↔ b = n.block ∧ n.kind.isPhi = false) := by
  have owner {b} (mem : v ∈ f.nodesOf b) : b = n.block := by
    have owned := h.owned b v mem
    rw [found] at owned
    exact (Option.some.inj owned).symm
  have inputs : f.inputs? v = n.kind.inputs? := by rw [inputs?_eq, found, Option.bind_some]
  have phi {b} (mem : v ∈ f.phis b) : n.kind.isPhi = true := by
    rw [isPhi_eq_isSome_inputs?, ← inputs]
    exact h.phi b v mem
  have plain {b} (mem : v ∈ f.body b) : n.kind.isPhi = false := by
    rw [isPhi_eq_isSome_inputs?, ← inputs, h.plain b v mem]
    rfl
  constructor
  · constructor
    · exact fun mem => ⟨owner (List.mem_append_left _ mem), phi mem⟩
    · rintro ⟨rfl, is⟩
      refine (List.mem_append.1 (h.filed v n found)).resolve_right fun mem => ?_
      rw [plain mem] at is
      cases is
  · constructor
    · exact fun mem => ⟨owner (List.mem_append_right _ mem), plain mem⟩
    · rintro ⟨rfl, is⟩
      refine (List.mem_append.1 (h.filed v n found)).resolve_left fun mem => ?_
      rw [phi mem] at is
      cases is

lemma Filed.counts (h : Filed f) (found : f.node? v = some n) (b : BlockId) :
    (f.phis b).count v = (if b = n.block ∧ n.kind.isPhi = true then 1 else 0) ∧
      (f.body b).count v = if b = n.block ∧ n.kind.isPhi = false then 1 else 0 := by
  obtain ⟨phis, body, -⟩ := List.nodup_append.1 (h.nodup b)
  rw [phis.count, body.count]
  simp only [(h.mem_iff found b).1, (h.mem_iff found b).2, and_self]

end Nodes

section Splits

variable {source target middle : BlockId} {kind : EdgeKind} {depth' : Nat}

lemma Linked.withBlock (h : Linked (fun _ => False) f) (depth : Nat) :
    Linked (fun _ => False) (f.withBlock depth) :=
  h.pushBlock.sameFlow alike_withBlock.toSameFlow

lemma Filed.withBlock (h : Filed f) (depth : Nat) : Filed (f.withBlock depth) :=
  h.pushBlock.sameNodes alike_withBlock.toSameNodes

lemma Linked.beside (h : Linked (fun _ => False) f) (s : BlockId) (depth : Nat) :
    Linked (fun _ => False) (f.beside s depth) :=
  ((h.withBlock depth).reend isSome_withBlock_self (fun _ mem => absurd mem List.not_mem_nil)
    (h.covered s)).mono fun _ old => old.1

lemma Filed.beside (h : Filed f) (s : BlockId) (depth : Nat) : Filed (f.beside s depth) :=
  (h.withBlock depth).sameNodes sameNodes_reend

lemma Filed.onEdge (h : Filed f) : Filed (f.onEdge source target kind depth) :=
  (((h.beside source depth).sameNodes sameNodes_modifyPhis).sameNodes sameNodes_reend).sameNodes
    sameNodes_reend

lemma Linked.onEdge (h : Linked (fun _ => False) f) (live : (f.block? source).isSome)
    (there : (f.block? target).isSome) : Linked (fun _ => False) (f.onEdge source target kind depth) := by
  have prepared : Linked (fun _ => False) (f.preparedEdge source target kind depth) :=
    (h.beside source depth).sameFlow sameFlow_modifyPhis
  have entered : Linked (fun c => False ∧ c ≠ f.blocks.size) (f.enteredEdge source target kind depth) := by
    refine prepared.reend ?_ (fun e mem => ?_) ?_
    · rw [isSome_preparedEdge, decide_eq_true rfl, Bool.true_or]
    · rw [List.mem_singleton.1 mem, isSome_preparedEdge, there, Bool.or_true]
    · rw [catches_preparedEdge]
      exact h.covered source
  refine (entered.reend ?_ (fun e mem => ?_) ?_).mono fun _ old => old.1.1
  · rw [isSome_enteredEdge, live, Bool.or_true]
  · rw [isSome_enteredEdge]
    obtain rfl | ⟨old, -⟩ := Terminator.mem_targets_retarget mem
    · rw [decide_eq_true rfl, Bool.true_or]
    · rw [h.ends source e old, Bool.or_true]
  · rw [catches_enteredEdge]
    exact h.covered source

lemma Linked.withEnd_none (h : Linked (fun _ => False) f) (live : (f.block? b).isSome) :
    Linked (· = b) (f.withEnd b .none (f.handlersOf b)) := by
  refine ⟨fun c fresh => ?_, fun t there s kind => ?_, fun c e mem => ?_, ?_, fun c k mem => ?_,
    fun c mem => ?_⟩
  · rw [succs_withEnd, edgesOf_eq, terminator_withEnd live, if_neg fresh, handlersOf_withEnd_self live,
      sameNodes_withEnd.catches, ← edgesOf_eq]
    exact h.wired c id
  · rw [sameNodes_withEnd.isSome] at there
    rw [preds_withEnd, succs_withEnd]
    exact h.linked t there s kind
  · rw [terminator_withEnd live] at mem
    rw [sameNodes_withEnd.isSome]
    split at mem
    · cases mem
    · exact h.ends c e mem
  · rw [sameNodes_withEnd.isSome]
    exact h.exit
  · rw [handlersOf_withEnd_self live] at mem
    rw [sameNodes_withEnd.catches]
    exact h.covered c k mem
  · rw [sameNodes_withEnd.catches] at mem
    rw [sameNodes_withEnd.size]
    exact h.caught c mem

lemma Linked.cut (h : Linked (fun _ => False) f) (live : (f.block? b).isSome) :
    Linked (fun _ => False) (f.cut b index depth depth') := by
  have other : b ≠ f.blocks.size := size_ne_of_isSome live
  have prepared : Linked (fun _ => False) (f.preparedCut b index depth depth') :=
    ((h.beside b depth).sameFlow sameFlow_cutBody).sameFlow sameFlow_handPhis
  have open_ := prepared.withEnd_none (isSome_preparedCut_self live)
  rw [handlersOf_preparedCut, if_neg other] at open_
  have entered : Linked (fun c => c = b ∧ c ≠ f.blocks.size) (f.enteredCut b index depth depth') := by
    refine open_.reend isSome_withEnd_preparedCut (fun e mem => ?_) fun k mem => ?_
    · rw [sameNodes_withEnd.isSome, isSome_preparedCut, h.ends b e mem, Bool.or_true]
    · rw [sameNodes_withEnd.catches, catches_preparedCut]
      exact h.covered b k mem
  refine (entered.reend (isSome_enteredCut_self live) (fun e mem => ?_) fun k mem => ?_).mono
    fun c old => old.2 old.1.1
  · rw [List.mem_singleton.1 mem, isSome_enteredCut, decide_eq_true rfl, Bool.true_or]
  · rw [catches_enteredCut]
    exact h.covered b k mem

lemma Filed.cut (h : Filed f) (live : (f.block? b).isSome) : Filed (f.cut b index depth depth') := by
  have other : f.blocks.size ≠ b := (size_ne_of_isSome live).symm
  have prepared : Filed (f.preparedCut b index depth depth') :=
    ((h.beside b depth).cutBody isSome_beside_size other nodesOf_beside_size).sameNodes sameNodes_handPhis
  exact ((prepared.sameNodes sameNodes_withEnd).sameNodes sameNodes_reend).sameNodes sameNodes_reend

end Splits

end Avm.Ir.Func

namespace Avm.Ir

open Func (Linked Filed)

variable {f f' : Func}

/-- An edit of a graph from outside. -/
inductive Change where
  /-- Adds a block. -/
  | addBlock
  /-- Adds a node at the end of a block. -/
  | appendNode (b : BlockId) (kind : NodeKind)
  /-- Adds a node at a place in a block. -/
  | insertNode (b : BlockId) (index : Nat) (kind : NodeKind)
  /-- Removes a node. -/
  | removeNode (v : ValueId)
  /-- Moves a node to a place in a block. -/
  | moveNode (v : ValueId) (b : BlockId) (index : Nat)
  /-- Adds a handler. -/
  | addHandler (c : Catch)
  /-- Says which handlers cover a block. -/
  | setHandlers (b : BlockId) (handlers : List Nat)
  /-- Says where control goes at the end of a block. -/
  | setTerminator (b : BlockId) (t : Terminator)
  /-- Puts a block on an edge. -/
  | splitEdge (source target : BlockId) (kind : EdgeKind)
  /-- Splits a block in two. -/
  | splitBlock (b : BlockId) (index : Nat)
  /-- Removes a block. -/
  | removeBlock (b : BlockId)
deriving DecidableEq, Repr, Inhabited

namespace Change

/-- What the change does. -/
def edit : Change → Edit Unit
  | addBlock => do let _ ← Edit.addBlock
  | appendNode b kind => do let _ ← Edit.appendNode b kind
  | insertNode b index kind => do let _ ← Edit.insertNode b index kind
  | removeNode v => do let _ ← Edit.removeNode v
  | moveNode v b index => Edit.moveNode v b index
  | addHandler c => do let _ ← Edit.addHandler c
  | setHandlers b handlers => Edit.setHandlers b handlers
  | setTerminator b t => Edit.setTerminator b t
  | splitEdge source target kind => do let _ ← Edit.splitEdge source target kind
  | splitBlock b index => do let _ ← Edit.splitBlock b index
  | removeBlock b => Edit.removeBlock b

/-- New handlers lead to a block that exists, and blocks are removed if no block leads to them. -/
def allowed (f : Func) : Change → Bool
  | addHandler c => (f.block? c.target).isSome
  | removeBlock b => (f.preds b).all fun e => (f.block? e.1).isNone
  | _ => true

/-- The graph behind a change that is allowed and succeeds. -/
def run? (f : Func) (c : Change) : Option Func :=
  if c.allowed f then
    match c.edit.run f with
    | .ok _ f' => some f'
    | .error _ _ => none
  else none

lemma run?_eq_some {c : Change} : c.run? f = some f' ↔ c.allowed f = true ∧ c.edit.run f = .ok () f' := by
  rw [run?]
  split
  · rename_i may
    split
    · rename_i done
      rw [done]
      simp [may]
    · rename_i failed
      rw [failed]
      simp
  · rename_i not
    simp [not]

end Change

/-- The graph behind a sequence of changes, all of which are allowed and succeed. -/
def build? (cs : List Change) (f : Func) : Option Func := cs.foldlM Change.run? f

lemma exists_of_discard {α : Type} {x : Edit α} (run : (do let _ ← x : Edit Unit).run f = .ok () f') :
    ∃ a, x.run f = .ok a f' := by
  obtain ⟨a, _, run, last⟩ := Edit.bind_eq_ok.1 run
  obtain ⟨-, rfl⟩ := Edit.pure_eq_ok.1 last
  exact ⟨a, run⟩

lemma edge_of_splitEdge {source target a : BlockId} {kind : EdgeKind}
    (run : (Edit.splitEdge source target kind).run f = .ok a f') :
    (target, kind) ∈ f.succs source ∧ kind ≠ .raise := by
  rw [Edit.splitEdge] at run
  obtain ⟨g, _, got, rest⟩ := Edit.bind_eq_ok.1 run
  obtain ⟨rfl, rfl⟩ := Edit.get_eq_ok.1 got
  dsimp only at rest
  split at rest
  · obtain ⟨_, _, stop, -⟩ := Edit.bind_eq_ok.1 rest
    exact absurd stop Edit.throw_ne_ok
  · rename_i allowed
    simpa using allowed

lemma place_of_splitBlock {b a : BlockId} {index : Nat}
    (run : (Edit.splitBlock b index).run f = .ok a f') :
    (f.block? b).isSome ∧ index ≤ (f.body b).length := by
  rw [Edit.splitBlock] at run
  obtain ⟨x, _, got, rest⟩ := Edit.bind_eq_ok.1 run
  obtain ⟨here, rfl⟩ := Edit.block_eq_ok.1 got
  dsimp only at rest
  split at rest
  · obtain ⟨_, _, stop, -⟩ := Edit.bind_eq_ok.1 rest
    exact absurd stop Edit.throw_ne_ok
  · rename_i inside
    rw [Func.body_of_block? here, here]
    exact ⟨rfl, Nat.le_of_not_lt inside⟩

lemma Change.keeps {c : Change} (linked : Linked (fun _ => False) f) (filed : Filed f)
    (run : c.run? f = some f') : Linked (fun _ => False) f' ∧ Filed f' := by
  obtain ⟨may, run⟩ := run?_eq_some.1 run
  have again {b term hs} (live : (f.block? b).isSome)
      (targets : ∀ e ∈ term.targets, (f.block? e.1).isSome) (covers : ∀ k ∈ hs, k < f.handlers.length) :
      Linked (fun _ => False) (f.reend b term hs) ∧ Filed (f.reend b term hs) :=
    ⟨(linked.reend live targets covers).mono fun _ old => old.1, filed.sameNodes Func.sameNodes_reend⟩
  cases c with
  | addBlock =>
    obtain ⟨a, run⟩ := exists_of_discard run
    obtain ⟨-, rfl⟩ := Edit.addBlock_eq_ok.1 run
    exact ⟨linked.pushBlock, filed.pushBlock⟩
  | appendNode b kind =>
    obtain ⟨a, run⟩ := exists_of_discard run
    obtain ⟨live, -, rfl⟩ := Edit.appendNode_eq_ok.1 run
    exact ⟨linked.sameFlow Func.sameFlow_putNode, filed.putNode live Func.fits_place⟩
  | insertNode b index kind =>
    obtain ⟨a, run⟩ := exists_of_discard run
    obtain ⟨live, fits, -, rfl⟩ := Edit.insertNode_eq_ok.1 run
    exact ⟨linked.sameFlow Func.sameFlow_putNode, filed.putNode live fits⟩
  | removeNode v =>
    obtain ⟨a, run⟩ := exists_of_discard run
    obtain ⟨-, rfl⟩ := Edit.removeNode_eq_ok.1 run
    exact ⟨linked.sameFlow Func.sameFlow_dropNode, filed.dropNode v⟩
  | moveNode v b index =>
    obtain ⟨n, found, plain, -, live, rfl⟩ := Edit.moveNode_eq_ok.1 run
    exact ⟨linked.sameFlow Func.sameFlow_moveTo, filed.moveTo found plain live⟩
  | addHandler c =>
    obtain ⟨a, run⟩ := exists_of_discard run
    obtain ⟨-, rfl⟩ := Edit.addHandler_eq_ok.1 run
    exact ⟨linked.withCatches may, { filed with }⟩
  | setHandlers b handlers =>
    obtain ⟨covers, live, rfl⟩ := Edit.setHandlers_eq_ok.1 run
    exact again live (linked.ends b) covers
  | setTerminator b t =>
    obtain ⟨targets, live, rfl⟩ := Edit.setTerminator_eq_ok.1 run
    exact again live targets (linked.covered b)
  | splitEdge source target kind =>
    obtain ⟨a, run⟩ := exists_of_discard run
    obtain ⟨edge, normal⟩ := edge_of_splitEdge run
    have live : (f.block? source).isSome := Func.isSome_of_mem_succs edge
    have there : (f.block? target).isSome :=
      (linked.target_of_mem id edge).resolve_right fun caught => normal caught.1
    rw [Edit.run_splitEdge edge normal (linked.covered source) there (linked.ends source)] at run
    obtain ⟨-, rfl⟩ := EStateM.Result.ok.inj run
    exact ⟨linked.onEdge live there, filed.onEdge⟩
  | splitBlock b index =>
    obtain ⟨a, run⟩ := exists_of_discard run
    obtain ⟨live, inside⟩ := place_of_splitBlock run
    rw [Edit.run_splitBlock live inside (linked.covered b) (linked.ends b)] at run
    obtain ⟨-, rfl⟩ := EStateM.Result.ok.inj run
    exact ⟨linked.cut live, filed.cut live⟩
  | removeBlock b =>
    obtain ⟨inner, x, here, rfl⟩ := Edit.removeBlock_eq_ok.1 run
    refine ⟨linked.without here inner.2 fun e mem => ?_, filed.without here⟩
    exact Option.isNone_iff_eq_none.1 (List.all_eq_true.1 may e mem)

lemma build?_keeps {cs : List Change} (linked : Linked (fun _ => False) f) (filed : Filed f)
    (run : build? cs f = some f') : Linked (fun _ => False) f' ∧ Filed f' := by
  induction cs generalizing f with
  | nil =>
    obtain rfl := Option.some.inj run
    exact ⟨linked, filed⟩
  | cons c cs ih =>
    rw [build?, List.foldlM_cons, Option.bind_eq_bind, Option.bind_eq_some_iff] at run
    obtain ⟨g, first, rest⟩ := run
    obtain ⟨linked, filed⟩ := Change.keeps linked filed first
    exact ih linked filed rest

section Start

variable {method : MethodId} {params locals : Nat} {flags : MethodFlags}

/-- A graph without nodes, of which the entry and the exit are there. -/
def Func.new (method : MethodId) (params : Nat) (flags : MethodFlags) (locals : Nat) : Func :=
  { method := method, params := params, flags := flags, locals := locals }

lemma Func.block?_new (b : BlockId) : (Func.new method params flags locals).block? b =
    if b < 2 then some {} else none := by
  match b with
  | 0 => rfl
  | 1 => rfl
  | b + 2 => rfl

lemma Func.parts_new (b : BlockId) : (Func.new method params flags locals).phis b = [] ∧
    (Func.new method params flags locals).body b = [] ∧
      (Func.new method params flags locals).handlersOf b = [] ∧
        (Func.new method params flags locals).terminator b = .none ∧
          (Func.new method params flags locals).succs b = [] ∧
            (Func.new method params flags locals).preds b = [] := by
  have here := @Func.block?_new method params locals flags b
  split at here
  · rw [phis_of_block? here, body_of_block? here, handlersOf_of_block? here, terminator_of_block? here,
      succs_of_block? here, preds_of_block? here]
    exact ⟨rfl, rfl, rfl, rfl, rfl, rfl⟩
  · exact parts_of_isNone here

lemma Func.linked_new : Linked (fun _ => False) (Func.new method params flags locals) where
  wired b _ := by
    obtain ⟨-, -, handlers, terminator, succs, -⟩ := @parts_new method params locals flags b
    rw [edgesOf_eq, handlers, terminator, succs]
    rfl
  linked t _ s kind := by
    obtain ⟨-, -, -, -, -, preds⟩ := @parts_new method params locals flags t
    obtain ⟨-, -, -, -, succs, -⟩ := @parts_new method params locals flags s
    rw [preds, succs]
    rfl
  ends b e mem := by
    obtain ⟨-, -, -, terminator, -⟩ := @parts_new method params locals flags b
    rw [terminator] at mem
    cases mem
  exit := rfl
  covered b k mem := by
    obtain ⟨-, -, handlers, -⟩ := @parts_new method params locals flags b
    rw [handlers] at mem
    cases mem
  caught c mem := by cases mem

lemma Func.filed_new : Filed (Func.new method params flags locals) := by
  have none (b v) : v ∉ (Func.new method params flags locals).nodesOf b := by
    obtain ⟨phis, body, -⟩ := @parts_new method params locals flags b
    rw [nodesOf, phis, body]
    exact List.not_mem_nil
  refine ⟨⟨fun b v mem => absurd mem (none b v), fun b v mem => ?_, fun b v mem => ?_, fun b => ?_⟩, ?_⟩
  · exact absurd (List.mem_append_left _ mem) (none b v)
  · exact absurd (List.mem_append_right _ mem) (none b v)
  · rw [List.eq_nil_iff_forall_not_mem.2 (none b)]
    exact List.nodup_nil
  · rintro v n ⟨⟩

end Start

/-- The edges of one kind from a block to another are dangling: the other block is gone, and a handler that
covers the first one leads there. -/
def Func.Dangles (f : Func) (s t : BlockId) (kind : EdgeKind) : Prop :=
  f.block? t = none ∧ kind = .raise ∧
    ∃ h ∈ f.handlersOf s, ∃ c, f.handlers[h]? = some c ∧ c.target = t

/-- Edges are known at both ends as often as they are there, unless they are dangling. -/
lemma Func.Linked.count_eq_iff (h : Linked (fun _ => False) f) (s t : BlockId) (kind : EdgeKind) :
    (f.preds t).count (s, kind) = (f.succs s).count (t, kind) ↔ ¬f.Dangles s t kind := by
  cases there : f.block? t with
  | some x =>
    refine iff_of_true (h.linked t (by rw [there]; rfl) s kind) fun dangles => ?_
    rw [dangles.1] at there
    cases there
  | none =>
    rw [(parts_of_isNone there).2.2.2.2.2, List.count_nil, eq_comm, List.count_eq_zero]
    refine not_congr ⟨fun edge => ?_, ?_⟩
    · obtain live | ⟨raise, k, covers, c, found, same⟩ := h.target_of_mem id edge
      · rw [there] at live
        cases live
      · exact ⟨there, raise, k, covers, c, found, same⟩
    · rintro ⟨-, rfl, k, covers, c, found, rfl⟩
      rw [h.wired s id, edgesOf_eq, mem_edgesFrom]
      exact .inr (.inr ⟨k, covers, c, found, rfl⟩)

/-- Whatever changes make of a new graph, the edges that leave a block are those that it calls for; edges are
known at both ends as often as they are there, unless they are dangling; and every node is listed once, in
the block that it names, among the phis if it is one and among the other nodes if it is not. -/
theorem consistent_of_build (cs : List Change) (method : MethodId) (params : Nat) (flags : MethodFlags)
    (locals : Nat) (f : Func) (built : build? cs (.new method params flags locals) = some f) :
    (∀ b, (f.block? b).isSome → f.succs b = f.edgesOf b) ∧
      (∀ s t kind, (f.preds t).count (s, kind) = (f.succs s).count (t, kind) ↔ ¬f.Dangles s t kind) ∧
      ∀ v n, f.node? v = some n → ∀ b,
        (f.phis b).count v = (if b = n.block ∧ n.kind.isPhi = true then 1 else 0) ∧
          (f.body b).count v = if b = n.block ∧ n.kind.isPhi = false then 1 else 0 := by
  obtain ⟨linked, filed⟩ := build?_keeps Func.linked_new Func.filed_new built
  exact ⟨fun b _ => linked.wired b id, linked.count_eq_iff, fun v n found => filed.counts found⟩

/-- Changes of every kind: a switch that leads to one block by several edges, a block that leads to itself
and handles its own exceptions, and splits of both. -/
def Change.everyKind : List Change :=
  [.addBlock, .addBlock, .setTerminator 0 (.goto 2), .appendNode 2 .caught,
    .insertNode 2 0 (.copy (.reg 1 0)), .appendNode 3 (.phi [⟨.reg 1 0, 2, .switchCase 0⟩]),
    .setTerminator 2 (.switch (.node 0) 3 [3, 1, 3]), .setTerminator 3 (.goto 3), .addHandler ⟨3, 0, 0⟩,
    .setHandlers 3 [0], .splitEdge 2 3 (.switchCase 2), .splitBlock 3 0, .splitBlock 2 1, .moveNode 1 5 0,
    .removeNode 0, .addBlock, .setTerminator 7 (.goto 3), .removeBlock 7]

/-- There is a graph behind changes of every kind, and it is consistent. -/
theorem consistent_of_build_everyKind : ∃ f, build? Change.everyKind (.new 0 1 {} 2) = some f ∧
    (∀ b, (f.block? b).isSome → f.succs b = f.edgesOf b) ∧
      (∀ s t kind, (f.preds t).count (s, kind) = (f.succs s).count (t, kind) ↔ ¬f.Dangles s t kind) ∧
      ∀ v n, f.node? v = some n → ∀ b,
        (f.phis b).count v = (if b = n.block ∧ n.kind.isPhi = true then 1 else 0) ∧
          (f.body b).count v = if b = n.block ∧ n.kind.isPhi = false then 1 else 0 := by
  have there : (build? Change.everyKind (.new 0 1 {} 2)).isSome := by decide +kernel
  obtain ⟨f, built⟩ := Option.isSome_iff_exists.1 there
  exact ⟨f, built, consistent_of_build Change.everyKind 0 1 {} 2 f built⟩

/-- A block that handles exceptions is removed, and then its handler covers the entry. -/
def Change.orphaned : List Change :=
  [.addBlock, .addHandler ⟨2, 0, 0⟩, .removeBlock 2, .setHandlers 0 [0]]

/-- The entry has an edge to the gap, which does not know of it. -/
theorem not_linked_orphaned : ¬∀ cs method params flags locals f,
    build? cs (.new method params flags locals) = some f →
      ∀ s t kind, (f.preds t).count (s, kind) = (f.succs s).count (t, kind) := by
  intro all
  have ends : (build? Change.orphaned (.new 0 0 {} 1)).map (fun f =>
      ((f.preds 2).count (0, .raise), (f.succs 0).count (2, .raise))) = some (0, 1) := by decide +kernel
  obtain ⟨f, built, counts⟩ := Option.map_eq_some_iff.1 ends
  obtain ⟨entered, left⟩ := Prod.mk.inj counts
  have same := all Change.orphaned 0 0 {} 1 f built 0 2 .raise
  rw [entered, left] at same
  cases same

end Avm.Ir
