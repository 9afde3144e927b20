import Avm.Proofs.Ir.Consistency

/-!
# What a failed edit leaves behind

An edit that checks everything before it changes anything leaves the graph alone if it fails.  Three do not check
everything first.  Moving a node takes it out of its block before the other block is looked for, and both ways to split
add a block before it is known that the ends can be led anew.

The main statement is `Change.unclean_iff`.
-/

namespace Avm.Ir

namespace Edit

variable {α β : Type} {f f' : Func} {x : Edit α} {g : α → Edit β} {b : BlockId} {e : Fault}

/-- If the edit fails, the graph is as it was. -/
def Clean (x : Edit α) : Prop := ∀ f e f', x.run f = .error e f' → f' = f

lemma clean_of_ne_error (h : ∀ f e f', x.run f ≠ .error e f') : x.Clean := fun f e f' run => absurd run (h f e f')

lemma clean_throw : (throw e : Edit α).Clean := fun _ _ _ run => (EStateM.Result.error.inj run).2.symm

lemma clean_throw_bind {g : β → Edit α} : (throw e >>= g).Clean := by
  intro f e f' run
  obtain failed | ⟨_, _, none, -⟩ := bind_eq_error.1 run
  · exact clean_throw f e f' failed
  · exact absurd none throw_ne_ok

lemma clean_get {g : Func → Edit β} (next : ∀ f e f', (g f).run f = .error e f' → f' = f) : (get >>= g).Clean := next

lemma clean_block (b : BlockId) : (block b).Clean := fun _ _ _ => block_eq_error

lemma Clean.bind (first : x.Clean) (looks : ∀ f a f', x.run f = .ok a f' → f' = f) (next : ∀ a, (g a).Clean) :
    (x >>= g).Clean := by
  intro f e f' run
  obtain failed | ⟨a, f₁, looked, failed⟩ := bind_eq_error.1 run
  · exact first f e f' failed
  · exact (next a f₁ e f' failed).trans (looks f a f₁ looked)

lemma Clean.bind_of_ne_error (first : x.Clean) (next : ∀ a f e f', (g a).run f ≠ .error e f') : (x >>= g).Clean := by
  intro f e f' run
  obtain failed | ⟨a, f₁, -, failed⟩ := bind_eq_error.1 run
  · exact first f e f' failed
  · exact absurd failed (next a f₁ e f')

lemma Clean.block_bind {g : Block → Edit β} (next : ∀ x, (g x).Clean) : (block b >>= g).Clean :=
  (clean_block b).bind (fun _ _ _ run => (block_eq_ok.1 run).2) next

lemma clean_modifyBlock (b : BlockId) (u : Block → Block) : (modifyBlock b u).Clean :=
  (clean_block b).bind_of_ne_error fun _ _ _ _ => modify_ne_error

lemma clean_setTerminator (b : BlockId) (t : Terminator) : (setTerminator b t).Clean :=
  fun _ _ _ => setTerminator_eq_error

lemma clean_setHandlers (b : BlockId) (hs : List Nat) : (setHandlers b hs).Clean := by
  refine clean_get fun f e f' run => ?_
  split at run
  · exact clean_throw f e f' run
  · exact (clean_modifyBlock b _).bind_of_ne_error (fun _ _ _ _ => modify_ne_error) f e f' run

lemma clean_update {u : Func → Func} {r : Func → α} : (do let f ← get; set (u f); return r f : Edit α).Clean := by
  intro f e f' run
  change EStateM.Result.ok (r f) (u f) = _ at run
  cases run

lemma clean_insertNode (b : BlockId) (index : Nat) (kind : NodeKind) : (insertNode b index kind).Clean := by
  refine Clean.block_bind fun x => ?_
  by_cases outside : (if kind.isPhi then x.phis else x.body).length < index
  · rw [if_pos outside]
    exact clean_throw_bind
  · rw [if_neg outside]
    exact @clean_update ValueId (fun f => f.putNode b index kind) fun f => f.nodes.size

lemma clean_appendNode (b : BlockId) (kind : NodeKind) : (appendNode b kind).Clean :=
  Clean.block_bind fun _ => clean_insertNode b _ kind

lemma clean_removeBlock (b : BlockId) : (removeBlock b).Clean := by
  rw [removeBlock]
  split
  · exact clean_throw_bind
  · exact Clean.block_bind fun _ => clean_of_ne_error fun _ _ _ => modify_ne_error

/-- What an edit of a graph comes to, and the graph that it leaves behind if it fails. -/
def Leaves (x : Edit α) (f : Func) (post : α → Func → Prop) (broken : Func → Prop) : Prop :=
  match x.run f with
  | .ok a f' => post a f'
  | .error _ f' => broken f'

variable {P : α → Func → Prop} {Q : β → Func → Prop} {broken : Func → Prop}

lemma Leaves.of_run {y : Edit α} (h : y.Leaves f' P broken) (same : x.run f = y.run f') : x.Leaves f P broken := by
  rw [Leaves, same]
  exact h

lemma leaves_pure {a : α} (h : P a f) : (pure a : Edit α).Leaves f P broken := h

lemma leaves_throw (h : broken f) : (throw e : Edit α).Leaves f P broken := h

lemma leaves_throw_bind {g : α → Edit β} (h : broken f) : (throw e >>= g).Leaves f Q broken := h

lemma leaves_bind {a : α} (first : x.run f = .ok a f') (next : (g a).Leaves f' Q broken) :
    (x >>= g).Leaves f Q broken := by
  change (match EStateM.bind x g f with | .ok b f' => Q b f' | .error _ f' => broken f')
  rw [EStateM.bind, show x f = .ok a f' from first]
  exact next

lemma leaves_modify {u : Func → Func} {g : PUnit → Edit β} (next : (g ⟨⟩).Leaves (u f) Q broken) :
    (modify u >>= g).Leaves f Q broken := next

lemma leaves_block {y : Block} {g : Block → Edit β} (here : f.block? b = some y) (next : (g y).Leaves f Q broken) :
    (block b >>= g).Leaves f Q broken :=
  leaves_bind (block_eq_ok.2 ⟨here, rfl⟩) next

lemma leaves_modifyBlock {u : Block → Block} {g : Unit → Edit β} (live : (f.block? b).isSome)
    (next : (g ()).Leaves (f.modifyBlock b u) Q broken) : (modifyBlock b u >>= g).Leaves f Q broken :=
  leaves_bind (modifyBlock_eq_ok.2 ⟨live, rfl⟩) next

/-- A clean edit fails where it cannot succeed, and what comes behind does not matter then. -/
lemma Clean.leaves_bind (clean : x.Clean) (stuck : (∀ a f', x.run f ≠ .ok a f') → broken f)
    (next : ∀ a f', x.run f = .ok a f' → (g a).Leaves f' Q broken) : (x >>= g).Leaves f Q broken := by
  cases run : x.run f with
  | ok a f₁ => exact Edit.leaves_bind run (next a f₁ run)
  | error e f₁ =>
    have failed : (x >>= g).run f = .error e f₁ := bind_eq_error.2 (.inl run)
    rw [Leaves, failed, clean f e f₁ run]
    exact stuck fun a f' done => by rw [run] at done; cases done

lemma Leaves.of_ok {a : α} (h : x.Leaves f P broken) (run : x.run f = .ok a f') : P a f' := by
  rw [Leaves, run] at h
  exact h

lemma Leaves.of_error (h : x.Leaves f P broken) (run : x.run f = .error e f') : broken f' := by
  rw [Leaves, run] at h
  exact h

lemma Clean.leaves (clean : x.Clean) (ok : ∀ a f', x.run f = .ok a f' → P a f') (same : broken f) :
    x.Leaves f P broken := by
  rw [Leaves]
  cases run : x.run f with
  | ok a f' => exact ok a f' run
  | error e f' =>
    rw [clean f e f' run]
    exact same

lemma Leaves.discard {P' : Unit → Func → Prop} (h : x.Leaves f P broken) (imp : ∀ a f', P a f' → P' () f') :
    (do let _ ← x : Edit Unit).Leaves f P' broken := by
  rw [Leaves] at h
  cases run : x.run f with
  | ok a f' =>
    rw [run] at h
    exact leaves_bind run (imp a f' h)
  | error e f' =>
    have failed : (do let _ ← x : Edit Unit).run f = .error e f' := bind_eq_error.2 (.inl run)
    rw [run] at h
    rw [Leaves, failed]
    exact h

-- A run is never to be computed when an edit is looked at.
attribute [irreducible] Leaves

end Edit

namespace Func

variable {f : Func}

/-- The handlers exist, and the edges lead to blocks that exist or to the next new one. -/
def Offers (f : Func) (hs : List Nat) (es : List (BlockId × EdgeKind)) : Prop :=
  (∀ k ∈ hs, k < f.handlers.length) ∧ ∀ e ∈ es, ((f.pushBlock {}).block? e.1).isSome

section Sizes

variable {source target b : BlockId} {kind : EdgeKind} {index depth depth' : Nat}

lemma size_withBlock : (f.withBlock depth).blocks.size = f.blocks.size + 1 := by
  rw [withBlock, size_modifyBlock, size_pushBlock]

lemma size_preparedEdge : (f.preparedEdge source target kind depth).blocks.size = f.blocks.size + 1 := by
  rw [preparedEdge, blocks_modifyPhis, size_beside]

lemma size_enteredEdge : (f.enteredEdge source target kind depth).blocks.size = f.blocks.size + 1 := by
  rw [enteredEdge, sameNodes_reend.size, size_preparedEdge]

lemma size_preparedCut : (f.preparedCut b index depth depth').blocks.size = f.blocks.size + 1 := by
  rw [preparedCut, sameNodes_handPhis.size, sameFlow_cutBody.size, size_beside]

end Sizes

/-- The depth of the scope stack in a block before the nodes from a place on. -/
def headDepth (f : Func) (b : BlockId) (index : Nat) : Nat :=
  ((f.scopeDepth b : Int) -
    Edit.scopeChanges (f.beside b (f.scopeDepth b)) ((f.body b).drop index)).toNat

end Func

/-- The change passes the checks that come first, and cannot be finished: a node is to be moved to a block that does
not exist, or a block is to be made whose handlers or targets do not. -/
def Change.Halts (f : Func) : Change → Prop
  | .moveNode v b _ => ∃ n, f.node? v = some n ∧ n.kind.isPhi = false ∧ v ∈ f.body n.block ∧ f.block? b = none
  | .splitEdge source target kind => (target, kind) ∈ f.succs source ∧ kind ≠ .raise ∧
      ¬f.Offers (f.handlersOf source)
        ((target, .fallthrough) :: (f.retargeted source kind f.blocks.size).targets)
  | .splitBlock b index => (f.block? b).isSome ∧ index ≤ (f.body b).length ∧
      ¬f.Offers (f.handlersOf b) (f.terminator b).targets
  | _ => False

/-- The graphs that a change which cannot be finished may leave behind. -/
def Change.ruins (f : Func) : Change → List Func
  | .moveNode v _ _ => (f.node? v).toList.map fun n =>
      f.modifyBlock n.block fun s => { s with body := s.body.filter (· != v) }
  | .splitEdge source target kind => [f.withBlock (f.scopeDepth source),
      f.preparedEdge source target kind (f.scopeDepth source), f.enteredEdge source target kind (f.scopeDepth source)]
  | .splitBlock b index => [f.withBlock (f.scopeDepth b), (f.preparedCut b index (f.scopeDepth b)
      (f.headDepth b index)).withEnd b .none (f.handlersOf b)]
  | _ => []

/-- The graph is as it was, or it is what the change could not finish. -/
def Change.Broken (c : Change) (f f' : Func) : Prop := f' = f ∧ ¬c.Halts f ∨ f' ∈ c.ruins f ∧ c.Halts f

namespace Edit

open Func (beside withBlock preparedEdge enteredEdge onEdge preparedCut enteredCut cut)

variable {f f' : Func} {b source target : BlockId} {v : ValueId} {kind : EdgeKind} {index : Nat} {e : Fault}

lemma modifyBlock_id : (f.modifyBlock b fun x => x) = f := by
  have same : f.blocks.modify b (Option.map fun x => x) = f.blocks := by
    refine Array.ext_getElem? fun i => ?_
    rw [Array.getElem?_modify]
    simp
  rw [Func.modifyBlock, same]

lemma modifyBlock_filter_of_notMem (absent : v ∉ f.body b) :
    (f.modifyBlock b fun s => { s with body := s.body.filter (· != v) }) = f := by
  refine (Func.modifyBlock_congr fun y there => ?_).trans modifyBlock_id
  rw [Func.body_of_block? there] at absent
  have all : y.body.filter (· != v) = y.body :=
    List.filter_eq_self.2 fun w mem => bne_iff_ne.2 fun same => absent (same ▸ mem)
  rw [all]

/-- A node is moved or left where it is, unless the block that it is to be moved to does not exist. -/
lemma leaves_moveNode : (moveNode v b index).Leaves f (fun _ _ => ¬Change.Halts f (.moveNode v b index))
    ((Change.moveNode v b index).Broken f) := by
  have kept (never : ¬Change.Halts f (.moveNode v b index)) : (Change.moveNode v b index).Broken f f :=
    .inl ⟨rfl, never⟩
  rw [moveNode]
  refine leaves_bind (get_eq_ok.2 ⟨rfl, rfl⟩) ?_
  cases found : f.node? v with
  | none =>
    refine leaves_throw (kept ?_)
    rintro ⟨n, known, -⟩
    rw [found] at known
    cases known
  | some n =>
    have halts : Change.Halts f (.moveNode v b index) ↔
        n.kind.isPhi = false ∧ v ∈ f.body n.block ∧ f.block? b = none := by
      simp only [Change.Halts, found, Option.some.injEq, ↓existsAndEq, true_and]
    dsimp only
    split
    · rename_i phi
      refine leaves_throw_bind (kept fun h => ?_)
      rw [halts, phi] at h
      cases h.1
    rename_i plain
    rw [Bool.not_eq_true] at plain
    refine (clean_modifyBlock _ _).leaves_bind (fun fails => kept fun h => ?_) fun _ f₁ run => ?_
    · have live := Func.isSome_of_mem_nodesOf (List.mem_append_right _ (halts.1 h).2.1)
      exact fails () _ (modifyBlock_eq_ok.2 ⟨live, rfl⟩)
    obtain ⟨live, rfl⟩ := modifyBlock_eq_ok.1 run
    refine (clean_modifyBlock _ _).leaves_bind (fun fails => ?_) fun _ f₂ run => ?_
    · have gone : f.block? b = none := by
        by_contra there
        refine fails () _ (modifyBlock_eq_ok.2 ⟨?_, rfl⟩)
        rw [Func.isSome_block?_modifyBlock]
        exact Option.isSome_iff_ne_none.2 there
      by_cases mem : v ∈ f.body n.block
      · refine .inr ⟨?_, halts.2 ⟨plain, mem, gone⟩⟩
        rw [Change.ruins, found]
        exact List.mem_singleton.2 rfl
      · exact .inl ⟨modifyBlock_filter_of_notMem mem, fun h => mem (halts.1 h).2.1⟩
    · rw [halts]
      obtain ⟨there, rfl⟩ := modifyBlock_eq_ok.1 run
      rw [Func.isSome_block?_modifyBlock] at there
      refine leaves_modify (leaves_pure fun h => ?_)
      rw [h.2.2] at there
      cases there

lemma leaves_setHandlers {β : Type} {g : Unit → Edit β} {Q : β → Func → Prop} {broken : Func → Prop}
    (depth : Nat) (stuck : ¬(∀ k ∈ f.handlersOf source, k < f.handlers.length) → broken (f.withBlock depth))
    (next : (∀ k ∈ f.handlersOf source, k < f.handlers.length) → (g ()).Leaves (f.beside source depth) Q broken) :
    (setHandlers f.blocks.size (f.handlersOf source) >>= g).Leaves (f.withBlock depth) Q broken := by
  refine (clean_setHandlers _ _).leaves_bind (fun fails => stuck fun covered => ?_) fun _ f' run => ?_
  · exact fails _ _ (setHandlers_withBlock covered depth)
  · have covered := (setHandlers_eq_ok.1 run).1
    rw [setHandlers_withBlock covered depth] at run
    cases run
    exact next covered

lemma leaves_setTerminator {β : Type} {g : Unit → Edit β} {Q : β → Func → Prop} {broken : Func → Prop}
    {t : Terminator} (live : (f.block? b).isSome) (stuck : ¬(∀ e ∈ t.targets, (f.block? e.1).isSome) → broken f)
    (next : (∀ e ∈ t.targets, (f.block? e.1).isSome) → (g ()).Leaves (f.reend b t (f.handlersOf b)) Q broken) :
    (setTerminator b t >>= g).Leaves f Q broken := by
  refine (clean_setTerminator _ _).leaves_bind (fun fails => stuck fun ends => ?_) fun _ f' run => ?_
  · exact fails () _ (setTerminator_eq_ok.2 ⟨ends, live, rfl⟩)
  · obtain ⟨ends, -, rfl⟩ := setTerminator_eq_ok.1 run
    exact next ends

/-- An edge is split in full or not at all, unless its source or the new block cannot be led on. -/
lemma leaves_splitEdge : (splitEdge source target kind).Leaves f
    (fun m f' => (m = f.blocks.size ∧ f' = f.onEdge source target kind (f.scopeDepth source)) ∧
      ¬Change.Halts f (.splitEdge source target kind))
    ((Change.splitEdge source target kind).Broken f) := by
  rw [splitEdge]
  refine leaves_bind (get_eq_ok.2 ⟨rfl, rfl⟩) ?_
  split
  · rename_i refused
    refine leaves_throw_bind (.inl ⟨rfl, ?_⟩)
    rintro ⟨edge, normal, -⟩
    simp [edge, normal] at refused
  rename_i allowed
  obtain ⟨edge, normal⟩ : (target, kind) ∈ f.succs source ∧ kind ≠ .raise := by
    simpa using allowed
  -- From here on there is a new block, whatever comes.
  have halts {f' : Func} (mem : f' ∈ (Change.splitEdge source target kind).ruins f)
      (lost : ¬f.Offers (f.handlersOf source)
        ((target, .fallthrough) :: (f.retargeted source kind f.blocks.size).targets)) :
      (Change.splitEdge source target kind).Broken f f' := .inr ⟨mem, edge, normal, lost⟩
  obtain ⟨x, here⟩ := Option.isSome_iff_exists.1 (Func.isSome_of_mem_succs edge)
  have other : source ≠ f.blocks.size := Func.size_ne_of_isSome (by rw [here]; rfl)
  have there : (f.pushBlock {}).block? source = some x := by rw [Func.block?_pushBlock, if_neg other, here]
  have added : ((f.pushBlock {}).block? f.blocks.size).isSome := by
    rw [Func.isSome_pushBlock, decide_eq_true rfl, Bool.true_or]
  have covers : x.handlers = f.handlersOf source := (Func.handlersOf_of_block? here).symm
  have depth : x.scopeDepth = f.scopeDepth source := by rw [Func.scopeDepth, here]; rfl
  refine leaves_bind (addBlock_eq_ok.2 ⟨rfl, rfl⟩) ?_
  refine leaves_block there ?_
  refine leaves_modifyBlock added ?_
  rw [covers, depth]
  refine leaves_setHandlers _ (fun lost => halts List.mem_cons_self fun h => lost h.1) fun covered => ?_
  refine leaves_modify ?_
  rw [Func.phis_beside]
  have live₃ {t : BlockId} : ((f.preparedEdge source target kind (f.scopeDepth source)).block? t).isSome =
      ((f.pushBlock {}).block? t).isSome := by
    rw [Func.isSome_preparedEdge, Func.isSome_pushBlock]
  change (do
    setTerminator f.blocks.size (.goto target)
    let from_ ← block source
    setTerminator source ((from_.terminator.retarget? kind f.blocks.size).getD from_.terminator)
    return f.blocks.size : Edit BlockId).Leaves (f.preparedEdge source target kind (f.scopeDepth source)) _ _
  refine leaves_setTerminator (by rw [live₃, added])
    (fun lost => halts (by simp [Change.ruins]) fun h => lost fun e mem => ?_) fun led => ?_
  · rw [live₃]
    exact h.2 e (List.mem_cons.2 (.inl (List.mem_singleton.1 mem)))
  rw [Func.handlersOf_preparedEdge, if_pos rfl]
  change Leaves _ (f.enteredEdge source target kind (f.scopeDepth source)) _ _
  have live₄ {t : BlockId} : ((f.enteredEdge source target kind (f.scopeDepth source)).block? t).isSome =
      ((f.pushBlock {}).block? t).isSome := by
    rw [Func.isSome_enteredEdge, Func.isSome_pushBlock]
  obtain ⟨y, found⟩ := Option.isSome_iff_exists.1 (show ((f.enteredEdge source target kind (f.scopeDepth source)).block?
    source).isSome by rw [live₄, there]; rfl)
  have last : y.terminator = f.terminator source := by
    rw [← Func.terminator_of_block? found]
    exact (Func.ends_enteredEdge other).1
  refine leaves_block found ?_
  rw [last]
  refine leaves_setTerminator (by rw [found]; rfl)
    (fun lost => halts (by simp [Change.ruins]) fun h => lost fun e mem => ?_) fun ends => ?_
  · rw [live₄]
    exact h.2 e (List.mem_cons_of_mem _ mem)
  · rw [(Func.ends_enteredEdge other).2]
    refine leaves_pure ⟨⟨rfl, rfl⟩, fun h => h.2.2 ⟨covered, fun e mem => ?_⟩⟩
    obtain rfl | mem := List.mem_cons.1 mem
    · rw [← live₃]
      exact led _ (List.mem_singleton.2 rfl)
    · rw [← live₄]
      exact ends e mem

/-- A block is split in full or not at all, unless the new block cannot be led on. -/
lemma leaves_splitBlock : (splitBlock b index).Leaves f
    (fun m f' => (m = f.blocks.size ∧ f' = f.cut b index (f.scopeDepth b) (f.headDepth b index)) ∧
      ¬Change.Halts f (.splitBlock b index))
    ((Change.splitBlock b index).Broken f) := by
  rw [splitBlock]
  refine (clean_block b).leaves_bind (fun fails => ?_) fun x f' run => ?_
  · refine .inl ⟨rfl, ?_⟩
    rintro ⟨live, -⟩
    obtain ⟨x, here⟩ := Option.isSome_iff_exists.1 live
    exact absurd (block_eq_ok.2 ⟨here, rfl⟩) (fails x f)
  obtain ⟨here, rfl⟩ := block_eq_ok.1 run
  have live : (f'.block? b).isSome := by rw [here]; rfl
  have body : x.body = f'.body b := (Func.body_of_block? here).symm
  split
  · rename_i outside
    refine leaves_throw_bind (.inl ⟨rfl, ?_⟩)
    rintro ⟨-, inside, -⟩
    rw [body] at outside
    omega
  rename_i inside
  rw [body, Nat.not_lt] at inside
  -- From here on there is a new block, whatever comes.
  have halts {f₁ : Func} (mem : f₁ ∈ (Change.splitBlock b index).ruins f')
      (lost : ¬f'.Offers (f'.handlersOf b) (f'.terminator b).targets) :
      (Change.splitBlock b index).Broken f' f₁ := .inr ⟨mem, live, inside, lost⟩
  have other : b ≠ f'.blocks.size := Func.size_ne_of_isSome live
  have added : ((f'.pushBlock {}).block? f'.blocks.size).isSome := by
    rw [Func.isSome_pushBlock, decide_eq_true rfl, Bool.true_or]
  have covers : x.handlers = f'.handlersOf b := (Func.handlersOf_of_block? here).symm
  have leads : x.succs = f'.succs b := (Func.succs_of_block? here).symm
  have depth : x.scopeDepth = f'.scopeDepth b := by rw [Func.scopeDepth, here]; rfl
  refine leaves_bind (addBlock_eq_ok.2 ⟨rfl, rfl⟩) ?_
  refine leaves_modifyBlock added ?_
  rw [covers, body, leads, depth]
  refine leaves_setHandlers _ (fun lost => halts List.mem_cons_self fun h => lost h.1) fun covered => ?_
  have deep : f'.headDepth b index = ((f'.scopeDepth b : Int) -
      scopeChanges (f'.beside b (f'.scopeDepth b)) ((f'.body b).drop index)).toNat := rfl
  refine Leaves.of_run (y := do
    setTerminator f'.blocks.size (f'.terminator b)
    setTerminator b (.goto f'.blocks.size)
    return f'.blocks.size) ?_ (run_prepareCut live fun t => do
      setTerminator f'.blocks.size t
      setTerminator b (.goto f'.blocks.size)
      return f'.blocks.size)
  rw [← deep]
  let f₂ := (f'.preparedCut b index (f'.scopeDepth b) (f'.headDepth b index)).withEnd b .none (f'.handlersOf b)
  have live₂ : ((f'.preparedCut b index (f'.scopeDepth b) (f'.headDepth b index)).block? b).isSome :=
    Func.isSome_preparedCut_self live
  have live₃ {t : BlockId} : (f₂.block? t).isSome = ((f'.pushBlock {}).block? t).isSome := by
    rw [Func.sameNodes_withEnd.isSome, Func.isSome_preparedCut, Func.isSome_pushBlock]
  have tail : f₂.handlersOf f'.blocks.size = f'.handlersOf b := by
    rw [Func.handlersOf_withEnd live₂, if_neg other.symm, Func.handlersOf_preparedCut, if_pos rfl]
  refine leaves_setTerminator (f := f₂) (by rw [live₃, added])
    (fun lost => halts (by simp [Change.ruins, f₂]) fun h => lost fun e mem => by rw [live₃, h.2 e mem]) fun ends => ?_
  have offers : f'.Offers (f'.handlersOf b) (f'.terminator b).targets :=
    ⟨covered, fun e mem => by rw [← live₃, ends e mem]⟩
  rw [tail]
  change Leaves _ (f'.enteredCut b index (f'.scopeDepth b) (f'.headDepth b index)) _ _
  have head : (f'.enteredCut b index (f'.scopeDepth b) (f'.headDepth b index)).handlersOf b = f'.handlersOf b := by
    rw [Func.handlersOf_enteredCut live, if_neg other]
  refine leaves_setTerminator (Func.isSome_enteredCut_self live) (fun lost => absurd (fun e mem => ?_) lost) fun _ => ?_
  · rw [List.mem_singleton.1 mem, Func.isSome_enteredCut, decide_eq_true rfl, Bool.true_or]
  · rw [head]
    exact leaves_pure ⟨⟨rfl, rfl⟩, fun h => h.2.2 offers⟩

end Edit

lemma Change.leaves (c : Change) (f : Func) : c.edit.Leaves f (fun _ _ => ¬c.Halts f) (c.Broken f) := by
  have clean {x : Edit Unit} (h : x.Clean) (never : ¬c.Halts f) : x.Leaves f (fun _ _ => ¬c.Halts f) (c.Broken f) :=
    h.leaves (fun _ _ _ => never) (.inl ⟨rfl, never⟩)
  cases c with
  | addBlock => exact (Edit.clean_update.leaves (fun _ _ _ => id) (.inl ⟨rfl, id⟩)).discard fun _ _ h => h
  | appendNode b kind =>
    exact ((Edit.clean_appendNode b kind).leaves (fun _ _ _ => id) (.inl ⟨rfl, id⟩)).discard fun _ _ h => h
  | insertNode b index kind =>
    exact ((Edit.clean_insertNode b index kind).leaves (fun _ _ _ => id) (.inl ⟨rfl, id⟩)).discard fun _ _ h => h
  | removeNode v => exact (Edit.clean_update.leaves (fun _ _ _ => id) (.inl ⟨rfl, id⟩)).discard fun _ _ h => h
  | addHandler c => exact (Edit.clean_update.leaves (fun _ _ _ => id) (.inl ⟨rfl, id⟩)).discard fun _ _ h => h
  | setHandlers b hs => exact clean (Edit.clean_setHandlers b hs) id
  | setTerminator b t => exact clean (Edit.clean_setTerminator b t) id
  | removeBlock b => exact clean (Edit.clean_removeBlock b) id
  | moveNode v b index => exact Edit.leaves_moveNode
  | splitEdge source target kind => exact Edit.leaves_splitEdge.discard fun _ _ h => h.2
  | splitBlock b index => exact Edit.leaves_splitBlock.discard fun _ _ h => h.2

lemma Change.ne_of_mem_ruins {c : Change} {f f' : Func} (mem : f' ∈ c.ruins f) (halts : c.Halts f) : f' ≠ f := by
  have larger (more : f'.blocks.size = f.blocks.size + 1) : f' ≠ f := by
    rintro rfl
    omega
  cases c with
  | moveNode v b index =>
    obtain ⟨n, found, -, listed, -⟩ := halts
    rw [ruins, found] at mem
    obtain rfl := List.mem_singleton.1 mem
    intro same
    obtain ⟨x, here⟩ := Option.isSome_iff_exists.1 (Func.isSome_of_mem_nodesOf (List.mem_append_right _ listed))
    rw [← same, Func.body, Func.block?_modifyBlock, if_pos rfl, here] at listed
    simp at listed
  | splitEdge source target kind =>
    simp only [ruins, List.mem_cons, List.not_mem_nil, or_false] at mem
    obtain rfl | rfl | rfl := mem
    · exact larger Func.size_withBlock
    · exact larger Func.size_preparedEdge
    · exact larger Func.size_enteredEdge
  | splitBlock b index =>
    simp only [ruins, List.mem_cons, List.not_mem_nil, or_false] at mem
    obtain rfl | rfl := mem
    · exact larger Func.size_withBlock
    · refine larger ?_
      rw [Func.sameNodes_withEnd.size, Func.size_preparedCut]
  | _ => exact absurd mem List.not_mem_nil

/-- A change fails and does not leave the graph as it was just where it passes its checks and cannot be finished. -/
theorem Change.unclean_iff (c : Change) (f : Func) : (∃ e f', c.edit.run f = .error e f' ∧ f' ≠ f) ↔ c.Halts f := by
  constructor
  · rintro ⟨e, f', failed, changed⟩
    obtain ⟨same, -⟩ | ⟨-, halts⟩ := (c.leaves f).of_error failed
    · exact absurd same changed
    · exact halts
  · intro halts
    cases run : c.edit.run f with
    | ok a f' => exact absurd halts ((c.leaves f).of_ok run)
    | error e f' =>
      obtain ⟨-, not⟩ | ⟨mem, -⟩ := (c.leaves f).of_error run
      · exact absurd halts not
      · exact ⟨e, f', rfl, Change.ne_of_mem_ruins mem halts⟩

/-- A node moved to a block that does not exist is taken out of its own block all the same. -/
theorem Change.not_clean_moveNode : ¬∀ (c : Change) (f : Func) (e : Fault) (f' : Func),
    c.edit.run f = .error e f' → f' = f := by
  intro clean
  let f : Func := { Func.new 0 0 {} 1 with
    blocks := #[some { body := [0] }, some {}], nodes := #[some ⟨.store 0 (.const .null), 0⟩] }
  have same : f.modifyBlock 0 (fun s => { s with body := [] }) = f :=
    clean (.moveNode 0 2 0) f (.graph (.noBlock 2)) _ rfl
  exact absurd (congrArg (Func.body · 0) same) (by decide)

end Avm.Ir
