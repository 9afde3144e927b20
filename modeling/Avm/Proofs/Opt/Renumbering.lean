import Avm.Proofs.Ir.Padding
import Avm.Proofs.Lift.Ranging
import Avm.Proofs.Opt.Ranking

/-!
# The registers of expanded callees

A callee that is expanded gets registers behind those of its caller, one for each that it has.  Its nodes are copied
with their own registers first, and then renumbered, each node once.  What is done before and behind neither knows nor
changes which registers that are.  So each copy names the registers of its original, counted from the first new one on.

The main statement is `expands_of_expand`.
-/

namespace Avm.Ir

/-- An operand in the place of another one.  If that is no node it stays, with its register counted
from a first one on. -/
def Value.Moved (base : Nat) (x x' : Value) : Prop := x.node? = none → x' = x.mapRegister (· + base)

/-- A node in the place of another one, with its registers counted from a first one on. -/
structure NodeKind.Moved (base : Nat) (k k' : NodeKind) : Prop where
  written : k'.written = k.written.map (· + base)
  isPhi : k'.isPhi = k.isPhi
  /-- A node has its operands moved, one by one; a phi may lose some of its inputs and have others more than once. -/
  operands : k.isPhi = false → List.Forall₂ (Value.Moved base) k.operands k'.operands
  inputs : k.isPhi = true → ∀ x' ∈ k'.operands, ∃ x ∈ k.operands, x.Moved base x'

section Moved

variable {base : Nat} {x x' y : Value} {k k' : NodeKind} {u : ValueId}

/-- A value in place of a node is in place of none of the operands that are no nodes. -/
lemma Value.Moved.replaceNode (h : x.Moved base x') : x.Moved base (Value.replaceNode u y x') := by
  intro plain
  have same := h plain
  subst same
  cases x with
  | node v => cases plain
  | const | reg => rfl

lemma NodeKind.isPhi_mapOperands {g : Value → Value} : (k.mapOperands g).isPhi = k.isPhi := by
  cases k <;> rfl

lemma NodeKind.Moved.replaceNode (h : k.Moved base k') : k.Moved base (k'.mapOperands (Value.replaceNode u y)) where
  written := by rw [written_mapOperands, h.written]
  isPhi := by rw [isPhi_mapOperands, h.isPhi]
  operands plain := by
    rw [operands_mapOperands, List.forall₂_map_right_iff]
    exact (h.operands plain).imp fun _ _ moved => moved.replaceNode
  inputs phi x' mem := by
    rw [operands_mapOperands] at mem
    obtain ⟨y', there, rfl⟩ := List.mem_map.1 mem
    obtain ⟨x, listed, moved⟩ := h.inputs phi y' there
    exact ⟨x, listed, moved.replaceNode⟩

lemma NodeKind.Moved.phi {is js : List PhiInput} (h : k.Moved base (.phi is))
    (from_ : ∀ j ∈ js, ∃ i ∈ is, i.value = j.value) :
    k.Moved base (.phi js) where
  written := h.written
  isPhi := h.isPhi
  operands plain := by
    rw [← h.isPhi] at plain
    cases plain
  inputs phi x' mem := by
    obtain ⟨j, there, rfl⟩ := List.mem_map.1 mem
    obtain ⟨i, listed, same⟩ := from_ j there
    exact h.inputs phi j.value (List.mem_map.2 ⟨i, listed, same⟩)

end Moved

end Avm.Ir

namespace Avm.Opt

open Avm.Ir Avm.Ir.Func Avm.Ir.Edit

variable {V : Vocabulary} {f f' f₁ f₂ f₃ callee : Func} {p : Placement}
  {b n : BlockId} {v w : ValueId} {k k' : NodeKind}

namespace Inlining

section Copying

/-- Nodes of a callee are copied behind those that are there, each to a node of its own, other than
what is for debuggers. -/
structure Furnished (callee : Func) (vs : List ValueId) (f : Func) (values : List (ValueId × ValueId)) (f' : Func) :
    Prop where
  params : f'.params = f.params
  locals : f'.locals = f.locals
  size : f.nodes.size ≤ f'.nodes.size
  ends : ∀ b, f'.terminator b = f.terminator b
  old : ∀ w < f.nodes.size, f'.kind? w = f.kind? w
  new : ∀ w k, f.nodes.size ≤ w → f'.kind? w = some k → w ∈ values.map (·.2)
  copies : ∀ e ∈ values, f.nodes.size ≤ e.2 ∧
    ∃ k, callee.kind? e.1 = some k ∧ (∀ i, k ≠ .debug i) ∧ f'.kind? e.2 = some k
  nodup : (values.map (·.2)).Nodup
  all : ∀ v ∈ vs, ∀ k, callee.kind? v = some k → (∀ i, k ≠ .debug i) → ∃ w, (v, w) ∈ values

namespace Furnished

variable {vs vs' : List ValueId} {values more : List (ValueId × ValueId)}

lemma lt_size (h : Furnished callee vs f values f') {e : ValueId × ValueId} (mem : e ∈ values) :
    e.2 < f'.nodes.size := by
  obtain ⟨-, k, -, -, copy⟩ := h.copies e mem
  obtain ⟨node, found, -⟩ := Option.map_eq_some_iff.1 copy
  exact lt_size_of_node? (Option.isSome_iff_exists.2 ⟨node, found⟩)

lemma refl (none : ∀ v ∈ vs, ∀ k, callee.kind? v = some k → ∃ i, k = .debug i) : Furnished callee vs f [] f where
  params := rfl
  locals := rfl
  size := Nat.le_refl _
  ends _ := rfl
  old _ _ := rfl
  new w k above here := by
    obtain ⟨node, found, -⟩ := Option.map_eq_some_iff.1 here
    exact absurd (lt_size_of_node? (Option.isSome_iff_exists.2 ⟨node, found⟩)) (Nat.not_lt.2 above)
  copies := List.forall_mem_nil _
  nodup := List.nodup_nil
  all v mem k here plain := by
    obtain ⟨i, same⟩ := none v mem k here
    exact absurd same (plain i)

lemma trans (h : Furnished callee vs f values f₁) (h' : Furnished callee vs' f₁ more f₂) :
    Furnished callee (vs ++ vs') f (values ++ more) f₂ where
  params := h'.params.trans h.params
  locals := h'.locals.trans h.locals
  size := h.size.trans h'.size
  ends b := (h'.ends b).trans (h.ends b)
  old w below := (h'.old w (below.trans_le h.size)).trans (h.old w below)
  new w k above here := by
    rw [List.map_append, List.mem_append]
    by_cases old : w < f₁.nodes.size
    · exact .inl (h.new w k above (by rwa [← h'.old w old]))
    · exact .inr (h'.new w k (Nat.le_of_not_lt old) here)
  copies e mem := by
    rcases List.mem_append.1 mem with old | new
    · obtain ⟨above, k, original, plain, copy⟩ := h.copies e old
      exact ⟨above, k, original, plain, by rw [h'.old _ (h.lt_size old), copy]⟩
    · obtain ⟨above, copy⟩ := h'.copies e new
      exact ⟨h.size.trans above, copy⟩
  nodup := by
    rw [List.map_append, List.nodup_append]
    refine ⟨h.nodup, h'.nodup, ?_⟩
    rintro x old _ new rfl
    obtain ⟨e, mem, rfl⟩ := List.mem_map.1 old
    obtain ⟨e', mem', same⟩ := List.mem_map.1 new
    have above := (h'.copies e' mem').1
    rw [same] at above
    exact absurd (h.lt_size mem) (Nat.not_lt.2 above)
  all v mem k here plain := by
    rcases List.mem_append.1 mem with old | new
    · obtain ⟨w, copy⟩ := h.all v old k here plain
      exact ⟨w, List.mem_append_left _ copy⟩
    · obtain ⟨w, copy⟩ := h'.all v new k here plain
      exact ⟨w, List.mem_append_right _ copy⟩

lemma one {index : Nat} (original : callee.kind? v = some k) (plain : ∀ i, k ≠ .debug i) :
    Furnished callee [v] f [(v, f.nodes.size)] (f.putNode n index k) where
  params := rfl
  locals := rfl
  size := (ages_putNode f n index k).nodes
  ends t := terminator_modifyBlock fun x => by split <;> rfl
  old w below := by
    rw [kind?, node?_putNode, if_neg (Nat.ne_of_lt below), ← kind?]
  new w k' above here := by
    rw [kind?, node?_putNode] at here
    split at here
    · rename_i same
      rw [same]
      exact List.mem_cons_self
    · obtain ⟨node, found, -⟩ := Option.map_eq_some_iff.1 here
      exact absurd (lt_size_of_node? (Option.isSome_iff_exists.2 ⟨node, found⟩)) (Nat.not_lt.2 above)
  copies := by
    refine List.forall_mem_singleton.2 ⟨Nat.le_refl _, k, original, plain, ?_⟩
    rw [kind?, node?_putNode, if_pos rfl]
    rfl
  nodup := List.nodup_singleton _
  all := List.forall_mem_singleton.2 fun _ _ _ => ⟨_, List.mem_cons_self⟩

end Furnished

lemma furnished_copyNodes {vs : List ValueId} :
    (copyNodes callee n vs).Meets f (fun values f' => Furnished callee vs f values f') fun _ => True := by
  induction vs generalizing f with
  | nil => exact meets_pure (.refl (List.forall_mem_nil _))
  | cons v vs ih =>
    -- A node that is skipped is not there, or for debuggers.
    have skip (none : ∀ k, callee.kind? v = some k → ∃ i, k = .debug i) :
        (copyNodes callee n vs).Meets f (fun values f' => Furnished callee (v :: vs) f values f') fun _ => True :=
      ih.imp (fun _ _ more => (Furnished.refl (List.forall_mem_singleton.2 none)).trans more) fun _ _ => trivial
    rw [copyNodes]
    split
    · rename_i absent
      exact skip fun k here => by rw [absent] at here; cases here
    · rename_i i debug
      exact skip fun k here => ⟨i, Option.some.inj (here.symm.trans debug)⟩
    · rename_i k plain original
      refine Meets.bind (P := fun new f' => Furnished callee [v] f [(v, new)] f') ?_ ?_
      · refine meets_of_forall (fun new f' run => ?_) fun _ _ _ => trivial
        obtain ⟨-, rfl, rfl⟩ := appendNode_eq_ok.1 run
        exact .one original plain
      · exact fun new f₁ one => ih.bind fun values f' more => meets_pure (one.trans more)

lemma furnished_copyBodies {l : List (BlockId × BlockId)} :
    (copyBodies callee l).Meets f (fun values f' =>
      Furnished callee (l.flatMap fun e => callee.nodesOf e.1) f values f')
      fun _ => True := by
  induction l generalizing f with
  | nil => exact meets_pure (.refl (List.forall_mem_nil _))
  | cons e l ih =>
    have listing : ((callee.block? e.1).map Block.nodeIds).getD [] = callee.nodesOf e.1 := by
      rw [nodesOf, phis, body]
      cases callee.block? e.1 <;> rfl
    rw [copyBodies, listing]
    refine furnished_copyNodes.bind fun values f₁ copied => ?_
    exact ih.bind fun more f₂ rest => meets_pure (copied.trans rest)

end Copying

section Renaming

variable {values : List (ValueId × ValueId)} {vs : List ValueId}

lemma counts_renameAll (values : List (ValueId × ValueId)) (f : Func) : (renameAll p values f).params = f.params ∧
    (renameAll p values f).locals = f.locals ∧ (renameAll p values f).nodes.size = f.nodes.size := by
  induction values generalizing f with
  | nil => exact ⟨rfl, rfl, rfl⟩
  | cons e values ih =>
    obtain ⟨params, locals, size⟩ := ih (f.modifyKind e.2 p.kind)
    exact ⟨params, locals, size.trans size_nodes_modifyNode⟩

lemma kind?_renameAll (nodup : (values.map (·.2)).Nodup) : (renameAll p values f).kind? w =
    if w ∈ values.map (·.2) then (f.kind? w).map p.kind else f.kind? w := by
  rw [kind?, node?_renameAll nodup]
  split
  · rw [kind?, Option.map_map, Option.map_map]
    rfl
  · rfl

lemma Furnished.kind?_renameAll (h : Furnished callee vs f values f') {e : ValueId × ValueId} (mem : e ∈ values)
    (original : callee.kind? e.1 = some k) : (renameAll p values f').kind? e.2 = some (p.kind k) := by
  obtain ⟨-, k', original', -, copy⟩ := h.copies e mem
  obtain rfl := Option.some.inj (original.symm.trans original')
  rw [Inlining.kind?_renameAll h.nodup, if_pos (List.mem_map_of_mem mem), copy]
  rfl

lemma Furnished.speaks_renameAll (h : Furnished callee vs f values f') (speaks : f.Speaks V)
    (new : ∀ v k, callee.kind? v = some k → (∀ i, k ≠ .debug i) → V.Admits (p.kind k)) :
    (renameAll p values f').Speaks V := by
  obtain ⟨params, locals, size⟩ := counts_renameAll (p := p) values f'
  refine speaks.of_nodes (params.trans h.params) (locals.trans h.locals) (h.size.trans size.ge) (fun w k here =>
    ?_) fun b => ?_
  · rw [Inlining.kind?_renameAll h.nodup] at here
    split at here
    · rename_i copied
      obtain ⟨e, mem, rfl⟩ := List.mem_map.1 copied
      obtain ⟨above, k₀, original, plain, copy⟩ := h.copies e mem
      rw [copy] at here
      rw [← Option.some.inj here]
      exact new e.1 k₀ original plain e.2 (speaks.known.trans above)
    · rename_i absent
      refine speaks.kinds w k ?_
      rw [← h.old w ?_, here]
      by_contra above
      exact absent (h.new w k (Nat.le_of_not_lt above) here)
  · rw [terminator, block?_congr (blocks_renameAll values f').1, ← terminator, h.ends]

end Renaming

section Linking

lemma sources_addBlocks {bs : List BlockId} : (addBlocks bs).Meets f (fun ps _ => ps.map (·.1) = bs) fun _ => True := by
  induction bs generalizing f with
  | nil => exact meets_pure rfl
  | cons b bs ih =>
    refine Meets.bind (P := fun _ _ => True) (meets_of_forall (fun _ _ _ => trivial) fun _ _ _ =>
      trivial) fun new f₁ _ => ?_
    exact ih.bind fun ps f₂ same => meets_pure (congrArg (b :: ·) same)

variable (stable : V.Stable)
include stable

lemma endBlocks_speaks (pop : V.Admits (.scope .pop none))
    (ends : ∀ b, ∀ x ∈ (callee.terminator b).operands, V.ends (p.value x)) {depth : Nat} {l : List (BlockId × BlockId)}
    (speaks : f.Speaks V) : (endBlocks callee p depth l).Meets f
      (fun rs f' => (∀ r ∈ rs, V.ends r.2 ∨ r.2 = .const .undefined) ∧ f'.Speaks V) fun _ => True := by
  have read {b : BlockId} {t : Terminator} (found : ((callee.block? b).map (·.terminator)).map p.terminator = some t) :
      ∀ x ∈ t.operands, V.ends x := by
    obtain ⟨t', own, rfl⟩ := Option.map_eq_some_iff.1 found
    obtain ⟨y, here, rfl⟩ := Option.map_eq_some_iff.1 own
    intro x mem
    have same : (p.terminator y.terminator).operands = y.terminator.operands.map p.value := by
      rw [← Terminator.operands_mapOperands, Placement.terminator]
      cases y.terminator.mapOperands p.value <;> rfl
    rw [same] at mem
    obtain ⟨x₀, there, rfl⟩ := List.mem_map.1 mem
    exact ends b x₀ (by rwa [terminator_of_block? here])
  induction l generalizing f with
  | nil => exact meets_pure ⟨List.forall_mem_nil _, speaks⟩
  | cons e l ih =>
    rw [endBlocks]
    split
    · exact ih speaks
    · rename_i value found
      have leaves := read found
      refine (meets_of_retains (TailCall.retains_popScopes (speaks_appendNode pop) _) speaks).bind fun _ f₁ speaks₁ =>
        ?_
      refine Meets.bind (P := fun _ f₂ => f₂.Speaks V) ?_ fun _ f₂ speaks₂ => ?_
      · exact meets_of_retains (speaks_modifyBlock fun _ => rfl) speaks₁
      refine (ih speaks₂).bind fun rs f₃ after => meets_pure ⟨List.forall_mem_cons.2 ⟨?_, after.1⟩, after.2⟩
      cases value with
      | none => exact .inr rfl
      | some x => exact .inl (leaves x List.mem_cons_self)
    · rename_i t _ found
      exact (meets_of_retains (speaks_setTerminator stable (read found)) speaks).bind fun _ f₁ speaks₁ => ih speaks₁

lemma mergeResults_speaks {call : ValueId} {tail : BlockId} {results : List (BlockId × Value)}
    (phi : V.Admits (.phi (results.map fun r => { value := r.2, source := r.1, kind := .jump }))) :
    (mergeResults call tail results).Retains (Speaks V) := by
  refine retains_get fun f speaks => ?_
  split
  · refine meets_of_retains ((speaks_appendNode phi).bind fun phi => ?_) speaks
    exact retains_modify fun f speaks => speaks.replaceUses stable (.inl rfl)
  · exact meets_pure speaks

end Linking

/-- What is done behind the copies keeps to a vocabulary that has the ends of the callee, and phis
of what it returns. -/
structure Links (callee : Func) (p : Placement) (V : Vocabulary) : Prop where
  stable : V.Stable
  pop : V.Admits (.scope .pop none)
  ends : ∀ b, ∀ x ∈ (callee.terminator b).operands, V.ends (p.value x)
  phi : ∀ is : List PhiInput, (∀ i ∈ is, V.ends i.value ∨ i.value = .const .undefined) → V.Admits (.phi is)

/-- Edges are led to the copies and away from them, and what the callee returns takes the place of the call. -/
def link (callee : Func) (p : Placement) (call : ValueId) (tail : BlockId) (depth : Nat) (outer : List Nat) :
    Edit BlockId := do
  let first := (← get).handlers.length
  addHandlers (callee.handlers.map p.handler)
  coverBlocks callee p.head first depth outer p.blocks
  let results ← endBlocks callee p depth p.blocks
  mergeResults call tail results
  jumpAll tail (results.map (·.1))
  let _ ← removeNode call
  modify fun f => f.removeTrivialPhis.1
  return tail

lemma expand_eq (call : ReceiverCall) (callee : Func) : expand call callee = (do
    let tail ← splitBlock call.block call.position
    let depth := (← get).scopeDepth call.block
    let outer := (← get).handlersOf call.block
    let base ← reserveRegisters callee.locals
    TailCall.storeAll call.block (initialStores call callee base)
    let blocks := (Func.entry, call.block) :: (← addBlocks (callee.blockIds.filter fun b =>
      b != Func.entry && b != Func.exit))
    let values ← copyBodies callee blocks
    let p : Placement := ⟨call.block, base, blocks, values⟩
    modify (renameAll p values)
    link callee p call.id tail depth outer) := rfl

lemma link_speaks (links : Links callee p V) {call : ValueId} {tail : BlockId} {depth : Nat} {outer : List Nat} :
    (link callee p call tail depth outer).Retains (Speaks V) := by
  refine retains_get fun f speaks => ?_
  refine (meets_of_retains (retains_addHandlers fun _ => speaks_addHandler) speaks).bind fun _ f₁ speaks₁ => ?_
  have cover : (coverBlocks callee p.head f.handlers.length depth outer p.blocks).Retains (Speaks V) :=
    retains_coverBlocks (fun _ _ => speaks_modifyBlock fun _ => rfl) fun _ _ => speaks_setHandlers links.stable
  refine (meets_of_retains cover speaks₁).bind fun _ f₂ speaks₂ => ?_
  refine (endBlocks_speaks links.stable links.pop links.ends speaks₂).bind fun results f₃ ended => ?_
  have phi : V.Admits (.phi (results.map fun r => { value := r.2, source := r.1, kind := .jump })) := by
    refine links.phi _ fun i mem => ?_
    obtain ⟨r, listed, rfl⟩ := List.mem_map.1 mem
    exact ended.1 r listed
  refine (meets_of_retains (mergeResults_speaks links.stable phi) ended.2).bind fun _ f₄ speaks₄ => ?_
  have jumps : (jumpAll tail (results.map (·.1))).Retains (Speaks V) :=
    retains_jumpAll fun _ => speaks_setTerminator links.stable (List.forall_mem_nil _)
  refine (meets_of_retains jumps speaks₄).bind fun _ f₅ speaks₅ => ?_
  refine (meets_of_retains speaks_removeNode speaks₅).bind fun _ f₆ speaks₆ => meets_modify (meets_pure ?_)
  exact speaks₆.removeTrivialPhis links.stable

/-- A callee is expanded: it gets registers, its nodes are copied and renamed, and the copies are linked up. -/
structure Unfolds (call : ReceiverCall) (callee : Func) (p : Placement) (f f₁ f₂ f' : Func) : Prop where
  base : p.base = f.locals
  before : ∀ V : Vocabulary, V.Stable → V.Loose →
    (∀ e ∈ initialStores call callee f.locals, V.Admits (.store e.1 e.2)) →
    f.Speaks V → f₁.Speaks (V.widen callee.locals)
  copies : Furnished callee (p.blocks.flatMap fun e => callee.nodesOf e.1) f₁ p.values f₂
  blocks : ∀ b, (callee.block? b).isSome → b ≠ Func.exit → b ∈ p.blocks.map (·.1)
  behind : ∀ V : Vocabulary, Links callee p V → (renameAll p p.values f₂).Speaks V → f'.Speaks V

/-- An edit that retains what keeps to a vocabulary does so for all of them at once. -/
lemma meets_speaks {α : Type} {x : Edit α} {C : Vocabulary → Prop} (each : ∀ V, C V → x.Retains (Speaks V)) :
    x.Meets f (fun _ f' => ∀ V, C V → f.Speaks V → f'.Speaks V) fun _ => True :=
  meets_of_forall (fun _ _ run V holds speaks => (each V holds).of_ok speaks run) fun _ _ _ => trivial

lemma unfolds_expand {call : ReceiverCall} :
    (expand call callee).Meets f (fun _ f' => ∃ p f₁ f₂, Unfolds call callee p f f₁ f₂ f') fun _ => True := by
  rw [expand_eq]
  refine (meets_speaks (C := fun V => V.Stable ∧ V.Loose) fun V both => speaks_splitBlock both.1 both.2).bind
    fun tail g₁ split => ?_
  refine meets_get (meets_get ?_)
  have same : g₁.locals = f.locals :=
    (split (.any f.params f.locals) ⟨Vocabulary.stable_any, Vocabulary.loose_any⟩ (speaks_any f)).locals
  refine Meets.bind (P := fun base g₂ => base = f.locals ∧ g₂ = { g₁ with locals := g₁.locals + callee.locals }) ?_ ?_
  · refine meets_of_forall (fun base g₂ run => ?_) fun _ _ _ => trivial
    obtain ⟨rfl, rfl⟩ := reserveRegisters_eq_ok.1 run
    exact ⟨same, rfl⟩
  rintro _ _ ⟨rfl, rfl⟩
  refine (meets_speaks (C := fun V => ∀ e ∈ initialStores call callee f.locals, V.Admits (.store e.1 e.2))
    fun V all => TailCall.retains_storeAll fun e mem => speaks_appendNode (all e mem)).bind fun _ g₂ stores => ?_
  have blocks : (addBlocks (callee.blockIds.filter fun b => b != Func.entry && b != Func.exit)).Meets g₂
      (fun ps g₃ => ps.map (·.1) = (callee.blockIds.filter fun b => b != Func.entry && b != Func.exit) ∧
        ∀ V, g₂.Speaks V → g₃.Speaks V) fun _ => True :=
    meets_of_forall (fun ps g₃ run => ⟨sources_addBlocks.of_ok run, fun V speaks =>
      (retains_addBlocks speaks_addBlock).of_ok speaks run⟩)
      fun _ _ _ => trivial
  refine blocks.bind ?_
  rintro ps g₃ ⟨sources, added⟩
  refine furnished_copyBodies.bind fun values g₄ copied => meets_modify ?_
  let p : Placement := ⟨call.block, f.locals, (Func.entry, call.block) :: ps, values⟩
  refine meets_of_forall (fun _ f' run => ⟨p, g₃, g₄, rfl, fun V stable loose all speaks => ?_, copied, ?_, ?_⟩)
    fun _ _ _ => trivial
  · exact added _ (stores _ all ((split V ⟨stable, loose⟩ speaks).reserve callee.locals))
  · intro b live inside
    by_cases entry : b = Func.entry
    · rw [entry]
      exact List.mem_cons_self
    · refine List.mem_cons_of_mem _ ?_
      rw [sources]
      refine List.mem_filter.2 ⟨mem_blockIds.2 live, by simp [entry, inside]⟩
  · exact fun V links speaks => (link_speaks links).of_ok speaks run

section Registers

lemma operands_remapRegisters (g : Nat → Nat) (k : NodeKind) :
    (k.remapRegisters g).operands = k.operands.map (Value.mapRegister g) := by
  cases k with
  | phi is => simp [NodeKind.remapRegisters, NodeKind.mapOperands, NodeKind.operands]
  | scope op operand => cases operand <;> rfl
  | _ => rfl

lemma written_remapRegisters (g : Nat → Nat) (k : NodeKind) : (k.remapRegisters g).written = k.written.map g := by
  cases k <;> rfl

/-- Renaming a node takes two steps, and a third one for the blocks that a phi names. -/
lemma Placement.kind_eq (k : NodeKind) : p.kind k = ((k.remapRegisters (· + p.base)).mapOperands
    (Value.mapNode fun id => (p.values.lookup id).getD id)).mapInputs (List.map p.input) := by
  rw [kind]
  generalize (k.remapRegisters (· + p.base)).mapOperands _ = k'
  cases k' <;> rfl

lemma Placement.operands_kind (k : NodeKind) : (p.kind k).operands = k.operands.map p.value := by
  have moved : ((k.remapRegisters (· + p.base)).mapOperands (Value.mapNode fun id =>
    (p.values.lookup id).getD id)).operands =
      k.operands.map p.value := by
    rw [NodeKind.operands_mapOperands, operands_remapRegisters, List.map_map]
    rfl
  rw [kind_eq, ← moved]
  generalize (k.remapRegisters (· + p.base)).mapOperands _ = k'
  cases k' with
  | phi is =>
    simp only [NodeKind.mapInputs, NodeKind.operands, List.map_map]
    rfl
  | _ => rfl

lemma Placement.written_kind (k : NodeKind) : (p.kind k).written = k.written.map (· + p.base) := by
  have same (k : NodeKind) (g : List PhiInput → List PhiInput) :
    (k.mapInputs g).written = k.written := by cases k <;> rfl
  rw [kind_eq, same, NodeKind.written_mapOperands, written_remapRegisters]

lemma Placement.isPhi_kind (k : NodeKind) : (p.kind k).isPhi = k.isPhi := by
  rw [kind_eq]
  cases k <;> rfl

lemma Placement.moved_value (x : Value) : x.Moved p.base (p.value x) := by
  intro plain
  cases x with
  | node v => cases plain
  | const | reg => rfl

lemma Placement.moved_kind (k : NodeKind) : k.Moved p.base (p.kind k) where
  written := p.written_kind k
  isPhi := p.isPhi_kind k
  operands _ := by
    rw [p.operands_kind, List.forall₂_map_right_iff]
    exact List.forall₂_same.2 fun x _ => p.moved_value x
  inputs _ x' mem := by
    rw [p.operands_kind] at mem
    obtain ⟨x, there, rfl⟩ := List.mem_map.1 mem
    exact ⟨x, there, p.moved_value x⟩

lemma Placement.setsOwn_kind (own : k.SetsOwn) (plain : ∀ i, k ≠ .debug i) : (p.kind k).SetsOwn := by
  rw [kind_eq]
  cases k with
  | store r x => exact NodeKind.setsOwn_store
  | hasNext2 object index => exact NodeKind.setsOwn_hasNext2
  | debug i => exact absurd rfl (plain i)
  | phi is => exact NodeKind.setsOwn_phi
  | caught => exact NodeKind.setsOwn_caught
  | _ => exact NodeKind.setsOwn_mapOperands.2 (NodeKind.setsOwn_mapOperands.2 own)

end Registers

section Recasting

variable {base params locals known : Nat} {values : List (ValueId × ValueId)}

/-- Nodes that were there set what they did, and copies are moved behind the registers of the caller. -/
def recast (f callee : Func) (base : Nat) (values : List (ValueId × ValueId)) (params locals known : Nat) :
    Vocabulary where
  params := params
  locals := locals
  known := known
  kinds w k' := (w < f.nodes.size → ∃ k, f.kind? w = some k ∧ k'.written = k.written) ∧
    ∀ v, (v, w) ∈ values → ∃ k, callee.kind? v = some k ∧ k.Moved base k'
  ends _ := True

lemma loose_recast : (recast f callee base values params locals known).Loose := by
  refine fun w is js old from_ => ⟨fun below => ?_, fun v copied => ?_⟩
  · obtain ⟨k, here, same⟩ := old.1 below
    exact ⟨k, here, same⟩
  · obtain ⟨k, original, moved⟩ := old.2 v copied
    exact ⟨k, original, moved.phi from_⟩

lemma stable_recast : (recast f callee base values params locals known).Stable := by
  refine ⟨fun w is js old from_ => loose_recast w is js old fun j mem => ?_,
    fun u x _ w k' old => ⟨fun below => ?_, fun v copied => ?_⟩, fun _ _ _ _ _ => trivial⟩
  · obtain ⟨i, there, same, -⟩ := from_ j mem
    exact ⟨i, there, same⟩
  · obtain ⟨k, here, same⟩ := old.1 below
    exact ⟨k, here, by rw [NodeKind.written_mapOperands, same]⟩
  · obtain ⟨k, original, moved⟩ := old.2 v copied
    exact ⟨k, original, moved.replaceNode⟩

lemma admits_recast (above : f.nodes.size ≤ known) (below : ∀ e ∈ values, e.2 < known) (k : NodeKind) :
    (recast f callee base values params locals known).Admits k :=
  fun w new => ⟨fun old => absurd (above.trans new) (Nat.not_le.2 old),
    fun v copied => absurd new (Nat.not_le.2 (below (v, w) copied))⟩

lemma speaks_recast (f callee : Func) (base : Nat) :
    f.Speaks (recast f callee base [] f.params f.locals f.nodes.size) where
  params := rfl
  locals := rfl
  known := Nat.le_refl _
  kinds _ k here := ⟨fun _ => ⟨k, here, rfl⟩, fun _ none => absurd none List.not_mem_nil⟩
  ends _ _ _ := trivial

lemma Furnished.speaks_recast {vs : List ValueId} (h : Furnished callee vs f₁ values f₂)
    (speaks : f₁.Speaks (recast f callee p.base [] params locals f.nodes.size)) :
    (renameAll p values f₂).Speaks (recast f callee p.base values params locals f₂.nodes.size) := by
  obtain ⟨params, locals, size⟩ := counts_renameAll (p := p) values f₂
  refine ⟨(params.trans h.params).trans speaks.params, (locals.trans h.locals).trans speaks.locals, size.ge,
    fun w k' here => ⟨fun below => ?_, fun v copied => ?_⟩, fun _ _ _ => trivial⟩
  · -- A node that was there is no copy.
    have early : w < f₁.nodes.size := below.trans_le speaks.known
    rw [Inlining.kind?_renameAll h.nodup, if_neg, h.old w early] at here
    · exact (speaks.kinds w k' here).1 below
    · intro copied
      obtain ⟨e, mem, rfl⟩ := List.mem_map.1 copied
      exact absurd (h.copies e mem).1 (Nat.not_le.2 early)
  · obtain ⟨-, k, original, -, -⟩ := h.copies _ copied
    rw [h.kind?_renameAll copied original, Option.some.injEq] at here
    exact ⟨k, original, here ▸ p.moved_kind k⟩

end Recasting

/-- The callee of a call is expanded with registers of its own.  The graph has as many more as the callee has.  It names
those that it named, and others that belong to the callee, counted from the first new one on.  Its
own nodes set what they did.  And each node of the callee that is not for debuggers has a copy of
its own, which names the registers of the original, counted from there. -/
structure Expands (f callee f' : Func) : Prop where
  locals : f'.locals = f.locals + callee.locals
  names : ∀ r, f'.Names r → f.Names r ∨ ∃ r' < callee.locals, r = r' + f.locals
  old : ∀ v < f.nodes.size, ∀ k', f'.kind? v = some k' → ∃ k, f.kind? v = some k ∧ k'.written = k.written
  copies : ∃ values : List (ValueId × ValueId), (values.map (·.2)).Nodup ∧ (∀ e ∈ values, f.nodes.size ≤ e.2) ∧
    (∀ b v k, (callee.block? b).isSome → b ≠ Func.exit → v ∈ callee.nodesOf b → callee.kind? v = some k →
      (∀ i, k ≠ .debug i) → ∃ w, (v, w) ∈ values) ∧
      ∀ v w k', (v, w) ∈ values → f'.kind? w = some k' → ∃ k, callee.kind? v = some k ∧ k.Moved f.locals k'

section Expanding

variable {call : ReceiverCall} {ctx : Context}

/-- The registers that an expansion names: those of the graph, and those of the callee behind them. -/
def Combined (f callee : Func) (r : Nat) : Prop := f.Names r ∨ ∃ r' < callee.locals, r = r' + f.locals

lemma Combined.lt (confined : f.Confined) {r : Nat} (h : Combined f callee r) : r < f.locals + callee.locals := by
  rcases h with named | ⟨r', below, rfl⟩
  · exact Nat.lt_add_right _ (confined.speaks.names named)
  · omega

lemma mem_resets {r : Nat} (mem : r ∈ TailCall.resets f) : f.Names r := by
  have sets := (List.mem_filter.1 (Ascending.mem_ofList.1 mem)).1
  obtain ⟨v, k, here, writes⟩ := mem_registerWrites.1 (List.mem_eraseDups.1 sets)
  exact .inl ⟨v, k, here, NodeKind.mem_registers.2 (.inl writes)⟩

lemma combined_initialStores (confined : callee.Confined) (fitting : call.args.length = callee.params)
    (named : ∀ x ∈ call.receiver :: call.args, ∀ r, x.register? = some r → f.Names r) {e : Nat × Value}
    (mem : e ∈ initialStores call callee f.locals) :
    Combined f callee e.1 ∧ ∀ r, e.2.register? = some r → Combined f callee r := by
  rcases List.mem_append.1 mem with argument | stale
  · obtain ⟨i, inside, rfl⟩ := List.mem_mapIdx.1 argument
    rw [List.length_cons, fitting] at inside
    have below : i < callee.locals := inside.trans_le confined.arguments
    exact ⟨.inr ⟨i, below, Nat.add_comm _ _⟩, fun r found => .inl (named _ (List.getElem_mem _) r found)⟩
  · obtain ⟨r, listed, rfl⟩ := List.mem_map.1 stale
    refine ⟨.inr ⟨r, ?_, Nat.add_comm _ _⟩, fun r none => by cases none⟩
    split at listed
    · exact confined.speaks.names (mem_resets listed)
    · cases listed

lemma combined_value (confined : callee.Confined) {x : Value} (named : ∀ r, x.register? = some r → callee.Names r)
    (base : p.base = f.locals) {r : Nat} (found : (p.value x).register? = some r) : Combined f callee r := by
  cases x with
  | reg r' version =>
    obtain rfl : r' + p.base = r := Option.some.inj found
    exact .inr ⟨r', confined.speaks.names (named r' rfl), by rw [base]⟩
  | const | node => cases found

lemma admits_kind (confined : callee.Confined) (base : p.base = f.locals) {params locals : Nat}
    (original : callee.kind? v = some k) (plain : ∀ i, k ≠ .debug i) :
    (Vocabulary.among (Combined f callee) params locals).Admits (p.kind k) := by
  refine fun w _ => ⟨p.setsOwn_kind (confined.speaks.kinds v k original).1 plain, fun r mem => ?_⟩
  rcases NodeKind.mem_registers.1 mem with set | ⟨x', listed, found⟩
  · rw [p.written_kind] at set
    obtain ⟨r', there, rfl⟩ := List.mem_map.1 set
    have own := confined.speaks.names (.inl ⟨v, k, original, NodeKind.mem_registers.2 (.inl there)⟩)
    exact .inr ⟨r', own, by rw [base]⟩
  · rw [p.operands_kind] at listed
    obtain ⟨x, there, rfl⟩ := List.mem_map.1 listed
    refine combined_value confined (fun r own => ?_) base found
    exact .inl ⟨v, k, original, NodeKind.mem_registers.2 (.inr ⟨x, there, own⟩)⟩

lemma links_among (confined : callee.Confined) (base : p.base = f.locals) {params locals : Nat} :
    Links callee p (.among (Combined f callee) params locals) where
  stable := Vocabulary.stable_among
  pop := Vocabulary.admits_pop
  ends b x mem r found := combined_value confined (fun r own => .inr ⟨b, x, mem, own⟩) base found
  phi is read w _ := by
    refine Vocabulary.kinds_phi.2 fun i mem => ?_
    rcases read i mem with own | undefined
    · exact own
    · rw [undefined]
      exact fun r none => by cases none

/-- An expansion gives the callee registers of its own. -/
theorem expands_of_expand {tail : BlockId} (confined : f.Confined)
    (calls : ReceiverCall.ofNode? f ctx.pool v = some call)
    (chosen : (candidate ctx f call).1 = some callee) (run : (expand call callee).run f = .ok tail f') :
    Expands f callee f' ∧ f'.Confined := by
  obtain ⟨⟨body, lifted⟩, fitting⟩ := lift_of_candidate chosen
  have own : callee.Confined := body.confined_of_lift lifted
  have arguments : call.args.length = callee.params := by
    simp only [fits, Bool.and_eq_true, beq_iff_eq] at fitting
    exact fitting.1.1.2
  obtain ⟨-, opcode, index, here, -⟩ := ofNode?_eq_some calls
  have named : ∀ x ∈ call.receiver :: call.args, ∀ r, x.register? = some r → f.Names r := fun x mem r found =>
    .inl ⟨v, _, here, NodeKind.mem_registers.2 (.inr ⟨x, mem, found⟩)⟩
  obtain ⟨p, f₁, f₂, unfolds⟩ := unfolds_expand.of_ok run
  -- Registers that are named.
  have start : f.Speaks (.among (Combined f callee) f.params f.locals) :=
    speaks_among (fun v k here => (confined.speaks.kinds v k here).1) fun r => .inl
  have before := unfolds.before _ Vocabulary.stable_among Vocabulary.loose_among (fun e mem => by
    obtain ⟨sets, reads⟩ := combined_initialStores own arguments named mem
    exact Vocabulary.admits_store sets reads) start
  have names := unfolds.behind _ (links_among own unfolds.base)
    (unfolds.copies.speaks_renameAll before fun v k original plain => admits_kind own unfolds.base original plain)
  -- Nodes that were there, and copies.
  have above : f.nodes.size ≤ f₁.nodes.size :=
    (unfolds.before _ stable_recast loose_recast (fun _ _ => admits_recast (Nat.le_refl _) (List.forall_mem_nil _) _)
      (speaks_recast f callee p.base)).known
  have recasts := unfolds.copies.speaks_recast (unfolds.before _ stable_recast loose_recast
    (fun _ _ => admits_recast (Nat.le_refl _) (List.forall_mem_nil _) _) (speaks_recast f callee p.base))
  have admits (k) : (recast f callee p.base p.values f.params (f.locals + callee.locals) f₂.nodes.size).Admits k :=
    admits_recast (above.trans unfolds.copies.size) (fun e mem => unfolds.copies.lt_size mem) k
  have same := unfolds.behind _ ⟨stable_recast, admits _, fun _ _ _ => trivial, fun is _ => admits (.phi is)⟩ recasts
  have below : f'.Speaks (.below f.params (f.locals + callee.locals)) := by
    refine ⟨names.params, names.locals, Nat.zero_le _, fun v k here => ?_, fun b x mem r found => ?_⟩
    · obtain ⟨sets, reads⟩ := names.kinds v k here
      exact ⟨sets, fun r mem => (reads r mem).lt confined⟩
    · exact (names.ends b x mem r found).lt confined
  refine ⟨⟨names.locals, fun r => names.names, fun v below k' here => (same.kinds v k' here).1 below,
    p.values, unfolds.copies.nodup, fun e mem => above.trans (unfolds.copies.copies e mem).1,
    fun b v k live inside mem original plain => ?_, fun v w k' copied here => ?_⟩,
    .of_speaks below (Nat.lt_add_right _ confined.arguments)⟩
  · obtain ⟨e, placed, rfl⟩ := List.mem_map.1 (unfolds.blocks b live inside)
    exact unfolds.copies.all v (List.mem_flatMap.2 ⟨e, placed, mem⟩) k original plain
  · rw [← unfolds.base]
    exact (same.kinds w k' here).2 v copied

end Expanding

end Inlining

end Avm.Opt
