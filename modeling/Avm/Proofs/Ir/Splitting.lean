import Avm.Proofs.Ir.Outcomes

/-!
# Splitting edges and blocks

Putting a block on an edge, and cutting a block in two.  Both make a block that is protected as another
one is, hand the inputs of phis over to it, and only then lead edges there, so for a while the phis have
inputs for edges that are due and not there yet.

The main statements are `Edit.splitEdge_eq_ok` and `Edit.splitBlock_eq_ok`.
-/

namespace Avm.Ir

lemma count_map_rename {a c y : BlockId × EdgeKind} (ne : a ≠ c) (l : List (BlockId × EdgeKind)) :
    (l.map fun x => if x = a then c else x).count y =
      if y = a then 0 else l.count y + if y = c then l.count a else 0 := by
  induction l with
  | nil => simp
  | cons x l ih =>
    simp only [List.map_cons, List.count_cons, ih, beq_iff_eq]
    by_cases first : x = a
    · subst first
      by_cases here : y = x
      · subst here
        simp [Ne.symm ne]
      · by_cases there : y = c
        · subst there
          simp [here, Ne.symm here]
          omega
        · simp [here, Ne.symm here, there, Ne.symm there]
    · by_cases here : y = a
      · subst here
        simp [first]
      · by_cases there : y = c
        · subst there
          simp [first, here]
          omega
        · simp [first, here, there]

namespace Terminator

lemma map_cases_of_ne {cases : List BlockId} {kind : EdgeKind} {m : BlockId}
    (others : ∀ i < cases.length, EdgeKind.switchCase i ≠ kind) :
    (cases.mapIdx fun i c => (c, EdgeKind.switchCase i)).map
        (fun e => if e.2 = kind then (m, kind) else e) =
      cases.mapIdx fun i c => (c, EdgeKind.switchCase i) := by
  refine List.ext_getElem (by simp) fun i below _ => ?_
  simp only [List.length_map, List.length_mapIdx] at below
  simp only [List.getElem_mapIdx, List.getElem_map, others i below, if_false]

lemma targets_retarget (t : Terminator) (kind : EdgeKind) (m : BlockId) :
    ((t.retarget? kind m).getD t).targets =
      t.targets.map fun e => if e.2 = kind then (m, kind) else e := by
  cases t with
  | goto target => cases kind <;> rfl
  | jump target => cases kind <;> rfl
  | branch test operands onTrue onFalse => cases kind <;> rfl
  | switch index default cases =>
    cases kind with
    | switchCase i =>
      by_cases inside : i < cases.length
      · simp only [retarget?, inside, if_true, Option.getD_some, targets, List.map_cons,
          reduceCtorEq, if_false, List.cons.injEq, true_and]
        refine List.ext_getElem (by simp) fun j _ _ => ?_
        simp only [List.getElem_mapIdx, List.getElem_set, List.getElem_map, EdgeKind.switchCase.injEq]
        by_cases same : i = j
        · simp [same]
        · simp [same, Ne.symm same]
      · have others : ∀ j < cases.length, EdgeKind.switchCase j ≠ .switchCase i := by
          rintro j below same
          exact inside (EdgeKind.switchCase.inj same ▸ below)
        simp [retarget?, inside, targets, map_cases_of_ne others]
    | _ => simp [retarget?, targets, map_cases_of_ne]
  | leave value => cases kind <;> rfl
  | raise value => cases kind <;> rfl
  | none => cases kind <;> rfl

lemma ne_raise_of_mem_targets {t : Terminator} {b : BlockId} {kind : EdgeKind}
    (mem : (b, kind) ∈ t.targets) : kind ≠ .raise := by
  rintro rfl
  cases t <;> simp [targets] at mem

lemma mem_targets_retarget {t : Terminator} {kind : EdgeKind} {m : BlockId}
    {e : BlockId × EdgeKind} (mem : e ∈ ((t.retarget? kind m).getD t).targets) :
    e = (m, kind) ∨ e ∈ t.targets ∧ e.2 ≠ kind := by
  rw [targets_retarget] at mem
  obtain ⟨d, old, rfl⟩ := List.mem_map.1 mem
  split
  · exact .inl rfl
  · rename_i other
    exact .inr ⟨old, other⟩

end Terminator

namespace Func

variable {f f' : Func} {b s t : BlockId} {v w : ValueId} {kind : EdgeKind}
  {stale : BlockId → Prop} {due due' : BlockId → List (BlockId × EdgeKind)}

section Beside

variable {depth : Nat}

lemma Sound.caught_of_mem (h : Sound stale due f) (fresh : ¬stale s) {e : BlockId × EdgeKind}
    (mem : e ∈ edgesFrom f.handlers .none (f.handlersOf s)) :
    (f.block? e.1).isSome ∧ f.phis e.1 = [] :=
  (h.mem_targets_or fresh mem).resolve_left List.not_mem_nil

/-- The graph with a new block at the given depth of the scope stack. -/
def withBlock (f : Func) (depth : Nat) : Func :=
  (f.pushBlock {}).modifyBlock f.blocks.size fun x => { x with scopeDepth := depth }

lemma alike_withBlock : Alike (f.pushBlock {}) (f.withBlock depth) := alike_scopeDepth fun _ => depth

lemma isSome_withBlock : ((f.withBlock depth).block? t).isSome =
    (decide (t = f.blocks.size) || (f.block? t).isSome) := by
  rw [alike_withBlock.isSome, isSome_pushBlock]

lemma isSome_withBlock_self : ((f.withBlock depth).block? f.blocks.size).isSome := by
  rw [isSome_withBlock, decide_eq_true rfl, Bool.true_or]

lemma terminator_withBlock : (f.withBlock depth).terminator t = f.terminator t := by
  rw [withBlock, terminator_modifyBlock, terminator_pushBlock]
  exact fun _ => rfl

/-- The graph with a new block that is protected as another one is. -/
def beside (f : Func) (s : BlockId) (depth : Nat) : Func :=
  (f.withBlock depth).reend f.blocks.size .none (f.handlersOf s)

lemma isSome_beside : ((f.beside s depth).block? t).isSome =
    (decide (t = f.blocks.size) || (f.block? t).isSome) := by
  rw [beside, sameNodes_reend.isSome, isSome_withBlock]

lemma size_beside : (f.beside s depth).blocks.size = f.blocks.size + 1 := by
  rw [beside, sameNodes_reend.size, alike_withBlock.toSameFlow.size, size_pushBlock]

lemma phis_beside : (f.beside s depth).phis t = f.phis t := by
  rw [beside, sameNodes_reend.phis, alike_withBlock.phis, phis_pushBlock]

lemma body_beside : (f.beside s depth).body t = f.body t := by
  rw [beside, sameNodes_reend.body, alike_withBlock.body, body_pushBlock]

lemma isSome_beside_size : ((f.beside s depth).block? f.blocks.size).isSome := by
  rw [isSome_beside, decide_eq_true rfl, Bool.true_or]

lemma nodesOf_beside_size : (f.beside s depth).nodesOf f.blocks.size = [] := by
  rw [nodesOf, phis_beside, body_beside, (parts_of_isNone block?_size).1, (parts_of_isNone block?_size).2.1,
    List.nil_append]

lemma catches_beside : (f.beside s depth).handlers = f.handlers := by
  rw [beside, sameNodes_reend.catches]
  rfl

lemma frame_beside : ((f.beside s depth).node? v).map (·.block) = (f.node? v).map (·.block) ∧
    ((f.beside s depth).inputs? v).isSome = (f.inputs? v).isSome :=
  ⟨sameNodes_reend.owner v, sameNodes_reend.isPhi v⟩

lemma handlersOf_beside : (f.beside s depth).handlersOf t =
    if t = f.blocks.size then f.handlersOf s else f.handlersOf t := by
  rw [beside, handlersOf_reend isSome_withBlock_self, alike_withBlock.handlersOf, handlersOf_pushBlock]

lemma terminator_beside : (f.beside s depth).terminator t = f.terminator t := by
  rw [beside, terminator_reend isSome_withBlock_self]
  split
  · rename_i here
    rw [here, (parts_of_isNone block?_size).2.2.2.1]
  · rw [terminator_withBlock]

lemma succs_beside : (f.beside s depth).succs t =
    if t = f.blocks.size then edgesFrom f.handlers .none (f.handlersOf s) else f.succs t := by
  rw [beside, succs_reend isSome_withBlock_self, alike_withBlock.succs, succs_pushBlock]
  rfl

end Beside

section OnEdge

variable {source target : BlockId} {depth : Nat}

/-- The inputs of a phi with those for one edge handed over to a new block. -/
def handOver (source middle : BlockId) (kind : EdgeKind) (inputs : List PhiInput) : List PhiInput :=
  inputs.map fun i =>
    if i.source = source ∧ i.kind = kind then { i with source := middle, kind := .fallthrough }
    else i

/-- The graph with a block for an edge, to which nothing leads yet. -/
def preparedEdge (f : Func) (source target : BlockId) (kind : EdgeKind) (depth : Nat) : Func :=
  (f.beside source depth).modifyPhis (f.phis target) (handOver source f.blocks.size kind)

/-- The terminator of a block with one edge led to another block. -/
def retargeted (f : Func) (source : BlockId) (kind : EdgeKind) (middle : BlockId) : Terminator :=
  ((f.terminator source).retarget? kind middle).getD (f.terminator source)

lemma Intact.mem_targets_or_exit (h : Intact f) (edge : (target, kind) ∈ f.succs source)
    (normal : kind ≠ .raise) :
    (target, kind) ∈ (f.terminator source).targets ∨ target = Func.exit := by
  rw [h.wired source id, edgesOf_eq] at edge
  obtain goes | leaves | ⟨k, -, c, -, same⟩ := mem_edgesFrom.1 edge
  · exact .inl goes
  · exact .inr (Terminator.eq_exit_of_mem_leaving leaves)
  · exact absurd (Prod.mk.inj same).2 normal

lemma Intact.mem_succs_of_mem_targets (h : Intact f) {e : BlockId × EdgeKind}
    (mem : e ∈ (f.terminator b).targets) : e ∈ f.succs b := by
  rw [h.wired b id, edgesOf_eq, mem_edgesFrom]
  exact .inl mem

lemma Shaped.lt_of_mem_handlersOf (h : Shaped f) (b : BlockId) : ∀ k ∈ f.handlersOf b, k < f.handlers.length := by
  intro k mem
  obtain ⟨c, found, -⟩ := h.covered b k mem
  exact (List.getElem?_eq_some_iff.1 found).1

lemma Intact.succs_exit (h : Intact f) : f.succs Func.exit = [] := by
  rw [h.wired Func.exit id, edgesOf_eq, h.exit.2.2.2.1, h.exit.2.2.2.2]
  rfl

lemma Intact.target_ne_entry (h : Intact f) (edge : (target, kind) ∈ f.succs source)
    (normal : kind ≠ .raise) : target ≠ Func.entry := by
  obtain goes | rfl := h.mem_targets_or_exit edge normal
  · exact h.enters source _ goes
  · decide

lemma isSome_preparedEdge : ((f.preparedEdge source target kind depth).block? t).isSome =
    (decide (t = f.blocks.size) || (f.block? t).isSome) := by
  rw [preparedEdge, sameNodes_modifyPhis.isSome, isSome_beside]

lemma phis_preparedEdge : (f.preparedEdge source target kind depth).phis t = f.phis t := by
  rw [preparedEdge, sameNodes_modifyPhis.phis, phis_beside]

lemma catches_preparedEdge : (f.preparedEdge source target kind depth).handlers = f.handlers := by
  rw [preparedEdge, handlers_modifyPhis, catches_beside]

/-- The graph with a block for an edge that leads on, and to which nothing leads yet. -/
def enteredEdge (f : Func) (source target : BlockId) (kind : EdgeKind) (depth : Nat) : Func :=
  (f.preparedEdge source target kind depth).reend f.blocks.size (.goto target) (f.handlersOf source)

/-- The graph with a block on an edge. -/
def onEdge (f : Func) (source target : BlockId) (kind : EdgeKind) (depth : Nat) : Func :=
  (f.enteredEdge source target kind depth).reend source (f.retargeted source kind f.blocks.size)
    (f.handlersOf source)

lemma isSome_enteredEdge : ((f.enteredEdge source target kind depth).block? t).isSome =
    (decide (t = f.blocks.size) || (f.block? t).isSome) := by
  rw [enteredEdge, sameNodes_reend.isSome, isSome_preparedEdge]

lemma phis_enteredEdge : (f.enteredEdge source target kind depth).phis t = f.phis t := by
  rw [enteredEdge, sameNodes_reend.phis, phis_preparedEdge]

lemma catches_enteredEdge : (f.enteredEdge source target kind depth).handlers = f.handlers := by
  rw [enteredEdge, sameNodes_reend.catches, catches_preparedEdge]

lemma succs_enteredEdge : (f.enteredEdge source target kind depth).succs t = if t = f.blocks.size then
    edgesFrom f.handlers (.goto target) (f.handlersOf source) else f.succs t := by
  have live : ((f.preparedEdge source target kind depth).block? f.blocks.size).isSome := by
    rw [isSome_preparedEdge, decide_eq_true rfl, Bool.true_or]
  rw [enteredEdge, succs_reend live, catches_preparedEdge]
  split
  · rfl
  · rename_i other
    rw [preparedEdge, sameFlow_modifyPhis.succs, succs_beside, if_neg other]

lemma handlersOf_preparedEdge : (f.preparedEdge source target kind depth).handlersOf t =
    if t = f.blocks.size then f.handlersOf source else f.handlersOf t := by
  rw [preparedEdge, sameFlow_modifyPhis.handlersOf, handlersOf_beside]

lemma ends_enteredEdge (other : t ≠ f.blocks.size) :
    (f.enteredEdge source target kind depth).terminator t = f.terminator t ∧
      (f.enteredEdge source target kind depth).handlersOf t = f.handlersOf t := by
  have live : ((f.preparedEdge source target kind depth).block? f.blocks.size).isSome := by
    rw [isSome_preparedEdge, decide_eq_true rfl, Bool.true_or]
  rw [enteredEdge, terminator_reend live, handlersOf_reend live, if_neg other, if_neg other,
    handlersOf_preparedEdge, if_neg other, preparedEdge, terminator,
    block?_congr blocks_modifyPhis, ← terminator, terminator_beside]
  exact ⟨rfl, rfl⟩

lemma isSome_onEdge : ((f.onEdge source target kind depth).block? t).isSome =
    (decide (t = f.blocks.size) || (f.block? t).isSome) := by
  rw [onEdge, sameNodes_reend.isSome, isSome_enteredEdge]

lemma size_onEdge : (f.onEdge source target kind depth).blocks.size = f.blocks.size + 1 := by
  rw [onEdge, sameNodes_reend.size, enteredEdge, sameNodes_reend.size, preparedEdge,
    blocks_modifyPhis, size_beside]

lemma phis_onEdge : (f.onEdge source target kind depth).phis t = f.phis t := by
  rw [onEdge, sameNodes_reend.phis, phis_enteredEdge]

lemma catches_onEdge : (f.onEdge source target kind depth).handlers = f.handlers := by
  rw [onEdge, sameNodes_reend.catches, catches_enteredEdge]

lemma handlersOf_onEdge (live : (f.block? source).isSome) : (f.onEdge source target kind depth).handlersOf t =
    if t = f.blocks.size then f.handlersOf source else f.handlersOf t := by
  have other : source ≠ f.blocks.size := size_ne_of_isSome live
  have there : ((f.enteredEdge source target kind depth).block? source).isSome := by
    rw [isSome_enteredEdge, live, Bool.or_true]
  have new : ((f.preparedEdge source target kind depth).block? f.blocks.size).isSome := by
    rw [isSome_preparedEdge, decide_eq_true rfl, Bool.true_or]
  rw [onEdge, handlersOf_reend there, enteredEdge, handlersOf_reend new, handlersOf_preparedEdge]
  split
  · rename_i same
    rw [same, if_neg other]
  · split
    · rfl
    · rfl

lemma body_onEdge : (f.onEdge source target kind depth).body t = f.body t := by
  rw [onEdge, sameNodes_reend.body, enteredEdge, sameNodes_reend.body, preparedEdge,
    sameNodes_modifyPhis.body, body_beside]

lemma frame_onEdge :
    ((f.onEdge source target kind depth).node? v).map (·.block) = (f.node? v).map (·.block) ∧
      ((f.onEdge source target kind depth).inputs? v).isSome = (f.inputs? v).isSome := by
  rw [onEdge, sameNodes_reend.owner, sameNodes_reend.isPhi, enteredEdge, sameNodes_reend.owner,
    sameNodes_reend.isPhi, preparedEdge, sameNodes_modifyPhis.owner, sameNodes_modifyPhis.isPhi]
  exact frame_beside

lemma Terminator.leaving_retarget (t : Terminator) (m : BlockId) (hs : List Nat) :
    ((t.retarget? kind m).getD t).leaving hs = t.leaving hs := by
  cases t with
  | switch index default cases =>
    cases kind <;> simp only [Terminator.retarget?]
    all_goals first | rfl | (split <;> rfl)
  | _ => cases kind <;> rfl

lemma succs_onEdge (live : (f.block? source).isSome) :
    (f.onEdge source target kind depth).succs t =
      if t = source then
        edgesFrom f.handlers (f.retargeted source kind f.blocks.size) (f.handlersOf source)
      else if t = f.blocks.size then edgesFrom f.handlers (.goto target) (f.handlersOf source)
      else f.succs t := by
  have there : ((f.enteredEdge source target kind depth).block? source).isSome := by
    rw [isSome_enteredEdge, live, Bool.or_true]
  rw [onEdge, succs_reend there, catches_enteredEdge, succs_enteredEdge]

end OnEdge

section Cutting

variable {tail : BlockId} {index depth : Nat} {vs : List ValueId}
  {es : List (BlockId × EdgeKind)}

/-- The graph with nodes that name another block, and are listed as before. -/
def handNodes (vs : List ValueId) (tail : BlockId) (f : Func) : Func :=
  vs.foldl (fun f v => f.modifyNode v fun n => { n with block := tail }) f

lemma node?_handNodes : (f.handNodes vs tail).node? w =
    if w ∈ vs then (f.node? w).map fun n => { n with block := tail } else f.node? w := by
  induction vs generalizing f with
  | nil => rfl
  | cons v vs ih =>
    rw [handNodes, List.foldl_cons, ← handNodes, ih, node?_modifyNode]
    by_cases here : v = w
    · subst here
      cases f.node? v <;> simp
    · simp [here, Ne.symm here]

lemma blocks_handNodes : (f.handNodes vs tail).blocks = f.blocks := by
  induction vs generalizing f with
  | nil => rfl
  | cons v vs ih =>
    rw [handNodes, List.foldl_cons, ← handNodes, ih]
    rfl

lemma handlers_handNodes : (f.handNodes vs tail).handlers = f.handlers := by
  induction vs generalizing f with
  | nil => rfl
  | cons v vs ih =>
    rw [handNodes, List.foldl_cons, ← handNodes, ih]
    rfl

/-- The graph with the nodes of a block from a place on in another block. -/
def cutBody (f : Func) (b tail : BlockId) (index depth : Nat) : Func :=
  (((f.modifyBlock b fun x => { x with body := x.body.take index }).handNodes
    ((f.body b).drop index) tail).modifyBlock tail fun x =>
      { x with body := (f.body b).drop index }).modifyBlock b fun x => { x with scopeDepth := depth }

lemma map_cutBody {γ : Type} {p : Block → γ}
    (keeps : ∀ x ws d, p { x with body := ws, scopeDepth := d } = p x) :
    ((f.cutBody b tail index depth).block? t).map p = (f.block? t).map p := by
  rw [cutBody, map_modifyBlock fun x => keeps x x.body _, map_modifyBlock fun x => keeps x _ _,
    block?_congr blocks_handNodes, map_modifyBlock fun x => keeps x _ _]

lemma sameFlow_cutBody : SameFlow f (f.cutBody b tail index depth) := by
  refine sameFlow_of_map ?_ ?_ fun keeps _ => map_cutBody fun x ws d => keeps x _ ws d
  · rw [cutBody, size_modifyBlock, size_modifyBlock, blocks_handNodes, size_modifyBlock]
  · rw [cutBody, handlers_modifyBlock, handlers_modifyBlock, handlers_handNodes, handlers_modifyBlock]

lemma phis_cutBody : (f.cutBody b tail index depth).phis t = f.phis t := by
  rw [phis, map_cutBody (p := Block.phis) fun _ _ _ => rfl]
  rfl

lemma body_cutBody (there : (f.block? tail).isSome) (other : tail ≠ b) :
    (f.cutBody b tail index depth).body t = if t = tail then (f.body b).drop index
      else if t = b then (f.body b).take index else f.body t := by
  rw [cutBody, body_modifyBlock, body, block?_modifyBlock, block?_congr blocks_handNodes,
    block?_modifyBlock]
  · by_cases first : t = tail
    · subst first
      obtain ⟨x, here⟩ := Option.isSome_iff_exists.1 there
      simp [Ne.symm other, here]
    · rw [if_neg (Ne.symm first), if_neg first]
      by_cases second : t = b
      · subst second
        rw [if_pos rfl, if_pos rfl, body]
        cases f.block? t with
        | none => exact List.take_nil.symm
        | some x => rfl
      · rw [if_neg (Ne.symm second), if_neg second, body]
  · exact fun _ => rfl

lemma node?_cutBody : (f.cutBody b tail index depth).node? w =
    if w ∈ (f.body b).drop index then (f.node? w).map fun n => { n with block := tail }
    else f.node? w := by
  rw [cutBody, node?_modifyBlock, node?_modifyBlock, node?_handNodes]
  rfl

lemma inputs?_cutBody : (f.cutBody b tail index depth).inputs? w = f.inputs? w := by
  rw [inputs?_eq, inputs?_eq, node?_cutBody]
  split
  · cases f.node? w with
    | none => rfl
    | some n => rfl
  · rfl

lemma Listed.cutBody (h : Listed f) (there : (f.block? tail).isSome) (other : tail ≠ b)
    (empty : f.nodesOf tail = []) : Listed (f.cutBody b tail index depth) := by
  have noPhis : f.phis tail = [] := (List.append_eq_nil_iff.1 empty).1
  have whole := (List.nodup_append.1 (h.nodup b))
  have parts : ((f.body b).take index ++ (f.body b).drop index).Nodup := by
    rw [List.take_append_drop]
    exact whole.2.1
  have keptOwner {w t} (mem : w ∈ f.nodesOf t) (kept : w ∉ (f.body b).drop index) :
      ((f.cutBody b tail index depth).node? w).map (·.block) = some t := by
    rw [node?_cutBody, if_neg kept]
    exact h.owned t w mem
  refine ⟨fun t w mem => ?_, fun t w mem => ?_, fun t w mem => ?_, fun t => ?_⟩
  · rw [nodesOf, phis_cutBody, body_cutBody there other] at mem
    obtain phi | inBody := List.mem_append.1 mem
    · refine keptOwner (List.mem_append_left _ phi) fun moved => ?_
      have inBody := List.mem_of_mem_drop moved
      have same : b = t := h.eq_of_mem_nodesOf (List.mem_append_right _ inBody) (List.mem_append_left _ phi)
      subst same
      exact whole.2.2 w phi w inBody rfl
    · split at inBody
      · rename_i here
        obtain ⟨n, found⟩ := Option.isSome_iff_exists.1
          (h.isSome_node? (List.mem_append_right _ (List.mem_of_mem_drop inBody)))
        rw [node?_cutBody, if_pos inBody, found, here]
        rfl
      · split at inBody
        · rename_i here
          rw [here]
          refine keptOwner (List.mem_append_right _ (List.mem_of_mem_take inBody)) fun moved => ?_
          exact (List.nodup_append.1 parts).2.2 w inBody w moved rfl
        · rename_i here
          have there : w ∈ f.nodesOf t := List.mem_append_right _ inBody
          refine keptOwner there fun moved => ?_
          have inBody : w ∈ f.nodesOf b := List.mem_append_right _ (List.mem_of_mem_drop moved)
          exact here (h.eq_of_mem_nodesOf there inBody)
  · rw [phis_cutBody] at mem
    rw [inputs?_cutBody]
    exact h.phi t w mem
  · rw [body_cutBody there other] at mem
    rw [inputs?_cutBody]
    split at mem
    · exact h.plain b w (List.mem_of_mem_drop mem)
    · split at mem
      · exact h.plain b w (List.mem_of_mem_take mem)
      · exact h.plain t w mem
  · rw [nodesOf, phis_cutBody, body_cutBody there other]
    split
    · rename_i here
      rw [here, noPhis, List.nil_append]
      exact (List.nodup_append.1 parts).2.1
    · split
      · rename_i here
        rw [here]
        exact (h.nodup b).sublist ((List.take_sublist _ _).append_left _)
      · exact h.nodup t

/-- Phis at edges have the inputs of one block handed over to another one. -/
def handPhis (b tail : BlockId) (es : List (BlockId × EdgeKind)) (f : Func) : Func :=
  es.foldl (fun f e => f.modifyPhis (f.phis e.1) (Edit.splitInputs b tail e.2)) f

lemma blocks_handPhis : (f.handPhis b tail es).blocks = f.blocks := by
  induction es generalizing f with
  | nil => rfl
  | cons e es ih => rw [handPhis, List.foldl_cons, ← handPhis, ih, blocks_modifyPhis]

lemma sameNodes_handPhis : SameNodes f (f.handPhis b tail es) := by
  induction es generalizing f with
  | nil => exact SameNodes.refl f
  | cons e es ih => exact sameNodes_modifyPhis.trans ih

lemma sameFlow_handPhis : SameFlow f (f.handPhis b tail es) := by
  induction es generalizing f with
  | nil => exact SameFlow.refl f
  | cons e es ih => exact sameFlow_modifyPhis.trans ih

end Cutting

section Cut

variable {index depth depth' : Nat}

/-- The graph with the nodes of a block from a place on in a new block, which has taken over the inputs
of phis. -/
def preparedCut (f : Func) (b : BlockId) (index depth depth' : Nat) : Func :=
  ((f.beside b depth).cutBody b f.blocks.size index depth').handPhis b f.blocks.size (f.succs b)

lemma isSome_preparedCut : ((f.preparedCut b index depth depth').block? t).isSome =
    (decide (t = f.blocks.size) || (f.block? t).isSome) := by
  rw [preparedCut, sameFlow_handPhis.isSome, sameFlow_cutBody.isSome, isSome_beside]

lemma phis_preparedCut : (f.preparedCut b index depth depth').phis t = f.phis t := by
  rw [preparedCut, sameNodes_handPhis.phis, phis_cutBody, phis_beside]

lemma catches_preparedCut : (f.preparedCut b index depth depth').handlers = f.handlers := by
  rw [preparedCut, sameFlow_handPhis.catches, sameFlow_cutBody.catches, catches_beside]

lemma handlersOf_preparedCut : (f.preparedCut b index depth depth').handlersOf t =
    if t = f.blocks.size then f.handlersOf b else f.handlersOf t := by
  rw [preparedCut, sameFlow_handPhis.handlersOf, sameFlow_cutBody.handlersOf, handlersOf_beside]

lemma terminator_preparedCut : (f.preparedCut b index depth depth').terminator t = f.terminator t := by
  rw [preparedCut, terminator, block?_congr blocks_handPhis,
    map_cutBody (p := Block.terminator) fun _ _ _ => rfl, ← terminator, terminator_beside]

lemma succs_preparedCut (other : t ≠ f.blocks.size) :
    (f.preparedCut b index depth depth').succs t = f.succs t := by
  rw [preparedCut, sameFlow_handPhis.succs, sameFlow_cutBody.succs, succs_beside, if_neg other]

/-- The graph with the nodes of a block from a place on in a new block, which ends as the old one
did, while the old one does not end yet. -/
def enteredCut (f : Func) (b : BlockId) (index depth depth' : Nat) : Func :=
  ((f.preparedCut b index depth depth').withEnd b .none (f.handlersOf b)).reend f.blocks.size
    (f.terminator b) (f.handlersOf b)

lemma isSome_enteredCut : ((f.enteredCut b index depth depth').block? t).isSome =
    (decide (t = f.blocks.size) || (f.block? t).isSome) := by
  rw [enteredCut, sameNodes_reend.isSome, sameNodes_withEnd.isSome, isSome_preparedCut]

lemma phis_enteredCut : (f.enteredCut b index depth depth').phis t = f.phis t := by
  rw [enteredCut, sameNodes_reend.phis, sameNodes_withEnd.phis, phis_preparedCut]

lemma catches_enteredCut : (f.enteredCut b index depth depth').handlers = f.handlers := by
  rw [enteredCut, sameNodes_reend.catches, sameNodes_withEnd.catches, catches_preparedCut]

lemma isSome_withEnd_preparedCut : (((f.preparedCut b index depth depth').withEnd b .none
    (f.handlersOf b)).block? f.blocks.size).isSome := by
  rw [sameNodes_withEnd.isSome, isSome_preparedCut, decide_eq_true rfl, Bool.true_or]

lemma isSome_preparedCut_self (live : (f.block? b).isSome) :
    ((f.preparedCut b index depth depth').block? b).isSome := by
  rw [isSome_preparedCut, live, Bool.or_true]

lemma handlersOf_enteredCut (live : (f.block? b).isSome) : (f.enteredCut b index depth depth').handlersOf t =
    if t = f.blocks.size then f.handlersOf b else f.handlersOf t := by
  rw [enteredCut, handlersOf_reend isSome_withEnd_preparedCut,
    handlersOf_withEnd (isSome_preparedCut_self live), handlersOf_preparedCut]
  split
  · rfl
  · split
    · rename_i here
      rw [here]
    · rfl

lemma succs_enteredCut (wired : f.succs b = f.edgesOf b) : (f.enteredCut b index depth depth').succs t =
    if t = f.blocks.size then f.succs b else f.succs t := by
  rw [enteredCut, succs_reend isSome_withEnd_preparedCut, succs_withEnd,
    sameNodes_withEnd.catches, catches_preparedCut]
  split
  · rw [wired, edgesOf_eq]
  · rename_i other
    rw [succs_preparedCut other]

/-- The graph with a block cut in two. -/
def cut (f : Func) (b : BlockId) (index depth depth' : Nat) : Func :=
  (f.enteredCut b index depth depth').reend b (.goto f.blocks.size) (f.handlersOf b)

section Views

variable (live : (f.block? b).isSome)

lemma isSome_cut : ((f.cut b index depth depth').block? t).isSome =
    (decide (t = f.blocks.size) || (f.block? t).isSome) := by
  rw [cut, sameNodes_reend.isSome, isSome_enteredCut]

lemma size_cut : (f.cut b index depth depth').blocks.size = f.blocks.size + 1 := by
  rw [cut, sameNodes_reend.size, enteredCut, sameNodes_reend.size, sameNodes_withEnd.size, preparedCut,
    sameNodes_handPhis.size, sameFlow_cutBody.size, size_beside]

lemma phis_cut : (f.cut b index depth depth').phis t = f.phis t := by
  rw [cut, sameNodes_reend.phis, phis_enteredCut]

lemma catches_cut : (f.cut b index depth depth').handlers = f.handlers := by
  rw [cut, sameNodes_reend.catches, catches_enteredCut]

include live

lemma isSome_enteredCut_self : ((f.enteredCut b index depth depth').block? b).isSome := by
  rw [isSome_enteredCut, live, Bool.or_true]

lemma terminator_cut : (f.cut b index depth depth').terminator b = .goto f.blocks.size := by
  rw [cut, terminator_reend (isSome_enteredCut_self live), if_pos rfl]

lemma handlersOf_cut : (f.cut b index depth depth').handlersOf t =
    if t = f.blocks.size then f.handlersOf b else f.handlersOf t := by
  have other : b ≠ f.blocks.size := size_ne_of_isSome live
  rw [cut, handlersOf_reend (isSome_enteredCut_self live), handlersOf_enteredCut live]
  split
  · rename_i here
    rw [here, if_neg other]
  · rfl

end Views

lemma Intact.eq_of_mem_succs_cut (h : Intact f) (live : (f.block? b).isSome) {c : BlockId}
    (mem : (f.blocks.size, kind) ∈ (f.cut b index depth depth').succs c) : c = b := by
  have absent (a) : (f.blocks.size, kind) ∉ f.succs a :=
    fun edge => size_ne_of_isSome (h.live a _ edge) rfl
  rw [Func.cut, succs_reend (isSome_enteredCut_self live)] at mem
  split at mem
  · assumption
  · rw [succs_enteredCut (h.wired b id)] at mem
    split at mem
    · exact absurd mem (absent b)
    · exact absurd mem (absent c)

lemma Intact.not_caught_cut (h : Intact f) (live : (f.block? b).isSome) :
    ¬(f.cut b index depth depth').Caught f.blocks.size := by
  rintro ⟨c, k, mem, d, found, same⟩
  rw [catches_cut] at found
  have there : (f.block? d.target).isSome := by
    rw [handlersOf_cut live] at mem
    split at mem
    · exact h.caught_live id mem found
    · exact h.caught_live id mem found
  exact size_ne_of_isSome there same

end Cut

end Func

namespace Edit

open Func (beside withBlock preparedEdge enteredEdge onEdge)

variable {f : Func} {source target : BlockId} {kind : EdgeKind}

lemma setHandlers_withBlock (covered : ∀ k ∈ f.handlersOf source, k < f.handlers.length) (depth : Nat) :
    (setHandlers f.blocks.size (f.handlersOf source)).run (f.withBlock depth) =
      .ok () (f.beside source depth) := by
  refine setHandlers_eq_ok.2 ⟨covered, Func.isSome_withBlock_self, ?_⟩
  rw [Func.terminator_withBlock, (Func.parts_of_isNone Func.block?_size).2.2.2.1]
  rfl

/-- An edge that no exception takes can be split if it, and what else leads on from its start, leads to
blocks that exist. -/
lemma run_splitEdge (edge : (target, kind) ∈ f.succs source) (normal : kind ≠ .raise)
    (covered : ∀ k ∈ f.handlersOf source, k < f.handlers.length) (led : (f.block? target).isSome)
    (targets : ∀ e ∈ (f.terminator source).targets, (f.block? e.1).isSome) :
    (splitEdge source target kind).run f =
      .ok f.blocks.size (f.onEdge source target kind (f.scopeDepth source)) := by
  have allowed : ¬((!(f.succs source).contains (target, kind) || kind == .raise) = true) := by
    simp [edge, normal]
  obtain ⟨x, here⟩ := Option.isSome_iff_exists.1 (Func.isSome_of_mem_succs edge)
  have other : source ≠ f.blocks.size := Func.size_ne_of_isSome (by rw [here]; rfl)
  have there : (f.pushBlock {}).block? source = some x := by
    rw [Func.block?_pushBlock, if_neg other, here]
  let f₁ := f.withBlock x.scopeDepth
  let f₂ := f.beside source x.scopeDepth
  let f₃ := f.preparedEdge source target kind x.scopeDepth
  let f₄ := f.enteredEdge source target kind x.scopeDepth
  have depth : f.scopeDepth source = x.scopeDepth := by simp [Func.scopeDepth, here]
  have covers : x.handlers = f.handlersOf source := (Func.handlersOf_of_block? here).symm
  have added : ((f.pushBlock {}).block? f.blocks.size).isSome := by
    rw [Func.isSome_pushBlock, decide_eq_true rfl, Bool.true_or]
  rw [splitEdge]
  refine bind_eq_ok.2 ⟨f, f, get_eq_ok.2 ⟨rfl, rfl⟩, ?_⟩
  rw [if_neg allowed]
  refine bind_eq_ok.2 ⟨_, _, addBlock_eq_ok.2 ⟨rfl, rfl⟩, ?_⟩
  refine bind_eq_ok.2 ⟨x, _, block_eq_ok.2 ⟨there, rfl⟩, ?_⟩
  refine bind_eq_ok.2 ⟨(), f₁, modifyBlock_eq_ok.2 ⟨added, rfl⟩, ?_⟩
  rw [covers]
  refine bind_eq_ok.2 ⟨(), f₂, setHandlers_withBlock covered _, ?_⟩
  refine bind_eq_ok.2 ⟨(), f₃, modify_eq_ok.2 ?_, ?_⟩
  · rw [Func.phis_beside]
    rfl
  have ends : f₄.terminator source = f.terminator source ∧
      f₄.handlersOf source = f.handlersOf source := Func.ends_enteredEdge other
  have live₄ : (f₄.block? source).isSome := by
    rw [Func.isSome_enteredEdge, here]
    exact Bool.or_true _
  obtain ⟨y, found⟩ := Option.isSome_iff_exists.1 live₄
  have last : y.terminator = f.terminator source := by
    rw [← Func.terminator_of_block? found]
    exact ends.1
  refine bind_eq_ok.2 ⟨(), f₄, setTerminator_eq_ok.2 ⟨fun e mem => ?_, ?_, ?_⟩, ?_⟩
  · rw [List.mem_singleton.1 mem, Func.isSome_preparedEdge, led, Bool.or_true]
  · rw [Func.isSome_preparedEdge, decide_eq_true rfl, Bool.true_or]
  · rw [Func.handlersOf_preparedEdge, if_pos rfl]
    rfl
  refine bind_eq_ok.2 ⟨y, f₄, block_eq_ok.2 ⟨found, rfl⟩, ?_⟩
  refine bind_eq_ok.2 ⟨(), _, setTerminator_eq_ok.2 ⟨fun e mem => ?_, live₄, rfl⟩, ?_⟩
  · rw [Func.isSome_enteredEdge]
    rw [last] at mem
    obtain rfl | ⟨old, -⟩ := Terminator.mem_targets_retarget mem
    · rw [decide_eq_true rfl, Bool.true_or]
    · rw [targets e old, Bool.or_true]
  · rw [last, ends.2, depth]
    exact pure_eq_ok.2 ⟨rfl, rfl⟩

lemma splitEdge_eq_ok (h : f.Intact) (edge : (target, kind) ∈ f.succs source)
    (normal : kind ≠ .raise) : (splitEdge source target kind).run f =
      .ok f.blocks.size (f.onEdge source target kind (f.scopeDepth source)) :=
  run_splitEdge edge normal (h.lt_of_mem_handlersOf source) (h.live source _ edge) fun e mem =>
    h.live source e (h.mem_succs_of_mem_targets mem)

/-- Nodes and inputs of phis are handed to the second half of a block, and the first half is left without an end. -/
lemma run_prepareCut {α : Type} {b : BlockId} {index depth : Nat} (live : (f.block? b).isSome)
    (k : Terminator → Edit α) :
    (do
      let g ← get
      modifyBlock b fun s => { s with body := s.body.take index }
      modify (Func.handNodes ((f.body b).drop index) f.blocks.size)
      modifyBlock f.blocks.size fun t => { t with body := (f.body b).drop index }
      modifyBlock b fun s =>
        { s with scopeDepth := ((depth : Int) - scopeChanges g ((f.body b).drop index)).toNat }
      modify (Func.handPhis b f.blocks.size (f.succs b))
      let terminator := (← block b).terminator
      modifyBlock b fun s => { s with terminator := .none }
      k terminator : Edit α).run (f.beside b depth) = (k (f.terminator b)).run
        ((f.preparedCut b index depth ((depth : Int) -
          scopeChanges (f.beside b depth) ((f.body b).drop index)).toNat).withEnd b .none (f.handlersOf b)) := by
  let f₁ := f.beside b depth
  let depth' := ((depth : Int) - scopeChanges f₁ ((f.body b).drop index)).toNat
  have live₁ : (f₁.block? b).isSome := by rw [Func.isSome_beside, live, Bool.or_true]
  have there₁ : (f₁.block? f.blocks.size).isSome := by
    rw [Func.isSome_beside, decide_eq_true rfl, Bool.true_or]
  have live₂ : ((f.preparedCut b index depth depth').block? b).isSome := Func.isSome_preparedCut_self live
  obtain ⟨y, found⟩ := Option.isSome_iff_exists.1 live₂
  have last : y.terminator = f.terminator b := by
    rw [← Func.terminator_of_block? found, Func.terminator_preparedCut]
  have unended : (f.preparedCut b index depth depth').modifyBlock b (fun s => { s with terminator := .none }) =
      (f.preparedCut b index depth depth').withEnd b .none (f.handlersOf b) := by
    refine Func.modifyBlock_congr fun z there => ?_
    rw [← Func.handlersOf_preparedCut.trans (if_neg (Func.size_ne_of_isSome live)), Func.handlersOf_of_block? there]
  have prepared : Func.handPhis b f.blocks.size (f.succs b) (f₁.cutBody b f.blocks.size index depth') =
      f.preparedCut b index depth depth' := rfl
  rw [Func.cutBody, Func.body_beside] at prepared
  rw [run_get_bind, run_modifyBlock_bind live₁, run_modify_bind, run_modifyBlock_bind, run_modifyBlock_bind,
    run_modify_bind, prepared, run_block_bind found, run_modifyBlock_bind live₂, last, unended]
  · rw [Func.isSome_block?_modifyBlock, Func.block?_congr Func.blocks_handNodes, Func.isSome_block?_modifyBlock, live₁]
  · rw [Func.block?_congr Func.blocks_handNodes, Func.isSome_block?_modifyBlock, there₁]

lemma run_splitBlock {b : BlockId} {index : Nat} (live : (f.block? b).isSome)
    (inside : index ≤ (f.body b).length) (covered : ∀ k ∈ f.handlersOf b, k < f.handlers.length)
    (targets : ∀ e ∈ (f.terminator b).targets, (f.block? e.1).isSome) :
    (splitBlock b index).run f = .ok f.blocks.size (f.cut b index (f.scopeDepth b)
      ((f.scopeDepth b : Int) -
        scopeChanges (f.beside b (f.scopeDepth b)) ((f.body b).drop index)).toNat) := by
  obtain ⟨x, here⟩ := Option.isSome_iff_exists.1 live
  have other : b ≠ f.blocks.size := Func.size_ne_of_isSome live
  have body : x.body = f.body b := (Func.body_of_block? here).symm
  have covers : x.handlers = f.handlersOf b := (Func.handlersOf_of_block? here).symm
  have leads : x.succs = f.succs b := (Func.succs_of_block? here).symm
  have deep : x.scopeDepth = f.scopeDepth b := by rw [Func.scopeDepth, here]; rfl
  have added : ((f.pushBlock {}).block? f.blocks.size).isSome := by
    rw [Func.isSome_pushBlock, decide_eq_true rfl, Bool.true_or]
  rw [splitBlock, run_block_bind here, body, if_neg (Nat.not_lt.2 inside), covers, leads, deep,
    run_ok_bind (addBlock_eq_ok.2 ⟨rfl, rfl⟩), run_modifyBlock_bind added]
  refine (run_ok_bind (setHandlers_withBlock covered _)).trans ((run_prepareCut live fun t => do
    setTerminator f.blocks.size t
    setTerminator b (.goto f.blocks.size)
    return f.blocks.size).trans ?_)
  generalize ((f.scopeDepth b : Int) - scopeChanges (f.beside b (f.scopeDepth b)) ((f.body b).drop index)).toNat = depth
  have live₂ : ((f.preparedCut b index (f.scopeDepth b) depth).block? b).isSome := Func.isSome_preparedCut_self live
  refine bind_eq_ok.2 ⟨(), f.enteredCut b index (f.scopeDepth b) depth,
    setTerminator_eq_ok.2 ⟨fun e mem => ?_, Func.isSome_withEnd_preparedCut, ?_⟩, ?_⟩
  · rw [Func.sameNodes_withEnd.isSome, Func.isSome_preparedCut, targets e mem, Bool.or_true]
  · rw [Func.handlersOf_withEnd live₂, if_neg other.symm, Func.handlersOf_preparedCut, if_pos rfl]
    rfl
  refine bind_eq_ok.2 ⟨(), f.cut b index (f.scopeDepth b) depth,
    setTerminator_eq_ok.2 ⟨fun e mem => ?_, Func.isSome_enteredCut_self live, ?_⟩, ?_⟩
  · rw [List.mem_singleton.1 mem, Func.isSome_enteredCut, decide_eq_true rfl, Bool.true_or]
  · rw [Func.handlersOf_enteredCut live, if_neg other]
    rfl
  · exact pure_eq_ok.2 ⟨rfl, rfl⟩

lemma splitBlock_eq_ok {b : BlockId} {index : Nat} (h : f.Intact) (live : (f.block? b).isSome)
    (inside : index ≤ (f.body b).length) :
    (splitBlock b index).run f = .ok f.blocks.size (f.cut b index (f.scopeDepth b)
      ((f.scopeDepth b : Int) -
        scopeChanges (f.beside b (f.scopeDepth b)) ((f.body b).drop index)).toNat) :=
  run_splitBlock live inside (h.lt_of_mem_handlersOf b) fun e mem =>
    h.live b e (h.mem_succs_of_mem_targets mem)

end Edit

end Avm.Ir
