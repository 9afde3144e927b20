import Avm.Proofs.Graph.Search
import Avm.Proofs.Ir.Sound

/-!
# Rewiring a block

What happens when a block gets another terminator or other handlers: the edges that leave it become
those that it calls for now, both ends know of them, and the phis that they lead to have their inputs
brought in line.  A phi keeps an input from the block only if it had one before.  So a block may get a
new edge to a block with phis only if these are already prepared for it.

The main statements are `Shaped.reend` and `Sound.reend`.
-/

namespace Avm.Ir

namespace Func

variable {f : Func} {b s t : BlockId} {v : ValueId} {kind : EdgeKind}
  {es ns : List (BlockId × EdgeKind)}

/-- Other blocks forget edges from a block. -/
def dropLinks (b : BlockId) (es : List (BlockId × EdgeKind)) (f : Func) : Func :=
  es.foldl (fun f e => f.modifyBlock e.1 fun t => { t with preds := t.preds.erase (b, e.2) }) f

/-- Other blocks learn of edges from a block. -/
def addLinks (b : BlockId) (es : List (BlockId × EdgeKind)) (f : Func) : Func :=
  es.foldl (fun f e => f.modifyBlock e.1 fun t => { t with preds := t.preds ++ [(b, e.2)] }) f

/-- The phis of blocks are brought in line with the edges from a block. -/
def syncPhis (b : BlockId) (es : List (BlockId × EdgeKind)) (ts : List BlockId) (f : Func) : Func :=
  ts.foldl (fun f t => f.reconcilePhis t b ((es.filter (·.1 == t)).map (·.2))) f

lemma rewire_eq : f.rewire b =
    (syncPhis b (f.edgesOf b) (targetsOf (f.succs b ++ f.edgesOf b))
      (addLinks b (f.edgesOf b) (dropLinks b (f.succs b) f))).modifyBlock b
        fun x => { x with succs := f.edgesOf b } := rfl

/-- What comes into phis from a block is not new when it is brought in line with edges. -/
lemma exists_of_mem_reconcile {kinds : List EdgeKind} {is : List PhiInput} {j : PhiInput}
    (mem : j ∈ reconcile b kinds is) :
    ∃ i ∈ is, i.value = j.value ∧ i.source = j.source := by
  rw [reconcile] at mem
  split at mem
  · exact ⟨j, mem, rfl, rfl⟩
  · rename_i first more own
    have inside {i : PhiInput} (there : i ∈ first :: more) : i ∈ is ∧ i.source = b := by
      obtain ⟨mem, source⟩ := List.mem_filter.1 (own ▸ there)
      exact ⟨mem, beq_iff_eq.1 source⟩
    rcases List.mem_append.1 mem with old | new
    · exact ⟨j, (List.mem_filter.1 old).1, rfl, rfl⟩
    · obtain ⟨kind, -, rfl⟩ := List.mem_map.1 new
      dsimp only
      cases found : (first :: more).find? (·.kind == kind) with
      | none => exact ⟨first, (inside List.mem_cons_self).1, rfl, (inside List.mem_cons_self).2⟩
      | some i =>
        have there := inside (List.mem_of_find?_eq_some found)
        exact ⟨i, there.1, rfl, there.2⟩

/-- What stays when blocks learn of edges and inputs of phis are brought in line stays when a block is rewired. -/
lemma rewire_keeps {P : Func → Prop}
    (preds : ∀ g c (u : Block → List (BlockId × EdgeKind)), P g → P (g.modifyBlock c fun x => { x with preds := u x }))
    (succs : ∀ g es, P g → P (g.modifyBlock b fun x => { x with succs := es }))
    (inputs : ∀ g v kinds, P g → P (g.modifyInputs v (reconcile b kinds))) (start : P f) : P (f.rewire b) := by
  rw [rewire_eq]
  refine succs _ _ ?_
  rw [syncPhis, addLinks, dropLinks]
  refine List.foldlRecOn _ _ (List.foldlRecOn _ _ (List.foldlRecOn _ _ start ?_) ?_) ?_
  · exact fun g here e _ => preds g e.1 _ here
  · exact fun g here e _ => preds g e.1 _ here
  · exact fun g here t _ => List.foldlRecOn _ _ here fun g here v _ => inputs g v _ here

section Links

lemma map_dropLinks {γ : Type} {p : Block → γ} (keeps : ∀ x ps, p { x with preds := ps } = p x) :
    ((f.dropLinks b es).block? t).map p = (f.block? t).map p :=
  foldl_keeps (fun f : Func => (f.block? t).map p) fun _ _ => map_modifyBlock fun x => keeps x _

lemma map_addLinks {γ : Type} {p : Block → γ} (keeps : ∀ x ps, p { x with preds := ps } = p x) :
    ((f.addLinks b es).block? t).map p = (f.block? t).map p :=
  foldl_keeps (fun f : Func => (f.block? t).map p) fun _ _ => map_modifyBlock fun x => keeps x _

@[simp] lemma nodes_dropLinks : (f.dropLinks b es).nodes = f.nodes := foldl_keeps Func.nodes fun _ _ => by rfl

@[simp] lemma nodes_addLinks : (f.addLinks b es).nodes = f.nodes := foldl_keeps Func.nodes fun _ _ => by rfl

@[simp] lemma handlers_dropLinks : (f.dropLinks b es).handlers = f.handlers :=
  foldl_keeps Func.handlers fun _ _ => by rfl

@[simp] lemma handlers_addLinks : (f.addLinks b es).handlers = f.handlers := foldl_keeps Func.handlers fun _ _ => by rfl

@[simp] lemma size_dropLinks : (f.dropLinks b es).blocks.size = f.blocks.size :=
  foldl_keeps (fun f : Func => f.blocks.size) fun _ _ => size_modifyBlock

@[simp] lemma size_addLinks : (f.addLinks b es).blocks.size = f.blocks.size :=
  foldl_keeps (fun f : Func => f.blocks.size) fun _ _ => size_modifyBlock

lemma preds_modifyBlock_preds (φ : List (BlockId × EdgeKind) → List (BlockId × EdgeKind)) {c : BlockId}
    (there : (f.block? t).isSome ∨ φ [] = []) :
    (f.modifyBlock c fun x => { x with preds := φ x.preds }).preds t = if c = t then φ (f.preds t) else f.preds t := by
  rw [preds, block?_modifyBlock]
  split
  · rw [preds]
    cases here : f.block? t with
    | none =>
      rw [here] at there
      exact (there.resolve_left Bool.false_ne_true).symm
    | some x => rfl
  · rfl

lemma count_preds_dropLinks : ((f.dropLinks b es).preds t).count (s, kind) =
    (f.preds t).count (s, kind) - if s = b then es.count (t, kind) else 0 := by
  induction es generalizing f with
  | nil => simp [dropLinks]
  | cons e es ih =>
    obtain ⟨c, k⟩ := e
    rw [dropLinks, List.foldl_cons, ← dropLinks, ih, List.count_cons]
    have step : ((f.modifyBlock c fun t => { t with preds := t.preds.erase (b, k) }).preds t).count
        (s, kind) = (f.preds t).count (s, kind) - if s = b ∧ (c, k) = (t, kind) then 1 else 0 := by
      rw [preds_modifyBlock_preds (·.erase (b, k)) (.inr rfl)]
      split
      · simp only [List.count_erase, beq_iff_eq, Prod.mk.injEq, *, true_and, eq_comm (a := b)]
      · simp [*]
    rw [step]
    by_cases same : s = b
    · simp only [same, true_and, if_true, beq_iff_eq]
      split <;> omega
    · simp [same]

lemma count_preds_addLinks (live : (f.block? t).isSome) :
    ((f.addLinks b es).preds t).count (s, kind) =
      (f.preds t).count (s, kind) + if s = b then es.count (t, kind) else 0 := by
  induction es generalizing f with
  | nil => simp [addLinks]
  | cons e es ih =>
    obtain ⟨c, k⟩ := e
    rw [addLinks, List.foldl_cons, ← addLinks, ih (by rw [isSome_block?_modifyBlock]; exact live),
      List.count_cons]
    have step : ((f.modifyBlock c fun t => { t with preds := t.preds ++ [(b, k)] }).preds t).count
        (s, kind) = (f.preds t).count (s, kind) + if s = b ∧ (c, k) = (t, kind) then 1 else 0 := by
      rw [preds_modifyBlock_preds (· ++ [(b, k)]) (.inl live)]
      split
      · simp only [List.count_append, List.count_singleton, beq_iff_eq, Prod.mk.injEq, *, true_and, eq_comm (a := b)]
      · simp [*]
    rw [step]
    by_cases same : s = b
    · simp only [same, true_and, if_true, beq_iff_eq]
      split <;> omega
    · simp [same]

end Links

section Phis

variable {ts : List BlockId}

@[simp] lemma blocks_syncPhis : (f.syncPhis b es ts).blocks = f.blocks := by
  induction ts generalizing f with
  | nil => rfl
  | cons t ts ih => rw [syncPhis, List.foldl_cons, ← syncPhis, ih, reconcilePhis, blocks_modifyPhis]

@[simp] lemma handlers_syncPhis : (f.syncPhis b es ts).handlers = f.handlers := by
  induction ts generalizing f with
  | nil => rfl
  | cons t ts ih =>
    rw [syncPhis, List.foldl_cons, ← syncPhis, ih, reconcilePhis, handlers_modifyPhis]

lemma frame_modifyPhis {vs : List ValueId} {g : List PhiInput → List PhiInput} :
    ((f.modifyPhis vs g).node? v).map (·.block) = (f.node? v).map (·.block) ∧
      ((f.modifyPhis vs g).inputs? v).isSome = (f.inputs? v).isSome := by
  induction vs generalizing f with
  | nil => exact ⟨rfl, rfl⟩
  | cons w vs ih =>
    rw [modifyPhis, List.foldl_cons, ← modifyPhis, ih.1, ih.2, inputs?_eq, inputs?_eq,
      modifyInputs_eq, node?_modifyNode]
    split
    · cases f.node? v with
      | none => exact ⟨rfl, rfl⟩
      | some n => simp
    · exact ⟨rfl, rfl⟩

lemma frame_syncPhis : ((f.syncPhis b es ts).node? v).map (·.block) = (f.node? v).map (·.block) ∧
    ((f.syncPhis b es ts).inputs? v).isSome = (f.inputs? v).isSome := by
  induction ts generalizing f with
  | nil => exact ⟨rfl, rfl⟩
  | cons t ts ih =>
    rw [syncPhis, List.foldl_cons, ← syncPhis, ih.1, ih.2, reconcilePhis]
    exact frame_modifyPhis

lemma node?_syncPhis (owner : ∀ c, v ∈ f.phis c → c = t) (nodup : ∀ c, (f.phis c).Nodup)
    (mem : v ∈ f.phis t) (once : ts.Nodup) : (f.syncPhis b es ts).node? v =
      if t ∈ ts then (f.node? v).map fun n =>
        { n with kind := n.kind.mapInputs (reconcile b ((es.filter (·.1 == t)).map (·.2))) }
      else f.node? v := by
  induction ts generalizing f with
  | nil => rfl
  | cons c ts ih =>
    obtain ⟨absent, once⟩ := List.nodup_cons.1 once
    have same (d) : (f.reconcilePhis c b ((es.filter (·.1 == c)).map (·.2))).phis d = f.phis d := by
      rw [phis, phis, reconcilePhis, block?_congr blocks_modifyPhis]
    rw [syncPhis, List.foldl_cons, ← syncPhis, ih (fun d h => owner d (same d ▸ h))
      (fun d => same d ▸ nodup d) (same t ▸ mem) once, reconcilePhis, node?_modifyPhis (nodup c)]
    by_cases here : t = c
    · subst here
      simp [absent, mem]
    · have other : v ∉ f.phis c := fun there => here (owner c there).symm
      simp [here, other]

lemma count_reconcile {kinds : List EdgeKind} {is : List PhiInput} :
    ((reconcile b kinds is).map fun i => (i.source, i.kind)).count (s, kind) =
      if s = b ∧ ∃ i ∈ is, i.source = b then kinds.count kind
      else (is.map fun i => (i.source, i.kind)).count (s, kind) := by
  rw [reconcile]
  cases found : is.filter (·.source == b) with
  | nil =>
    have none : ¬∃ i ∈ is, i.source = b := by
      rintro ⟨i, mem, rfl⟩
      have := List.filter_eq_nil_iff.1 found i mem
      simp at this
    simp [none]
  | cons first more =>
    have there : ∃ i ∈ is, i.source = b := by
      have mem : first ∈ is.filter (·.source == b) := found ▸ List.mem_cons_self
      obtain ⟨mem, source⟩ := List.mem_filter.1 mem
      exact ⟨first, mem, by simpa using source⟩
    simp only [List.map_append, List.count_append, List.map_map, there, and_true]
    by_cases same : s = b
    · subst same
      rw [if_pos rfl]
      have none : (List.map (fun i => (i.source, i.kind)) (is.filter (·.source != s))).count
          (s, kind) = 0 := by
        rw [List.count_eq_zero]
        intro mem
        obtain ⟨i, mem, eq⟩ := List.mem_map.1 mem
        have := (List.mem_filter.1 mem).2
        obtain ⟨rfl, -⟩ := Prod.mk.inj eq
        simp at this
      rw [none, Nat.zero_add]
      exact List.count_map_of_injective kinds (fun k => (s, k)) (Prod.mk_right_injective s) kind
    · rw [if_neg same]
      have others : (kinds.map ((fun i : PhiInput => (i.source, i.kind)) ∘ fun k =>
          { value := (((first :: more).find? (·.kind == k)).getD first).value
            source := b, kind := k : PhiInput })).count (s, kind) = 0 := by
        rw [List.count_eq_zero]
        intro mem
        obtain ⟨k, -, eq⟩ := List.mem_map.1 mem
        exact same (Prod.mk.inj eq).1.symm
      have kept : (is.filter (·.source != b)).map (fun i => (i.source, i.kind)) =
          (is.map fun i => (i.source, i.kind)).filter (·.1 != b) := by
        rw [List.filter_map]
        rfl
      rw [others, Nat.add_zero, kept, List.count_filter (by simpa using same)]

end Phis

section Rewire

lemma map_rewire {γ : Type} {p : Block → γ} (preds : ∀ x ps, p { x with preds := ps } = p x)
    (succs : ∀ x ss, p { x with succs := ss } = p x) :
    ((f.rewire b).block? t).map p = (f.block? t).map p := by
  rw [rewire_eq, map_modifyBlock fun x => succs x _, block?_congr blocks_syncPhis,
    map_addLinks preds, map_dropLinks preds]

lemma terminator_rewire : (f.rewire b).terminator t = f.terminator t := by
  rw [terminator, map_rewire (p := Block.terminator) (fun _ _ => rfl) fun _ _ => rfl]
  rfl

lemma handlersOf_rewire : (f.rewire b).handlersOf t = f.handlersOf t := by
  rw [handlersOf, map_rewire (p := Block.handlers) (fun _ _ => rfl) fun _ _ => rfl]
  rfl

lemma sameNodes_rewire : SameNodes f (f.rewire b) where
  size := by rw [rewire_eq, size_modifyBlock, blocks_syncPhis, size_addLinks, size_dropLinks]
  isSome t := by
    have same := map_rewire (p := fun _ => ()) (f := f) (b := b) (t := t) (fun _ _ => rfl)
      fun _ _ => rfl
    rw [← Option.isSome_map (f := fun _ => ()), same, Option.isSome_map]
  phis t := by
    rw [Func.phis, map_rewire (p := Block.phis) (fun _ _ => rfl) fun _ _ => rfl]
    rfl
  body t := by
    rw [Func.body, map_rewire (p := Block.body) (fun _ _ => rfl) fun _ _ => rfl]
    rfl
  catches := by
    rw [rewire_eq, handlers_modifyBlock, handlers_syncPhis, handlers_addLinks, handlers_dropLinks]
  owner v := by
    rw [rewire_eq, node?_modifyBlock, frame_syncPhis.1, node?, node?, nodes_addLinks,
      nodes_dropLinks]
  isPhi v := by
    rw [rewire_eq, inputs?_modifyBlock, frame_syncPhis.2, inputs?, kind?, node?, inputs?, kind?,
      node?, nodes_addLinks, nodes_dropLinks]

lemma succs_rewire (live : (f.block? b).isSome) :
    (f.rewire b).succs t = if t = b then f.edgesOf b else f.succs t := by
  have same : ((syncPhis b (f.edgesOf b) (targetsOf (f.succs b ++ f.edgesOf b))
      (addLinks b (f.edgesOf b) (dropLinks b (f.succs b) f))).block? t).map (·.succs) =
        (f.block? t).map (·.succs) := by
    rw [block?_congr blocks_syncPhis, map_addLinks fun _ _ => rfl, map_dropLinks fun _ _ => rfl]
  rw [rewire_eq, succs, block?_modifyBlock]
  by_cases here : b = t
  · subst here
    rw [if_pos rfl, if_pos rfl]
    have there := congrArg Option.isSome same
    rw [Option.isSome_map, Option.isSome_map, live] at there
    obtain ⟨x, found⟩ := Option.isSome_iff_exists.1 there
    rw [found]
    rfl
  · rw [if_neg here, if_neg (Ne.symm here), same]
    rfl

lemma count_preds_rewire (live : (f.block? t).isSome) :
    ((f.rewire b).preds t).count (s, kind) = if s = b then
      (f.preds t).count (b, kind) - (f.succs b).count (t, kind) + (f.edgesOf b).count (t, kind)
      else (f.preds t).count (s, kind) := by
  have there : ((dropLinks b (f.succs b) f).block? t).isSome := by
    rw [← Option.isSome_map (f := fun _ => ()), map_dropLinks fun _ _ => rfl, Option.isSome_map, live]
  have same : (f.rewire b).preds t =
      (addLinks b (f.edgesOf b) (dropLinks b (f.succs b) f)).preds t := by
    rw [rewire_eq, preds_modifyBlock, preds, block?_congr blocks_syncPhis]
    · rfl
    · exact fun _ => rfl
  rw [same, count_preds_addLinks there, count_preds_dropLinks]
  split
  · rename_i here
    rw [here]
  · rfl

lemma inputs?_rewire (h : Listed f) (mem : v ∈ f.phis t) : (f.rewire b).inputs? v =
    if t ∈ targetsOf (f.succs b ++ f.edgesOf b) then
      (f.inputs? v).map (reconcile b (((f.edgesOf b).filter (·.1 == t)).map (·.2)))
    else f.inputs? v := by
  have same (c) : (addLinks b (f.edgesOf b) (dropLinks b (f.succs b) f)).phis c = f.phis c := by
    rw [phis, map_addLinks (p := Block.phis) fun _ _ => rfl,
      map_dropLinks (p := Block.phis) fun _ _ => rfl]
    rfl
  have node : (f.rewire b).node? v = (syncPhis b (f.edgesOf b)
      (targetsOf (f.succs b ++ f.edgesOf b))
      (addLinks b (f.edgesOf b) (dropLinks b (f.succs b) f))).node? v := rfl
  have once : (targetsOf (f.succs b ++ f.edgesOf b)).Nodup := Ascending.nodup_ofList _
  rw [inputs?_eq, inputs?_eq, node, node?_syncPhis
    (fun c there => h.eq_of_mem_phis (same c ▸ there) mem) (fun c => same c ▸ h.nodup_phis c)
    (same t ▸ mem) once, node?, nodes_addLinks, nodes_dropLinks, ← node?]
  split
  · cases f.node? v with
    | none => rfl
    | some n => simp
  · rfl

lemma mem_targetsOf {es : List (BlockId × EdgeKind)} : t ∈ targetsOf es ↔ ∃ k, (t, k) ∈ es := by
  rw [targetsOf, Ascending.mem_ofList, List.mem_map]
  constructor
  · rintro ⟨⟨c, k⟩, mem, rfl⟩
    exact ⟨k, mem⟩
  · rintro ⟨k, mem⟩
    exact ⟨(t, k), mem, rfl⟩

lemma keys_of_inputs? {is : List PhiInput} (h : f.inputs? v = some is) :
    f.keys v = is.map fun i => (i.source, i.kind) := by
  rw [keys, h]
  rfl

lemma count_map_filter {es : List (BlockId × EdgeKind)} :
    ((es.filter (·.1 == t)).map (·.2)).count kind = es.count (t, kind) := by
  induction es with
  | nil => rfl
  | cons e es ih =>
    obtain ⟨c, k⟩ := e
    rw [List.filter_cons, List.count_cons]
    by_cases here : c = t
    · subst here
      simp [List.count_cons, ih]
    · simp [here, ih]

lemma count_keys_rewire_of_ne (h : Listed f) (mem : v ∈ f.phis t) (other : s ≠ b) :
    ((f.rewire b).keys v).count (s, kind) = (f.keys v).count (s, kind) := by
  obtain ⟨is, inputs⟩ := Option.isSome_iff_exists.1 (h.phi t v mem)
  have after := inputs?_rewire (b := b) h mem
  rw [inputs, Option.map_some] at after
  split at after
  · rw [keys_of_inputs? after, count_reconcile, if_neg fun there => other there.1,
      keys_of_inputs? inputs]
  · rw [keys_of_inputs? after, keys_of_inputs? inputs]

lemma keys_rewire_of_forall (h : Listed f) (mem : v ∈ f.phis t)
    (none : ∀ k, (t, k) ∉ f.succs b ∧ (t, k) ∉ f.edgesOf b) :
    (f.rewire b).keys v = f.keys v := by
  have untouched : t ∉ targetsOf (f.succs b ++ f.edgesOf b) := by
    rw [mem_targetsOf]
    rintro ⟨k, there⟩
    obtain old | new := List.mem_append.1 there
    · exact (none k).1 old
    · exact (none k).2 new
  rw [keys, inputs?_rewire h mem, if_neg untouched, keys]

/-- A phi that has inputs from the block exactly if edges from there lead to it has the right ones
behind. -/
lemma count_keys_rewire_self (h : Listed f) (mem : v ∈ f.phis t)
    (prepared : (∃ k, (t, k) ∈ f.edgesOf b) → ∃ k, (b, k) ∈ f.keys v)
    (known : (∃ k, (b, k) ∈ f.keys v) → ∃ k, (t, k) ∈ f.succs b ∨ (t, k) ∈ f.edgesOf b) :
    ((f.rewire b).keys v).count (b, kind) = (f.edgesOf b).count (t, kind) := by
  obtain ⟨is, inputs⟩ := Option.isSome_iff_exists.1 (h.phi t v mem)
  have after := inputs?_rewire (b := b) h mem
  rw [inputs, Option.map_some] at after
  have from_b : (∃ i ∈ is, i.source = b) ↔ ∃ k, (b, k) ∈ f.keys v := by
    rw [keys_of_inputs? inputs]
    constructor
    · rintro ⟨i, there, rfl⟩
      exact ⟨i.kind, List.mem_map.2 ⟨i, there, rfl⟩⟩
    · rintro ⟨k, there⟩
      obtain ⟨i, there, eq⟩ := List.mem_map.1 there
      exact ⟨i, there, (Prod.mk.inj eq).1⟩
  by_cases input : ∃ k, (b, k) ∈ f.keys v
  · obtain ⟨k, edge⟩ := known input
    have touched : t ∈ targetsOf (f.succs b ++ f.edgesOf b) :=
      mem_targetsOf.2 ⟨k, List.mem_append.2 edge⟩
    rw [if_pos touched] at after
    rw [keys_of_inputs? after, count_reconcile, if_pos ⟨rfl, from_b.2 input⟩, count_map_filter]
  · have no_edge : (f.edgesOf b).count (t, kind) = 0 := by
      rw [List.count_eq_zero]
      exact fun there => input (prepared ⟨kind, there⟩)
    have no_input : (f.keys v).count (b, kind) = 0 := by
      rw [List.count_eq_zero]
      exact fun there => input ⟨kind, there⟩
    rw [no_edge]
    split at after
    · rw [keys_of_inputs? after, count_reconcile, if_neg fun there => input (from_b.1 there.2),
        ← keys_of_inputs? inputs, no_input]
    · rw [keys_of_inputs? after, ← keys_of_inputs? inputs, no_input]

end Rewire

section Reend

variable {c : BlockId} {term : Terminator} {hs : List Nat}

lemma sameNodes_modifyBlock {g : Block → Block} (phis : ∀ x, (g x).phis = x.phis)
    (body : ∀ x, (g x).body = x.body) : SameNodes f (f.modifyBlock b g) where
  size := size_modifyBlock
  isSome _ := isSome_block?_modifyBlock
  phis _ := phis_modifyBlock phis
  body _ := body_modifyBlock body
  catches := rfl
  owner _ := rfl
  isPhi _ := rfl

/-- The graph with another terminator and other handlers for a block, whose edges are stale then. -/
def withEnd (f : Func) (b : BlockId) (term : Terminator) (hs : List Nat) : Func :=
  f.modifyBlock b fun x => { x with terminator := term, handlers := hs }

lemma sameNodes_withEnd : SameNodes f (f.withEnd b term hs) :=
  sameNodes_modifyBlock (fun _ => rfl) fun _ => rfl

@[simp] lemma succs_withEnd : (f.withEnd b term hs).succs c = f.succs c :=
  succs_modifyBlock fun _ => rfl

@[simp] lemma preds_withEnd : (f.withEnd b term hs).preds c = f.preds c :=
  preds_modifyBlock fun _ => rfl

@[simp] lemma keys_withEnd : (f.withEnd b term hs).keys v = f.keys v := rfl

lemma terminator_withEnd (live : (f.block? b).isSome) :
    (f.withEnd b term hs).terminator c = if c = b then term else f.terminator c := by
  obtain ⟨x, here⟩ := Option.isSome_iff_exists.1 live
  rw [withEnd, terminator, block?_modifyBlock]
  by_cases same : b = c
  · subst same
    simp [here]
  · simp [same, Ne.symm same, terminator]

lemma handlersOf_withEnd (live : (f.block? b).isSome) :
    (f.withEnd b term hs).handlersOf c = if c = b then hs else f.handlersOf c := by
  obtain ⟨x, here⟩ := Option.isSome_iff_exists.1 live
  rw [withEnd, handlersOf, block?_modifyBlock]
  by_cases same : b = c
  · subst same
    simp [here]
  · simp [same, Ne.symm same, handlersOf]

lemma edgesOf_withEnd (live : (f.block? b).isSome) :
    (f.withEnd b term hs).edgesOf b = edgesFrom f.handlers term hs := by
  rw [edgesOf_eq, terminator_withEnd live, handlersOf_withEnd live, if_pos rfl, if_pos rfl]
  rfl

/-- The graph with another terminator and other handlers for a block. -/
def reend (f : Func) (b : BlockId) (term : Terminator) (hs : List Nat) : Func :=
  (f.withEnd b term hs).rewire b

lemma sameNodes_reend : SameNodes f (f.reend b term hs) :=
  sameNodes_withEnd.trans sameNodes_rewire

lemma terminator_reend (live : (f.block? b).isSome) :
    (f.reend b term hs).terminator c = if c = b then term else f.terminator c := by
  rw [reend, terminator_rewire, terminator_withEnd live]

lemma handlersOf_reend (live : (f.block? b).isSome) :
    (f.reend b term hs).handlersOf c = if c = b then hs else f.handlersOf c := by
  rw [reend, handlersOf_rewire, handlersOf_withEnd live]

lemma succs_reend (live : (f.block? b).isSome) : (f.reend b term hs).succs c =
    if c = b then edgesFrom f.handlers term hs else f.succs c := by
  rw [reend, succs_rewire (by rw [sameNodes_withEnd.isSome, live]), edgesOf_withEnd live,
    succs_withEnd]

lemma handlersOf_withEnd_self (live : (f.block? b).isSome) :
    (f.withEnd b term (f.handlersOf b)).handlersOf c = f.handlersOf c := by
  rw [handlersOf_withEnd live]
  split
  · rename_i here
    rw [here]
  · rfl

lemma wired_reend {stale : BlockId → Prop} (live : (f.block? b).isSome)
    (wired : ∀ c, ¬stale c → f.succs c = f.edgesOf c) (c : BlockId) (fresh : ¬(stale c ∧ c ≠ b)) :
    (f.reend b term hs).succs c = (f.reend b term hs).edgesOf c := by
  rw [succs_reend live, edgesOf_eq, terminator_reend live, handlersOf_reend live, sameNodes_reend.catches]
  split
  · rfl
  · rename_i other
    rw [← edgesOf_eq]
    exact wired c fun old => fresh ⟨old, other⟩

lemma live_of_mem_succs_reend (live : (f.block? b).isSome)
    (targets : ∀ e ∈ edgesFrom f.handlers term hs, (f.block? e.1).isSome)
    (old : ∀ c, ∀ e ∈ f.succs c, (f.block? e.1).isSome) (c : BlockId) (e : BlockId × EdgeKind)
    (mem : e ∈ (f.reend b term hs).succs c) : ((f.reend b term hs).block? e.1).isSome := by
  rw [succs_reend live] at mem
  rw [sameNodes_reend.isSome]
  split at mem
  · exact targets e mem
  · exact old c e mem

lemma count_preds_reend (linked : ∀ kind, (f.preds t).count (b, kind) = (f.succs b).count (t, kind))
    (live : (f.block? b).isSome) (there : (f.block? t).isSome) :
    ((f.reend b term hs).preds t).count (s, kind) =
      if s = b then (edgesFrom f.handlers term hs).count (t, kind)
      else (f.preds t).count (s, kind) := by
  rw [reend, count_preds_rewire (by rw [sameNodes_withEnd.isSome, there]), edgesOf_withEnd live,
    succs_withEnd, preds_withEnd, linked, Nat.sub_self, Nat.zero_add]

lemma count_keys_reend_of_ne (h : Listed f) (mem : v ∈ f.phis t) (other : s ≠ b) :
    ((f.reend b term hs).keys v).count (s, kind) = (f.keys v).count (s, kind) := by
  have same : SameNodes f (f.withEnd b term hs) := sameNodes_withEnd
  rw [← same.phis] at mem
  exact count_keys_rewire_of_ne (h.sameNodes same) mem other

lemma keys_reend_of_forall (h : Listed f) (live : (f.block? b).isSome) (mem : v ∈ f.phis t)
    (none : ∀ k, (t, k) ∉ f.succs b ∧ (t, k) ∉ edgesFrom f.handlers term hs) :
    (f.reend b term hs).keys v = f.keys v := by
  have same : SameNodes f (f.withEnd b term hs) := sameNodes_withEnd
  rw [← same.phis] at mem
  rw [← edgesOf_withEnd live, ← succs_withEnd] at none
  exact keys_rewire_of_forall (h.sameNodes same) mem none

lemma count_keys_reend_self (h : Listed f) (live : (f.block? b).isSome) (mem : v ∈ f.phis t)
    (prepared : (∃ k, (t, k) ∈ edgesFrom f.handlers term hs) → ∃ k, (b, k) ∈ f.keys v)
    (known : (∃ k, (b, k) ∈ f.keys v) →
      ∃ k, (t, k) ∈ f.succs b ∨ (t, k) ∈ edgesFrom f.handlers term hs) :
    ((f.reend b term hs).keys v).count (b, kind) =
      (edgesFrom f.handlers term hs).count (t, kind) := by
  have same : SameNodes f (f.withEnd b term hs) := sameNodes_withEnd
  rw [← same.phis] at mem
  rw [← edgesOf_withEnd live] at prepared known ⊢
  rw [← keys_withEnd] at prepared known
  rw [← succs_withEnd] at known
  exact count_keys_rewire_self (h.sameNodes same) mem prepared known

lemma agreed_reend (live : (f.block? b).isSome)
    (agreed : ∀ t, (f.block? t).isSome → ∀ s kind, (f.preds t).count (s, kind) = (f.succs s).count (t, kind))
    (t : BlockId) (there : ((f.reend b term hs).block? t).isSome) (s : BlockId) (kind : EdgeKind) :
    ((f.reend b term hs).preds t).count (s, kind) = ((f.reend b term hs).succs s).count (t, kind) := by
  rw [sameNodes_reend.isSome] at there
  rw [count_preds_reend (agreed t there b) live there, succs_reend live]
  split
  · rfl
  · exact agreed t there s kind

lemma Shaped.reend (h : Shaped f) (live : (f.block? b).isSome) (inside : b ≠ Func.exit)
    (guarded : b = Func.entry → hs = [])
    (covered : ∀ k ∈ hs, ∃ c, f.handlers[k]? = some c ∧ c.target ≠ Func.entry ∧
      f.phis c.target = [])
    (enters : ∀ e ∈ term.targets, e.1 ≠ Func.entry) : Shaped (f.reend b term hs) := by
  refine h.sameNodes sameNodes_reend ?_ ⟨?_, ?_⟩ ?_ ?_ ?_
  · rw [handlersOf_reend live]
    split
    · rename_i here
      exact guarded here.symm
    · exact h.entry.2.2.2
  · rw [handlersOf_reend live, if_neg (Ne.symm inside)]
    exact h.exit.2.2.2.1
  · rw [terminator_reend live, if_neg (Ne.symm inside)]
    exact h.exit.2.2.2.2
  · intro c k mem
    rw [handlersOf_reend live] at mem
    split at mem
    · exact covered k mem
    · exact h.covered c k mem
  · intro t there s kind
    exact agreed_reend live h.linked t (by rwa [sameNodes_reend.isSome]) s kind
  · intro c e mem
    rw [terminator_reend live] at mem
    split at mem
    · exact enters e mem
    · exact h.enters c e mem

variable {stale : BlockId → Prop} {due : BlockId → List (BlockId × EdgeKind)}

section Sound

variable (h : Sound stale due f) (live : (f.block? b).isSome) (inside : b ≠ Func.exit)
  (start : b = Func.entry → hs = [] ∧ ∃ c, term = .goto c)
  (covered : ∀ k ∈ hs, ∃ c, f.handlers[k]? = some c ∧ c.target ≠ Func.entry ∧ f.phis c.target = [])
  (enters : ∀ e ∈ term.targets, e.1 ≠ Func.entry)
  (targets : ∀ e ∈ edgesFrom f.handlers term hs, (f.block? e.1).isSome)
include h live inside start covered enters targets

lemma Sound.reend_of_synced {due' : BlockId → List (BlockId × EdgeKind)} (same : ∀ s, s ≠ b → due' s = due s)
    (synced : ∀ t, ∀ v ∈ f.phis t, ∀ kind,
      ((f.reend b term hs).keys v).count (b, kind) = (due' b).count (t, kind)) :
    Sound (fun c => stale c ∧ c ≠ b) due' (f.reend b term hs) := by
  refine ⟨h.toShaped.reend live inside (fun here => (start here).1) covered enters, wired_reend live h.wired,
    live_of_mem_succs_reend live targets h.live, ?_, ?_⟩
  · intro t v mem s kind
    rw [sameNodes_reend.phis] at mem
    by_cases here : s = b
    · subst here
      exact synced t v mem kind
    · rw [count_keys_reend_of_ne h.toListed mem here, same s here]
      exact h.synced t v mem s kind
  · rw [terminator_reend live]
    split
    · rename_i here
      exact (start here.symm).2
    · exact h.start

/-- A block may get another end that leads to blocks that exist, if edges from the block are due where
there are phis exactly if edges from it will lead there.  Its edges are in order behind. -/
lemma Sound.reend (prepared : ∀ t, f.phis t ≠ [] → (∃ k, (t, k) ∈ edgesFrom f.handlers term hs) → ∃ k, (t, k) ∈ due b)
    (known : ∀ t, f.phis t ≠ [] → (∃ k, (t, k) ∈ due b) →
      ∃ k, (t, k) ∈ f.succs b ∨ (t, k) ∈ edgesFrom f.handlers term hs) :
    Sound (fun c => stale c ∧ c ≠ b) (Function.update due b (edgesFrom f.handlers term hs))
      (f.reend b term hs) := by
  refine h.reend_of_synced live inside start covered enters targets
    (fun s other => Function.update_of_ne other _ _) fun t v mem kind => ?_
  have phis : f.phis t ≠ [] := List.ne_nil_of_mem mem
  have asked (k) : (b, k) ∈ f.keys v ↔ (t, k) ∈ due b := by
    rw [← List.count_pos_iff, h.synced t v mem, List.count_pos_iff]
  rw [Function.update_self, count_keys_reend_self h.toListed live mem]
  · simpa only [asked] using prepared t phis
  · simpa only [asked] using known t phis

/-- Nothing else becomes due if a block has another end and no phis are at its old edges or its new
ones. -/
lemma Sound.reend_of_forall (none : ∀ e, e ∈ f.succs b ∨ e ∈ edgesFrom f.handlers term hs → f.phis e.1 = []) :
    Sound (fun c => stale c ∧ c ≠ b) due (f.reend b term hs) := by
  refine h.reend_of_synced live inside start covered enters targets (fun _ _ => rfl)
    fun t v mem kind => ?_
  have phis : f.phis t ≠ [] := List.ne_nil_of_mem mem
  rw [keys_reend_of_forall h.toListed live mem, h.synced t v mem]
  exact fun k => ⟨fun old => phis (none _ (.inl old)), fun new => phis (none _ (.inr new))⟩

end Sound

end Reend

end Func

end Avm.Ir
