import Avm.Proofs.Ir.Inserting

/-!
# Two halves of a block

A block that is split keeps its phis and the nodes before the place, and leads on to a new block, which has the other
nodes and ends as the old one did.  Both are protected as the old one was.  What came in on edges of the block comes in
from the second half; where exceptions are handled, it comes in from the first half as well.  All else stays, and the
graph passes the check behind if it did so before.

The main statement is `halves_of_splitBlock`.
-/

namespace Avm.Ir

lemma incoming?_copies {is : List PhiInput} {b m s : BlockId} {kind k : EdgeKind} :
    incoming? ((is.filter fun i => i.source == b && i.kind == kind).map fun i => { i with source := m }) s k =
      if s = m ∧ k = kind then incoming? is b kind else none := by
  induction is with
  | nil => simp [incoming?]
  | cons i is ih =>
    rw [incoming?_cons, List.filter_cons]
    by_cases own : i.source = b ∧ i.kind = kind
    · have keeps : (i.source == b && i.kind == kind) = true := by simpa using own
      rw [keeps, if_pos rfl, List.map_cons, incoming?_cons, ih, own.2]
      grind
    · have skips : ¬(i.source == b && i.kind == kind) = true := by simpa using own
      rw [if_neg skips, ih, if_neg own]

/-- Inputs for one edge are for an edge from another block, or are copied there if the edge is exceptional. -/
lemma incoming?_splitInputs {is : List PhiInput} {b m s : BlockId} {kind k : EdgeKind}
    (new : incoming? is m kind = none) :
    incoming? (Edit.splitInputs b m kind is) s k = if s = m ∧ k = kind then incoming? is b kind
      else if s = b ∧ k = kind ∧ kind ≠ .raise then none else incoming? is s k := by
  by_cases thrown : kind = .raise
  · subst thrown
    rw [Edit.splitInputs, if_pos rfl, incoming?_append, incoming?_copies]
    split
    · rename_i here
      rw [here.1, here.2, new, Option.none_or]
    · rw [Option.or_none, if_neg fun all => all.2.2 rfl]
  · rw [Edit.splitInputs, if_neg thrown]
    induction is with
    | nil => simp [incoming?]
    | cons i is ih =>
      rw [incoming?_cons] at new
      split at new
      · cases new
      · rename_i other
        rw [List.map_cons, incoming?_cons, incoming?_cons, incoming?_cons, ih new]
        by_cases moved : i.source = b ∧ i.kind = kind
        · rw [if_pos moved]
          grind
        · rw [if_neg moved]
          grind

lemma nodup_keysOf_splitInputs {is : List PhiInput} {b m : BlockId} {kind : EdgeKind} (new : incoming? is m kind = none)
    (other : m ≠ b) (once : (keysOf is).Nodup) : (keysOf (Edit.splitInputs b m kind is)).Nodup := by
  have absent : (m, kind) ∉ keysOf is := by
    rw [← incoming?_isSome, new]
    exact Bool.false_ne_true
  by_cases thrown : kind = .raise
  · have copies : keysOf ((is.filter fun i => i.source == b && i.kind == kind).map fun i => { i with source := m }) =
        ((keysOf is).filter (· == (b, kind))).map fun _ => (m, kind) := by
      rw [keysOf, keysOf, List.map_map, List.filter_map, List.map_map]
      have same : (fun i : PhiInput => i.source == b && i.kind == kind) =
          (· == (b, kind)) ∘ fun i : PhiInput => (i.source, i.kind) := rfl
      rw [same]
      refine List.map_congr_left fun i mem => ?_
      have own := (List.mem_filter.1 mem).2
      simp only [Function.comp, beq_iff_eq, Prod.mk.injEq] at own
      simp [own.2]
    have few : (((keysOf is).filter (· == (b, kind))).map fun _ => (m, kind)).Nodup := by
      rw [List.filter_beq, once.count, List.map_replicate]
      split
      · exact List.nodup_singleton _
      · exact List.nodup_nil
    rw [Edit.splitInputs, if_pos thrown, keysOf, List.map_append, ← keysOf, ← keysOf, copies]
    refine List.nodup_append.2 ⟨once, few, fun e mem e' mem' => ?_⟩
    obtain ⟨-, -, rfl⟩ := List.mem_map.1 mem'
    rintro rfl
    exact absent mem
  · have renamed : keysOf (Edit.splitInputs b m kind is) =
        (keysOf is).map fun e => if e = (b, kind) then (m, kind) else e := by
      rw [Edit.splitInputs, if_neg thrown, keysOf, keysOf, List.map_map, List.map_map]
      refine List.map_congr_left fun i _ => ?_
      by_cases here : i.source = b ∧ i.kind = kind
      · simp [here]
      · simp [here]
    have ne : (b, kind) ≠ (m, kind) := fun same => other (Prod.mk.inj same).1.symm
    refine List.nodup_iff_count_le_one.2 fun e => ?_
    rw [renamed, count_map_rename ne]
    have single := List.nodup_iff_count_le_one.1 once
    split
    · exact Nat.zero_le _
    · split
      · rename_i here
        rw [here, List.count_eq_zero.2 absent, Nat.zero_add]
        exact single _
      · exact single e

namespace Func

variable {f f' : Func} {b s t m : BlockId} {v w : ValueId} {kind k : EdgeKind} {index depth depth' : Nat}
  {es : List (BlockId × EdgeKind)}

section Views

lemma sameRest_handNodes {vs : List ValueId} : SameRest f (f.handNodes vs m) :=
  List.foldlRecOn vs _ (SameRest.refl f) fun _ old _ _ => ⟨old.rest, size_nodes_modifyNode.trans old.size⟩

lemma sameRest_handPhis : SameRest f (f.handPhis b m es) :=
  List.foldlRecOn es _ (SameRest.refl f) fun _ old _ _ => old.trans sameRest_modifyPhis

lemma sameRest_cutBody : SameRest f (f.cutBody b m index depth) :=
  have short : SameRest f (f.modifyBlock b fun x => { x with body := x.body.take index }) := ⟨rfl, rfl⟩
  (short.trans sameRest_handNodes).trans ⟨rfl, rfl⟩

lemma sameRest_cut : SameRest f (f.cut b index depth depth') := by
  have prepared : SameRest f (f.preparedCut b index depth depth') :=
    (sameRest_beside.trans sameRest_cutBody).trans sameRest_handPhis
  have ended : SameRest f ((f.preparedCut b index depth depth').withEnd b .none (f.handlersOf b)) :=
    prepared.trans ⟨rfl, rfl⟩
  exact (ended.trans sameRest_reend).trans sameRest_reend

lemma node?_handPhis_of_notMem (absent : ∀ t, v ∉ f.phis t) : (f.handPhis b m es).node? v = f.node? v := by
  induction es generalizing f with
  | nil => rfl
  | cons e es ih =>
    rw [handPhis, List.foldl_cons, ← handPhis, ih, node?_modifyPhis_of_notMem (absent e.1)]
    exact fun t => by rw [sameNodes_modifyPhis.phis]; exact absent t

lemma node?_cut_of_notMem (absent : ∀ t, v ∉ f.phis t) : (f.cut b index depth depth').node? v =
    if v ∈ (f.body b).drop index then (f.node? v).map fun n => { n with block := f.blocks.size } else f.node? v := by
  have beside : (f.beside b depth).node? v = f.node? v := by
    rw [Func.beside, node?_reend_of_notMem fun t => by rw [alike_withBlock.phis, phis_pushBlock]; exact absent t]
    rfl
  have prepared : (f.preparedCut b index depth depth').node? v = ((f.beside b depth).cutBody b f.blocks.size index
      depth').node? v := by
    rw [preparedCut, node?_handPhis_of_notMem fun t => by rw [phis_cutBody, phis_beside]; exact absent t]
  rw [cut, node?_reend_of_notMem fun t => by rw [phis_enteredCut]; exact absent t, enteredCut,
    node?_reend_of_notMem fun t => by rw [sameNodes_withEnd.phis, phis_preparedCut]; exact absent t, withEnd,
    node?_modifyBlock, prepared, node?_cutBody, body_beside, beside]

variable (live : (f.block? b).isSome)
include live

lemma scopeDepth_cutBody : (f.cutBody b m index depth).scopeDepth t = if t = b then depth else f.scopeDepth t := by
  obtain ⟨x, here⟩ := Option.isSome_iff_exists.1 live
  let inner := ((f.modifyBlock b fun x => { x with body := x.body.take index }).handNodes
    ((f.body b).drop index) m).modifyBlock m fun x => { x with body := (f.body b).drop index }
  have same (t) : (inner.block? t).map Block.scopeDepth = (f.block? t).map Block.scopeDepth := by
    have first : ((f.modifyBlock b fun x => { x with body := x.body.take index }).block? t).map Block.scopeDepth =
        (f.block? t).map Block.scopeDepth := map_modifyBlock fun _ => rfl
    rw [← first, ← block?_congr (f := f.modifyBlock b fun x => { x with body := x.body.take index }) blocks_handNodes]
    exact map_modifyBlock fun _ => rfl
  have there := same b
  rw [here, Option.map_some] at there
  obtain ⟨y, found, -⟩ := Option.map_eq_some_iff.1 there
  change ((((inner.modifyBlock b fun x => { x with scopeDepth := depth }).block? t).map Block.scopeDepth).getD 0) = _
  rw [block?_modifyBlock]
  by_cases first : b = t
  · rw [if_pos first, if_pos first.symm, ← first, found]
    rfl
  · rw [if_neg first, if_neg (Ne.symm first), same, ← scopeDepth]

lemma body_cut : (f.cut b index depth depth').body t = if t = f.blocks.size then (f.body b).drop index
    else if t = b then (f.body b).take index else f.body t := by
  have there : ((f.beside b depth).block? f.blocks.size).isSome := by
    rw [isSome_beside, decide_eq_true rfl, Bool.true_or]
  rw [cut, sameNodes_reend.body, enteredCut, sameNodes_reend.body, sameNodes_withEnd.body, preparedCut,
    sameNodes_handPhis.body, body_cutBody there (size_ne_of_isSome live).symm, body_beside, body_beside]

lemma scopeDepth_cut : (f.cut b index depth depth').scopeDepth t = if t = f.blocks.size then depth
    else if t = b then depth' else f.scopeDepth t := by
  have there : ((f.beside b depth).block? b).isSome := by rw [isSome_beside, live, Bool.or_true]
  rw [cut, scopeDepth_reend, enteredCut, scopeDepth_reend, scopeDepth_withEnd, preparedCut, scopeDepth,
    block?_congr blocks_handPhis, ← scopeDepth, scopeDepth_cutBody there, scopeDepth_beside]
  split
  · rename_i here
    rw [here, if_neg (size_ne_of_isSome live)]
  · rfl

lemma ends_cut : (f.cut b index depth depth').terminator t =
    if t = b then .goto f.blocks.size else if t = f.blocks.size then f.terminator b else f.terminator t := by
  rw [cut, terminator_reend (isSome_enteredCut_self live), enteredCut, terminator_reend isSome_withEnd_preparedCut,
    terminator_withEnd (isSome_preparedCut_self live), terminator_preparedCut]
  split
  · rfl
  · rfl

lemma succs_cut (wired : f.succs b = f.edgesOf b) : (f.cut b index depth depth').succs t =
    if t = b then (f.blocks.size, .fallthrough) :: edgesFrom f.handlers .none (f.handlersOf b)
    else if t = f.blocks.size then f.succs b else f.succs t := by
  rw [cut, succs_reend (isSome_enteredCut_self live), succs_enteredCut wired, catches_enteredCut, edgesFrom_eq_append]
  rfl

end Views

section Hands

lemma Listed.incoming_splitInputs (h : Listed f) (mem : v ∈ f.phis t) {c : BlockId}
    (new : c = t → f.incoming v m kind = none) :
    (f.modifyPhis (f.phis c) (Edit.splitInputs b m kind)).incoming v s k = if c = t then
      if s = m ∧ k = kind then f.incoming v b kind else if s = b ∧ k = kind ∧
        kind ≠ .raise then none else f.incoming v s k
      else f.incoming v s k := by
  have here : v ∈ f.phis c ↔ c = t := by
    refine ⟨fun there => h.eq_of_mem_phis there mem, ?_⟩
    rintro rfl
    exact mem
  rw [incoming, inputs?_modifyPhis (h.nodup_phis c), if_congr here rfl rfl]
  split
  · rename_i there
    have new := new there
    simp only [incoming] at new ⊢
    cases inputs : f.inputs? v with
    | none => simp
    | some is =>
      rw [inputs] at new
      rw [Option.map_some, Option.bind_some, incoming?_splitInputs new]
      rfl
  · rfl

/-- What came in on edges of a block comes in from another block, and on exceptional edges from both. -/
lemma Listed.incoming_handPhis (h : Listed f) (mem : v ∈ f.phis t) (once : es.Nodup) (other : m ≠ b)
    (new : ∀ k, (t, k) ∈ es → f.incoming v m k = none) :
    (f.handPhis b m es).incoming v s k = if (t, k) ∈ es then
      if s = m then f.incoming v b k else if s = b ∧ k ≠ .raise then none else f.incoming v s k
      else f.incoming v s k := by
  induction es generalizing f with
  | nil => rfl
  | cons e es ih =>
    obtain ⟨c, kind⟩ := e
    obtain ⟨absent, once⟩ := List.nodup_cons.1 once
    have same : SameNodes f (f.modifyPhis (f.phis c) (Edit.splitInputs b m kind)) := sameNodes_modifyPhis
    have fresh : c = t → f.incoming v m kind = none := fun here => new kind (by rw [here]; exact List.mem_cons_self)
    have first (s k) := h.incoming_splitInputs (b := b) (s := s) (k := k) mem fresh
    have later (k) (there : (t, k) ∈ es) :
      (f.modifyPhis (f.phis c) (Edit.splitInputs b m kind)).incoming v m k = none := by
      rw [first, new k (List.mem_cons_of_mem _ there)]
      grind
    rw [handPhis, List.foldl_cons, ← handPhis, ih (h.sameNodes same) (by rwa [same.phis]) once later]
    simp only [first, List.mem_cons, Prod.mk.injEq]
    grind

lemma Listed.once_handPhis (h : Listed f) (mem : v ∈ f.phis t) (once : es.Nodup) (other : m ≠ b)
    (new : ∀ k, (t, k) ∈ es → f.incoming v m k = none) (before : f.Once v) : (f.handPhis b m es).Once v := by
  induction es generalizing f with
  | nil => exact before
  | cons e es ih =>
    obtain ⟨c, kind⟩ := e
    obtain ⟨absent, once⟩ := List.nodup_cons.1 once
    have same : SameNodes f (f.modifyPhis (f.phis c) (Edit.splitInputs b m kind)) := sameNodes_modifyPhis
    have fresh (here : c = t) : f.incoming v m kind = none := new kind (by rw [here]; exact List.mem_cons_self)
    have later (k) (there : (t, k) ∈ es) :
      (f.modifyPhis (f.phis c) (Edit.splitInputs b m kind)).incoming v m k = none := by
      rw [h.incoming_splitInputs mem fresh, new k (List.mem_cons_of_mem _ there)]
      grind
    rw [handPhis, List.foldl_cons, ← handPhis]
    refine ih (h.sameNodes same) (by rwa [same.phis]) once later fun is inputs => ?_
    rw [inputs?_modifyPhis (h.nodup_phis c)] at inputs
    split at inputs
    · rename_i there
      obtain ⟨js, first, rfl⟩ := Option.map_eq_some_iff.1 inputs
      have new := fresh (h.eq_of_mem_phis there mem)
      rw [incoming, first, Option.bind_some] at new
      exact nodup_keysOf_splitInputs new other (before js first)
    · exact before is inputs

end Hands

section Values

variable (edges : Wired (fun _ => False) f) (fed : Fed f) (h : Lawful f) (live : (f.block? b).isSome)
  (mem : v ∈ f.phis t)
include edges fed h live mem

lemma Fed.incoming_preparedCut : (f.preparedCut b index depth depth').incoming v s k =
    if s = f.blocks.size then f.incoming v b k else if s = b ∧ k ≠ .raise then none else f.incoming v s k := by
  have shared (s k) : ((f.beside b depth).cutBody b f.blocks.size index depth').incoming v s k = f.incoming v s k := by
    rw [incoming, inputs?_cutBody, ← incoming, fed.sparse.incoming_beside h mem]
  have there : v ∈ ((f.beside b depth).cutBody b f.blocks.size index depth').phis t := by
    rw [phis_cutBody, phis_beside]
    exact mem
  have known (k) := fed.known t v mem b k
  have once : (f.succs b).Nodup := by
    rw [edges.wired b id, edgesOf_eq]
    exact nodup_edgesFrom
  rw [preparedCut, (h.cutBody live index depth depth').toListed.incoming_handPhis there once
    (size_ne_of_isSome live).symm fun k _ => by rw [shared, fed.sparse.incoming_size mem], shared, shared]
  split
  · rfl
  · rename_i absent
    have none_ : f.incoming v b k = none := by rwa [← Option.not_isSome_iff_eq_none, known]
    split
    · rename_i here
      rw [here, none_, fed.sparse.incoming_size mem]
    · split
      · rename_i here
        rw [here.1, none_]
      · rfl

lemma Fed.once_preparedCut : (f.preparedCut b index depth depth').Once v := by
  have there : v ∈ ((f.beside b depth).cutBody b f.blocks.size index depth').phis t := by
    rw [phis_cutBody, phis_beside]
    exact mem
  have once : (f.succs b).Nodup := by
    rw [edges.wired b id, edgesOf_eq]
    exact nodup_edgesFrom
  refine (h.cutBody live index depth depth').toListed.once_handPhis there once (size_ne_of_isSome live).symm
    (fun k _ => ?_) fun is inputs => ?_
  · rw [incoming, inputs?_cutBody, ← incoming, fed.sparse.incoming_beside h mem, fed.sparse.incoming_size mem]
  · rw [inputs?_cutBody] at inputs
    exact fed.sparse.once_beside h mem is inputs

lemma Fed.incoming_enteredCut : (f.enteredCut b index depth depth').incoming v s k =
    if s = f.blocks.size then f.incoming v b k else if s = b ∧ k ≠ .raise then none else f.incoming v s k := by
  have prepared (s k) : ((f.preparedCut b index depth depth').withEnd b .none (f.handlersOf b)).incoming v s k =
      (f.preparedCut b index depth depth').incoming v s k := rfl
  have there : v ∈ ((f.preparedCut b index depth depth').withEnd b .none (f.handlersOf b)).phis t := by
    rw [sameNodes_withEnd.phis, phis_preparedCut]
    exact mem
  rw [enteredCut, incoming_reend_of_known (h.withEnd_preparedCut live index depth depth').toListed there
    isSome_withEnd_preparedCut fun k => ?_, prepared, fed.incoming_preparedCut edges h live mem]
  rw [prepared, fed.incoming_preparedCut edges h live mem, if_pos rfl, sameNodes_withEnd.catches, catches_preparedCut,
    ← edgesOf_eq, ← edges.wired b id]
  exact fed.known t v mem b k

/-- What came in on the edges of a block comes in from its second half, and where exceptions are handled, from both. -/
lemma Fed.incoming_cut : (f.cut b index depth depth').incoming v s k =
    if s = f.blocks.size then f.incoming v b k
    else if s = b then if (t, k) ∈ edgesFrom f.handlers .none (f.handlersOf b) then f.incoming v b k else none
    else f.incoming v s k := by
  have other : b ≠ f.blocks.size := size_ne_of_isSome live
  have old : t ≠ f.blocks.size := size_ne_of_isSome (isSome_of_mem_nodesOf (List.mem_append_left _ mem))
  have there : v ∈ (f.enteredCut b index depth depth').phis t := by
    rw [phis_enteredCut]
    exact mem
  have own (k) : (f.enteredCut b index depth depth').incoming v b k =
    if k ≠ .raise then none else f.incoming v b k := by
    rw [fed.incoming_enteredCut edges h live mem, if_neg other, if_congr (and_iff_right rfl) rfl rfl]
  have leads : (t, k) ∈ edgesFrom f.handlers (.goto f.blocks.size) (f.handlersOf b) ↔
      (t, k) ∈ edgesFrom f.handlers .none (f.handlersOf b) := by
    rw [edgesFrom_eq_append, List.mem_append, or_iff_right]
    exact fun new => old (Prod.mk.inj (List.mem_singleton.1 new)).1
  rw [cut, incoming_reend_eq (h.enteredCut live index depth depth').toListed there (isSome_enteredCut_self live),
    catches_enteredCut,
    if_congr leads rfl rfl, own, fed.incoming_enteredCut edges h live mem]
  · by_cases new : s = f.blocks.size
    · rw [if_neg fun here => other (here.symm.trans new), if_pos new, if_pos new]
    · rw [if_neg new, if_neg new]
      by_cases here : s = b
      · rw [if_pos here, if_pos here]
        split
        · rename_i caught
          have raises : k = .raise := eq_raise_of_caught caught
          obtain ⟨x, brings⟩ := Option.isSome_iff_exists.1
            ((fed.known t v mem b k).2 (edges.mem_succs_of_caught caught))
          rw [if_neg fun not => not raises, brings, Option.some_or]
        · rfl
      · rw [if_neg here, if_neg here, if_neg fun both => here both.1]
  · intro k some_
    refine ⟨k, .inl ?_⟩
    rw [succs_enteredCut (edges.wired b id), if_neg other, ← fed.known t v mem]
    rw [own] at some_
    split at some_
    · cases some_
    · exact some_

lemma Fed.once_cut : (f.cut b index depth depth').Once v := by
  refine once_reend (t := t) (h.enteredCut live index depth depth').toListed ?_ (isSome_enteredCut_self live)
    (once_reend (t := t) (h.withEnd_preparedCut live index depth depth').toListed ?_ isSome_withEnd_preparedCut ?_)
  · rw [phis_enteredCut]
    exact mem
  · rw [sameNodes_withEnd.phis, phis_preparedCut]
    exact mem
  · exact fed.once_preparedCut edges h live mem

end Values

section Main

lemma Wired.withEnd_none (edges : Wired (fun _ => False) f) (live : (f.block? b).isSome) :
    Wired (· = b) (f.withEnd b .none (f.handlersOf b)) where
  wired c other := by
    rw [succs_withEnd, edgesOf_eq, terminator_withEnd live, handlersOf_withEnd live, if_neg other, if_neg other,
      sameNodes_withEnd.catches, ← edgesOf_eq]
    exact edges.wired c id
  live c e mem := by
    rw [succs_withEnd] at mem
    rw [sameNodes_withEnd.isSome]
    exact edges.live c e mem
  agreed t there s k := by
    rw [sameNodes_withEnd.isSome] at there
    rw [preds_withEnd, succs_withEnd]
    exact edges.agreed t there s k

lemma Wired.cut (edges : Wired (fun _ => False) f) (live : (f.block? b).isSome) :
    Wired (fun _ => False) (f.cut b index depth depth') := by
  have other : b ≠ f.blocks.size := size_ne_of_isSome live
  have prepared : Wired (fun _ => False) (f.preparedCut b index depth depth') :=
    ((edges.beside b depth).sameFlow sameFlow_cutBody).sameFlow sameFlow_handPhis
  have open_ := prepared.withEnd_none (isSome_preparedCut_self live)
  rw [handlersOf_preparedCut, if_neg other] at open_
  have entered : Wired (fun c => c = b ∧ c ≠ f.blocks.size) (f.enteredCut b index depth depth') := by
    refine open_.reend isSome_withEnd_preparedCut fun e mem => ?_
    rw [sameNodes_withEnd.catches, catches_preparedCut, ← edgesOf_eq, ← edges.wired b id] at mem
    rw [sameNodes_withEnd.isSome, isSome_preparedCut, edges.live b e mem, Bool.or_true]
  refine (entered.reend (isSome_enteredCut_self live) fun e mem => ?_).mono fun c old => old.2 old.1.1
  rw [catches_enteredCut, edgesFrom_eq_append, List.mem_append] at mem
  rw [isSome_enteredCut]
  obtain mem | mem := mem
  · rw [List.mem_singleton.1 mem, decide_eq_true rfl, Bool.true_or]
  · rw [edges.live b e (edges.mem_succs_of_caught mem), Bool.or_true]

lemma Lawful.fed_cut (edges : Wired (fun _ => False) f) (fed : Fed f) (h : Lawful f) (live : (f.block? b).isSome) :
    Fed (f.cut b index depth depth') := by
  have other : b ≠ f.blocks.size := size_ne_of_isSome live
  refine ⟨fun t v mem s k => ?_, fun t v mem => ?_⟩
  · rw [phis_cut] at mem
    have old : t ≠ f.blocks.size := size_ne_of_isSome (isSome_of_mem_nodesOf (List.mem_append_left _ mem))
    rw [fed.incoming_cut edges h live mem, succs_cut live (edges.wired b id)]
    by_cases new : s = f.blocks.size
    · rw [if_pos new, if_neg fun here => other (here.symm.trans new), if_pos new]
      exact fed.known t v mem b k
    · rw [if_neg new]
      by_cases here : s = b
      · rw [if_pos here, if_pos here, List.mem_cons, or_iff_right fun same => old (Prod.mk.inj same).1]
        split
        · rename_i caught
          exact iff_of_true ((fed.known t v mem b k).2 (edges.mem_succs_of_caught caught)) caught
        · rename_i not
          exact iff_of_false Bool.false_ne_true not
      · rw [if_neg here, if_neg here, if_neg new]
        exact fed.known t v mem s k
  · rw [phis_cut] at mem
    exact fed.once_cut edges h live mem

/-- Nodes that are no phis change the scope stack in the graph with one more block as they did before. -/
lemma Lawful.scopeChanges_beside (h : Lawful f) : Edit.scopeChanges (f.beside b depth) ((f.body b).drop index) =
    Edit.scopeChanges f ((f.body b).drop index) := by
  refine List.foldl_ext _ _ _ fun n v mem => ?_
  have plain := h.plain b v (List.mem_of_mem_drop mem)
  have same : (f.beside b depth).kind? v = f.kind? v := kind?_reend (f := f.withBlock depth) plain
  rw [same]

lemma Intact.cut (h : Intact f) (live : (f.block? b).isSome) (inner : b ≠ Func.entry ∧ b ≠ Func.exit) :
    Intact (f.cut b index depth depth') := by
  have lawful := h.toShaped.toLawful
  obtain ⟨edges, fed⟩ := lawful.verify_eq_ok.1 (verify_of_intact h)
  have halved := lawful.cut live index depth depth'
  have edges' : Wired (fun _ => False) (f.cut b index depth depth') := edges.cut live
  have shaped : Shaped (f.cut b index depth depth') := { halved.toListed with
    entry := ⟨by rw [isSome_cut, h.entry.1, Bool.or_true], phis_cut.trans h.entry.2.1,
      by rw [body_cut live, if_neg h.size_ne.1.symm, if_neg inner.1.symm, h.entry.2.2.1],
      by rw [handlersOf_cut live, if_neg h.size_ne.1.symm, h.entry.2.2.2]⟩
    exit := ⟨by rw [isSome_cut, h.exit.1, Bool.or_true], phis_cut.trans h.exit.2.1,
      by rw [body_cut live, if_neg h.size_ne.2.symm, if_neg inner.2.symm, h.exit.2.2.1],
      by rw [handlersOf_cut live, if_neg h.size_ne.2.symm, h.exit.2.2.2.1],
      by rw [ends_cut live, if_neg inner.2.symm, if_neg h.size_ne.2.symm, h.exit.2.2.2.2]⟩
    linked := edges'.agreed
    covered := fun c k mem => by
      rw [handlersOf_cut live] at mem
      simp only [catches_cut, phis_cut]
      split at mem
      · exact h.covered b k mem
      · exact h.covered c k mem
    enters := fun c e mem => by
      rw [ends_cut live] at mem
      split at mem
      · rw [List.mem_singleton.1 mem]
        exact h.size_ne.1
      · split at mem
        · exact h.enters b e mem
        · exact h.enters c e mem }
  refine intact_of_verify shaped ?_ (halved.verify_eq_ok.2 ⟨edges', lawful.fed_cut edges fed live⟩)
  rw [ends_cut live, if_neg inner.1.symm, if_neg h.size_ne.1.symm]
  exact h.start

/-- A block was split: what its two halves and all else are like behind. -/
structure Halves (f : Func) (b : BlockId) (index : Nat) (m : BlockId) (f' : Func) : Prop where
  /-- The second half was not there, and all other blocks stay. -/
  fresh : f.block? m = none
  blocks : ∀ t, (f'.block? t).isSome = (decide (t = m) || (f.block? t).isSome)
  /-- Phis stay where they are, and the other nodes are shared out in order. -/
  phis : ∀ t, f'.phis t = f.phis t
  head : f'.body b = (f.body b).take index
  tail : f'.phis m = [] ∧ f'.body m = (f.body b).drop index
  body : ∀ t, t ≠ m → t ≠ b → f'.body t = f.body t
  /-- Nodes name the block that lists them, and those that are no phis stay otherwise. -/
  names : ∀ t, ∀ v ∈ f'.nodesOf t, (f'.node? v).map (·.block) = some t
  node? : ∀ v, (∀ t, v ∉ f.phis t) → f'.node? v =
    if v ∈ f'.body m then (f.node? v).map fun n => { n with block := m } else f.node? v
  /-- The first half goes on to the second, which ends as the block did, under the same handlers. -/
  goesOn : f'.terminator b = .goto m
  ends : f'.terminator m = f.terminator b
  terminator : ∀ t, t ≠ m → t ≠ b → f'.terminator t = f.terminator t
  handlersOf : ∀ t, f'.handlersOf t = f.handlersOf (if t = m then b else t)
  /-- The first half leads to the second, and where exceptions are handled; the second leads where the block did. -/
  onward : f'.succs b = (m, .fallthrough) :: edgesFrom f.handlers .none (f.handlersOf b)
  leads : f'.succs m = f.succs b
  succs : ∀ t, t ≠ m → t ≠ b → f'.succs t = f.succs t
  preds : ∀ t, (f'.block? t).isSome → ∀ s k, (f'.preds t).count (s, k) = (f'.succs s).count (t, k)
  /-- What came in from the block comes in from the second half. -/
  fromTail : ∀ t, ∀ v ∈ f.phis t, ∀ k, f'.incoming v m k = f.incoming v b k
  /-- On edges to where exceptions are handled it comes in from the first half as well, and on no others. -/
  fromHead : ∀ t, ∀ v ∈ f.phis t, ∀ k, f'.incoming v b k =
    if (t, k) ∈ edgesFrom f.handlers .none (f.handlersOf b) then f.incoming v b k else none
  incoming : ∀ t, ∀ v ∈ f.phis t, ∀ s k, s ≠ m → s ≠ b → f'.incoming v s k = f.incoming v s k
  once : ∀ t, ∀ v ∈ f.phis t, f'.Once v
  /-- The second half ends at the depth of the block, and the first one where the nodes that went had started from. -/
  depth : ∀ t, t ≠ b → f'.scopeDepth t = f.scopeDepth (if t = m then b else t)
  atPlace : 0 ≤ (f.scopeDepth b : Int) - Edit.scopeChanges f (f'.body m) →
    (f'.scopeDepth b : Int) + Edit.scopeChanges f (f'.body m) = f.scopeDepth b
  rest : SameRest f f'

lemma Lawful.halves (edges : Wired (fun _ => False) f) (fed : Fed f) (h : Lawful f) (live : (f.block? b).isSome) :
    f.Halves b index f.blocks.size (f.cut b index (f.scopeDepth b) (f.headDepth b index)) := by
  have other : b ≠ f.blocks.size := size_ne_of_isSome live
  have tail : (f.cut b index (f.scopeDepth b) (f.headDepth b index)).body f.blocks.size = (f.body b).drop index := by
    rw [body_cut live, if_pos rfl]
  have wired := edges.wired b id
  exact {
    fresh := block?_size
    blocks := fun t => isSome_cut
    phis := fun t => phis_cut
    head := by rw [body_cut live, if_neg other, if_pos rfl]
    tail := ⟨by rw [phis_cut, (parts_of_isNone block?_size).1], tail⟩
    body := fun t new old => by rw [body_cut live, if_neg new, if_neg old]
    names := (h.cut live index _ _).owned
    node? := fun v absent => by rw [node?_cut_of_notMem absent, tail]
    goesOn := terminator_cut live
    ends := by rw [ends_cut live, if_neg other.symm, if_pos rfl]
    terminator := fun t new old => by rw [ends_cut live, if_neg old, if_neg new]
    handlersOf := fun t => by
      rw [handlersOf_cut live]
      split <;> rfl
    onward := by rw [succs_cut live wired, if_pos rfl]
    leads := by rw [succs_cut live wired, if_neg other.symm, if_pos rfl]
    succs := fun t new old => by rw [succs_cut live wired, if_neg old, if_neg new]
    preds := fun t there s k => (edges.cut live).agreed t there s k
    fromTail := fun t v mem k => by rw [fed.incoming_cut edges h live mem, if_pos rfl]
    fromHead := fun t v mem k => by rw [fed.incoming_cut edges h live mem, if_neg other, if_pos rfl]
    incoming := fun t v mem s k new old => by rw [fed.incoming_cut edges h live mem, if_neg new, if_neg old]
    once := fun t v mem => fed.once_cut edges h live mem
    depth := fun t old => by
      rw [scopeDepth_cut live, if_neg old]
      split <;> rfl
    atPlace := fun deep => by
      rw [tail] at deep ⊢
      rw [scopeDepth_cut live, if_neg other, if_pos rfl, headDepth, h.scopeChanges_beside, Int.toNat_of_nonneg deep]
      exact Int.sub_add_cancel _ _
    rest := sameRest_cut }

/-- Just where there is such a place can a block be split, and then the graph passes the check
still, and has two halves of the block in its place. -/
theorem halves_of_splitBlock (h : Lawful f) (verified : f.verify = .ok ()) :
    ((∃ m f', (Edit.splitBlock b index).run f = .ok m f') ↔ (f.block? b).isSome ∧ index ≤ (f.body b).length) ∧
    ∀ m f', (Edit.splitBlock b index).run f = .ok m f' → f'.verify = .ok () ∧ f.Halves b index m f' := by
  obtain ⟨edges, fed⟩ := h.verify_eq_ok.1 verified
  refine ⟨⟨fun ⟨_, _, run⟩ => place_of_splitBlock run, fun ⟨live, inside⟩ => ?_⟩, fun m f' run => ?_⟩
  · refine ⟨_, _, Edit.run_splitBlock live inside (h.covered b) fun e mem => edges.live b e ?_⟩
    rw [edges.wired b id, edgesOf_eq]
    exact mem_edgesFrom.2 (.inl mem)
  · obtain ⟨live, -⟩ := place_of_splitBlock run
    obtain ⟨⟨rfl, rfl⟩, -⟩ := Edit.leaves_splitBlock.of_ok run
    exact ⟨(h.cut live index _ _).verify_eq_ok.2 ⟨edges.cut live, h.fed_cut edges fed live⟩, h.halves edges fed live⟩

/-- A graph in which a block opens a scope and stores, and is protected by a block with a phi. -/
def sheltered : Func :=
  [Change.addBlock, .addBlock, .addBlock, .addHandler ⟨4, 0, 0⟩, .setTerminator 0 (.goto 2), .setHandlers 2 [0],
    .appendNode 2 (.scope .push (some (.reg 0 0))), .appendNode 2 (.store 0 (.const .null)), .setTerminator 2 (.goto 3),
    .appendNode 3 (.phi [⟨.const (.int 5), 2, .fallthrough⟩]), .setTerminator 3 (.leave none),
    .appendNode 4 (.phi [⟨.const .null, 2, .raise⟩]), .setTerminator 4 (.leave none)].foldl
      Change.after (.new 0 0 {} 1)

theorem halves_of_splitBlock_sheltered : sheltered.verify = .ok () ∧
    ∃ f', (Edit.splitBlock 2 1).run sheltered = .ok 5 f' ∧ f'.verify = .ok () ∧ sheltered.Halves 2 1 5 f' := by
  have verified : sheltered.verify = .ok () := by decide +kernel
  exact ⟨verified, _, rfl, (halves_of_splitBlock (lawful_of_changes _ 0 0 {} 1) verified).2 5 _ rfl⟩

end Main

end Func

end Avm.Ir
