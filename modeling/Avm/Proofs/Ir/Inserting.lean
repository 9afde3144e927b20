import Avm.Proofs.Ir.Keeping

/-!
# A block on an edge

A block that is put on an edge is empty, goes on to where the edge led, and is protected as the start of the edge is.
The edge is led to it, what came in on the edge comes in by it, and all else stays.  The graph passes the check behind,
unless the new block brings an exceptional edge to a block with phis other than the one where the
edge led: nothing comes into these on that edge.

The main statement is `inserts_of_splitEdge`.
-/

namespace Avm.Ir

lemma Terminator.eq_of_mem_targets {t : Terminator} {b c : BlockId} {kind : EdgeKind}
    (mem : (b, kind) ∈ t.targets) (mem' : (c, kind) ∈ t.targets) : b = c := by
  cases t with
  | goto | jump =>
    exact (Prod.mk.inj ((List.mem_singleton.1 mem).trans (List.mem_singleton.1 mem').symm)).1
  | branch test operands onTrue onFalse =>
    simp only [targets, List.mem_cons, List.not_mem_nil, or_false, Prod.mk.injEq] at mem mem'
    obtain ⟨rfl, rfl⟩ | ⟨rfl, rfl⟩ := mem <;> simpa [eq_comm] using mem'
  | switch index default cases =>
    simp only [targets, List.mem_cons, List.mem_mapIdx, Prod.mk.injEq] at mem mem'
    obtain ⟨rfl, rfl⟩ | ⟨i, inside, rfl, rfl⟩ := mem
    · simpa [eq_comm] using mem'
    · obtain ⟨-, ⟨⟩⟩ | ⟨j, inside', rfl, same⟩ := mem'
      obtain rfl := EdgeKind.switchCase.inj same
      rfl
  | leave | raise | none => cases mem

lemma Terminator.ne_leave_of_mem_targets {t : Terminator} {b : BlockId} {kind : EdgeKind}
    (mem : (b, kind) ∈ t.targets) :
    kind ≠ .leave := by
  rintro rfl
  cases t <;> simp [targets] at mem

lemma incoming?_cons {i : PhiInput} {is : List PhiInput} {s : BlockId} {kind : EdgeKind} :
    incoming? (i :: is) s kind = if i.source = s ∧ i.kind = kind then some i.value else incoming? is s kind := by
  rw [incoming?, List.find?_cons, incoming?]
  by_cases here : i.source = s ∧ i.kind = kind
  · simp [here]
  · have skip : (i.source == s && i.kind == kind) = false := by
      rw [Bool.eq_false_iff]
      simpa using here
    rw [skip, if_neg here]

lemma incoming?_handOver {is : List PhiInput} {source middle s : BlockId} {kind k : EdgeKind}
    (new : ∀ i ∈ is, i.source ≠ middle) :
    incoming? (Func.handOver source middle kind is) s k =
      if s = middle then if k = .fallthrough then incoming? is source kind else none
      else if s = source ∧ k = kind then none else incoming? is s k := by
  induction is with
  | nil => simp [incoming?, Func.handOver]
  | cons i is ih =>
    have own := new i List.mem_cons_self
    have step : Func.handOver source middle kind (i :: is) =
        (if i.source = source ∧ i.kind = kind then { i with source := middle, kind := .fallthrough } else i) ::
          Func.handOver source middle kind is := rfl
    rw [step, incoming?_cons, ih fun j mem => new j (List.mem_cons_of_mem i mem), incoming?_cons, incoming?_cons]
    by_cases moved : i.source = source ∧ i.kind = kind
    · rw [if_pos moved, if_pos moved]
      grind
    · rw [if_neg moved, if_neg moved]
      grind

lemma nodup_keysOf_handOver {is : List PhiInput} {source middle : BlockId} {kind : EdgeKind}
    (new : ∀ i ∈ is, i.source ≠ middle) (once : (keysOf is).Nodup) :
    (keysOf (Func.handOver source middle kind is)).Nodup := by
  have renamed : keysOf (Func.handOver source middle kind is) =
      (keysOf is).map fun e => if e = (source, kind) then (middle, .fallthrough) else e := by
    rw [keysOf, Func.handOver, keysOf, List.map_map, List.map_map]
    refine List.map_congr_left fun i _ => ?_
    by_cases here : i.source = source ∧ i.kind = kind
    · simp [here]
    · simp [here]
  rw [renamed]
  refine once.map_on fun e mem e' mem' same => ?_
  obtain ⟨i, here, rfl⟩ := List.mem_map.1 mem
  obtain ⟨j, here', rfl⟩ := List.mem_map.1 mem'
  split at same
  · rename_i own
    split at same
    · rename_i own'
      rw [own, own']
    · exact absurd (Prod.mk.inj same).1.symm (new j here')
  · split at same
    · exact absurd (Prod.mk.inj same).1 (new i here)
    · exact same

namespace Func

variable {f f' : Func} {b s t source target : BlockId} {v w : ValueId} {kind k : EdgeKind} {term : Terminator}
  {hs : List Nat} {depth : Nat}

section Views

lemma scopeDepth_withEnd : (f.withEnd b term hs).scopeDepth t = f.scopeDepth t := by
  have same : ((f.withEnd b term hs).block? t).map Block.scopeDepth = (f.block? t).map Block.scopeDepth :=
    map_modifyBlock fun _ => rfl
  rw [scopeDepth, same, ← scopeDepth]

lemma scopeDepth_reend : (f.reend b term hs).scopeDepth t = f.scopeDepth t := by
  rw [scopeDepth, reend, map_rewire (p := Block.scopeDepth) (fun _ _ => rfl) fun _ _ => rfl, ← scopeDepth,
    scopeDepth_withEnd]

lemma node?_modifyPhis_of_notMem {vs : List ValueId} {g : List PhiInput → List PhiInput} (absent : w ∉ vs) :
    (f.modifyPhis vs g).node? w = f.node? w := by
  induction vs generalizing f with
  | nil => rfl
  | cons v vs ih =>
    rw [List.mem_cons, not_or] at absent
    rw [modifyPhis, List.foldl_cons, ← modifyPhis, ih absent.2, modifyInputs_eq, node?_modifyNode,
      if_neg (Ne.symm absent.1)]

lemma node?_syncPhis_of_notMem {es : List (BlockId × EdgeKind)} {ts : List BlockId} (absent : ∀ t, v ∉ f.phis t) :
    (f.syncPhis b es ts).node? v = f.node? v := by
  induction ts generalizing f with
  | nil => rfl
  | cons t ts ih =>
    have same (c) : (f.reconcilePhis t b ((es.filter (·.1 == t)).map (·.2))).phis c = f.phis c := by
      rw [phis, phis, reconcilePhis, block?_congr blocks_modifyPhis]
    rw [syncPhis, List.foldl_cons, ← syncPhis, ih fun c => by rw [same]; exact absent c, reconcilePhis,
      node?_modifyPhis_of_notMem (absent t)]

lemma node?_reend_of_notMem (absent : ∀ t, v ∉ f.phis t) : (f.reend b term hs).node? v = f.node? v := by
  rw [reend, rewire_eq, node?_modifyBlock, node?_syncPhis_of_notMem, node?, nodes_addLinks, nodes_dropLinks]
  · rfl
  · intro t
    rw [phis, map_addLinks (p := Block.phis) fun _ _ => rfl, map_dropLinks (p := Block.phis) fun _ _ => rfl, ← phis,
      sameNodes_withEnd.phis]
    exact absent t

lemma scopeDepth_beside : (f.beside s depth).scopeDepth t = if t = f.blocks.size then depth else f.scopeDepth t := by
  rw [beside, scopeDepth_reend, withBlock, scopeDepth, block?_modifyBlock, block?_pushBlock]
  by_cases here : t = f.blocks.size
  · simp [here]
  · rw [if_neg (Ne.symm here), if_neg here, if_neg here, scopeDepth]

lemma scopeDepth_onEdge : (f.onEdge source target kind depth).scopeDepth t =
    if t = f.blocks.size then depth else f.scopeDepth t := by
  rw [onEdge, scopeDepth_reend, enteredEdge, scopeDepth_reend, preparedEdge, scopeDepth, block?_congr blocks_modifyPhis,
    ← scopeDepth, scopeDepth_beside]

/-- Graphs that differ at most in their blocks and in what their nodes do. -/
structure SameRest (f f' : Func) : Prop where
  rest : { f' with blocks := f.blocks, nodes := f.nodes } = f
  size : f'.nodes.size = f.nodes.size

lemma SameRest.refl (f : Func) : SameRest f f := ⟨rfl, rfl⟩

lemma SameRest.trans {f₁ f₂ f₃ : Func} (h : SameRest f₁ f₂) (h' : SameRest f₂ f₃) : SameRest f₁ f₃ := by
  refine ⟨?_, h'.size.trans h.size⟩
  have first := h.rest
  rw [← h'.rest] at first
  exact first

lemma sameRest_reend : SameRest f (f.reend b term hs) :=
  rewire_keeps (P := SameRest f) (fun _ _ _ old => ⟨old.rest, old.size⟩) (fun _ _ old => ⟨old.rest, old.size⟩)
    (fun _ _ _ old => ⟨old.rest, size_nodes_modifyNode.trans old.size⟩) ⟨rfl, rfl⟩

lemma sameRest_modifyPhis {vs : List ValueId} {g : List PhiInput → List PhiInput} : SameRest f (f.modifyPhis vs g) :=
  List.foldlRecOn vs _ (SameRest.refl f) fun _ old _ _ => ⟨old.rest, size_nodes_modifyNode.trans old.size⟩

lemma sameRest_beside : SameRest f (f.beside s depth) :=
  have added : SameRest f (f.withBlock depth) := ⟨rfl, rfl⟩
  added.trans sameRest_reend

lemma sameRest_onEdge : SameRest f (f.onEdge source target kind depth) :=
  ((sameRest_beside.trans sameRest_modifyPhis).trans sameRest_reend).trans sameRest_reend

lemma node?_onEdge_of_notMem (absent : ∀ t, v ∉ f.phis t) :
    (f.onEdge source target kind depth).node? v = f.node? v := by
  have phis₁ (t) : (f.withBlock depth).phis t = f.phis t := by rw [alike_withBlock.phis, phis_pushBlock]
  rw [onEdge, node?_reend_of_notMem, enteredEdge, node?_reend_of_notMem, preparedEdge,
    node?_modifyPhis_of_notMem (absent target), beside, node?_reend_of_notMem]
  · rfl
  · exact fun t => by rw [phis₁]; exact absent t
  · exact fun t => by rw [phis_preparedEdge]; exact absent t
  · exact fun t => by rw [phis_enteredEdge]; exact absent t

end Views

lemma foldl_unless_append {α : Type} [BEq α] [LawfulBEq α] {l es acc : List α} (apart : ∀ e ∈ l, e ∉ es) :
    l.foldl (fun es e => if es.contains e then es else es ++ [e]) (es ++ acc) =
      es ++ l.foldl (fun es e => if es.contains e then es else es ++ [e]) acc := by
  induction l generalizing acc with
  | nil => rfl
  | cons e l ih =>
    have rest : ∀ e ∈ l, e ∉ es := fun x mem => apart x (List.mem_cons_of_mem e mem)
    have here : (es ++ acc).contains e = acc.contains e := by
      rw [Bool.eq_iff_iff, List.contains_iff_mem, List.contains_iff_mem, List.mem_append,
        or_iff_right (apart e List.mem_cons_self)]
    rw [List.foldl_cons, List.foldl_cons, here]
    split
    · exact ih rest
    · rw [List.append_assoc]
      exact ih rest

/-- The edges of a block are those of its terminator and then those to the blocks that handle its exceptions. -/
lemma edgesFrom_eq_append (catches : List Catch) (term : Terminator) :
    edgesFrom catches term hs = term.targets ++ term.leaving hs ++ edgesFrom catches .none hs := by
  have apart : ∀ e ∈ hs.filterMap (fun h => catches[h]?.map fun c => (c.target, EdgeKind.raise)),
      e ∉ term.targets ++ term.leaving hs := by
    intro e mem there
    obtain ⟨h, covers, found⟩ := List.mem_filterMap.1 mem
    obtain ⟨c, -, rfl⟩ := Option.map_eq_some_iff.1 found
    obtain goes | leaves := List.mem_append.1 there
    · exact Terminator.ne_raise_of_mem_targets goes rfl
    · cases term with
      | raise x =>
        rw [Terminator.leaving, List.isEmpty_eq_false_iff.2 (List.ne_nil_of_mem covers)] at leaves
        cases leaves
      | leave x => simp [Terminator.leaving] at leaves
      | _ => cases leaves
  rw [edgesFrom, ← List.append_nil (term.targets ++ term.leaving hs), foldl_unless_append apart, List.append_nil]
  rfl

lemma exists_incoming?_of_arriving? {is : List PhiInput} {x : Value} (arrives : arriving? is s = some x) :
    ∃ k, incoming? is s k = some x := by
  obtain ⟨i, found, rfl⟩ := Option.map_eq_some_iff.1 arrives
  refine ⟨i.kind, Option.map_eq_some_iff.2 ⟨i, ?_, rfl⟩⟩
  rw [List.find?_eq_some_iff_append] at found ⊢
  obtain ⟨own, before, after, split, others⟩ := found
  refine ⟨by simpa using own, before, after, split, fun j mem => ?_⟩
  have other := others j mem
  rw [Bool.not_eq_true'] at other ⊢
  rw [other, Bool.false_and]

/-- If a value comes in on one edge from a block at most, it is the first one from there. -/
lemma arriving_eq_incoming (only : ∀ k, (f.incoming v b k).isSome = true → k = kind) :
    f.arriving v b = f.incoming v b kind := by
  rw [arriving, incoming]
  cases inputs : f.inputs? v with
  | none => rfl
  | some is =>
    rw [Option.bind_some, Option.bind_some, arriving?, incoming?]
    refine congrArg (Option.map PhiInput.value) (List.find?_congr fun i mem => ?_)
    by_cases here : i.source = b
    · have known : (f.incoming v b i.kind).isSome = true := by
        rw [incoming, inputs, Option.bind_some, incoming?_isSome]
        exact List.mem_map.2 ⟨i, mem, by rw [here]⟩
      simp [here, only _ known]
    · simp [here]

lemma inputs?_preparedEdge (listed : Listed f) (v) :
    (f.preparedEdge source target kind depth).inputs? v = if v ∈ f.phis target then
    ((f.beside source depth).inputs? v).map (handOver source f.blocks.size kind)
    else (f.beside source depth).inputs? v := by
  rw [preparedEdge, inputs?_modifyPhis (listed.nodup_phis target)]

lemma leaving_eq_nil {term : Terminator} {hs : List Nat} {e : BlockId × EdgeKind} (goes : e ∈ term.targets) :
    term.leaving hs = [] := by
  cases term with
  | leave | raise => cases goes
  | _ => rfl

lemma terminator_onEdge (live : (f.block? source).isSome) : (f.onEdge source target kind depth).terminator t =
    if t = source then f.retargeted source kind f.blocks.size
    else if t = f.blocks.size then .goto target else f.terminator t := by
  have there : ((f.enteredEdge source target kind depth).block? source).isSome := by
    rw [isSome_enteredEdge, live, Bool.or_true]
  rw [onEdge, terminator_reend there]
  split
  · rfl
  · split
    · rename_i new
      have added : ((f.preparedEdge source target kind depth).block? f.blocks.size).isSome := by
        rw [isSome_preparedEdge, decide_eq_true rfl, Bool.true_or]
      rw [enteredEdge, terminator_reend added, if_pos new]
    · rename_i old
      exact (ends_enteredEdge old).1

/-- The inputs of a phi are for edges into its block, one at most for each of them. -/
structure Sparse (f : Func) : Prop where
  known : ∀ t, ∀ v ∈ f.phis t, ∀ s kind, (f.incoming v s kind).isSome = true → (t, kind) ∈ f.succs s
  once : ∀ t, ∀ v ∈ f.phis t, f.Once v

lemma Fed.sparse (fed : Fed f) : Sparse f :=
  ⟨fun t v mem s kind => (fed.known t v mem s kind).1, fed.once⟩

section Steps

variable (sparse : Sparse f) (h : Lawful f) (mem : v ∈ f.phis t)
include sparse mem

lemma Sparse.incoming_size : f.incoming v f.blocks.size k = none := by
  rw [← Option.not_isSome_iff_eq_none]
  intro some_
  have edge := sparse.known t v mem _ k some_
  rw [(parts_of_isNone block?_size).2.2.2.2.1] at edge
  cases edge

include h

lemma Sparse.incoming_beside : (f.beside source depth).incoming v s k = f.incoming v s k := by
  have listed : Listed (f.withBlock depth) := (h.withBlock depth).toListed
  have there : v ∈ (f.withBlock depth).phis t := by
    rw [alike_withBlock.phis, phis_pushBlock]
    exact mem
  have same (s k) : (f.withBlock depth).incoming v s k = f.incoming v s k := rfl
  have none_ (k) : (f.withBlock depth).incoming v f.blocks.size k = none := sparse.incoming_size mem
  have first : (f.withBlock depth).arriving v f.blocks.size = none := by
    rw [arriving_eq_incoming fun k some_ => ?_, none_ .raise]
    rw [none_] at some_
    cases some_
  rw [beside, incoming_reend_eq listed there isSome_withBlock_self fun k some_ => by simp [none_] at some_]
  split
  · rename_i here
    rw [none_, first, here, sparse.incoming_size mem]
    exact ite_self none
  · exact same s k

lemma Sparse.once_beside : (f.beside source depth).Once v := by
  refine once_reend (t := t) (h.withBlock depth).toListed ?_ isSome_withBlock_self
    (sparse.once t v mem)
  rw [alike_withBlock.phis, phis_pushBlock]
  exact mem

lemma Sparse.source_ne_size {is : List PhiInput} (inputs : (f.beside source depth).inputs? v = some is) :
    ∀ i ∈ is, i.source ≠ f.blocks.size := by
  intro i here same
  have gone : (f.beside source depth).incoming v f.blocks.size i.kind = none :=
    (sparse.incoming_beside h mem).trans (sparse.incoming_size mem)
  rw [incoming, inputs, Option.bind_some, ← Option.not_isSome_iff_eq_none, incoming?_isSome] at gone
  exact gone (List.mem_map.2 ⟨i, here, by rw [same]⟩)

/-- What came in on the edge is handed over to a block that does not lead there yet. -/
lemma Sparse.incoming_preparedEdge : (f.preparedEdge source target kind depth).incoming v s k =
    if s = f.blocks.size then if t = target ∧ k = .fallthrough then f.incoming v source kind else none
    else if t = target ∧ s = source ∧ k = kind then none else f.incoming v s k := by
  have before (s k) : (f.beside source depth).incoming v s k = f.incoming v s k := sparse.incoming_beside h mem
  have here : v ∈ f.phis target ↔ t = target := by
    refine ⟨fun there => h.eq_of_mem_phis mem there, ?_⟩
    rintro rfl
    exact mem
  simp only [incoming, inputs?_preparedEdge h.toListed, here] at before ⊢
  by_cases there : t = target
  · simp only [there, true_and, if_true]
    cases inputs : (f.beside source depth).inputs? v with
    | none =>
      simp only [inputs, Option.bind_none] at before
      simp [← before]
    | some is =>
      simp only [inputs, Option.bind_some] at before
      rw [Option.map_some, Option.bind_some, incoming?_handOver (sparse.source_ne_size h mem inputs), before, before]
  · simp only [there, false_and, if_false]
    rw [before]
    split
    · rename_i new
      rw [new]
      exact sparse.incoming_size mem
    · rfl

lemma Sparse.once_preparedEdge : (f.preparedEdge source target kind depth).Once v := by
  intro is inputs
  rw [inputs?_preparedEdge h.toListed] at inputs
  split at inputs
  · obtain ⟨js, before, rfl⟩ := Option.map_eq_some_iff.1 inputs
    exact nodup_keysOf_handOver (sparse.source_ne_size h mem before) (sparse.once_beside h mem js before)
  · exact sparse.once_beside h mem is inputs

end Steps

section OnEdge

lemma Wired.goes (edges : Wired (fun _ => False) f) (edge : (target, kind) ∈ f.succs source) (normal : kind ≠ .raise)
    (on : kind ≠ .leave) : (target, kind) ∈ (f.terminator source).targets := by
  rw [edges.wired source id, edgesOf_eq] at edge
  obtain goes | leaves | ⟨_, _, _, _, same⟩ := mem_edgesFrom.1 edge
  · exact goes
  · cases ends : f.terminator source with
    | leave x =>
      rw [ends] at leaves
      exact absurd (Prod.mk.inj (List.mem_singleton.1 leaves)).2 on
    | raise x =>
      rw [ends, Terminator.leaving] at leaves
      split at leaves
      · exact absurd (Prod.mk.inj (List.mem_singleton.1 leaves)).2 normal
      · cases leaves
    | _ =>
      rw [ends] at leaves
      cases leaves
  · exact absurd (Prod.mk.inj same).2 normal

lemma eq_raise_of_caught {catches : List Catch} {e : BlockId × EdgeKind} (mem : e ∈ edgesFrom catches .none hs) :
    e.2 = .raise := by
  obtain none | none | ⟨_, _, _, _, rfl⟩ := mem_edgesFrom.1 mem
  · cases none
  · cases none
  · rfl

variable (edges : Wired (fun _ => False) f) (edge : (target, kind) ∈ f.succs source) (normal : kind ≠ .raise)
  (on : kind ≠ .leave)
include edges edge normal on

lemma Wired.edgesFrom_retargeted {m : BlockId} :
    edgesFrom f.handlers (f.retargeted source kind m) (f.handlersOf source) =
    (f.succs source).map fun e => if e = (target, kind) then (m, kind) else e := by
  have goes := edges.goes edge normal on
  rw [edges.wired source id, edgesOf_eq, edgesFrom_eq_append, edgesFrom_eq_append _ (f.terminator source), retargeted,
    Terminator.leaving_retarget, leaving_eq_nil goes, List.append_nil, List.append_nil, List.map_append,
    Terminator.targets_retarget]
  refine congrArg₂ _ (List.map_congr_left fun e mem => if_congr ⟨fun same => ?_, fun same => by rw [same]⟩ rfl rfl) ?_
  · obtain ⟨t, k⟩ := e
    obtain rfl : k = kind := same
    rw [Terminator.eq_of_mem_targets mem goes]
  · have stay : ∀ e ∈ edgesFrom f.handlers .none (f.handlersOf source),
      (if e = (target, kind) then (m, kind) else e) = e :=
      fun e mem => if_neg fun same => normal (by rw [← eq_raise_of_caught mem, same])
    rw [List.map_congr_left stay, List.map_id']

omit edges edge normal on in
lemma retargeted_leave {m : BlockId} : f.retargeted source .leave m = f.terminator source := by
  rw [retargeted]
  cases f.terminator source <;> rfl

omit on in
/-- Edges to other blocks than the new one are those that were there, but for the one that is split. -/
lemma Wired.mem_retargeted {m : BlockId} (on : kind = .leave → t ≠ target) (other : t ≠ m) :
    (t, k) ∈ edgesFrom f.handlers (f.retargeted source kind m) (f.handlersOf source) ↔
      (t, k) ∈ f.succs source ∧ ¬(t = target ∧ k = kind) := by
  by_cases leaves : kind = .leave
  · rw [leaves, retargeted_leave, ← edgesOf_eq, ← edges.wired source id]
    exact (and_iff_left fun both => on leaves both.1).symm
  rw [edges.edgesFrom_retargeted edge normal leaves, List.mem_map]
  constructor
  · rintro ⟨e, mem, same⟩
    split at same
    · exact absurd (Prod.mk.inj same).1.symm other
    · rename_i kept
      subst same
      exact ⟨mem, fun both => kept (Prod.ext both.1 both.2)⟩
  · rintro ⟨mem, kept⟩
    exact ⟨(t, k), mem, if_neg fun same => kept (Prod.mk.inj same)⟩

omit normal on in
lemma Wired.onEdge (depth : Nat) : Wired (fun _ => False) (f.onEdge source target kind depth) := by
  have live : (f.block? source).isSome := isSome_of_mem_succs edge
  have prepared : Wired (fun _ => False) (f.preparedEdge source target kind depth) :=
    (edges.beside source depth).sameFlow sameFlow_modifyPhis
  have added : ((f.preparedEdge source target kind depth).block? f.blocks.size).isSome := by
    rw [isSome_preparedEdge, decide_eq_true rfl, Bool.true_or]
  have there : ((f.enteredEdge source target kind depth).block? source).isSome := by
    rw [isSome_enteredEdge, live, Bool.or_true]
  have entered : Wired (fun _ => False) (f.enteredEdge source target kind depth) := by
    refine (prepared.reend added fun e mem => ?_).mono fun _ old => old.1
    rw [catches_preparedEdge, edgesFrom_eq_append, List.mem_append] at mem
    rw [isSome_preparedEdge]
    obtain mem | mem := mem
    · obtain rfl := List.mem_singleton.1 mem
      rw [edges.live source _ edge, Bool.or_true]
    · rw [edges.live source e (edges.mem_succs_of_caught mem), Bool.or_true]
  refine (entered.reend there fun e mem => ?_).mono fun _ old => old.1
  rw [catches_enteredEdge, edgesFrom_eq_append, retargeted, Terminator.leaving_retarget] at mem
  rw [isSome_enteredEdge]
  have old : e = (f.blocks.size, kind) ∨ e ∈ f.succs source := by
    rw [edges.wired source id, edgesOf_eq, edgesFrom_eq_append]
    obtain (goes | caught) | leaves := by simpa only [List.mem_append] using mem
    · exact (Terminator.mem_targets_retarget goes).imp_right fun old => by simp [old.1]
    · exact .inr (by simp [caught])
    · exact .inr (by simp [leaves])
  obtain rfl | old := old
  · rw [decide_eq_true rfl, Bool.true_or]
  · rw [edges.live source e old, Bool.or_true]

end OnEdge

section Values

variable (edges : Wired (fun _ => False) f) (sparse : Sparse f) (fed : Fed f) (h : Lawful f) (mem : v ∈ f.phis t)
include h mem

section Sparse

include sparse

lemma Sparse.incoming_enteredEdge : (f.enteredEdge source target kind depth).incoming v s k =
    if s = f.blocks.size then
      if t = target ∧ (t, k) ∈ edgesFrom f.handlers (.goto target) (f.handlersOf source) then f.incoming v source kind
      else none
    else if t = target ∧ s = source ∧ k = kind then none else f.incoming v s k := by
  have listed : Listed (f.preparedEdge source target kind depth) := (h.preparedEdge depth).toListed
  have there : v ∈ (f.preparedEdge source target kind depth).phis t := by
    rw [phis_preparedEdge]
    exact mem
  have added : ((f.preparedEdge source target kind depth).block? f.blocks.size).isSome := by
    rw [isSome_preparedEdge, decide_eq_true rfl, Bool.true_or]
  have own (k) : (f.preparedEdge source target kind depth).incoming v f.blocks.size k =
      if t = target ∧ k = .fallthrough then f.incoming v source kind else none := by
    rw [sparse.incoming_preparedEdge h mem, if_pos rfl]
  have only (k) (some_ : ((f.preparedEdge source target kind depth).incoming v f.blocks.size k).isSome = true) :
      k = .fallthrough := by
    rw [own] at some_
    by_contra other
    simp [other] at some_
  have first : (f.preparedEdge source target kind depth).arriving v f.blocks.size =
      if t = target then f.incoming v source kind else none := by
    rw [arriving_eq_incoming only, own, if_congr (and_iff_left rfl) rfl rfl]
  have leads : (target, .fallthrough) ∈ edgesFrom f.handlers (.goto target) (f.handlersOf source) :=
    mem_edgesFrom.2 (.inl List.mem_cons_self)
  rw [Func.enteredEdge, incoming_reend_eq listed there added, catches_preparedEdge, own, first]
  · split
    · by_cases here : t = target
      · subst here
        by_cases falls : k = .fallthrough
        · subst falls
          simp [leads]
        · simp [falls]
      · simp [here]
    · rename_i old
      rw [sparse.incoming_preparedEdge h mem, if_neg old]
  · intro k some_
    rw [own] at some_
    by_cases here : t = target
    · subst here
      refine ⟨.fallthrough, .inr ?_⟩
      rw [catches_preparedEdge]
      exact leads
    · simp [here] at some_

lemma Sparse.once_onEdge (live : (f.block? source).isSome) : (f.onEdge source target kind depth).Once v := by
  have added : ((f.preparedEdge source target kind depth).block? f.blocks.size).isSome := by
    rw [isSome_preparedEdge, decide_eq_true rfl, Bool.true_or]
  have there : ((f.enteredEdge source target kind depth).block? source).isSome := by
    rw [isSome_enteredEdge, live, Bool.or_true]
  have mem₁ : v ∈ (f.preparedEdge source target kind depth).phis t := by
    rw [phis_preparedEdge]
    exact mem
  have mem₂ : v ∈ (f.enteredEdge source target kind depth).phis t := by
    rw [phis_enteredEdge]
    exact mem
  exact once_reend (h.enteredEdge depth).toListed mem₂ there
    (once_reend (h.preparedEdge depth).toListed mem₁ added (sparse.once_preparedEdge h mem))

end Sparse

include edges fed

lemma Fed.incoming_onEdge (edge : (target, kind) ∈ f.succs source) (normal : kind ≠ .raise)
    (on : kind = .leave → t ≠ target) :
    (f.onEdge source target kind depth).incoming v s k =
      if s = f.blocks.size then
        if t = target ∧ (t, k) ∈ edgesFrom f.handlers (.goto target) (f.handlersOf source) then f.incoming v source kind
        else none
      else if t = target ∧ s = source ∧ k = kind then none else f.incoming v s k := by
  have live : (f.block? source).isSome := isSome_of_mem_succs edge
  have other : source ≠ f.blocks.size := size_ne_of_isSome live
  have old : t ≠ f.blocks.size := size_ne_of_isSome (isSome_of_mem_nodesOf (List.mem_append_left _ mem))
  have listed : Listed (f.enteredEdge source target kind depth) := (h.enteredEdge depth).toListed
  have there : v ∈ (f.enteredEdge source target kind depth).phis t := by
    rw [phis_enteredEdge]
    exact mem
  have live' : ((f.enteredEdge source target kind depth).block? source).isSome := by
    rw [isSome_enteredEdge, live, Bool.or_true]
  have own (k) : (f.enteredEdge source target kind depth).incoming v source k =
      if t = target ∧ k = kind then none else f.incoming v source k := by
    rw [fed.sparse.incoming_enteredEdge h mem, if_neg other,
      if_congr (and_congr_right fun _ => and_iff_right rfl) rfl rfl]
  rw [← fed.sparse.incoming_enteredEdge h mem]
  refine incoming_reend_of_known listed there live' fun k => ?_
  rw [own, catches_enteredEdge, edges.mem_retargeted edge normal on old, ← fed.known t v mem]
  split
  · simp [*]
  · simp [*]

include sparse

omit edges fed in
/-- What comes in behind: the start of the edge keeps what it brings on the edges that it keeps. -/
lemma Sparse.incoming_onEdge (edge : (target, kind) ∈ f.succs source) :
    (f.onEdge source target kind depth).incoming v s k =
      if s = source then
        if (t, k) ∈ edgesFrom f.handlers (f.retargeted source kind f.blocks.size) (f.handlersOf source) then
          ((f.enteredEdge source target kind depth).incoming v source k).or
            ((f.enteredEdge source target kind depth).arriving v source)
        else none
      else (f.enteredEdge source target kind depth).incoming v s k := by
  have live : (f.block? source).isSome := isSome_of_mem_succs edge
  have listed : Listed (f.enteredEdge source target kind depth) := (h.enteredEdge depth).toListed
  have there : v ∈ (f.enteredEdge source target kind depth).phis t := by
    rw [phis_enteredEdge]
    exact mem
  have live' : ((f.enteredEdge source target kind depth).block? source).isSome := by
    rw [isSome_enteredEdge, live, Bool.or_true]
  rw [onEdge, incoming_reend_eq listed there live', catches_enteredEdge]
  intro k some_
  refine ⟨k, .inl ?_⟩
  rw [sparse.incoming_enteredEdge h mem, if_neg (size_ne_of_isSome live)] at some_
  rw [succs_enteredEdge, if_neg (size_ne_of_isSome live)]
  split at some_
  · cases some_
  · exact sparse.known t v mem source k some_

omit fed in
lemma Sparse.exists_incoming_onEdge (edge : (target, kind) ∈ f.succs source) (normal : kind ≠ .raise)
    (on : kind ≠ .leave)
    {x : Value} (comes : f.incoming v s k = some x) :
    ∃ s' k', (f.onEdge source target kind depth).incoming v s' k' = some x := by
  have live : (f.block? source).isSome := isSome_of_mem_succs edge
  have other : source ≠ f.blocks.size := size_ne_of_isSome live
  have known : (t, k) ∈ f.succs s := sparse.known t v mem s k (by rw [comes]; rfl)
  by_cases on_ : t = target ∧ s = source ∧ k = kind
  · obtain ⟨rfl, rfl, rfl⟩ := on_
    refine ⟨f.blocks.size, .fallthrough, ?_⟩
    rw [sparse.incoming_onEdge h mem edge, if_neg other.symm, sparse.incoming_enteredEdge h mem, if_pos rfl,
      if_pos ⟨rfl, mem_edgesFrom.2 (.inl List.mem_cons_self)⟩]
    exact comes
  · refine ⟨s, k, ?_⟩
    have there : t ≠ f.blocks.size := size_ne_of_isSome (isSome_of_mem_nodesOf (List.mem_append_left _ mem))
    have before : (f.enteredEdge source target kind depth).incoming v s k = some x := by
      rw [sparse.incoming_enteredEdge h mem, if_neg (size_ne_of_isSome (isSome_of_mem_succs known)), if_neg on_]
      exact comes
    rw [sparse.incoming_onEdge h mem edge]
    split
    · rename_i first
      subst first
      rw [if_pos, before, Option.some_or]
      apply (edges.mem_retargeted edge normal (absurd · on) there).2
      exact ⟨known, fun both => on_ ⟨both.1, rfl, both.2⟩⟩
    · exact before

omit edges fed in
/-- Whatever comes in behind came in before, from the same block or, if it comes from the new one, from the start of the
edge. -/
lemma Sparse.exists_of_incoming_onEdge (edge : (target, kind) ∈ f.succs source) {x : Value}
    (comes : (f.onEdge source target kind depth).incoming v s k = some x) :
    ∃ s' k', f.incoming v s' k' = some x ∧ (s' = s ∨ s = f.blocks.size ∧ s' = source) := by
  have before {k} (entered : (f.enteredEdge source target kind depth).incoming v s k = some x) :
      ∃ s' k', f.incoming v s' k' = some x ∧ (s' = s ∨ s = f.blocks.size ∧ s' = source) := by
    rw [sparse.incoming_enteredEdge h mem] at entered
    split at entered
    · rename_i new
      split at entered
      · exact ⟨source, kind, entered, .inr ⟨new, rfl⟩⟩
      · cases entered
    · split at entered
      · cases entered
      · exact ⟨s, k, entered, .inl rfl⟩
  rw [sparse.incoming_onEdge h mem edge] at comes
  split at comes
  · rename_i first
    subst first
    split at comes
    · rcases Option.or_eq_some_iff.1 comes with entered | ⟨-, arrives⟩
      · exact before entered
      · obtain ⟨is, inputs, arrives⟩ := Option.bind_eq_some_iff.1 arrives
        obtain ⟨k', comes⟩ := exists_incoming?_of_arriving? arrives
        exact before (k := k') (by rw [incoming, inputs]; exact comes)
    · cases comes
  · exact before comes

end Values

lemma Sparse.onEdge (sparse : Sparse f) (h : Lawful f) (edge : (target, kind) ∈ f.succs source) (depth : Nat) :
    Sparse (f.onEdge source target kind depth) where
  known t v mem s k some_ := by
    rw [phis_onEdge] at mem
    have live : (f.block? source).isSome := isSome_of_mem_succs edge
    rw [succs_onEdge live]
    rw [sparse.incoming_onEdge h mem edge] at some_
    split at some_
    · rename_i first
      rw [if_pos first]
      split at some_
      · assumption
      · cases some_
    · rename_i first
      rw [if_neg first]
      rw [sparse.incoming_enteredEdge h mem] at some_
      split at some_
      · rename_i new
        rw [if_pos new]
        split at some_
        · rename_i both
          exact both.2
        · cases some_
      · rename_i old
        rw [if_neg old]
        split at some_
        · cases some_
        · exact sparse.known t v mem s k some_
  once t v mem := by
    rw [phis_onEdge] at mem
    exact sparse.once_onEdge h mem (isSome_of_mem_succs edge)

/-- A block was put on an edge: what the edge and all else are like behind. -/
structure Inserts (f : Func) (source target : BlockId) (kind : EdgeKind) (m : BlockId) (f' : Func) : Prop where
  /-- The new block was not there, and all others stay. -/
  fresh : f.block? m = none
  blocks : ∀ t, (f'.block? t).isSome = (decide (t = m) || (f.block? t).isSome)
  /-- The new block lists no nodes, and all others list the same ones. -/
  empty : f'.phis m = [] ∧ f'.body m = []
  phis : ∀ t, f'.phis t = f.phis t
  body : ∀ t, f'.body t = f.body t
  /-- The new block goes on to where the edge led, under the handlers and at the depth of the start of the edge. -/
  goesOn : f'.terminator m = .goto target
  handlersOf : ∀ t, f'.handlersOf t = f.handlersOf (if t = m then source else t)
  scopeDepth : ∀ t, f'.scopeDepth t = f.scopeDepth (if t = m then source else t)
  /-- The start of the edge leads to the new block in its place, and all other blocks end as before. -/
  led : (f.terminator source).retarget? kind m = some (f'.terminator source)
  terminator : ∀ t, t ≠ m → t ≠ source → f'.terminator t = f.terminator t
  /-- The edge is led to the new block, and other edges stay. -/
  split : f'.succs source = (f.succs source).map fun e => if e = (target, kind) then (m, kind) else e
  onward : f'.succs m = (target, .fallthrough) :: (f.succs source).filter (·.2 == .raise)
  succs : ∀ t, t ≠ m → t ≠ source → f'.succs t = f.succs t
  /-- Edges are known where they lead. -/
  preds : ∀ t, (f'.block? t).isSome → ∀ s k, (f'.preds t).count (s, k) = (f'.succs s).count (t, k)
  /-- What came in on the edge comes in from the new block, and what comes in on other edges stays. -/
  handedOver : ∀ v ∈ f.phis target, f'.incoming v m .fallthrough = f.incoming v source kind
  incoming : ∀ t, ∀ v ∈ f.phis t, ∀ s k, s ≠ m →
    f'.incoming v s k = if t = target ∧ s = source ∧ k = kind then none else f.incoming v s k
  once : ∀ t, ∀ v ∈ f.phis t, f'.Once v
  /-- Other nodes stay as they are, and all nodes where they are. -/
  node? : ∀ v, (∀ t, v ∉ f.phis t) → f'.node? v = f.node? v
  owner : ∀ v, (f'.node? v).map (·.block) = (f.node? v).map (·.block)
  rest : SameRest f f'

section Main

variable (h : Lawful f) (edges : Wired (fun _ => False) f) (fed : Fed f) (edge : (target, kind) ∈ f.succs source)
  (normal : kind ≠ .raise) (on : kind ≠ .leave)
include edges edge normal on

lemma Wired.retarget?_eq_some {m : BlockId} :
    (f.terminator source).retarget? kind m = some (f.retargeted source kind m) := by
  have goes := edges.goes edge normal on
  rw [retargeted]
  cases ends : f.terminator source with
  | switch index default cases =>
    rw [ends] at goes
    simp only [Terminator.targets, List.mem_cons, Prod.mk.injEq, List.mem_mapIdx] at goes
    obtain ⟨-, rfl⟩ | ⟨i, inside, -, rfl⟩ := goes
    · rfl
    · simp [Terminator.retarget?, inside]
  | branch test operands onTrue onFalse =>
    rw [ends] at goes
    simp only [Terminator.targets, List.mem_cons, Prod.mk.injEq, List.not_mem_nil, or_false] at goes
    obtain ⟨-, rfl⟩ | ⟨-, rfl⟩ := goes
    · rfl
    · rfl
  | goto t | jump t =>
    rw [ends] at goes
    obtain ⟨-, rfl⟩ := Prod.mk.inj (List.mem_singleton.1 goes)
    rfl
  | leave x | raise x | none =>
    rw [ends] at goes
    cases goes

lemma Wired.onward_eq : edgesFrom f.handlers (.goto target) (f.handlersOf source) =
    (target, .fallthrough) :: (f.succs source).filter (·.2 == .raise) := by
  have goes := edges.goes edge normal on
  have normalEnds : (f.terminator source).targets.filter (·.2 == .raise) = [] :=
    List.filter_eq_nil_iff.2 fun e mem => by simpa using Terminator.ne_raise_of_mem_targets mem
  have caught : (edgesFrom f.handlers .none (f.handlersOf source)).filter (·.2 == .raise) =
      edgesFrom f.handlers .none (f.handlersOf source) :=
    List.filter_eq_self.2 fun e mem => by simpa using eq_raise_of_caught mem
  rw [edges.wired source id, edgesOf_eq, edgesFrom_eq_append, edgesFrom_eq_append _ (f.terminator source),
    leaving_eq_nil goes, List.append_nil, List.filter_append, normalEnds, caught]
  rfl

include h fed

lemma Lawful.inserts :
    f.Inserts source target kind f.blocks.size (f.onEdge source target kind (f.scopeDepth source)) := by
  have live : (f.block? source).isSome := isSome_of_mem_succs edge
  have other : source ≠ f.blocks.size := size_ne_of_isSome live
  exact {
    fresh := block?_size
    blocks := fun t => isSome_onEdge
    empty := by
      rw [phis_onEdge, body_onEdge]
      exact ⟨(parts_of_isNone block?_size).1, (parts_of_isNone block?_size).2.1⟩
    phis := fun t => phis_onEdge
    body := fun t => body_onEdge
    goesOn := by rw [terminator_onEdge live, if_neg other.symm, if_pos rfl]
    handlersOf := fun t => by
      rw [handlersOf_onEdge live]
      split <;> rfl
    scopeDepth := fun t => by
      rw [scopeDepth_onEdge]
      split <;> rfl
    led := by rw [terminator_onEdge live, if_pos rfl, edges.retarget?_eq_some edge normal on]
    terminator := fun t new old => by rw [terminator_onEdge live, if_neg old, if_neg new]
    split := by rw [succs_onEdge live, if_pos rfl, edges.edgesFrom_retargeted edge normal on]
    onward := by rw [succs_onEdge live, if_neg other.symm, if_pos rfl, edges.onward_eq edge normal on]
    succs := fun t new old => by rw [succs_onEdge live, if_neg old, if_neg new]
    preds := fun t there s k => (edges.onEdge edge _).agreed t there s k
    handedOver := fun v mem => by
      rw [fed.incoming_onEdge edges h mem edge normal (absurd · on), if_pos rfl,
        if_pos ⟨rfl, mem_edgesFrom.2 (.inl List.mem_cons_self)⟩]
    incoming := fun t v mem s k old => by rw [fed.incoming_onEdge edges h mem edge normal (absurd · on), if_neg old]
    once := fun t v mem => fed.sparse.once_onEdge h mem live
    node? := fun v absent => node?_onEdge_of_notMem absent
    owner := fun v => frame_onEdge.1
    rest := sameRest_onEdge }

omit on

section Known

variable (mem : v ∈ f.phis t) (away : kind = .leave → t ≠ target)
include mem away

/-- The new block brings an input to the phis where the edge led for each of its edges, and none to other phis. -/
lemma Fed.known_onEdge_new : ((f.onEdge source target kind depth).incoming v f.blocks.size k).isSome = true ↔
    t = target ∧ (t, k) ∈ edgesFrom f.handlers (.goto target) (f.handlersOf source) := by
  rw [fed.incoming_onEdge edges h mem edge normal away, if_pos rfl]
  split
  · rename_i both
    obtain ⟨rfl, leads⟩ := both
    exact iff_of_true ((fed.known t v mem source kind).2 edge) ⟨rfl, leads⟩
  · rename_i not
    exact iff_of_false Bool.false_ne_true not

lemma Fed.known_onEdge_old (old : s ≠ f.blocks.size) :
    ((f.onEdge source target kind depth).incoming v s k).isSome = true ↔
      (t, k) ∈ (f.onEdge source target kind depth).succs s := by
  have there : t ≠ f.blocks.size := size_ne_of_isSome (isSome_of_mem_nodesOf (List.mem_append_left _ mem))
  rw [fed.incoming_onEdge edges h mem edge normal away, if_neg old, succs_onEdge (isSome_of_mem_succs edge), if_neg old]
  by_cases first : s = source
  · rw [if_pos first, edges.mem_retargeted edge normal away there, ← fed.known t v mem, first]
    by_cases gone : t = target ∧ k = kind
    · simp [gone]
    · rw [if_neg fun all => gone ⟨all.1, all.2.2⟩, and_iff_left gone]
  · rw [if_neg first, if_neg fun all => first all.2.1, fed.known t v mem]

end Known

/-- A graph with a block on an edge passes the check unless the block brings an exceptional edge to phis elsewhere. -/
lemma Lawful.verify_onEdge (on : kind = .leave → f.phis target = []) (depth : Nat) :
    (f.onEdge source target kind depth).verify = .ok () ↔
      ∀ t ≠ target, (t, .raise) ∈ (f.onEdge source target kind depth).succs f.blocks.size → f.phis t = [] := by
  have live : (f.block? source).isSome := isSome_of_mem_succs edge
  have onward : (f.onEdge source target kind depth).succs f.blocks.size =
      edgesFrom f.handlers (.goto target) (f.handlersOf source) := by
    rw [succs_onEdge live, if_neg (size_ne_of_isSome live).symm, if_pos rfl]
  rw [(h.onEdge live depth).verify_eq_ok, and_iff_right (edges.onEdge edge depth)]
  have on {t v} (mem : v ∈ f.phis t) : kind = .leave → t ≠ target := by
    rintro leaves rfl
    rw [on leaves] at mem
    cases mem
  constructor
  · intro fed' t elsewhere caught
    refine List.eq_nil_iff_forall_not_mem.2 fun v mem => elsewhere ?_
    have known := (fed'.known t v (by rw [phis_onEdge]; exact mem) f.blocks.size .raise).2 caught
    exact ((fed.known_onEdge_new h edges edge normal mem (on mem)).1 known).1
  · intro none_
    refine ⟨fun t v mem s k => ?_, fun t v mem => ?_⟩
    · rw [phis_onEdge] at mem
      by_cases new : s = f.blocks.size
      · rw [new, fed.known_onEdge_new h edges edge normal mem (on mem), onward, and_iff_right_iff_imp]
        intro leads
        by_contra here
        have there := leads
        rw [edgesFrom_eq_append, List.mem_append] at there
        obtain same | caught := there
        · exact here (Prod.mk.inj (List.mem_singleton.1 same)).1
        · have raises : k = .raise := eq_raise_of_caught caught
          rw [none_ t here] at mem
          · cases mem
          · rwa [onward, ← raises]
      · exact fed.known_onEdge_old h edges edge normal mem (on mem) new
    · rw [phis_onEdge] at mem
      exact fed.sparse.once_onEdge h mem live

end Main

lemma Intact.onEdge (h : Intact f) (edge : (target, kind) ∈ f.succs source) (normal : kind ≠ .raise) :
    Intact (f.onEdge source target kind depth) := by
  have live : (f.block? source).isSome := isSome_of_mem_succs edge
  have lawful := h.toShaped.toLawful
  obtain ⟨edges, fed⟩ := lawful.verify_eq_ok.1 (verify_of_intact h)
  have inside : source ≠ Func.exit := by
    rintro rfl
    rw [h.succs_exit] at edge
    cases edge
  have on (leaves : kind = .leave) : f.phis target = [] := by
    obtain goes | rfl := h.mem_targets_or_exit edge normal
    · exact absurd leaves (Terminator.ne_leave_of_mem_targets goes)
    · exact h.exit.2.1
  have shaped : Shaped (f.onEdge source target kind depth) := { (lawful.onEdge live depth).toListed with
    entry := ⟨by rw [isSome_onEdge, h.entry.1, Bool.or_true], phis_onEdge.trans h.entry.2.1,
      body_onEdge.trans h.entry.2.2.1,
      by rw [handlersOf_onEdge live, if_neg h.size_ne.1.symm, h.entry.2.2.2]⟩
    exit := ⟨by rw [isSome_onEdge, h.exit.1, Bool.or_true], phis_onEdge.trans h.exit.2.1,
      body_onEdge.trans h.exit.2.2.1,
      by rw [handlersOf_onEdge live, if_neg h.size_ne.2.symm, h.exit.2.2.2.1],
      by rw [terminator_onEdge live, if_neg inside.symm, if_neg h.size_ne.2.symm, h.exit.2.2.2.2]⟩
    linked := (edges.onEdge edge depth).agreed
    covered := fun b k mem => by
      rw [handlersOf_onEdge live] at mem
      simp only [catches_onEdge, phis_onEdge]
      split at mem
      · exact h.covered source k mem
      · exact h.covered b k mem
    enters := fun b e mem => by
      rw [terminator_onEdge live] at mem
      split at mem
      · obtain rfl | ⟨old, -⟩ := Terminator.mem_targets_retarget mem
        · exact h.size_ne.1
        · exact h.enters source e old
      · split at mem
        · rw [List.mem_singleton.1 mem]
          exact h.target_ne_entry edge normal
        · exact h.enters b e mem }
  refine intact_of_verify shaped ?_ ((lawful.verify_onEdge edges fed edge normal on depth).2 fun t _ caught => ?_)
  · obtain ⟨c, goes⟩ := h.start
    rw [terminator_onEdge live]
    split
    · rename_i first
      rw [retargeted, ← first, goes]
      cases kind <;> exact ⟨_, rfl⟩
    · rw [if_neg h.size_ne.1.symm]
      exact ⟨c, goes⟩
  · rw [succs_onEdge live, if_neg (size_ne_of_isSome live).symm, if_pos rfl] at caught
    obtain goes | ⟨-, none⟩ := h.mem_targets_or id caught
    · cases (Prod.mk.inj (List.mem_singleton.1 goes)).2
    · exact none

lemma succs_onEdge_leave (edges : Wired (fun _ => False) f) (live : (f.block? source).isSome) :
    (f.onEdge source target .leave depth).succs source = f.succs source := by
  rw [succs_onEdge live, if_pos rfl, retargeted_leave, edges.wired source id, edgesOf_eq]

variable {m : BlockId}

/-- An edge that was split led on.  Then a block was put on it and nothing else is new, and the graph passes the check
unless the new block is protected by a block with phis to which the edge did not lead.  If it led
out, it is still there. -/
theorem inserts_of_splitEdge (h : Lawful f) (verified : f.verify = .ok ())
    (run : (Edit.splitEdge source target kind).run f = .ok m f') :
    (kind ≠ .leave → f.Inserts source target kind m f' ∧
      (f'.verify = .ok () ↔ ∀ t ≠ target, (t, .raise) ∈ f'.succs m → f.phis t = [])) ∧
    (kind = .leave → f'.succs source = f.succs source) := by
  obtain ⟨edges, fed⟩ := h.verify_eq_ok.1 verified
  obtain ⟨edge, normal⟩ := edge_of_splitEdge run
  obtain ⟨⟨rfl, rfl⟩, -⟩ := Edit.leaves_splitEdge.of_ok run
  refine ⟨fun on => ⟨h.inserts edges fed edge normal on, h.verify_onEdge edges fed edge normal (absurd · on) _⟩, ?_⟩
  rintro rfl
  exact succs_onEdge_leave edges (isSome_of_mem_succs edge)

/-- A graph in which a block leads to a phi and is protected by a block with a phi. -/
def guarded : Func :=
  [Change.addBlock, .addBlock, .addBlock, .addHandler ⟨4, 0, 0⟩, .setTerminator 0 (.goto 2), .setHandlers 2 [0],
    .setTerminator 2 (.goto 3), .appendNode 3 (.phi [⟨.const (.int 5), 2, .fallthrough⟩]),
      .setTerminator 3 (.leave none),
    .appendNode 4 (.phi [⟨.const .null, 2, .raise⟩]), .setTerminator 4 (.leave none)].foldl
      Change.after (.new 0 0 {} 1)

theorem inserts_of_splitEdge_guarded : guarded.verify = .ok () ∧
    ∃ f', (Edit.splitEdge 2 3 .fallthrough).run guarded = .ok 5 f' ∧ guarded.Inserts 2 3 .fallthrough 5 f' := by
  have verified : guarded.verify = .ok () := by decide +kernel
  refine ⟨verified, _, rfl, ?_⟩
  exact ((inserts_of_splitEdge (lawful_of_changes _ 0 0 {} 1) verified rfl).1 (by decide)).1

/-- A block on an edge may bring an exceptional edge to a phi that has no input for it. -/
theorem not_verify_splitEdge : ¬∀ (f f' : Func) (source target m : BlockId) (kind : EdgeKind), Lawful f →
    f.verify = .ok () → (Edit.splitEdge source target kind).run f = .ok m f' → f'.verify = .ok () := by
  intro verifies
  have checked := verifies guarded _ 2 3 5 .fallthrough (lawful_of_changes _ 0 0 {} 1) (by decide +kernel) rfl
  revert checked
  decide +kernel

end Func

end Avm.Ir
