import Avm.Proofs.Ir.Consistency

/-!
# Inputs of phis by their edges

The edges that leave a block are distinct, so a phi of a graph in order has one input for each edge into its
block, and `incoming?` gives its value.  Where the inputs stand in their list plays no part, and setting the
end of a block to one that leads to the same blocks does no more than move them there.

The main statement is `incoming_reend_of_known`.
-/

namespace Avm.Ir

variable {s b t : BlockId} {v : ValueId} {kind : EdgeKind} {is : List PhiInput}

lemma Terminator.nodup_targets (t : Terminator) : t.targets.Nodup := by
  cases t with
  | branch => exact List.nodup_cons.2 ⟨by simp, List.nodup_singleton _⟩
  | switch index default cases =>
    have kinds : (((default, EdgeKind.switchDefault) :: cases.mapIdx fun i c => (c, EdgeKind.switchCase i)).map
        (·.2)).Nodup := by
      rw [List.map_cons, List.nodup_cons]
      constructor
      · simp [List.mem_mapIdx]
      · refine List.pairwise_iff_getElem.2 fun i j inside inside' less => ?_
        simpa using less.ne
    exact kinds.of_map
  | _ => simp [targets]

namespace Func

variable {f g : Func}

lemma nodup_foldl_unless {α : Type} [BEq α] [LawfulBEq α] {l es : List α} (once : es.Nodup) :
    (l.foldl (fun es e => if es.contains e then es else es ++ [e]) es).Nodup := by
  induction l generalizing es with
  | nil => exact once
  | cons e l ih =>
    refine ih ?_
    dsimp only
    split
    · exact once
    · rename_i new
      rw [List.contains_iff_mem] at new
      refine List.nodup_append.2 ⟨once, List.nodup_singleton e, fun x mem y mem' => ?_⟩
      rw [List.mem_singleton.1 mem']
      rintro rfl
      exact new mem

lemma nodup_edgesFrom {catches : List Catch} {t : Terminator} {hs : List Nat} : (edgesFrom catches t hs).Nodup := by
  apply nodup_foldl_unless
  refine List.nodup_append.2 ⟨t.nodup_targets, ?_, ?_⟩
  · cases t with
    | raise => simp only [Terminator.leaving]; split <;> simp
    | _ => simp [Terminator.leaving]
  · cases t <;> simp [Terminator.targets, Terminator.leaving]

end Func

/-- The value that comes in on an edge. -/
def incoming? (is : List PhiInput) (s : BlockId) (kind : EdgeKind) : Option Value :=
  (is.find? fun i => i.source == s && i.kind == kind).map (·.value)

/-- The edges that inputs are for. -/
def keysOf (is : List PhiInput) : List (BlockId × EdgeKind) := is.map fun i => (i.source, i.kind)

lemma incoming?_of_mem {i : PhiInput} (once : (keysOf is).Nodup) (mem : i ∈ is) :
    incoming? is i.source i.kind = some i.value := by
  induction is with
  | nil => cases mem
  | cons j is ih =>
    rw [keysOf, List.map_cons, List.nodup_cons] at once
    rw [incoming?, List.find?_cons]
    cases List.mem_cons.1 mem with
    | inl here => simp [here]
    | inr later =>
      have other : (j.source == i.source && j.kind == i.kind) = false := by
        rw [Bool.eq_false_iff]
        intro same
        rw [Bool.and_eq_true, beq_iff_eq, beq_iff_eq] at same
        exact once.1 (List.mem_map.2 ⟨i, later, by rw [same.1, same.2]⟩)
      rw [other]
      exact ih once.2 later

lemma exists_of_incoming? {x : Value} (h : incoming? is s kind = some x) :
    ∃ i ∈ is, i.source = s ∧ i.kind = kind ∧ i.value = x := by
  obtain ⟨i, found, rfl⟩ := Option.map_eq_some_iff.1 h
  have named := List.find?_some found
  rw [Bool.and_eq_true, beq_iff_eq, beq_iff_eq] at named
  exact ⟨i, List.mem_of_find?_eq_some found, named.1, named.2, rfl⟩

lemma incoming?_isSome : (incoming? is s kind).isSome = true ↔ (s, kind) ∈ keysOf is := by
  simp [incoming?, keysOf, Prod.ext_iff]

lemma incoming?_append {js : List PhiInput} :
    incoming? (is ++ js) s kind = (incoming? is s kind).or (incoming? js s kind) := by
  rw [incoming?, List.find?_append, Option.map_or, incoming?, incoming?]

lemma find?_filter_and {p q : PhiInput → Bool} : (is.filter p).find? q = is.find? fun i => p i && q i := by
  rw [List.find?_filter]
  congr 1
  funext i
  exact Bool.eq_iff_iff.2 (by simp)

lemma find?_source : (is.filter (·.source == b)).find? (·.kind == kind) =
    is.find? fun i => i.source == b && i.kind == kind := find?_filter_and

lemma incoming?_filter_source : incoming? (is.filter (·.source != b)) s kind =
    if s = b then none else incoming? is s kind := by
  rw [incoming?, find?_filter_and]
  split
  · rename_i here
    rw [Option.map_eq_none_iff, List.find?_eq_none]
    simp +contextual [here]
  · rename_i other
    rw [incoming?]
    congr 2
    funext i
    by_cases same : i.source = s
    · simp [same, other]
    · simp [same]

lemma incoming?_map {kinds : List EdgeKind} {value : EdgeKind → Value} :
    incoming? (kinds.map fun kind => ⟨value kind, b, kind⟩) s kind =
      if s = b ∧ kind ∈ kinds then some (value kind) else none := by
  induction kinds with
  | nil => simp [incoming?]
  | cons k kinds ih =>
    rw [List.map_cons, incoming?, List.find?_cons]
    by_cases here : b = s ∧ k = kind
    · obtain ⟨rfl, rfl⟩ := here
      simp
    · have skip : (b == s && k == kind) = false := by
        rw [Bool.eq_false_iff]
        simpa using here
      rw [skip]
      refine ih.trans (if_congr (and_congr_right fun same => ?_) rfl rfl)
      subst same
      rw [List.mem_cons, or_iff_right fun same => here ⟨rfl, same.symm⟩]

lemma incoming?_reconcile {kinds : List EdgeKind} (known : ∀ kind, (b, kind) ∈ keysOf is ↔ kind ∈ kinds) :
    incoming? (Func.reconcile b kinds is) s kind = incoming? is s kind := by
  rw [Func.reconcile]
  split
  · rfl
  · rename_i first more own
    dsimp only
    rw [incoming?_append, incoming?_filter_source, incoming?_map]
    by_cases here : s = b
    · subst here
      have present : kind ∈ kinds ↔ (incoming? is s kind).isSome = true := by rw [incoming?_isSome, known]
      rw [if_pos rfl, Option.none_or, ← own, find?_source]
      split
      · rename_i mem
        obtain ⟨x, value⟩ := Option.isSome_iff_exists.1 (present.1 mem.2)
        rw [value]
        obtain ⟨i, found, rfl⟩ := Option.map_eq_some_iff.1 value
        rw [found, Option.getD_some]
      · rename_i absent
        rw [and_iff_right rfl, present, Option.not_isSome_iff_eq_none] at absent
        exact absent.symm
    · rw [if_neg here, if_neg fun both => here both.1, Option.or_none]

lemma keysOf_map {kinds : List EdgeKind} {value : EdgeKind → Value} :
    keysOf (kinds.map fun kind => ⟨value kind, b, kind⟩) = kinds.map fun kind => (b, kind) := by
  rw [keysOf, List.map_map]
  rfl

lemma nodup_keysOf_reconcile {kinds : List EdgeKind} (once : (keysOf is).Nodup) (distinct : kinds.Nodup) :
    (keysOf (Func.reconcile b kinds is)).Nodup := by
  rw [Func.reconcile]
  split
  · exact once
  · dsimp only
    have split (js ks : List PhiInput) : keysOf (js ++ ks) = keysOf js ++ keysOf ks := List.map_append
    rw [split, keysOf_map]
    refine List.nodup_append.2 ⟨once.sublist (List.filter_sublist.map _), ?_, ?_⟩
    · exact distinct.map fun k k' same => (Prod.mk.inj same).2
    · rintro e mem _ mem' rfl
      obtain ⟨i, other, rfl⟩ := List.mem_map.1 mem
      obtain ⟨k, -, same⟩ := List.mem_map.1 mem'
      simp [← (Prod.mk.inj same).1] at other

namespace Func

variable {f g : Func} {u : Value → Value}

/-- The value that comes into a phi on an edge. -/
def incoming (f : Func) (v : ValueId) (s : BlockId) (kind : EdgeKind) : Option Value :=
  (f.inputs? v).bind fun is => incoming? is s kind

/-- A phi has one input for each edge into its block. -/
structure Keyed (f : Func) : Prop where
  known : ∀ t, ∀ v ∈ f.phis t, ∀ s kind, (f.incoming v s kind).isSome = true ↔ (t, kind) ∈ f.succs s
  once : ∀ v is, f.inputs? v = some is → (keysOf is).Nodup

lemma Filed.mem_phis (h : Filed f) (phi : (f.inputs? v).isSome) : ∃ t, v ∈ f.phis t := by
  cases here : f.node? v with
  | none => simp [inputs?_eq, here] at phi
  | some n =>
    cases List.mem_append.1 (h.filed v n here) with
    | inl mem => exact ⟨_, mem⟩
    | inr mem =>
      rw [h.plain n.block v mem] at phi
      cases phi

/-- A graph that edits have made and that passes the check: nodes are filed where they say, the entry was not
removed, edges are known at both ends, and phis have their inputs. -/
structure Checked (f : Func) : Prop extends Filed f where
  start : (f.block? entry).isSome
  linked : ∀ t, (f.block? t).isSome → ∀ s kind, (f.preds t).count (s, kind) = (f.succs s).count (t, kind)
  verified : f.verify = .ok ()

namespace Checked

variable (h : Checked f)
include h

lemma wired (b : BlockId) : f.succs b = f.edgesOf b := wired_of_verify h.verified b

lemma mem_succs_of_mem_targets {e : BlockId × EdgeKind} (mem : e ∈ (f.terminator b).targets) : e ∈ f.succs b := by
  rw [h.wired, edgesOf_eq]
  exact mem_edgesFrom.2 (.inl mem)

lemma nodup_succs (b : BlockId) : (f.succs b).Nodup := by
  rw [h.wired, edgesOf_eq]
  exact nodup_edgesFrom

lemma live {e : BlockId × EdgeKind} (mem : e ∈ f.succs b) : (f.block? e.1).isSome := by
  obtain ⟨x, here⟩ := Option.isSome_iff_exists.1 (isSome_of_mem_succs mem)
  rw [succs_of_block? here] at mem
  exact isSome_of_mem_preds ((verifyBlock_eq_ok.1 (verify_eq_ok.1 h.verified b x here)).2.1 e mem)

lemma count_keysOf (mem : v ∈ f.phis t) (inputs : f.inputs? v = some is) :
    (keysOf is).count (s, kind) = (f.succs s).count (t, kind) := by
  obtain ⟨x, here⟩ := Option.isSome_iff_exists.1 (isSome_of_mem_nodesOf (List.mem_append_left (f.body t) mem))
  rw [phis_of_block? here] at mem
  have perm := ((verifyBlock_eq_ok.1 (verify_eq_ok.1 h.verified t x here)).2.2.2 v mem).2
  rw [← h.linked t (by rw [here]; rfl), preds_of_block? here, ← perm.count_eq, keys_of_inputs? inputs]
  rfl

lemma keyed : Keyed f where
  known t v mem s kind := by
    obtain ⟨is, inputs⟩ := Option.isSome_iff_exists.1 (h.phi t v mem)
    rw [incoming, inputs, Option.bind_some, incoming?_isSome, ← List.count_pos_iff, h.count_keysOf mem inputs,
      List.count_pos_iff]
  once v is inputs := by
    obtain ⟨t, mem⟩ := h.toFiled.mem_phis (v := v) (by rw [inputs]; rfl)
    refine List.nodup_iff_count_le_one.2 fun e => ?_
    rw [h.count_keysOf mem inputs]
    exact List.nodup_iff_count_le_one.1 (h.nodup_succs _) _

end Checked

/-- What keeps the edges of a graph that passes the check, and the inputs of the phis that it keeps, passes the
check. -/
lemma Checked.sameFlow (h : Checked f) (flow : SameFlow f g) (filed : Filed g)
    (phis : ∀ t, ∀ v ∈ g.phis t, v ∈ f.phis t ∧ g.keys v = f.keys v) : Checked g where
  toFiled := filed
  start := by
    rw [flow.isSome]
    exact h.start
  linked t live s kind := by
    rw [flow.preds, flow.succs]
    exact h.linked t (by rw [← flow.isSome]; exact live) s kind
  verified := by
    refine verify_eq_ok.2 fun b x here => verifyBlock_eq_ok.2 ⟨?_, fun e mem => ?_, fun v mem => ?_, fun v mem => ?_⟩
    · rw [← succs_of_block? here, flow.succs, flow.edgesOf, h.wired]
    · rw [← succs_of_block? here, flow.succs] at mem
      rw [flow.preds, ← List.count_pos_iff, h.linked e.1 (h.live mem), List.count_pos_iff]
      exact mem
    · refine filed.owned b v ?_
      rwa [nodesOf, phis_of_block? here, body_of_block? here]
    · rw [← phis_of_block? here] at mem
      obtain ⟨there, keys⟩ := phis b v mem
      refine ⟨filed.phi b v mem, ?_⟩
      obtain ⟨y, before⟩ := Option.isSome_iff_exists.1 (isSome_of_mem_nodesOf (List.mem_append_left (f.body b) there))
      rw [keys, ← preds_of_block? here, flow.preds, preds_of_block? before]
      rw [phis_of_block? before] at there
      exact ((verifyBlock_eq_ok.1 (verify_eq_ok.1 h.verified b y before)).2.2.2 v there).2

lemma checked_of_build? {cs : List Change} {method : MethodId} {params locals : Nat} {flags : MethodFlags}
    (built : build? cs (.new method params flags locals) = some f) (start : (f.block? entry).isSome)
    (verified : f.verify = .ok ()) : Checked f := by
  obtain ⟨linked, filed⟩ := build?_keeps linked_new filed_new built
  exact ⟨filed, start, linked.linked, verified⟩

/-- Some changes make a graph that passes the check and has a property, as running them shows. -/
lemma exists_checked {cs : List Change} {method : MethodId} {params locals : Nat} {flags : MethodFlags}
    {P : Func → Prop} [DecidablePred P] (facts : (build? cs (.new method params flags locals)).any
      (fun f => (f.block? entry).isSome && f.verify.isOk && decide (P f)) = true) :
    ∃ f, build? cs (.new method params flags locals) = some f ∧ Checked f ∧ P f := by
  obtain ⟨f, built, ok⟩ := (Option.any_eq_true _ _).1 facts
  obtain ⟨ok, here⟩ := Bool.and_eq_true_iff.1 ok
  obtain ⟨start, verified⟩ := Bool.and_eq_true_iff.1 ok
  refine ⟨f, built, checked_of_build? built start ?_, of_decide_eq_true here⟩
  cases done : f.verify with
  | ok _ => rfl
  | error e => simp [done, Except.isOk, Except.toBool] at verified

/-- The end of a block is set, and a phi has inputs for just the edges that then enter its block: they stay. -/
lemma incoming_reend_of_known {term : Terminator} {hs : List Nat} (listed : Listed f) (mem : v ∈ f.phis t)
    (live : (f.block? b).isSome)
    (known : ∀ k, (f.incoming v b k).isSome = true ↔ (t, k) ∈ edgesFrom f.handlers term hs) :
    (f.reend b term hs).incoming v s kind = f.incoming v s kind := by
  have nodes : SameNodes f (f.withEnd b term hs) := sameNodes_withEnd
  have inputs : (f.withEnd b term hs).inputs? v = f.inputs? v := inputs?_modifyBlock
  have edges : (f.withEnd b term hs).edgesOf b = edgesFrom f.handlers term hs := edgesOf_withEnd live
  rw [reend, incoming, inputs?_rewire (listed.sameNodes nodes) (by rw [nodes.phis]; exact mem), inputs, edges, incoming]
  split
  · cases here : f.inputs? v with
    | none => rfl
    | some is =>
      rw [Option.map_some, Option.bind_some, Option.bind_some]
      refine incoming?_reconcile fun k => ?_
      have known := known k
      rw [incoming, here, Option.bind_some, incoming?_isSome] at known
      rw [known, ← List.count_pos_iff, ← count_map_filter, List.count_pos_iff]
  · rfl

/-- The end of a block is set to one that leads to the same blocks: what comes into phis stays. -/
lemma incoming_reend {term : Terminator} (listed : Listed f) (keyed : Keyed f) (mem : v ∈ f.phis t)
    (live : (f.block? b).isSome) (same : edgesFrom f.handlers term (f.handlersOf b) = f.succs b) :
    (f.reend b term (f.handlersOf b)).incoming v s kind = f.incoming v s kind :=
  incoming_reend_of_known listed mem live fun k => by rw [same, keyed.known t v mem b k]

/-- Inputs of phis that are brought in line with another end are for distinct edges again. -/
lemma nodup_keysOf_reend {term : Terminator} {hs : List Nat} (filed : Filed f) (live : (f.block? b).isSome)
    (once : ∀ v is, f.inputs? v = some is → (keysOf is).Nodup) (inputs : (f.reend b term hs).inputs? v = some is) :
    (keysOf is).Nodup := by
  have nodes : SameNodes f (f.withEnd b term hs) := sameNodes_withEnd
  have edges : (f.withEnd b term hs).edgesOf b = edgesFrom f.handlers term hs := edgesOf_withEnd live
  have phi : ((f.reend b term hs).inputs? v).isSome = (f.inputs? v).isSome := sameNodes_reend.isPhi v
  rw [inputs] at phi
  obtain ⟨t, mem⟩ := filed.mem_phis phi.symm
  rw [reend, inputs?_rewire (filed.toListed.sameNodes nodes) (by rw [nodes.phis]; exact mem), edges] at inputs
  have before : (f.withEnd b term hs).inputs? v = f.inputs? v := inputs?_modifyBlock
  rw [before] at inputs
  split at inputs
  · obtain ⟨is', own, rfl⟩ := Option.map_eq_some_iff.1 inputs
    refine nodup_keysOf_reconcile (once v is' own) ?_
    -- Edges to one block differ in their kinds.
    refine (nodup_edgesFrom.filter _).map_on fun e mem e' mem' kinds => Prod.ext ?_ kinds
    rw [beq_iff_eq.1 (List.mem_filter.1 mem).2, beq_iff_eq.1 (List.mem_filter.1 mem').2]
  · exact once v is inputs

lemma kind?_modifyPhis (vs : List ValueId) (u : List PhiInput → List PhiInput) (plain : f.inputs? v = none) :
    (f.modifyPhis vs u).kind? v = f.kind? v ∧ (f.modifyPhis vs u).inputs? v = none := by
  induction vs generalizing f with
  | nil => exact ⟨rfl, plain⟩
  | cons w vs ih =>
    have step : (f.modifyInputs w u).kind? v = f.kind? v := by
      rw [modifyInputs_eq, kind?, node?_modifyNode, kind?]
      split
      · rw [inputs?_eq] at plain
        cases found : f.node? v with
        | none => rfl
        | some n =>
          rw [found, Option.bind_some] at plain
          rw [Option.map_some, Option.map_some, Option.map_some]
          cases kind : n.kind <;> first | rfl | (rw [kind] at plain; cases plain)
      · rfl
    obtain ⟨same, plain'⟩ := ih (f := f.modifyInputs w u) (by rw [inputs?, step]; exact plain)
    exact ⟨same.trans step, plain'⟩

lemma kind?_reend {term : Terminator} {hs : List Nat} (plain : f.inputs? v = none) :
    (f.reend b term hs).kind? v = f.kind? v := by
  let P (g : Func) : Prop := g.kind? v = f.kind? v ∧ g.inputs? v = none
  have start : P (f.withEnd b term hs) := ⟨rfl, plain⟩
  have kept : P ((f.withEnd b term hs).rewire b) := by
    refine rewire_keeps (fun g c u here => here) (fun g es here => here) (fun g w kinds here => ?_) start
    obtain ⟨kept, plain'⟩ := kind?_modifyPhis [w] (reconcile b kinds) here.2
    exact ⟨kept.trans here.1, plain'⟩
  exact kept.1

end Func

end Avm.Ir
