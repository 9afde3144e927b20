import Avm.Proofs.Ir.Shapes
import Avm.Proofs.Opt.Accounting

/-!
# Forwarding makes progress

Copy propagation counts the readings of registers that it replaces.  A reading may be replaced by a reading
of another register, so it has to be shown that no reading comes back after a number of turns.  What it
names instead was set longer ago (`since`): a register that is stored from another one is known to hold the
same only as long as the other one is not set again.  So the readings get lighter, each weighed at its
place (`Chart`), and the weight of all of them shows that something changed.

The ends of blocks are weighed before the nodes, since the inputs of phis may be put in another order when
an end is set.

The main statement is `pass_accounts`.
-/

namespace Avm.Ir

namespace NodeKind

@[simp] lemma operands_mapOperands (u : Value → Value) (k : NodeKind) :
    (k.mapOperands u).operands = k.operands.map u := by
  cases k with
  | phi inputs => simp [mapOperands, operands]
  | scope op operand => cases operand <;> rfl
  | _ => rfl

@[simp] lemma written_mapOperands (u : Value → Value) (k : NodeKind) : (k.mapOperands u).written = k.written := by
  cases k <;> rfl

lemma written_shape (k : NodeKind) : k.shape.written = k.written := by
  cases k <;> rfl

lemma mapOperands_eq_self {u : Value → Value} {k : NodeKind} (same : ∀ v ∈ k.operands, u v = v) :
    k.mapOperands u = k := by
  cases k with
  | phi inputs =>
    rw [mapOperands, phi.injEq]
    refine (List.map_congr_left fun i mem => ?_).trans (List.map_id _)
    rw [same i.value (List.mem_map_of_mem mem)]
    rfl
  | scope op operand => cases operand <;> simp_all [mapOperands, operands]
  | property | call | operation =>
    simp only [mapOperands]
    congr 1
    exact (List.map_congr_left same).trans (List.map_id _)
  | _ => simp_all [mapOperands, operands]

end NodeKind

@[simp] lemma Terminator.operands_mapOperands (u : Value → Value) (t : Terminator) :
    (t.mapOperands u).operands = t.operands.map u := by
  cases t with
  | leave value => cases value <;> rfl
  | _ => rfl

end Avm.Ir

namespace Avm.Opt.Copying

open Avm.Ir Avm.Ir.Func Avm.Ir.Edit

variable {f g : Func} {m : MethodId} {stores : Stores} {past : List Nat} {r r' : Nat} {v : Value}

section Weights

/-- How much was set before a register was set for the last time, in a record of the registers that were
set, the last one first. -/
def since (past : List Nat) (r : Nat) : Nat := (past.dropWhile (· != r)).length

/-- The weight of a reading of a register; other values weigh nothing. -/
def weight (past : List Nat) : Value → Nat
  | .reg r _ => since past r + 1
  | _ => 0

/-- The weight of values. -/
def load (past : List Nat) (vs : List Value) : Nat := (vs.map (weight past)).sum

/-- What is stored in a register that is known is lighter than a reading of it. -/
def Fits (past : List Nat) (stores : Stores) : Prop := ∀ e ∈ stores, weight past e.2 < since past e.1 + 1

lemma since_le : since past r ≤ past.length := (List.dropWhile_suffix _).length_le

@[simp] lemma since_cons_self : since (r :: past) r = past.length + 1 := by
  rw [since, List.dropWhile_cons_of_neg (by simp), List.length_cons]

lemma since_cons_of_ne (other : r' ≠ r) : since (r' :: past) r = since past r := by
  rw [since, List.dropWhile_cons_of_pos (by simpa using other), since]

lemma weight_cons (stays : f.readsRegister v r = false) : weight (r :: past) v = weight past v := by
  cases v with
  | reg r' version =>
    have other : r ≠ r' := by
      rintro rfl
      simp [readsRegister, registersRead] at stays
    rw [weight, since_cons_of_ne other, weight]
  | _ => rfl

lemma fits_filter (fits : Fits past stores) :
    Fits (r :: past) (stores.filter fun e => !f.readsRegister e.2 r && e.1 != r) := by
  intro e mem
  obtain ⟨mem, stays⟩ := List.mem_filter.1 mem
  rw [Bool.and_eq_true, Bool.not_eq_true', bne_iff_ne] at stays
  rw [weight_cons stays.1, since_cons_of_ne stays.2.symm]
  exact fits e mem

lemma fits_forget (rs : List Nat) (fits : Fits past stores) : Fits (rs.reverse ++ past) (forget f rs stores) := by
  induction rs generalizing past stores with
  | nil => exact fits
  | cons r rs ih =>
    rw [List.reverse_cons, List.append_assoc, List.singleton_append]
    exact ih (fits_filter fits)

/-- What a node stores was there before it was stored, so it is lighter from then on. -/
lemma fits_learn (kind : NodeKind) (fits : Fits past stores) :
    Fits (kind.written.reverse ++ past) (learn f kind stores) := by
  have forgotten := fits_forget (f := f) kind.written fits
  unfold learn
  dsimp only
  split
  · rename_i r value
    split
    · exact forgotten
    · rename_i stays
      rw [Bool.not_eq_true] at stays
      intro e mem
      obtain rfl | mem := List.mem_cons.1 mem
      · show weight (r :: past) value < since (r :: past) r + 1
        rw [weight_cons stays, since_cons_self]
        cases value with
        | reg r' version => exact Nat.succ_lt_succ (Nat.lt_succ_of_le since_le)
        | _ => exact Nat.succ_pos _
      · exact forgotten e (List.mem_of_mem_filter mem)
  · exact forgotten

lemma forwardValue_of_not (stays : isForwarded stores v = false) : forwardValue stores v = v := by
  cases v with
  | reg r version =>
    rw [isForwarded, Value.register?, Option.bind_some, Option.isSome_eq_false_iff,
      Option.isNone_iff_eq_none] at stays
    rw [forwardValue, stays]
    rfl
  | _ => rfl

lemma weight_forwardValue (fits : Fits past stores) :
    weight past (forwardValue stores v) + (if isForwarded stores v then 1 else 0) ≤ weight past v := by
  split
  · rename_i known
    cases v with
    | reg r version =>
      rw [isForwarded, Value.register?, Option.bind_some] at known
      obtain ⟨w, found⟩ := Option.isSome_iff_exists.1 known
      rw [forwardValue, found]
      exact fits _ (mem_of_lookup found)
    | _ => cases known
  · rename_i stays
    rw [forwardValue_of_not (by simpa using stays)]
    exact Nat.le_refl _

lemma load_forwardValue (fits : Fits past stores) (vs : List Value) :
    load past (vs.map (forwardValue stores)) + vs.countP (isForwarded stores) ≤ load past vs := by
  induction vs with
  | nil => exact Nat.le_refl _
  | cons v vs ih =>
    have lighter := weight_forwardValue (v := v) fits
    simp only [load, List.map_cons, List.sum_cons, List.countP_cons] at ih ⊢
    omega

lemma map_forwardValue_of_zero {vs : List Value} (none : vs.countP (isForwarded stores) = 0) :
    ∀ v ∈ vs, forwardValue stores v = v := by
  intro v mem
  refine forwardValue_of_not ?_
  rw [List.countP_eq_zero] at none
  simpa using none v mem

end Weights

section Charts

variable {b t : BlockId} {w : ValueId} {c : Chart}

/-- The block from whose end it is known what registers hold at the start of a block. -/
def source? (f : Func) (b : BlockId) : Option BlockId :=
  match f.preds b with
  | [(pred, kind)] => if kind = .raise then none else some pred
  | _ => none

lemma inStores_eq (out : OutStores) : inStores f out b = ((source? f b).map (OutStores.at out)).getD [] := by
  rw [inStores, source?]
  match f.preds b with
  | [] => rfl
  | [(pred, kind)] =>
    dsimp only
    split <;> rfl
  | _ :: _ :: _ => rfl

/-- The registers that a node sets. -/
def settings (f : Func) (v : ValueId) : List Nat := ((f.kind? v).map NodeKind.written).getD []

lemma settings_eq (v : ValueId) : settings f v = ((f.shape? v).map NodeKind.written).getD [] := by
  rw [settings, kind?, shape?, Option.map_map, Option.map_map]
  congr 2
  funext n
  exact (NodeKind.written_shape n.kind).symm

/-- The record of the registers that were set, behind some nodes. -/
def record (f : Func) (past : List Nat) (vs : List ValueId) : List Nat :=
  vs.foldl (fun past v => (settings f v).reverse ++ past) past

/-- The records of the registers that were set on the way to the start and to the end of each block. -/
structure Chart where
  starts : BlockId → List Nat
  ends : BlockId → List Nat

/-- The records for one more block. -/
def Chart.visit (f : Func) (c : Chart) (b : BlockId) : Chart :=
  let start := ((source? f b).map c.ends).getD []
  ⟨Function.update c.starts b start, Function.update c.ends b (record f start (f.body b))⟩

/-- The records of a function graph, in the order in which blocks are visited. -/
def chartOf (f : Func) : Chart :=
  (f.reversePostorder Func.entry).foldl (Chart.visit f) ⟨fun _ => [], fun _ => []⟩

lemma Chart.foldl_visit_of_notMem {bs : List BlockId} (absent : b ∉ bs) :
    (bs.foldl (Chart.visit f) c).starts b = c.starts b ∧ (bs.foldl (Chart.visit f) c).ends b = c.ends b := by
  induction bs generalizing c with
  | nil => exact ⟨rfl, rfl⟩
  | cons d bs ih =>
    rw [List.mem_cons, not_or] at absent
    obtain ⟨starts, ends⟩ := @ih (c.visit f d) absent.2
    rw [List.foldl_cons, starts, ends]
    exact ⟨Function.update_of_ne absent.1 _ _, Function.update_of_ne absent.1 _ _⟩

/-- Graphs that differ in operands only. -/
structure Skeleton (f g : Func) : Prop extends SameNodes f g where
  succs : ∀ b, g.succs b = f.succs b
  preds : ∀ b, (g.preds b).Perm (f.preds b)
  edgesOf : ∀ b, g.edgesOf b = f.edgesOf b
  shape? : ∀ v, g.shape? v = f.shape? v

/-- Nodes are listed once, where they say, and edges are those that blocks call for and known at both
ends. -/
structure Regular (f : Func) : Prop where
  owned : ∀ b, ∀ v ∈ f.nodesOf b, (f.node? v).map (·.block) = some b
  once : ∀ b, (f.nodesOf b).Nodup
  wired : ∀ b, f.succs b = f.edgesOf b
  linked : ∀ t, (f.block? t).isSome → ∀ s kind,
    (f.preds t).count (s, kind) = (f.succs s).count (t, kind)

namespace Skeleton

variable {h : Func}

lemma refl (f : Func) : Skeleton f f where
  toSameNodes := .refl f
  succs _ := rfl
  preds _ := .refl _
  edgesOf _ := rfl
  shape? _ := rfl

lemma trans (first : Skeleton f g) (second : Skeleton g h) : Skeleton f h where
  toSameNodes := first.toSameNodes.trans second.toSameNodes
  succs b := (second.succs b).trans (first.succs b)
  preds b := (second.preds b).trans (first.preds b)
  edgesOf b := (second.edgesOf b).trans (first.edgesOf b)
  shape? v := (second.shape? v).trans (first.shape? v)

lemma regular (same : Skeleton f g) (regular : Regular f) : Regular g where
  owned b v mem := by
    rw [same.nodesOf] at mem
    rw [same.owner]
    exact regular.owned b v mem
  once b := by
    rw [same.nodesOf]
    exact regular.once b
  wired b := by
    rw [same.succs, same.edgesOf]
    exact regular.wired b
  linked t live s kind := by
    rw [same.isSome] at live
    rw [(same.preds t).count_eq, same.succs]
    exact regular.linked t live s kind

lemma source? (same : Skeleton f g) (b : BlockId) : source? g b = Copying.source? f b := by
  have perm := same.preds b
  rw [Copying.source?, Copying.source?]
  generalize g.preds b = ps, f.preds b = qs at perm
  match ps, qs, perm with
  | [], qs, perm => rw [List.nil_perm.1 perm]
  | [e], qs, perm => rw [List.singleton_perm.1 perm]
  | e :: e' :: ps, [], perm => cases perm.eq_nil
  | e :: e' :: ps, [d], perm => cases List.perm_singleton.1 perm
  | e :: e' :: ps, d :: d' :: qs, perm => rfl

lemma settings (same : Skeleton f g) (v : ValueId) : settings g v = Copying.settings f v := by
  rw [settings_eq, settings_eq, same.shape?]

lemma record (same : Skeleton f g) : record g = Copying.record f := by
  funext past vs
  simp only [Copying.record, same.settings]

lemma visit (same : Skeleton f g) : Chart.visit g = Chart.visit f := by
  funext c b
  simp only [Chart.visit, same.source?, same.record, same.body]

lemma chartOf (same : Skeleton f g) : chartOf g = Copying.chartOf f := by
  have succIds : g.succIds = f.succIds := by
    funext b
    rw [Func.succIds, Func.succIds, same.succs]
  rw [Copying.chartOf, Copying.chartOf, reversePostorder, reversePostorder, same.size, succIds, same.visit]

end Skeleton

end Charts

section Loads

variable {b : BlockId} {w : ValueId} {c : Chart} {h : Func}

/-- The weight of an input of a phi, at the end of the block that it comes from. -/
def inputLoad (c : Chart) (i : PhiInput) : Nat := if i.kind = .raise then 0 else weight (c.ends i.source) i.value

/-- The weight of the inputs of a phi, or of the operands of another node where it stands in its block. -/
def nodeLoad (f : Func) (c : Chart) (v : ValueId) : Nat :=
  match f.node? v with
  | none => 0
  | some n =>
    if v ∈ f.phis n.block then ((n.kind.inputs?.getD []).map (inputLoad c)).sum
    else load (record f (c.starts n.block) ((f.body n.block).takeWhile (· != v))) n.kind.operands

/-- The weight of all operands, those of terminators first. -/
def total (f : Func) : Nat ×ₗ Nat :=
  toLex ((f.blockIds.map fun b => load ((chartOf f).ends b) (f.terminator b).operands).sum,
    (f.nodeIds.map (nodeLoad f (chartOf f))).sum)

/-- A graph has aged and, if it started out as it should, has got lighter with the same skeleton. -/
def Lightens (A : Prop) (f g : Func) : Prop := Settles f g ∧ (A → Skeleton f g ∧ total g < total f)

instance {A : Prop} : IsTrans Func (Lightens A) := ⟨fun _ _ _ first second => by
  refine ⟨first.1.trans second.1, fun start => ?_⟩
  obtain ⟨same, less⟩ := first.2 start
  obtain ⟨same', less'⟩ := second.2 start
  exact ⟨same.trans same', less'.trans less⟩⟩

lemma skeleton_of_accounts {A : Prop} {n n' : Nat} (account : Func.Accounts (Lightens A) n f n' g) (start : A) :
    Skeleton f g := by
  cases account with
  | stay => exact .refl f
  | move _ step => exact (step.2 start).1

lemma nodeLoad_congr (same : Skeleton f g) (stays : g.node? w = f.node? w) :
    nodeLoad g c w = nodeLoad f c w := by
  rw [nodeLoad, nodeLoad, stays, same.record]
  simp only [same.phis, same.body]

lemma total_lt_of_node (same : Skeleton f g) (blocks : g.blocks = f.blocks) (listed : w ∈ f.nodeIds)
    (others : ∀ u, u ≠ w → g.node? u = f.node? u)
    (lighter : nodeLoad g (chartOf f) w < nodeLoad f (chartOf f) w) : total g < total f := by
  have ends (b : BlockId) : g.terminator b = f.terminator b := by
    rw [terminator, block?_congr blocks, terminator]
  rw [total, total, same.chartOf, same.toSameNodes.blockIds, same.toSameNodes.nodeIds]
  simp only [ends]
  refine Prod.Lex.toLex_lt_toLex.2 (.inr ⟨rfl, ?_⟩)
  refine List.sum_lt_sum _ _ (fun u _ => ?_) ⟨w, listed, lighter⟩
  by_cases here : u = w
  · rw [here]
    exact lighter.le
  · exact (nodeLoad_congr same (others u here)).le

lemma skeleton_modifyKind {u : NodeKind → NodeKind} (keys : ∀ k, f.kind? w = some k → (u k).keys = k.keys)
    (shape : ∀ k, f.kind? w = some k → (u k).shape = k.shape) : Skeleton f (f.modifyKind w u) where
  toSameNodes := (alike_modifyKind keys).toSameNodes
  succs _ := rfl
  preds _ := .refl _
  edgesOf _ := rfl
  shape? v := by
    rw [shape?, shape?, modifyKind, node?_modifyNode]
    split
    · rename_i here
      subst here
      cases found : f.node? w with
      | none => rfl
      | some n =>
        have same := shape n.kind (by rw [kind?, found]; rfl)
        simp only [Option.map_some, same]
    · rfl

lemma modifyKind_eq_self {u : NodeKind → NodeKind} {k : NodeKind} (here : f.kind? w = some k) (same : u k = k) :
    f.modifyKind w u = f := by
  obtain ⟨n, found, rfl⟩ := Option.map_eq_some_iff.1 here
  have stays : f.nodes.modify w (Option.map fun n => { n with kind := u n.kind }) = f.nodes := by
    refine Array.ext Array.size_modify fun i _ inside => ?_
    rw [Array.getElem_modify]
    split
    · rename_i at_
      subst at_
      have place : f.nodes[w] = some n := by
        rw [node?, Array.getElem?_eq_getElem inside, Option.join_some] at found
        exact found
      rw [place, Option.map_some, same]
    · rfl
  show { f with nodes := _ } = f
  rw [stays]

end Loads

section Forwarding

variable {A : Prop} {b : BlockId} {w : ValueId} {n : Nat}

lemma forwardNode_accounts {kind : NodeKind} {before after : List ValueId} (here : f.kind? w = some kind)
    (place : A → Regular f ∧ f.body b = before ++ w :: after ∧
      Fits (record f ((chartOf f).starts b) before) stores) :
    Func.Accounts (Lightens A) n f (n + kind.operands.countP (isForwarded stores))
      (f.modifyKind w (NodeKind.mapOperands (forwardValue stores))) := by
  cases count : kind.operands.countP (isForwarded stores) with
  | zero =>
    rw [modifyKind_eq_self here (NodeKind.mapOperands_eq_self (map_forwardValue_of_zero count))]
    exact .stay
  | succ k =>
    refine .move (Nat.lt_add_of_pos_right (Nat.succ_pos k)) ⟨⟨ages_modifyKind f w _, fun _ fork => fork⟩, fun start =>
      ?_⟩
    have same : Skeleton f (f.modifyKind w (NodeKind.mapOperands (forwardValue stores))) :=
      skeleton_modifyKind (fun _ _ => NodeKind.keys_mapOperands) fun _ _ => NodeKind.shape_mapOperands
    obtain ⟨regular, body, fits⟩ := place start
    obtain ⟨node, found, rfl⟩ := Option.map_eq_some_iff.1 here
    have listed : w ∈ f.nodesOf b := by simp [nodesOf, body]
    have home : node.block = b := by
      have owner := regular.owned b w listed
      rw [found] at owner
      exact Option.some.inj owner
    have once := regular.once b
    rw [nodesOf, body, List.nodup_append] at once
    have plain : w ∉ f.phis b := fun phi => once.2.2 w phi w (by simp) rfl
    have first : (f.body b).takeWhile (· != w) = before := by
      have absent : ∀ u ∈ before, (u != w) = true := by
        intro u mem
        refine bne_iff_ne.2 ?_
        rintro rfl
        exact (List.nodup_append.1 once.2.1).2.2 u mem u List.mem_cons_self rfl
      rw [body, List.takeWhile_append_of_pos absent]
      simp
    refine ⟨same, total_lt_of_node same rfl (mem_nodeIds.2 ⟨b, listed⟩) (fun u other => ?_) ?_⟩
    · rw [modifyKind, node?_modifyNode, if_neg (Ne.symm other)]
    · have lighter := load_forwardValue fits node.kind.operands
      rw [nodeLoad, nodeLoad, modifyKind, node?_modifyNode, if_pos rfl, found, ← modifyKind, same.record]
      simp only [Option.map_some, same.phis, same.body, home, if_neg plain, first,
        NodeKind.operands_mapOperands]
      omega

lemma forwardBody_accounts (after : List ValueId) (f : Func) (stores : Stores) (n : Nat) (before : List ValueId)
    (place : A → Regular f ∧ f.body b = before ++ after ∧
      Fits (record f ((chartOf f).starts b) before) stores) :
    Func.Accounts (Lightens A) n f (forwardBody after f stores n).2.2 (forwardBody after f stores n).1 ∧
      (A → Fits (record f ((chartOf f).starts b) (before ++ after)) (forwardBody after f stores n).2.1) := by
  induction after generalizing f stores n before with
  | nil =>
    refine ⟨.stay, fun start => ?_⟩
    rw [List.append_nil]
    exact (place start).2.2
  | cons v after ih =>
    have snoc (past : List Nat) : record f past (before ++ [v]) = (settings f v).reverse ++ record f past before := by
      rw [record, List.foldl_append]
      rfl
    rw [forwardBody, List.append_cons]
    cases here : f.kind? v with
    | none =>
      refine ih f stores n (before ++ [v]) fun start => ?_
      obtain ⟨regular, body, fits⟩ := place start
      refine ⟨regular, by rw [body, List.append_cons], ?_⟩
      rw [snoc, settings, here]
      exact fits
    | some kind =>
      dsimp only
      have step := forwardNode_accounts (n := n) here place
      have same := skeleton_of_accounts step
      have shown : settings f v = (kind.mapOperands (forwardValue stores)).written := by
        rw [settings, here, NodeKind.written_mapOperands]
        rfl
      generalize f.modifyKind v (NodeKind.mapOperands (forwardValue stores)) = f₁ at step same ⊢
      obtain ⟨rest, fits⟩ := ih f₁ (learn f₁ (kind.mapOperands (forwardValue stores)) stores)
        (n + kind.operands.countP (isForwarded stores)) (before ++ [v]) fun start => by
          obtain ⟨regular, body, fits⟩ := place start
          refine ⟨(same start).regular regular, by rw [(same start).body, body, List.append_cons], ?_⟩
          rw [(same start).record, (same start).chartOf, snoc, shown]
          exact fits_learn _ fits
      refine ⟨step.trans rest, fun start => ?_⟩
      have done := fits start
      rwa [(same start).record, (same start).chartOf] at done

lemma skeleton_reend {u : Value → Value} (regular : Regular f) (live : (f.block? b).isSome) :
    Skeleton f (f.reend b ((f.terminator b).mapOperands u) (f.handlersOf b)) := by
  have nodes : SameNodes f (f.reend b ((f.terminator b).mapOperands u) (f.handlersOf b)) := sameNodes_reend
  have edges : edgesFrom f.handlers ((f.terminator b).mapOperands u) (f.handlersOf b) = f.edgesOf b := by
    rw [edgesFrom_mapOperands, edgesOf_eq]
  refine ⟨nodes, fun t => ?_, fun t => ?_, fun t => ?_, fun v => shape?_reend⟩
  · rw [succs_reend live, edges]
    split
    · rename_i here
      rw [here, regular.wired]
    · rfl
  · cases there : (f.block? t).isSome with
    | false =>
      have gone := nodes.isSome t
      rw [there, Option.isSome_eq_false_iff, Option.isNone_iff_eq_none] at gone
      rw [Option.isSome_eq_false_iff, Option.isNone_iff_eq_none] at there
      rw [(parts_of_isNone gone).2.2.2.2.2, (parts_of_isNone there).2.2.2.2.2]
    | true =>
      refine List.perm_iff_count.2 fun e => ?_
      obtain ⟨s, kind⟩ := e
      rw [count_preds_reend (fun kind => regular.linked t there b kind) live there, edges]
      split
      · rename_i here
        rw [here, regular.linked t there, regular.wired]
      · rfl
  · rw [edgesOf_eq, terminator_reend live, handlersOf_reend live, nodes.catches]
    split
    · rename_i here
      subst here
      exact edges
    · rw [edgesOf_eq]

/-- An end that gets lighter makes the graph lighter, whatever happens to the inputs of phis. -/
lemma total_lt_of_end (same : Skeleton f g) (live : (f.block? b).isSome)
    (others : ∀ t, t ≠ b → g.terminator t = f.terminator t)
    (lighter : load ((chartOf f).ends b) (g.terminator b).operands <
      load ((chartOf f).ends b) (f.terminator b).operands) : total g < total f := by
  rw [total, total, same.chartOf, same.toSameNodes.blockIds]
  refine Prod.Lex.toLex_lt_toLex.2 (.inl ?_)
  refine List.sum_lt_sum _ _ (fun t _ => ?_) ⟨b, mem_blockIds.2 live, lighter⟩
  by_cases here : t = b
  · rw [here]
    exact lighter.le
  · rw [others t here]

lemma forwardEnd_accounts (fits : A → Regular f ∧ Fits ((chartOf f).ends b) stores) :
    Func.Accounts (Lightens A) n f (n + (forwardEnd f b stores).2) (forwardEnd f b stores).1 := by
  rw [forwardEnd]
  split
  · exact .stay
  · rename_i x here
    dsimp only
    split
    · exact .stay
    · rename_i some_
      split
      · rename_i _ f' run
        have ages := ages_setTerminator.of_run run
        obtain ⟨-, live, rfl⟩ := setTerminator_eq_ok.1 run
        rw [← terminator_of_block? here] at some_ ages ⊢
        refine .move (Nat.lt_add_of_pos_right (Nat.pos_of_ne_zero some_)) ⟨⟨ages, fun t fork => ?_⟩, fun start => ?_⟩
        · rw [terminator_reend live] at fork
          split at fork
          · rename_i at_
            rwa [Terminator.isFork_mapOperands, ← at_] at fork
          · exact fork
        obtain ⟨regular, fits⟩ := fits start
        have same := skeleton_reend (u := forwardValue stores) regular live
        refine ⟨same, total_lt_of_end same live (fun t other => ?_) ?_⟩
        · rw [terminator_reend live, if_neg other]
        · have lighter := load_forwardValue fits (f.terminator b).operands
          rw [terminator_reend live, if_pos rfl, Terminator.operands_mapOperands]
          omega
      · rename_i run
        rw [setTerminator_eq_error run]
        exact .stay

lemma forwardBlocks_accounts (bs : List BlockId) (f : Func) (out : OutStores) (n : Nat) (c : Chart)
    (place : A → Regular f ∧ chartOf f = bs.foldl (Chart.visit f) c ∧ bs.Nodup ∧
      ∀ b, Fits (c.ends b) (out.at b)) :
    Func.Accounts (Lightens A) n f (forwardBlocks bs f out n).2.2 (forwardBlocks bs f out n).1 ∧
      (A → ∀ b, Fits ((chartOf f).ends b) ((forwardBlocks bs f out n).2.1.at b)) := by
  induction bs generalizing f out n c with
  | nil =>
    refine ⟨.stay, fun start b => ?_⟩
    obtain ⟨-, chart, -, fits⟩ := place start
    rw [chart]
    exact fits b
  | cons b bs ih =>
    rw [forwardBlocks]
    -- The records of this block are final, since it is not visited again.
    have recorded (start : A) : (chartOf f).starts b = ((source? f b).map c.ends).getD [] ∧
        (chartOf f).ends b = record f ((chartOf f).starts b) (f.body b) := by
      obtain ⟨-, chart, once, -⟩ := place start
      have final := Chart.foldl_visit_of_notMem (f := f) (c := c.visit f b) (List.nodup_cons.1 once).1
      rw [chart, List.foldl_cons, final.1, final.2]
      simp [Chart.visit]
    have body := forwardBody_accounts (f.body b) f (inStores f out b) n [] fun start => by
      obtain ⟨regular, -, -, fits⟩ := place start
      refine ⟨regular, rfl, ?_⟩
      rw [(recorded start).1, inStores_eq]
      cases source? f b with
      | none => exact List.forall_mem_nil _
      | some p => exact fits p
    obtain ⟨first, known⟩ := body
    generalize forwardBody (f.body b) f (inStores f out b) n = p at first known ⊢
    obtain ⟨f₁, stores, n₁⟩ := p
    have same := skeleton_of_accounts first
    have fits (start : A) : Fits ((chartOf f).ends b) stores := by
      rw [(recorded start).2]
      exact known start
    have second := forwardEnd_accounts (A := A) (f := f₁) (n := n₁) (b := b) fun start => by
      refine ⟨(same start).regular (place start).1, ?_⟩
      rw [(same start).chartOf]
      exact fits start
    dsimp only
    generalize forwardEnd f₁ b stores = q at second ⊢
    obtain ⟨f₂, more⟩ := q
    have two := first.trans second
    have same₂ := skeleton_of_accounts two
    obtain ⟨rest, all⟩ := ih f₂ (out.setIfInBounds b stores) (n₁ + more) (c.visit f b) fun start => by
      obtain ⟨regular, chart, once, fits_out⟩ := place start
      refine ⟨(same₂ start).regular regular, ?_, (List.nodup_cons.1 once).2, fun t => ?_⟩
      · rw [(same₂ start).chartOf, (same₂ start).visit, chart, List.foldl_cons]
      · have final := fits start
        rw [(recorded start).2, (recorded start).1] at final
        rw [OutStores.at, Array.getElem?_setIfInBounds, Chart.visit]
        dsimp only
        by_cases here : b = t
        · subst here
          rw [Function.update_self, if_pos rfl]
          split
          · exact final
          · exact List.forall_mem_nil _
        · rw [if_neg here, Function.update_of_ne (Ne.symm here)]
          exact fits_out t
    refine ⟨two.trans rest, fun start t => ?_⟩
    rw [← (same₂ start).chartOf]
    exact all start t

lemma inputLoad_forwardInput {c : Chart} {out : OutStores} (fits : ∀ b, Fits (c.ends b) (out.at b)) (i : PhiInput) :
    inputLoad c (forwardInput out i) + (if isForwardedInput out i then 1 else 0) ≤ inputLoad c i := by
  have lighter := weight_forwardValue (v := i.value) (fits i.source)
  by_cases raised : i.kind = .raise
  · simp [inputLoad, forwardInput, isForwardedInput, raised]
  · simpa [inputLoad, forwardInput, isForwardedInput, raised] using lighter

lemma sum_inputLoad {c : Chart} {out : OutStores} (fits : ∀ b, Fits (c.ends b) (out.at b))
    (is : List PhiInput) : ((is.map (forwardInput out)).map (inputLoad c)).sum + is.countP (isForwardedInput out) ≤
      (is.map (inputLoad c)).sum := by
  induction is with
  | nil => exact Nat.le_refl _
  | cons i is ih =>
    have lighter := inputLoad_forwardInput fits i
    simp only [List.map_cons, List.sum_cons, List.countP_cons] at ih ⊢
    omega

lemma map_forwardInput_of_zero {out : OutStores} {is : List PhiInput}
    (none : is.countP (isForwardedInput out) = 0) : is.map (forwardInput out) = is := by
  rw [List.countP_eq_zero] at none
  refine (List.map_congr_left fun i mem => ?_).trans (List.map_id is)
  have stays := none i mem
  rw [forwardInput]
  split
  · rfl
  · rename_i normal
    rw [isForwardedInput, Bool.and_eq_true, bne_iff_ne, not_and, Bool.not_eq_true] at stays
    rw [forwardValue_of_not (stays normal)]
    rfl

lemma forwardPhi_accounts {out : OutStores} (acc : Func × Nat) (place : A → Regular acc.1 ∧
    (∃ b, w ∈ acc.1.phis b) ∧ ∀ t, Fits ((chartOf acc.1).ends t) (out.at t)) :
    Func.Accounts (Lightens A) acc.2 acc.1 (forwardPhis out acc w).2 (forwardPhis out acc w).1 := by
  obtain ⟨f, n⟩ := acc
  dsimp only at place ⊢
  rw [forwardPhis]
  dsimp only
  cases here : f.inputs? w with
  | none => exact .stay
  | some is =>
    obtain ⟨k, kind, phi⟩ := Option.bind_eq_some_iff.1 here
    obtain rfl : k = .phi is := by
      cases k with
      | phi inputs => rw [Option.some.inj phi]
      | _ => cases phi
    dsimp only
    cases count : is.countP (isForwardedInput out) with
    | zero =>
      have stays : NodeKind.mapInputs (List.map (forwardInput out)) (.phi is) = .phi is :=
        congrArg NodeKind.phi (map_forwardInput_of_zero count)
      have same : f.modifyInputs w (List.map (forwardInput out)) = f := modifyKind_eq_self kind stays
      rw [same]
      exact .stay
    | succ j =>
      refine .move (Nat.lt_add_of_pos_right (Nat.succ_pos j)) ⟨⟨ages_modifyKind f w _, fun _ fork => fork⟩,
        fun start => ?_⟩
      have keeps : (List.map (forwardInput out) is).map (fun i => (i.source, i.kind)) =
          is.map fun i => (i.source, i.kind) := by
        rw [List.map_map]
        refine List.map_congr_left fun i _ => ?_
        rw [Function.comp_apply, forwardInput]
        split <;> rfl
      have same : Skeleton f (f.modifyInputs w (List.map (forwardInput out))) := by
        refine skeleton_modifyKind (fun k found => ?_) fun k found => ?_
        · rw [kind] at found
          cases found
          simp only [NodeKind.keys, NodeKind.inputs?, Option.map_some, keeps]
        · rw [kind] at found
          cases found
          exact NodeKind.shape_mapInputs (List.map (forwardInput out)) (k := .phi is)
      obtain ⟨regular, ⟨b, mem⟩, fits⟩ := place start
      have listed : w ∈ f.nodesOf b := List.mem_append_left _ mem
      obtain ⟨node, found, at_⟩ := Option.map_eq_some_iff.1 kind
      have home : node.block = b := by
        have owner := regular.owned b w listed
        rw [found] at owner
        exact Option.some.inj owner
      refine ⟨same, total_lt_of_node same rfl (mem_nodeIds.2 ⟨b, listed⟩) (fun u other => ?_) ?_⟩
      · rw [modifyInputs_eq, node?_modifyNode, if_neg (Ne.symm other)]
      · have lighter := sum_inputLoad fits is
        have changed : (f.modifyInputs w (List.map (forwardInput out))).node? w =
            some { node with kind := .phi (is.map (forwardInput out)) } := by
          rw [modifyInputs_eq, node?_modifyNode, if_pos rfl, found, Option.map_some, at_]
          rfl
        rw [nodeLoad, nodeLoad, changed, found]
        simp only [same.phis, home, if_pos mem, at_, NodeKind.inputs?, Option.getD_some]
        omega

lemma forwardPhis_accounts {out : OutStores} (vs : List ValueId) (acc : Func × Nat) (place : A → Regular acc.1 ∧
    (∀ v ∈ vs, ∃ b, v ∈ acc.1.phis b) ∧ ∀ t, Fits ((chartOf acc.1).ends t) (out.at t)) :
    Func.Accounts (Lightens A) acc.2 acc.1 (vs.foldl (forwardPhis out) acc).2
      (vs.foldl (forwardPhis out) acc).1 := by
  induction vs generalizing acc with
  | nil => exact .stay
  | cons v vs ih =>
    rw [List.foldl_cons]
    have first := forwardPhi_accounts (w := v) acc fun start => by
      obtain ⟨regular, listed, fits⟩ := place start
      exact ⟨regular, listed v List.mem_cons_self, fits⟩
    have same := skeleton_of_accounts first
    refine first.trans (ih _ fun start => ?_)
    obtain ⟨regular, listed, fits⟩ := place start
    refine ⟨(same start).regular regular, fun u mem => ?_, fun t => ?_⟩
    · obtain ⟨b, here⟩ := listed u (List.mem_cons_of_mem v mem)
      exact ⟨b, by rwa [(same start).phis]⟩
    · rw [(same start).chartOf]
      exact fits t

lemma forward_accounts (f : Func) :
    Func.Accounts (Lightens (Regular f)) 0 f (forward f).2 (forward f).1 := by
  rw [forward]
  dsimp only
  have blocks := forwardBlocks_accounts (A := Regular f) (f.reversePostorder Func.entry) f
    (Array.replicate f.blocks.size []) 0 ⟨fun _ => [], fun _ => []⟩ fun regular => by
      refine ⟨regular, rfl, Graph.nodup_reversePostorder, fun b => ?_⟩
      rw [OutStores.at, Array.getElem?_replicate]
      split
      · exact List.forall_mem_nil _
      · exact List.forall_mem_nil _
  obtain ⟨first, fits⟩ := blocks
  generalize forwardBlocks (f.reversePostorder Func.entry) f _ 0 = p at first fits ⊢
  obtain ⟨f₁, out, n⟩ := p
  have same := skeleton_of_accounts first
  refine first.trans (forwardPhis_accounts _ (f₁, n) fun regular => ⟨(same regular).regular regular, ?_, ?_⟩)
  · intro v mem
    obtain ⟨b, -, mem⟩ := List.mem_flatMap.1 mem
    exact ⟨b, mem⟩
  · intro t
    rw [(same regular).chartOf]
    exact fits regular t

end Forwarding

/-- A graph settles and, as long as nothing is removed, gets no heavier and keeps its skeleton. -/
def Lessens (f g : Func) : Prop :=
  Settles f g ∧ (Settles g f → Regular f → Skeleton f g ∧ total g ≤ total f)

instance : IsTrans Func Lessens := ⟨fun f g h first second => by
  refine ⟨first.1.trans second.1, fun back regular => ?_⟩
  obtain ⟨same, less⟩ := first.2 (second.1.trans back) regular
  obtain ⟨same', less'⟩ := second.2 (back.trans first.1) (same.regular regular)
  exact ⟨same.trans same', less'.trans less⟩⟩

lemma advances_of_lightens (lightens : Lightens (Regular f) f g) : Advances Lessens Regular f g := by
  refine ⟨⟨lightens.1, fun _ regular => ?_⟩, fun regular back => ?_⟩
  · obtain ⟨same, less⟩ := lightens.2 regular
    exact ⟨same, less.le⟩
  · obtain ⟨same, less⟩ := lightens.2 regular
    exact absurd less (not_lt_of_ge (back.2 lightens.1 (same.regular regular)).2)

lemma advances_of_settles (settles : Advances Settles (fun _ => True) f g) : Advances Lessens Regular f g :=
  ⟨⟨settles.1, fun back => absurd back (settles.2 trivial)⟩, fun _ back => settles.2 trivial back.1⟩

lemma accounts_removeDeadStores (f : Func) :
    Func.Accounts (Advances Settles fun _ => True) 0 f (removeDeadStores f).2 (removeDeadStores f).1 := by
  have live (v) (mem : v ∈ deadStores f) : (f.node? v).isSome := by
    obtain ⟨e, -, mem⟩ := List.mem_flatMap.1 mem
    obtain ⟨e', listed, rfl⟩ := List.mem_map.1 mem
    have dead := (List.mem_filter.1 listed).2
    rw [isDeadStore] at dead
    split at dead
    · rename_i here
      exact isSome_node?_of_kind? here
    · cases dead
  have dropped := accounts_dropNodes (H := fun _ => True) (n := 0) fun _ => live
  rwa [Nat.zero_add] at dropped

lemma once_accounts (f : Func) :
    Func.Accounts (Advances Lessens Regular) 0 f (once m f).2.changes (once m f).1 := by
  rw [once]
  have forwarded := forward_accounts f
  generalize forward f = p at forwarded ⊢
  have stores := accounts_removeDeadStores p.1
  dsimp only
  generalize removeDeadStores p.1 = q at stores ⊢
  have copies := accounts_removeRedundantCopies (H := fun _ => True) q.1
  generalize q.1.removeRedundantCopies = r at copies ⊢
  have nodes := accounts_removeDeadNodes (H := fun _ => True) r.1
  generalize r.1.removeDeadNodes = t at nodes ⊢
  have removed := ((stores.add copies).add nodes).mono advances_of_settles
  rw [Report.changes_andThen]
  exact (Report.accounts_counted (forwarded.mono advances_of_lightens) rfl _).add
    (Report.accounts_counted removed rfl _)

lemma loop_accounts (fuel : Nat) (f : Func) (report : Report) : Func.Accounts (Advances Lessens Regular)
    report.changes f (loop m fuel f report).2.changes (loop m fuel f report).1 := by
  induction fuel generalizing f report with
  | zero => exact .stay
  | succ fuel ih =>
    have account := once_accounts (m := m) f
    rw [loop]
    generalize once m f = p at account ⊢
    dsimp only
    split
    · have rest := ih p.1 (report.andThen p.2)
      rw [Report.changes_andThen] at rest
      exact (account.shift report.changes).trans rest
    · rename_i none
      rw [Report.changed_eq, decide_eq_true_iff, Nat.not_lt, Nat.le_zero] at none
      rw [none] at account
      rw [account.eq_of_zero]
      exact .stay

lemma pass_accounts : pass.Accounts (Advances Lessens Regular) := by
  refine fun ctx f => meets_get ?_
  have looped := loop_accounts (m := ctx.method) 100 f {}
  dsimp only
  generalize loop ctx.method 100 f {} = p at looped ⊢
  exact meets_set (meets_pure looped)

end Avm.Opt.Copying
