import Avm.Proofs.Opt.Fixpoint
import Avm.Proofs.Ir.Reading

/-!
# What forwarded values stand for

A reading of a register is replaced by the value that was stored there.  On every way to the reading the last
node that sets the register is that store, and behind it no register is set that the value reads.  What the
value reads is looked up before the inputs of phis are replaced.  Afterwards a phi may read other registers,
and one of them may have been set in between.

The main statement is `forward_backed`.  `not_forward_backed` is that the value may read a register that was set.
-/

namespace Avm.Ir.Func

/-- Control can come to a place in a block, where some nodes of the block are still to come, by a way that
passes some nodes, the last one first.  An exception may leave a block anywhere. -/
inductive Passed (f : Func) : BlockId → List ValueId → List ValueId → Prop
  | start : Passed f entry (f.body entry) []
  | node {b : BlockId} {v : ValueId} {rest past : List ValueId} :
    Passed f b (v :: rest) past → Passed f b rest (v :: past)
  | edge {b t : BlockId} {kind : EdgeKind} {past : List ValueId} :
    Passed f b [] past → (t, kind) ∈ f.succs b → kind ≠ .raise → Passed f t (f.body t) past
  | raise {b t : BlockId} {rest past : List ValueId} :
    Passed f b rest past → (t, .raise) ∈ f.succs b → Passed f t (f.body t) past

end Avm.Ir.Func

lemma Avm.Ir.Terminator.mapOperands_eq_self {u : Avm.Ir.Value → Avm.Ir.Value} {t : Avm.Ir.Terminator}
    (same : ∀ v ∈ t.operands, u v = v) : t.mapOperands u = t := by
  cases t with
  | branch kind operands onTrue onFalse =>
    exact congrArg (branch kind · onTrue onFalse) ((List.map_congr_left same).trans (List.map_id _))
  | leave value => cases value <;> simp_all [mapOperands, operands]
  | _ => simp_all [mapOperands, operands]

namespace Avm.Opt.Copying

open Avm.Graph Avm.Ir Avm.Ir.Func Avm.Ir.Edit

variable {f f₁ g h : Func} {b t : BlockId} {v p : ValueId} {w x : Value} {r : Nat} {stores : Stores}
  {past rest : List ValueId} {kind : EdgeKind}

/-- On a way the last node that sets a register stores a value there, and the nodes behind it set no register
that the value reads in a graph. -/
def Holds (f g : Func) (past : List ValueId) (r : Nat) (w : Value) : Prop :=
  ∃ after s before, past = after ++ s :: before ∧ g.kind? s = some (.store r w) ∧
    ∀ u ∈ after, ∀ r' ∈ settings g u, r' ≠ r ∧ ¬f.Reads w r'

/-- All that is known of registers holds on a way. -/
def Known (f g : Func) (past : List ValueId) (stores : Stores) : Prop := ∀ e ∈ stores, Holds f g past e.1 e.2

lemma of_mem_forget {rs : List Nat} {e : Nat × Value} (mem : e ∈ forget f rs stores) :
    e ∈ stores ∧ ∀ r' ∈ rs, r' ≠ e.1 ∧ ¬f.Reads e.2 r' := by
  induction rs generalizing stores with
  | nil => exact ⟨mem, nofun⟩
  | cons r rs ih =>
    obtain ⟨kept, others⟩ := ih mem
    obtain ⟨old, stays⟩ := List.mem_filter.1 kept
    rw [Bool.and_eq_true, Bool.not_eq_true', bne_iff_ne] at stays
    refine ⟨old, fun r' mem' => ?_⟩
    cases List.mem_cons.1 mem' with
    | inl here =>
      rw [here, ← readsRegister_iff, stays.1]
      exact ⟨stays.2.symm, Bool.false_ne_true⟩
    | inr later => exact others r' later

/-- Behind a node a register is known to hold what the node stores, or what it is known to hold before. -/
lemma of_mem_learn {k : NodeKind} {e : Nat × Value} (mem : e ∈ learn f k stores) :
    k = .store e.1 e.2 ∨ e ∈ forget f k.written stores := by
  unfold learn at mem
  dsimp only at mem
  split at mem
  · split at mem
    · exact .inr mem
    · cases List.mem_cons.1 mem with
      | inl here => exact .inl (by rw [here])
      | inr later => exact .inr (List.mem_of_mem_filter later)
  · exact .inr mem

lemma known_learn {k : NodeKind} (known : Known f g past stores) (here : g.kind? v = some k) :
    Known f g (v :: past) (learn f k stores) := by
  intro e mem
  cases of_mem_learn mem with
  | inl stored => exact ⟨[], v, past, rfl, by rw [here, stored], nofun⟩
  | inr kept =>
    obtain ⟨old, spared⟩ := of_mem_forget kept
    obtain ⟨after, s, before, rfl, stored, behind⟩ := known e old
    refine ⟨v :: after, s, before, rfl, stored, fun u mem' => ?_⟩
    cases List.mem_cons.1 mem' with
    | inl this =>
      rw [this, settings, here]
      exact spared
    | inr other => exact behind u other

/-- What is known behind a node that may be missing. -/
def pass? (f g : Func) (stores : Stores) (v : ValueId) : Stores :=
  match g.kind? v with
  | some k => learn f k stores
  | none => stores

/-- What is known behind some nodes. -/
def scan (f g : Func) (stores : Stores) (vs : List ValueId) : Stores := vs.foldl (pass? f g) stores

lemma scan_cons {vs : List ValueId} : scan f g stores (v :: vs) = scan f g (pass? f g stores v) vs := rfl

lemma scan_snoc {vs : List ValueId} : scan f g stores (vs ++ [v]) = pass? f g (scan f g stores vs) v := by
  rw [scan, List.foldl_append]
  rfl

lemma scan_congr {vs : List ValueId} (same : ∀ v ∈ vs, h.kind? v = g.kind? v) :
    scan f h stores vs = scan f g stores vs := by
  induction vs generalizing stores with
  | nil => rfl
  | cons v vs ih =>
    rw [scan_cons, scan_cons, pass?, same v List.mem_cons_self, ← pass?]
    exact ih fun u mem => same u (List.mem_cons_of_mem v mem)

lemma known_pass? (known : Known f g past stores) : Known f g (v :: past) (pass? f g stores v) := by
  rw [pass?]
  cases here : g.kind? v with
  | some k => exact known_learn known here
  | none =>
    intro e mem
    obtain ⟨after, s, before, rfl, stored, behind⟩ := known e mem
    refine ⟨v :: after, s, before, rfl, stored, fun u mem' => ?_⟩
    cases List.mem_cons.1 mem' with
    | inl this =>
      rw [this, settings, here]
      exact List.forall_mem_nil _
    | inr other => exact behind u other

lemma of_forwardValue {version : Nat} (known : Known f g past stores)
    (replaced : forwardValue stores (.reg r version) ≠ .reg r version) :
    Holds f g past r (forwardValue stores (.reg r version)) := by
  rw [forwardValue] at replaced ⊢
  cases found : stores.lookup r with
  | none =>
    rw [found] at replaced
    exact absurd rfl replaced
  | some w => exact known _ (mem_of_lookup found)

section Sweep

/-- A graph in which operands of other nodes than phis are replaced, and operands of terminators. -/
structure Altered (f g : Func) : Prop extends Skeleton f g where
  incoming : ∀ v s kind, g.incoming v s kind = f.incoming v s kind
  once : (∀ v is, f.inputs? v = some is → (keysOf is).Nodup) → ∀ v is, g.inputs? v = some is → (keysOf is).Nodup

namespace Altered

lemma refl (f : Func) : Altered f f := ⟨.refl f, fun _ _ _ => rfl, fun once => once⟩

lemma trans (first : Altered f g) (second : Altered g h) : Altered f h where
  toSkeleton := first.toSkeleton.trans second.toSkeleton
  incoming v s kind := (second.incoming v s kind).trans (first.incoming v s kind)
  once start := second.once (first.once start)

lemma keyed (same : Altered f g) (keyed : Keyed f) : Keyed g where
  known t v mem s kind := by
    rw [same.phis] at mem
    rw [same.incoming, same.succs]
    exact keyed.known t v mem s kind
  once := same.once keyed.once

lemma reads (same : Altered f g) (keyed : Keyed f) : g.Reads x r ↔ f.Reads x r := by
  have keeps {f g : Func} (isPhi : ∀ v, (f.inputs? v).isSome → (g.inputs? v).isSome)
      (keyed : Keyed f) (incoming : ∀ v s kind, g.incoming v s kind = f.incoming v s kind)
      (read : f.Reads x r) : g.Reads x r := by
    refine read.mono fun v is inputs i mem => ?_
    obtain ⟨is', inputs'⟩ := Option.isSome_iff_exists.1 (isPhi v (by rw [inputs]; rfl))
    have value := incoming v i.source i.kind
    rw [Func.incoming, Func.incoming, inputs, inputs', Option.bind_some, Option.bind_some,
      incoming?_of_mem (keyed.once v is inputs) mem] at value
    obtain ⟨i', mem', -, -, same⟩ := exists_of_incoming? value
    exact ⟨is', inputs', i', mem', same⟩
  constructor
  · refine keeps (fun v phi => ?_) (same.keyed keyed) fun v s kind => (same.incoming v s kind).symm
    rwa [same.isPhi] at phi
  · refine keeps (fun v phi => ?_) keyed same.incoming
    rwa [same.isPhi]

lemma learn (same : Altered f g) (keyed : Keyed f) : Copying.learn g = Copying.learn f := by
  have reads : g.readsRegister = f.readsRegister := by
    funext x r
    rw [Bool.eq_iff_iff, readsRegister_iff, readsRegister_iff, same.reads keyed]
  have forget : Copying.forget g = Copying.forget f := by
    funext rs stores
    rw [Copying.forget, Copying.forget, reads]
  funext k stores
  unfold Copying.learn
  rw [forget, reads]

end Altered

lemma altered_modifyKind {u : Value → Value} (plain : f.inputs? v = none) :
    Altered f (f.modifyKind v (NodeKind.mapOperands u)) := by
  have inputs (w : ValueId) : (f.modifyKind v (NodeKind.mapOperands u)).inputs? w = f.inputs? w := by
    rw [inputs?_eq, modifyKind, node?_modifyNode, inputs?_eq]
    split
    · rename_i here
      subst here
      rw [inputs?_eq] at plain
      cases found : f.node? v with
      | none => rfl
      | some n =>
        rw [found, Option.bind_some] at plain
        rw [Option.map_some, Option.bind_some, Option.bind_some, plain]
        cases kind : n.kind with
        | phi is =>
          rw [kind] at plain
          cases plain
        | _ => rfl
    · rfl
  constructor
  case toSkeleton => exact skeleton_modifyKind (fun _ _ => NodeKind.keys_mapOperands) fun _ _ =>
    NodeKind.shape_mapOperands
  case incoming =>
    intro w s kind
    rw [Func.incoming, Func.incoming, inputs]
  case once =>
    intro once w is
    rw [inputs]
    exact once w is

lemma kind?_modifyKind {u : NodeKind → NodeKind} :
    (f.modifyKind v u).kind? p = if v = p then (f.kind? p).map u else f.kind? p := by
  rw [kind?, kind?, modifyKind, node?_modifyNode]
  split
  · rw [Option.map_map, Option.map_map]
    rfl
  · rfl

lemma forwardBody_cons (rest : List ValueId) (f₁ : Func) (stores : Stores) (n : Nat) (keyed : Keyed f)
    (same : Altered f f₁)
    (plain : f.inputs? v = none) :
    ∃ f₂ n₂, forwardBody (v :: rest) f₁ stores n = forwardBody rest f₂ (pass? f f₂ stores v) n₂ ∧
      Altered f₁ f₂ ∧ f₂.blocks = f₁.blocks ∧ (∀ u, u ≠ v → f₂.kind? u = f₁.kind? u) ∧
      f₂.kind? v = (f₁.kind? v).map (NodeKind.mapOperands (forwardValue stores)) := by
  rw [forwardBody]
  cases here : f₁.kind? v with
  | none => exact ⟨f₁, n, by rw [pass?, here], .refl f₁, rfl, fun _ _ => rfl, here⟩
  | some k =>
    have step : Altered f₁ (f₁.modifyKind v (NodeKind.mapOperands (forwardValue stores))) :=
      altered_modifyKind ((same.inputs?_eq_none).2 plain)
    have one : (f₁.modifyKind v (NodeKind.mapOperands (forwardValue stores))).kind? v =
        some (k.mapOperands (forwardValue stores)) := by
      rw [kind?_modifyKind, if_pos rfl, here]
      rfl
    refine ⟨_, n + k.operands.countP (isForwarded stores), ?_, step, rfl, fun u other => ?_, one⟩
    · dsimp only
      rw [pass?, one, (same.trans step).learn keyed]
    · rw [kind?_modifyKind, if_neg (Ne.symm other)]

lemma forwardBody_spec (rest : List ValueId) (f₁ : Func) (stores : Stores) (n : Nat) (keyed : Keyed f)
    (same : Altered f f₁) (once : rest.Nodup) (plain : ∀ v ∈ rest, f.inputs? v = none) :
    ∃ g n', forwardBody rest f₁ stores n = (g, scan f g stores rest, n') ∧
      Altered f₁ g ∧ g.blocks = f₁.blocks ∧ (∀ v ∉ rest, g.kind? v = f₁.kind? v) ∧
      ∀ before v after, rest = before ++ v :: after →
        g.kind? v = (f₁.kind? v).map (NodeKind.mapOperands (forwardValue (scan f g stores before))) := by
  induction rest generalizing f₁ stores n with
  | nil =>
    refine ⟨f₁, n, rfl, .refl f₁, rfl, fun _ _ => rfl, fun before v after split => ?_⟩
    cases before <;> cases split
  | cons v rest ih =>
    obtain ⟨new, once⟩ := List.nodup_cons.1 once
    obtain ⟨f₂, n₂, eq, step, blocks₂, others₂, here⟩ :=
      forwardBody_cons rest f₁ stores n keyed same (plain v List.mem_cons_self)
    obtain ⟨g, n', eq', altered, blocks, others, nodes⟩ := ih f₂ (pass? f f₂ stores v) n₂ (same.trans step) once
      fun u mem => plain u (List.mem_cons_of_mem v mem)
    -- The node is not visited again, so what is known behind it can be read off the final graph.
    have final : pass? f f₂ stores v = pass? f g stores v := by rw [pass?, pass?, others v new]
    rw [final] at eq' nodes
    refine ⟨g, n', by rw [eq, final, eq', scan_cons], step.trans altered, blocks.trans blocks₂, fun u out => ?_, ?_⟩
    · rw [List.mem_cons, not_or] at out
      rw [others u out.2, others₂ u out.1]
    · intro before u after split
      cases before with
      | nil =>
        obtain ⟨rfl, -⟩ := List.cons.inj split
        rw [others v new, here]
        rfl
      | cons _ before =>
        obtain ⟨rfl, tail⟩ := List.cons.inj split
        have other : u ≠ v := by
          rintro rfl
          exact new (by simp [tail])
        rw [nodes before u after tail, scan_cons, others₂ u other]

lemma forwardEnd_spec (b : BlockId) (stores : Stores) (f₁ : Func) (filed : Filed f₁) (keyed : Keyed f₁)
    (regular : Regular f₁)
    (live : (f₁.block? b).isSome) (ends : ∀ e ∈ f₁.succs b, (f₁.block? e.1).isSome) :
    ∃ g n, forwardEnd f₁ b stores = (g, n) ∧ Altered f₁ g ∧ (∀ v, f₁.inputs? v = none → g.kind? v = f₁.kind? v) ∧
      ∀ t, g.terminator t = if t = b then (f₁.terminator t).mapOperands (forwardValue stores) else f₁.terminator t := by
  obtain ⟨x, here⟩ := Option.isSome_iff_exists.1 live
  have edges : edgesFrom f₁.handlers ((f₁.terminator b).mapOperands (forwardValue stores)) (f₁.handlersOf b) =
      f₁.succs b := by rw [edgesFrom_mapOperands, regular.wired, edgesOf_eq]
  simp only [forwardEnd, here]
  rw [← terminator_of_block? here]
  split
  · rename_i none
    refine ⟨f₁, 0, rfl, .refl f₁, fun _ _ => rfl, fun t => ?_⟩
    split
    · rename_i same
      rw [same, Terminator.mapOperands_eq_self (map_forwardValue_of_zero none)]
    · rfl
  · -- The new end leads where the old one does, so it is accepted.
    have run : (setTerminator b ((f₁.terminator b).mapOperands (forwardValue stores))).run f₁ =
        .ok () (f₁.reend b ((f₁.terminator b).mapOperands (forwardValue stores)) (f₁.handlersOf b)) := by
      refine setTerminator_eq_ok.2 ⟨fun e mem => ?_, live, rfl⟩
      refine ends e ?_
      rw [← edges, mem_edgesFrom]
      exact .inl mem
    rw [run]
    have same := skeleton_reend (u := forwardValue stores) regular live
    refine ⟨_, _, rfl, ⟨same, fun v s kind => ?_, fun once v is => nodup_keysOf_reend filed live once⟩,
      fun v => kind?_reend, fun t => ?_⟩
    · cases phi : f₁.inputs? v with
      | none =>
        have gone := same.isPhi v
        rw [phi, Option.isSome_none, Option.isSome_eq_false_iff, Option.isNone_iff_eq_none] at gone
        rw [incoming, incoming, phi, gone]
      | some is =>
        obtain ⟨t, mem⟩ := filed.mem_phis (v := v) (by rw [phi]; rfl)
        exact incoming_reend filed.toListed keyed mem live edges
    · rw [terminator_reend live]
      split
      · rename_i here
        rw [here]
      · rfl

/-- What the first sweep does in the blocks that it has been through: what is known at the start of each and at
its end, and what became of its operands. -/
structure Forwarded (f g : Func) (done : List BlockId) (ins : BlockId → Stores) (out : OutStores) : Prop
    extends Altered f g where
  room : out.size = f.blocks.size
  enter : ∀ earlier b later, done = earlier ++ b :: later →
    ins b = [] ∨ ∃ s ∈ earlier, source? f b = some s ∧ ins b = out.at s
  leave : ∀ b ∈ done, out.at b = scan f g (ins b) (f.body b)
  node : ∀ b ∈ done, ∀ before v after, f.body b = before ++ v :: after →
    g.kind? v = (f.kind? v).map (NodeKind.mapOperands (forwardValue (scan f g (ins b) before)))
  ended : ∀ b ∈ done, g.terminator b = (f.terminator b).mapOperands (forwardValue (out.at b))
  outside : ∀ b ∉ done, out.at b = [] ∧ g.terminator b = f.terminator b ∧ ∀ v ∈ f.body b, g.kind? v = f.kind? v

variable {done todo : List BlockId} {ins : BlockId → Stores} {out : OutStores}

lemma at_setIfInBounds (inside : b < out.size) :
    OutStores.at (out.setIfInBounds b stores) t = if t = b then stores else out.at t := by
  rw [OutStores.at, Array.getElem?_setIfInBounds, OutStores.at]
  by_cases here : b = t
  · simp [here, here ▸ inside]
  · simp [here, Ne.symm here]

/-- What the first sweep does in a block: its nodes and its end read what is known, and other blocks stay. -/
structure Visits (f f₁ g : Func) (b : BlockId) (stores : Stores) : Prop extends Altered f g where
  node : ∀ before v after, f.body b = before ++ v :: after →
    g.kind? v = (f₁.kind? v).map (NodeKind.mapOperands (forwardValue (scan f g stores before)))
  away : ∀ c ≠ b, ∀ v ∈ f.body c, g.kind? v = f₁.kind? v
  ends : ∀ t, g.terminator t =
    if t = b then (f₁.terminator t).mapOperands (forwardValue (scan f g stores (f.body b))) else f₁.terminator t

lemma forwardBlocks_cons (todo : List BlockId) (out : OutStores) (same₁ : Altered f f₁) (checked : Checked f)
    (live : (f.block? b).isSome) (n : Nat) : ∃ g n', Visits f f₁ g b (inStores f out b) ∧
      forwardBlocks (b :: todo) f₁ out n =
        forwardBlocks todo g (out.setIfInBounds b (scan f g (inStores f out b) (f.body b))) n' := by
  have start : Regular f := ⟨checked.owned, checked.nodup, checked.wired, checked.linked⟩
  have once : (f.body b).Nodup := (List.nodup_append.1 (checked.nodup b)).2.1
  obtain ⟨f₂, n₂, eq₂, same₂, blocks₂, others₂, nodes₂⟩ := forwardBody_spec (f.body b) f₁ (inStores f out b) n
    checked.keyed same₁ once (checked.plain b)
  have same := same₁.trans same₂
  obtain ⟨f₃, n₃, eq₃, same₃, kinds₃, ends₃⟩ := forwardEnd_spec b (scan f f₂ (inStores f out b) (f.body b)) f₂
    (checked.toFiled.sameNodes same.toSameNodes) (same.keyed checked.keyed) (same.regular start)
    (by rw [same.isSome]; exact live)
    (fun e mem => by rw [same.isSome]; exact checked.live (same.succs b ▸ mem))
  have kind₃ {c v} (mem : v ∈ f.body c) : f₃.kind? v = f₂.kind? v := by
    refine kinds₃ v ?_
    have isPhi := same.isPhi v
    rw [checked.plain c v mem] at isPhi
    simpa using isPhi
  -- Ending the block changes no node, so what is known can be read off either graph.
  have scan₃ {stores vs} (part : vs ⊆ f.body b) : scan f f₃ stores vs = scan f f₂ stores vs :=
    scan_congr fun v mem => kind₃ (part mem)
  refine ⟨f₃, n₂ + n₃, ⟨same.trans same₃, fun before v after split => ?_, fun c other v mem => ?_, fun t => ?_⟩, ?_⟩
  · have part : before ⊆ f.body b := by simp [split]
    have here : v ∈ f.body b := by simp [split]
    rw [scan₃ part, kind₃ here, nodes₂ before v after split]
  · rw [kind₃ mem]
    exact others₂ v fun here => other (checked.toListed.eq_of_mem_body mem here)
  · have ends₂ : f₂.terminator t = f₁.terminator t := by rw [terminator, terminator, block?_congr blocks₂]
    rw [ends₃, ends₂, scan₃ (List.Subset.refl _)]
  · have known : inStores f₁ out b = inStores f out b := by rw [inStores_eq, inStores_eq, same₁.source?]
    rw [forwardBlocks, same₁.body, known, eq₂, scan₃ (List.Subset.refl _)]
    dsimp only
    rw [eq₃]

lemma Forwarded.snoc (h : Forwarded f f₁ done ins out) (new : b ∉ done) (live : (f.block? b).isSome)
    (visits : Visits f f₁ g b (inStores f out b)) :
    Forwarded f g (done ++ [b]) (Function.update ins b (inStores f out b))
      (out.setIfInBounds b (scan f g (inStores f out b) (f.body b))) := by
  -- Nodes of other blocks stay, so what is known there can be read off either graph.
  have scan₁ {c stores vs} (part : vs ⊆ f.body c) (other : c ≠ b) : scan f g stores vs = scan f f₁ stores vs :=
    scan_congr fun v mem => visits.away c other v (part mem)
  have inside : b < out.size := by
    rw [h.room]
    exact lt_size_of_block? live
  have ins' {c} (mem : c ∈ done) : Function.update ins b (inStores f out b) c = ins c :=
    Function.update_of_ne (ne_of_mem_of_not_mem mem new) _ _
  refine ⟨visits.toAltered, ?_, ?_, ?_, ?_, ?_, ?_⟩
  · rw [Array.size_setIfInBounds, h.room]
  · intro earlier c later split
    rcases List.eq_nil_or_concat later with rfl | ⟨later, x, rfl⟩
    · obtain ⟨rfl, last⟩ := List.append_inj' split rfl
      obtain rfl := (List.cons.inj last).1
      rw [Function.update_self, inStores_eq]
      cases source : source? f b with
      | none => exact .inl rfl
      | some s =>
        rw [Option.map_some, Option.getD_some]
        by_cases earlier : s ∈ done
        · refine .inr ⟨s, earlier, rfl, ?_⟩
          rw [at_setIfInBounds inside, if_neg (ne_of_mem_of_not_mem earlier new)]
        · exact .inl (h.outside s earlier).1
    · rw [List.concat_eq_append, ← List.cons_append, ← List.append_assoc] at split
      obtain ⟨rfl, -⟩ := List.append_inj' split rfl
      rw [ins' (by simp)]
      rcases h.enter earlier c later rfl with none | ⟨s, mem, source, known⟩
      · exact .inl none
      · refine .inr ⟨s, mem, source, ?_⟩
        rw [known, at_setIfInBounds inside, if_neg (ne_of_mem_of_not_mem (List.mem_append_left _ mem) new)]
  · intro c mem
    rw [at_setIfInBounds inside]
    cases List.mem_append.1 mem with
    | inl old =>
      have other := ne_of_mem_of_not_mem old new
      rw [if_neg other, ins' old, h.leave c old, scan₁ (List.Subset.refl _) other]
    | inr last =>
      obtain rfl := List.mem_singleton.1 last
      rw [if_pos rfl, Function.update_self]
  · intro c mem before v after split
    have part : before ⊆ f.body c := by simp [split]
    have here : v ∈ f.body c := by simp [split]
    cases List.mem_append.1 mem with
    | inl old =>
      have other := ne_of_mem_of_not_mem old new
      rw [ins' old, scan₁ part other, visits.away c other v here, h.node c old before v after split]
    | inr last =>
      obtain rfl := List.mem_singleton.1 last
      rw [Function.update_self, visits.node before v after split, (h.outside c new).2.2 v here]
  · intro c mem
    rw [visits.ends, at_setIfInBounds inside]
    cases List.mem_append.1 mem with
    | inl old =>
      have other := ne_of_mem_of_not_mem old new
      rw [if_neg other, if_neg other, h.ended c old]
    | inr last =>
      obtain rfl := List.mem_singleton.1 last
      rw [if_pos rfl, if_pos rfl, (h.outside c new).2.1]
  · intro c mem
    rw [List.mem_append, List.mem_singleton, not_or] at mem
    obtain ⟨none, stays, nodes⟩ := h.outside c mem.1
    rw [visits.ends, at_setIfInBounds inside, if_neg mem.2, if_neg mem.2]
    exact ⟨none, stays, fun v here => by rw [visits.away c mem.2 v here, nodes v here]⟩

lemma forwardBlocks_spec (todo : List BlockId) (h : Forwarded f f₁ done ins out) (checked : Checked f)
    (once : (done ++ todo).Nodup) (live : ∀ b ∈ todo, (f.block? b).isSome) (n : Nat) :
    ∃ g ins' out' n', forwardBlocks todo f₁ out n = (g, out', n') ∧ Forwarded f g (done ++ todo) ins' out' := by
  induction todo generalizing f₁ done ins out n with
  | nil => exact ⟨f₁, ins, out, n, rfl, by rwa [List.append_nil]⟩
  | cons b todo ih =>
    have new : b ∉ done := fun mem => (List.nodup_append.1 once).2.2 b mem b List.mem_cons_self rfl
    obtain ⟨f₂, n₂, visits, eq⟩ :=
      forwardBlocks_cons todo out h.toAltered checked (live b List.mem_cons_self) n
    have step := h.snoc new (live b List.mem_cons_self) visits
    rw [List.append_cons] at once
    obtain ⟨g, ins', out', n', eq', all⟩ := ih step once (fun c mem => live c (List.mem_cons_of_mem b mem)) n₂
    rw [← List.append_cons] at all
    exact ⟨g, ins', out', n', eq.trans eq', all⟩

lemma forwarded_start (f : Func) : Forwarded f f [] (fun _ => []) (Array.replicate f.blocks.size []) where
  toAltered := .refl f
  room := Array.size_replicate
  enter earlier b later split := absurd split (by simp)
  leave b mem := nomatch mem
  node b mem := nomatch mem
  ended b mem := nomatch mem
  outside b _ := by
    refine ⟨?_, rfl, fun _ _ => rfl⟩
    rw [OutStores.at, Array.getElem?_replicate]
    split <;> rfl

end Sweep

section Paths

variable {order : List BlockId} {ins : BlockId → Stores} {out : OutStores}

lemma reversePostorder_eq_cons (f : Func) (inside : entry < f.blocks.size) :
    ∃ later, f.reversePostorder entry = entry :: later := by
  rw [Func.reversePostorder, Graph.reversePostorder, Walk.visit, if_neg]
  · exact ⟨_, rfl⟩
  · rw [not_or, Nat.not_le]
    exact ⟨by simp, inside⟩

/-- Control comes to blocks that exist only, and the sweep goes through them. -/
lemma mem_reversePostorder_of_passed (checked : Checked f) (inside : entry < f.blocks.size)
    (way : f.Passed b rest past) : b ∈ f.reversePostorder entry := by
  have follow {b t kind} (found : b ∈ f.reversePostorder entry) (edge : (t, kind) ∈ f.succs b) :
      t ∈ f.reversePostorder entry :=
    mem_reversePostorder_of_mem found (List.mem_map_of_mem edge) (lt_size_of_block? (checked.live edge))
  induction way with
  | start => exact start_mem_reversePostorder inside
  | node _ ih => exact ih
  | edge _ edge _ ih => exact follow ih edge
  | raise _ edge ih => exact follow ih edge

lemma Forwarded.known (h : Forwarded f g (f.reversePostorder entry) ins out) (checked : Checked f)
    (inside : entry < f.blocks.size) (way : f.Passed b rest past) :
    ∃ before, f.body b = before ++ rest ∧ Known f g past (scan f g (ins b) before) := by
  have linked {b t kind} (edge : (t, kind) ∈ f.succs b) : (b, kind) ∈ f.preds t := by
    rw [← List.count_pos_iff, checked.linked t (checked.live edge), List.count_pos_iff]
    exact edge
  have enter {t} (mem : t ∈ f.reversePostorder entry) : ins t = [] ∨ ∃ s, source? f t = some s ∧ ins t = out.at s := by
    obtain ⟨earlier, later, split⟩ := List.append_of_mem mem
    rcases h.enter earlier t later split with none | ⟨s, -, source, known⟩
    · exact .inl none
    · exact .inr ⟨s, source, known⟩
  induction way with
  | start =>
    obtain ⟨later, first⟩ := reversePostorder_eq_cons f inside
    refine ⟨[], rfl, ?_⟩
    rcases h.enter [] entry later first with none | ⟨s, mem, -⟩
    · rw [none]
      exact nofun
    · cases mem
  | @node b v rest past _ ih =>
    obtain ⟨before, body, known⟩ := ih
    refine ⟨before ++ [v], by rw [body, List.append_assoc]; rfl, ?_⟩
    rw [scan_snoc]
    exact known_pass? known
  | @edge b t kind past way edge normal ih =>
    have mem := mem_reversePostorder_of_passed checked inside (.edge way edge normal)
    refine ⟨[], rfl, ?_⟩
    rcases enter mem with none | ⟨s, source, eq⟩
    · rw [none]
      exact nofun
    · -- The block is entered from its only predecessor, which the way has just left.
      obtain ⟨before, body, known⟩ := ih
      rw [List.append_nil] at body
      have only : s = b := by
        rw [Copying.source?] at source
        split at source
        · rename_i preds
          split at source
          · cases source
          · obtain rfl := Option.some.inj source
            exact (Prod.mk.inj (List.mem_singleton.1 (preds ▸ linked edge))).1.symm
        · cases source
      subst only
      rw [scan, List.foldl_nil, eq, h.leave s (mem_reversePostorder_of_passed checked inside way), body]
      exact known
  | @raise b t rest past way edge ih =>
    have mem := mem_reversePostorder_of_passed checked inside (.raise way edge)
    refine ⟨[], rfl, ?_⟩
    rcases enter mem with none | ⟨s, source, -⟩
    · rw [none]
      exact nofun
    · rw [Copying.source?] at source
      split at source
      · rename_i preds
        split at source
        · cases source
        · rename_i normal
          exact absurd (Prod.mk.inj (List.mem_singleton.1 (preds ▸ linked edge))).2.symm normal
      · cases source

end Paths

section Phis

variable {out : OutStores} {s : BlockId}

lemma incoming?_map_forwardInput {is : List PhiInput} : incoming? (is.map (forwardInput out)) s kind =
    (incoming? is s kind).map fun x => if kind = .raise then x else forwardValue (out.at s) x := by
  have keys (i : PhiInput) : (forwardInput out i).source = i.source ∧ (forwardInput out i).kind = i.kind := by
    unfold forwardInput
    split <;> exact ⟨rfl, rfl⟩
  rw [incoming?, incoming?, List.find?_map, Option.map_map, Option.map_map]
  simp only [Function.comp_def, keys]
  cases found : is.find? fun i => i.source == s && i.kind == kind with
  | none => rfl
  | some i =>
    obtain ⟨source, edge⟩ := by simpa using List.find?_some found
    subst source edge
    rw [Option.map_some, Option.map_some, forwardInput]
    split <;> rfl

lemma forwardPhis_spec (out : OutStores) (vs : List ValueId) (once : vs.Nodup) (acc : Func × Nat) :
    (vs.foldl (forwardPhis out) acc).1.blocks = acc.1.blocks ∧
    (∀ v, acc.1.inputs? v = none → (vs.foldl (forwardPhis out) acc).1.kind? v = acc.1.kind? v) ∧
    ∀ v, (vs.foldl (forwardPhis out) acc).1.inputs? v =
      if v ∈ vs then (acc.1.inputs? v).map (List.map (forwardInput out)) else acc.1.inputs? v := by
  induction vs generalizing acc with
  | nil => exact ⟨rfl, fun _ _ => rfl, fun _ => rfl⟩
  | cons u vs ih =>
    obtain ⟨new, once⟩ := List.nodup_cons.1 once
    have step : (forwardPhis out acc u).1.blocks = acc.1.blocks ∧
        (∀ v, acc.1.inputs? v = none → (forwardPhis out acc u).1.kind? v = acc.1.kind? v) ∧
        ∀ v, (forwardPhis out acc u).1.inputs? v =
          if v = u then (acc.1.inputs? v).map (List.map (forwardInput out)) else acc.1.inputs? v := by
      rw [forwardPhis]
      cases inputs : acc.1.inputs? u with
      | none =>
        refine ⟨rfl, fun _ _ => rfl, fun v => ?_⟩
        by_cases same : v = u
        · rw [if_pos same, same, inputs]
          rfl
        · rw [if_neg same]
      | some is =>
        refine ⟨rfl, fun v plain => ?_, fun v => ?_⟩
        · have other : u ≠ v := by
            rintro rfl
            rw [inputs] at plain
            cases plain
          rw [modifyInputs, kind?_modifyKind, if_neg other]
        · dsimp only
          rw [modifyInputs_eq, inputs?_eq, node?_modifyNode, inputs?_eq]
          by_cases same : u = v
          · rw [if_pos same, if_pos same.symm]
            cases acc.1.node? v <;> simp
          · rw [if_neg same, if_neg (Ne.symm same)]
    obtain ⟨blocks, plain, phis⟩ := ih once (forwardPhis out acc u)
    rw [List.foldl_cons]
    refine ⟨blocks.trans step.1, fun v none => ?_, fun v => ?_⟩
    · refine (plain v ?_).trans (step.2.1 v none)
      rw [step.2.2, none]
      split <;> rfl
    · rw [phis, step.2.2]
      by_cases here : v = u
      · subst here
        simp [new]
      · simp [here]

end Phis

lemma passed_congr (body : ∀ b, g.body b = f.body b) (succs : ∀ b, g.succs b = f.succs b) (way : g.Passed b rest past) :
    f.Passed b rest past := by
  induction way with
  | start =>
    rw [body]
    exact .start
  | node _ ih => exact .node ih
  | edge _ edge normal ih =>
    rw [body]
    rw [succs] at edge
    exact .edge ih edge normal
  | raise _ edge ih =>
    rw [body]
    rw [succs] at edge
    exact .raise ih edge

/-- Phis set no register, so what holds on a way does not depend on what they merge. -/
lemma Holds.congr (plain : ∀ v, g.inputs? v = none → h.kind? v = g.kind? v)
    (isPhi : ∀ v, (h.inputs? v).isSome = (g.inputs? v).isSome) (holds : Holds f g past r w) : Holds f h past r w := by
  obtain ⟨after, s, before, split, stored, behind⟩ := holds
  refine ⟨after, s, before, split, ?_, fun u mem r' written => behind u mem r' ?_⟩
  · rw [plain s (by rw [inputs?, stored]; rfl), stored]
  · rw [settings] at written ⊢
    cases phi : h.inputs? u with
    | none =>
      have same := isPhi u
      rw [phi, Option.isSome_none, eq_comm, Option.isSome_eq_false_iff, Option.isNone_iff_eq_none] at same
      rwa [← plain u same]
    | some is =>
      rw [inputs?] at phi
      cases kind : h.kind? u with
      | none => simp [kind] at written
      | some k =>
        rw [kind] at phi written
        cases k with
        | phi => cases written
        | _ => cases phi

/-- A reading of a register among operands is replaced by a value. -/
def Replaced (before after : List Value) (r : Nat) (w : Value) : Prop :=
  ∃ (i version : Nat), before[i]? = some (.reg r version) ∧ after[i]? = some w ∧ w ≠ .reg r version

/-- Wherever a reading is replaced from one graph to another, the value is what the register holds, on every way.
What values read is looked up in a third graph. -/
structure Backed (f f' reads : Func) : Prop where
  node : ∀ b v rest past k k' r w, f'.Passed b (v :: rest) past → f.kind? v = some k → f'.kind? v = some k' →
    Replaced k.operands k'.operands r w → Holds reads f' past r w
  ended : ∀ b past r w, f'.Passed b [] past → Replaced (f.terminator b).operands (f'.terminator b).operands r w →
    Holds reads f' past r w
  input : ∀ t v s kind past r version w, v ∈ f.phis t → kind ≠ .raise → f'.Passed s [] past →
    f.incoming v s kind = some (.reg r version) → f'.incoming v s kind = some w → w ≠ .reg r version →
      Holds reads f' past r w

lemma holds_of_replaced {vs : List Value} (known : Known f g past stores)
    (replaced : Replaced vs (vs.map (forwardValue stores)) r w) : Holds f g past r w := by
  obtain ⟨i, version, here, there, other⟩ := replaced
  rw [List.getElem?_map, here] at there
  obtain rfl := Option.some.inj there
  exact of_forwardValue known other

/-- Two sweeps: the first one comes to a graph and what is known in it, the second one rewrites its phis. -/
structure Swept (f g f' : Func) (ins : BlockId → Stores) (out : OutStores) : Prop where
  sweep : Forwarded f g (f.reversePostorder entry) ins out
  blocks : f'.blocks = g.blocks
  plain : ∀ v, g.inputs? v = none → f'.kind? v = g.kind? v
  inputs : ∀ v, f'.inputs? v =
    if v ∈ (f.reversePostorder entry).flatMap g.phis then (g.inputs? v).map (List.map (forwardInput out)) else
      g.inputs? v

lemma exists_swept (checked : Checked f) : ∃ g ins out, Swept f g (forward f).1 ins out := by
  have once : (f.reversePostorder entry).Nodup := nodup_reversePostorder
  have reached (b) (mem : b ∈ f.reversePostorder entry) : (f.block? b).isSome := by
    cases (reaches_of_mem_reversePostorder mem).cases_tail with
    | inl first => rw [first]; exact checked.start
    | inr step =>
      obtain ⟨c, -, edge⟩ := step
      obtain ⟨e, out, rfl⟩ := List.mem_map.1 edge
      exact checked.live out
  obtain ⟨g, ins, out, n, eq, sweep⟩ :=
    forwardBlocks_spec (f.reversePostorder entry) (forwarded_start f) checked once reached 0
  rw [List.nil_append] at sweep
  have phis : ((f.reversePostorder entry).flatMap g.phis).Nodup := by
    refine List.nodup_flatMap.2 ⟨fun b _ => ?_, once.imp fun {b c} other => ?_⟩
    · rw [sweep.phis]
      exact (List.nodup_append.1 (checked.nodup b)).1
    · intro v here there
      rw [sweep.phis] at here there
      exact other (checked.toListed.eq_of_mem_phis here there)
  obtain ⟨blocks, plain, inputs⟩ := forwardPhis_spec out _ phis (g, n)
  have eq' : forward f = ((f.reversePostorder entry).flatMap g.phis).foldl (forwardPhis out) (g, n) := by
    rw [forward]
    dsimp only
    rw [eq]
  rw [← eq'] at blocks plain inputs
  exact ⟨g, ins, out, sweep, blocks, plain, inputs⟩

namespace Swept

variable {f' : Func} (swept : Swept f g f' ins out)
include swept

lemma passed (way : f'.Passed b rest past) : f.Passed b rest past := by
  refine passed_congr (fun b => ?_) (fun b => ?_) way
  · rw [Func.body, block?_congr swept.blocks, ← Func.body, swept.sweep.body]
  · rw [Func.succs, block?_congr swept.blocks, ← Func.succs, swept.sweep.succs]

lemma isPhi (v : ValueId) : (f'.inputs? v).isSome = (g.inputs? v).isSome := by
  rw [swept.inputs]
  split
  · rw [Option.isSome_map]
  · rfl

lemma holds (holds : Holds f g past r w) : Holds f f' past r w := holds.congr swept.plain swept.isPhi

/-- On every edge but an exceptional one, a phi gets what is known at the end of the block that it comes from. -/
lemma incoming (checked : Checked f) (mem : v ∈ f.phis t) (normal : kind ≠ .raise)
    (from_ : b ∈ f.reversePostorder entry) {x : Value} (here : f.incoming v b kind = some x) :
    f'.incoming v b kind = some (forwardValue (out.at b) x) := by
  have listed : t ∈ f.reversePostorder entry := by
    have edge := (checked.keyed.known t v mem b kind).1 (by rw [here]; rfl)
    exact mem_reversePostorder_of_mem from_ (List.mem_map_of_mem edge) (lt_size_of_block? (checked.live edge))
  rw [Func.incoming, swept.inputs, if_pos (List.mem_flatMap.2 ⟨t, listed, by rw [swept.sweep.phis]; exact mem⟩)]
  rw [← swept.sweep.incoming, Func.incoming] at here
  cases is : g.inputs? v with
  | none => simp [is] at here
  | some is' =>
    rw [is, Option.bind_some] at here
    rw [Option.map_some, Option.bind_some, incoming?_map_forwardInput, here, Option.map_some, if_neg normal]

end Swept

/-- What is forwarded is what the register holds, as far as it can be told from what phis merge at first. -/
theorem forward_backed (f : Func) (checked : Checked f) : Backed f (forward f).1 f := by
  have inside := lt_size_of_block? checked.start
  obtain ⟨g, ins, out, swept⟩ := exists_swept checked
  have sweep := swept.sweep
  constructor
  · intro b v rest past k k' r w there here here' replaced
    obtain ⟨before, body, known⟩ := sweep.known checked inside (swept.passed there)
    have mem := mem_reversePostorder_of_passed checked inside (swept.passed there)
    have none : g.inputs? v = none := by
      have same := sweep.isPhi v
      rw [checked.plain b v (by simp [body])] at same
      simpa using same
    rw [swept.plain v none, sweep.node b mem before v rest body, here] at here'
    obtain rfl := Option.some.inj here'
    rw [NodeKind.operands_mapOperands] at replaced
    exact swept.holds (holds_of_replaced known replaced)
  · intro b past r w there replaced
    obtain ⟨before, body, known⟩ := sweep.known checked inside (swept.passed there)
    have mem := mem_reversePostorder_of_passed checked inside (swept.passed there)
    rw [List.append_nil] at body
    have ended : (forward f).1.terminator b = g.terminator b := by
      rw [terminator, block?_congr swept.blocks, ← terminator]
    rw [ended, sweep.ended b mem, Terminator.operands_mapOperands, sweep.leave b mem, body] at replaced
    exact swept.holds (holds_of_replaced known replaced)
  · intro t v s kind past r version w mem normal there here here' other
    obtain ⟨before, body, known⟩ := sweep.known checked inside (swept.passed there)
    have from_ := mem_reversePostorder_of_passed checked inside (swept.passed there)
    rw [List.append_nil] at body
    rw [swept.incoming checked mem normal from_ here] at here'
    obtain rfl := Option.some.inj here'
    rw [sweep.leave s from_, body] at other ⊢
    exact swept.holds (of_forwardValue known other)

/-- Two ways on which one register is copied meet, what was copied is stored, and then that register is set on one
of two ways on. -/
def meeting : List Change :=
  [.addBlock, .addBlock, .addBlock, .addBlock, .addBlock, .addBlock, .setTerminator 0 (.goto 2),
    .setTerminator 2 (.branch .truthy [.reg 1 0] 3 4),
    .appendNode 3 (.store 5 (.reg 2 0)), .setTerminator 3 (.jump 5),
    .appendNode 4 (.store 6 (.reg 2 0)), .setTerminator 4 (.jump 5),
    .appendNode 5 (.phi [⟨.reg 5 0, 3, .jump⟩, ⟨.reg 6 0, 4, .jump⟩]),
    .appendNode 5 (.store 3 (.node 2)), .setTerminator 5 (.branch .truthy [.reg 1 0] 6 7),
    .appendNode 6 (.store 2 (.const (.int 9))),
    .appendNode 6 (.property .setProperty 1 [.reg 1 0, .reg 3 0]), .setTerminator 6 (.jump 7),
    .setTerminator 7 (.leave (some (.reg 2 0)))]

/-- The reading behind the meeting is replaced by the phi, which holds what the register holds. -/
theorem forward_backed_meeting : ∃ f, build? meeting (.new 0 2 {} 7) = some f ∧ Checked f ∧
    Backed f (forward f).1 f := by
  have facts : (build? meeting (.new 0 2 {} 7)).any
      (fun f => (f.block? entry).isSome && f.verify.isOk && decide True) = true := by decide +kernel
  obtain ⟨f, built, checked, -⟩ := exists_checked facts
  exact ⟨f, built, checked, forward_backed f checked⟩

/-- Control passes the store of the phi and then sets the register that the phi has come to read, and behind that
the phi is used in place of the register where it was stored. -/
def Overwrites (f f' : Func) : Prop :=
  (f'.body 0 = [] ∧ f'.body 2 = [] ∧ f'.body 3 = [0] ∧ f'.body 5 = [3] ∧ f'.body 6 = [4, 5]) ∧
  ((2, .fallthrough) ∈ f'.succs 0 ∧ (3, .whenTrue) ∈ f'.succs 2 ∧ (5, .jump) ∈ f'.succs 3 ∧
    (6, .whenTrue) ∈ f'.succs 5) ∧
  f'.kind? 4 = some (.store 2 (.const (.int 9))) ∧
  f'.inputs? 2 = some [⟨.reg 2 0, 3, .jump⟩, ⟨.reg 2 0, 4, .jump⟩] ∧
  f.kind? 5 = some (.property .setProperty 1 [.reg 1 0, .reg 3 0]) ∧
  f'.kind? 5 = some (.property .setProperty 1 [.reg 1 0, .node 2])

instance (f f' : Func) : Decidable (Overwrites f f') := inferInstanceAs (Decidable (_ ∧ _))

/-- A value that is forwarded may come to read a register that was set behind the store. -/
theorem not_forward_backed : ¬∀ f, Checked f → Backed f (forward f).1 (forward f).1 := by
  intro all
  have facts : (build? meeting (.new 0 2 {} 7)).any (fun f => (f.block? entry).isSome && f.verify.isOk &&
      decide (Overwrites f (forward f).1)) = true := by decide +kernel
  obtain ⟨f, built, checked, ⟨b0, b2, b3, b5, b6⟩, ⟨e0, e2, e3, e5⟩, set, phi, use, use'⟩ := exists_checked facts
  have way : (forward f).1.Passed 6 [5] [4, 3, 0] := by
    have p0 := Passed.start (f := (forward f).1)
    rw [entry, b0] at p0
    have p2 := p0.edge e0 (by decide)
    rw [b2] at p2
    have p3 := p2.edge e2 (by decide)
    rw [b3] at p3
    have p5 := p3.node.edge e3 (by decide)
    rw [b5] at p5
    have p6 := p5.node.edge e5 (by decide)
    rw [b6] at p6
    exact p6.node
  obtain ⟨after, s, before, split, stored, behind⟩ := (all f checked).node 6 5 [] _ _ _ 3 (.node 2) way use use'
    ⟨1, 0, rfl, rfl, by decide⟩
  cases after with
  | nil =>
    obtain rfl := (List.cons.inj split).1
    rw [set] at stored
    cases stored
  | cons u after =>
    -- The last node on the way sets the register that both inputs of the phi read.
    obtain rfl := (List.cons.inj split).1
    refine (behind 4 List.mem_cons_self 2 ?_).2 (.phi phi List.mem_cons_self .reg)
    rw [settings, set]
    exact List.mem_singleton_self 2

end Avm.Opt.Copying
