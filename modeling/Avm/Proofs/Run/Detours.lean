import Avm.Proofs.Emit.Placing
import Avm.Proofs.Ir.Places
import Avm.Proofs.Run.Pacing

/-!
# Detours

A block that is put on an edge is empty, so control that takes the edge makes a detour: one step of the old graph is
two steps of the new one, in which nothing more is seen.  The phis at the end of the edge get by the new edge what they
got by the old one.

The main statements are `seen_onEdge` and `Dominated.onEdge`.
-/

namespace Avm.Ir

namespace Terminator

variable {V : Type} {S : Semantics V} {args : List V} {t : Terminator} {b c m : BlockId} {kind k : EdgeKind}

lemma mem_targets_retarget_iff (old : b ≠ m) :
    (b, k) ∈ ((t.retarget? kind m).getD t).targets ↔ (b, k) ∈ t.targets ∧ k ≠ kind := by
  rw [targets_retarget, List.mem_map]
  constructor
  · rintro ⟨e, here, same⟩
    split at same
    · exact absurd (Prod.mk.inj same).1.symm old
    · rename_i stays
      subst same
      exact ⟨here, stays⟩
  · rintro ⟨here, stays⟩
    exact ⟨(b, k), here, if_neg stays⟩

@[simp] lemma operands_retarget : ((t.retarget? kind m).getD t).operands = t.operands := by
  cases t with
  | switch index default cases =>
    cases kind <;> simp only [retarget?] <;> first | rfl | (split <;> rfl)
  | _ => cases kind <;> rfl

@[simp] lemma finish_retarget : ((t.retarget? kind m).getD t).finish args = t.finish args := by
  cases t with
  | switch index default cases =>
    cases kind <;> simp only [retarget?] <;> first | rfl | (split <;> rfl)
  | _ => cases kind <;> rfl

lemma choose_retarget : ((t.retarget? kind m).getD t).choose S args =
    (t.choose S args).map fun e => if e.2 = kind then (m, kind) else e := by
  cases t with
  | goto | jump => cases kind <;> rfl
  | branch test operands onTrue onFalse =>
    by_cases taken : S.branch test args = true <;> cases kind <;> simp [retarget?, choose, taken]
  | switch index default cases =>
    cases kind with
    | switchDefault =>
      simp only [retarget?, Option.getD_some, choose, Option.map_some]
      cases chosen : (args.head?.bind fun x => S.select x cases.length).bind fun i =>
          cases[i]?.map fun c => (c, EdgeKind.switchCase i) with
      | none => simp
      | some e =>
        obtain ⟨i, -, found⟩ := Option.bind_eq_some_iff.1 chosen
        obtain ⟨c, -, rfl⟩ := Option.map_eq_some_iff.1 found
        simp
    | switchCase j =>
      by_cases inside : j < cases.length
      · simp only [retarget?, inside, if_true, Option.getD_some, choose, Option.map_some, List.length_set]
        cases args.head?.bind fun x => S.select x cases.length with
        | none => simp
        | some i =>
          simp only [Option.bind_some, List.getElem?_set]
          by_cases here : j = i
          · subst here
            simp [inside]
          · cases cases[i]? <;> simp [here, Ne.symm here]
      · simp only [retarget?, inside, if_false, Option.getD_none, choose, Option.map_some]
        cases args.head?.bind fun x => S.select x cases.length with
        | none => simp
        | some i =>
          cases there : cases[i]? with
          | none => simp [there]
          | some c =>
            have other : i ≠ j := by
              rintro rfl
              exact inside (List.getElem?_eq_some_iff.1 there).1
            simp [there, other]
    | _ =>
      simp only [retarget?, Option.getD_none, choose, Option.map_some]
      cases chosen : (args.head?.bind fun x => S.select x cases.length).bind fun i =>
          cases[i]?.map fun c => (c, EdgeKind.switchCase i) with
      | none => simp
      | some e =>
        obtain ⟨i, -, found⟩ := Option.bind_eq_some_iff.1 chosen
        obtain ⟨c, -, rfl⟩ := Option.map_eq_some_iff.1 found
        simp
  | leave | raise | none => cases kind <;> rfl

end Terminator

namespace Func

variable {V : Type} {f : Func} {b c s t source target : BlockId} {v : ValueId} {kind k : EdgeKind} {depth : Nat}

/-- A graph that handles no exceptions. -/
structure Bare (f : Func) : Prop where
  catches : f.handlers = []
  uncovered : ∀ b, f.handlersOf b = []

lemma mem_edgesFrom_nil {catches : List Catch} {term : Terminator} {e : BlockId × EdgeKind} :
    e ∈ edgesFrom catches term [] ↔ e ∈ term.targets ∨ e ∈ term.leaving [] := by
  rw [mem_edgesFrom]
  simp

lemma kind?_onEdge (plain : f.inputs? v = none) : (f.onEdge source target kind depth).kind? v = f.kind? v := by
  have beside : (f.beside source depth).kind? v = f.kind? v := kind?_reend (f := f.withBlock depth) plain
  have plain₁ : (f.beside source depth).inputs? v = none := by rw [inputs?, beside, ← inputs?, plain]
  obtain ⟨prepared, plain₂⟩ := kind?_modifyPhis (f.phis target) (handOver source f.blocks.size kind) plain₁
  have entered : (f.enteredEdge source target kind depth).kind? v = (f.preparedEdge source target kind depth).kind? v :=
    kind?_reend plain₂
  have plain₃ : (f.enteredEdge source target kind depth).inputs? v = none := by
    rw [inputs?, entered]
    exact plain₂
  exact ((kind?_reend plain₃).trans entered).trans (prepared.trans beside)

section Inputs

variable (checked : Checked f)
include checked

lemma ne_size_of_goes (goes : (target, kind) ∈ (f.terminator source).targets) : source ≠ f.blocks.size :=
  size_ne_of_isSome (isSome_of_mem_succs (checked.mem_succs_of_mem_targets goes))

variable (bare : Bare f)
include bare

lemma mem_succs_iff {e : BlockId × EdgeKind} :
    e ∈ f.succs s ↔ e ∈ (f.terminator s).targets ∨ e ∈ (f.terminator s).leaving [] := by
  rw [checked.wired, edgesOf_eq, bare.uncovered, mem_edgesFrom_nil]

lemma Checked.toLawful : Lawful f where
  toListed := checked.toListed
  covered b k mem := by
    rw [bare.uncovered] at mem
    cases mem
  backed := backed_of_linked checked.linked

variable (goes : (target, kind) ∈ (f.terminator source).targets)
include goes

lemma mem_succs_iff_of_goes {e : BlockId × EdgeKind} : e ∈ f.succs source ↔ e ∈ (f.terminator source).targets := by
  rw [mem_succs_iff checked bare, leaving_eq_nil goes, or_iff_left List.not_mem_nil]

lemma incoming_onEdge (mem : v ∈ f.phis t) : (f.onEdge source target kind depth).incoming v s k =
    if t = target then
      if s = f.blocks.size then if k = .fallthrough then f.incoming v source kind else none
      else if s = source ∧ k = kind then none else f.incoming v s k
    else f.incoming v s k := by
  have lawful := checked.toLawful bare
  obtain ⟨edges, fed⟩ := lawful.verify_eq_ok.1 checked.verified
  have only : (t, k) ∈ edgesFrom f.handlers (.goto target) [] ↔ t = target ∧ k = .fallthrough := by
    simp [mem_edgesFrom_nil, Terminator.targets, Terminator.leaving]
  rw [fed.incoming_onEdge edges lawful mem (checked.mem_succs_of_mem_targets goes)
    (Terminator.ne_raise_of_mem_targets goes)
    (absurd · (Terminator.ne_leave_of_mem_targets goes)), bare.uncovered]
  simp only [only]
  by_cases here : t = target
  · simp [here]
  · simp only [here, false_and, if_false]
    split
    · rename_i new
      rw [new, fed.sparse.incoming_size mem]
    · rfl

lemma Checked.onEdge (depth : Nat) : Checked (f.onEdge source target kind depth) ∧
    Bare (f.onEdge source target kind depth) := by
  have edge := checked.mem_succs_of_mem_targets goes
  have live : (f.block? source).isSome := isSome_of_mem_succs edge
  have normal := Terminator.ne_raise_of_mem_targets goes
  have on := Terminator.ne_leave_of_mem_targets goes
  have lawful := checked.toLawful bare
  obtain ⟨edges, fed⟩ := lawful.verify_eq_ok.1 checked.verified
  refine ⟨⟨checked.toFiled.onEdge, ?_, (edges.onEdge edge depth).agreed,
    (lawful.verify_onEdge edges fed edge normal (absurd · on) depth).2 fun t _ caught => ?_⟩, ?_, fun b => ?_⟩
  · rw [isSome_onEdge, checked.start, Bool.or_true]
  · rw [succs_onEdge live, if_neg (ne_size_of_goes checked goes).symm, if_pos rfl, bare.uncovered,
      mem_edgesFrom_nil] at caught
    simp [Terminator.targets, Terminator.leaving] at caught
  · rw [catches_onEdge, bare.catches]
  · rw [handlersOf_onEdge live, bare.uncovered, bare.uncovered, ite_self]

end Inputs

section Places

variable (checked : Checked f) (bare : Bare f) (goes : (target, kind) ∈ (f.terminator source).targets)
include checked goes

lemma comes_of_onEdge {P : ValueId → Prop} {rest : List ValueId}
    (way : (f.onEdge source target kind depth).Comes P b rest) : f.Comes P (f.standsFor source b) rest := by
  have live : (f.block? source).isSome := isSome_of_mem_succs (checked.mem_succs_of_mem_targets goes)
  have old {b t : BlockId} {k : EdgeKind} (out : (t, k) ∈ (f.terminator b).targets) : f.standsFor source t = t :=
    standsFor_of_isSome (checked.live (checked.mem_succs_of_mem_targets out))
  induction way with
  | start =>
    rw [standsFor_of_isSome checked.start, body_onEdge]
    exact .start
  | node _ other ih => exact .node ih other
  | @edge b t k way out none ih =>
    rw [phis_onEdge] at none
    rw [body_onEdge]
    rw [terminator_onEdge live] at out
    split at out
    · rename_i here
      subst here
      rw [standsFor_of_isSome live] at ih
      obtain new | ⟨stays, -⟩ := Terminator.mem_targets_retarget out
      · obtain ⟨rfl, rfl⟩ := Prod.mk.inj new
        rw [standsFor, if_pos rfl, (parts_of_isNone block?_size).2.1]
        exact ih
      · rw [old stays]
        exact .edge ih stays none
    · split at out
      · rename_i here
        obtain ⟨rfl, rfl⟩ := Prod.mk.inj (List.mem_singleton.1 out)
        rw [standsFor, if_pos here] at ih
        rw [old goes]
        exact .edge ih goes none
      · rename_i here
        rw [standsFor, if_neg here] at ih
        rw [old out]
        exact .edge ih out none

include bare

lemma usesAt_of_onEdge {x : Value} {rest : List ValueId} (use : (f.onEdge source target kind depth).UsesAt x b rest)
    (suffix : rest <:+ f.body b) : f.UsesAt x (f.standsFor source b) rest := by
  have live : (f.block? source).isSome := isSome_of_mem_succs (checked.mem_succs_of_mem_targets goes)
  have other := ne_size_of_goes checked goes
  cases use with
  | @node v rest k does mem =>
    have here : v ∈ f.body b := suffix.mem List.mem_cons_self
    have inside := isSome_of_mem_nodesOf (List.mem_append_right (f.phis b) here)
    rw [kind?_onEdge (checked.plain b v here)] at does
    rw [standsFor_of_isSome inside]
    exact .node does mem
  | last mem =>
    rw [terminator_onEdge live] at mem
    split at mem
    · rename_i here
      rw [here, standsFor_of_isSome live]
      rw [retargeted, Terminator.operands_retarget] at mem
      exact .last mem
    · split at mem
      · cases mem
      · rename_i away
        rw [standsFor, if_neg away]
        exact .last mem
  | @edge t k p out mem worth =>
    rw [phis_onEdge] at mem
    rw [incoming_onEdge checked bare goes mem] at worth
    rw [terminator_onEdge live] at out
    split at out
    · rename_i here
      subst here
      rw [standsFor_of_isSome live]
      obtain new | ⟨stays, away⟩ := Terminator.mem_targets_retarget out
      · rw [(Prod.mk.inj new).1, (parts_of_isNone block?_size).1] at mem
        cases mem
      · rw [if_neg other, if_neg fun both : b = b ∧ k = kind => away both.2, ite_self] at worth
        exact .edge stays mem worth
    · rename_i first
      split at out
      · rename_i here
        obtain ⟨rfl, rfl⟩ := Prod.mk.inj (List.mem_singleton.1 out)
        rw [if_pos rfl, if_pos here, if_pos rfl] at worth
        rw [standsFor, if_pos here]
        exact .edge goes mem worth
      · rename_i second
        rw [if_neg second, if_neg fun both : b = source ∧ k = kind => first both.1, ite_self] at worth
        rw [standsFor, if_neg second]
        exact .edge out mem worth

lemma Dominated.onEdge (dominated : Dominated f) : Dominated (f.onEdge source target kind depth) := by
  intro v b rest use avoids
  have suffix := avoids.suffix
  rw [body_onEdge] at suffix
  exact dominated v _ rest (usesAt_of_onEdge checked bare goes use suffix) (comes_of_onEdge checked goes avoids)

end Places

section Run

variable {g : Func} {S : Semantics V} {th : Thread V} {registers : Nat → V}

lemma perform_of_inputs? {u : NodeKind} (phi : (f.inputs? v).isSome) (does : f.kind? v = some u) :
    th.perform S v u = th := by
  rw [inputs?, does, Option.bind_some] at phi
  cases u with
  | phi => rfl
  | _ => cases phi

lemma enter_congr (phis : g.phis b = f.phis b) (body : g.body b = f.body b) (rest : List ValueId)
    (same : ∀ v ∈ f.phis b, g.incoming v c k = f.incoming v th.block kind) :
    g.enter S { th with block := c, rest := rest } b k = f.enter S th b kind := by
  rw [enter, enter, phis, body]
  congr 1
  funext v
  split
  · rename_i mem
    dsimp only
    rw [same v mem]
    rfl
  · rfl

lemma enter_blank (phis : f.phis b = []) (body : f.body b = []) :
    f.enter S th b kind = { th with block := b, rest := [] } := by
  rw [enter, phis, body]
  simp

lemma block_step_of_cons {rest : List ValueId} (next : th.rest = v :: rest) : (f.step S th).block = th.block := by
  by_cases running : th.ending = none
  · cases does : f.kind? v with
    | none => rw [step_skip running next does]
    | some u =>
      rw [step_node running next does]
      exact Thread.place_perform.1
  · rw [step_ended running]

lemma step_onEdge_node {rest : List ValueId} (running : th.ending = none) (next : th.rest = v :: rest) :
    (f.onEdge source target kind depth).step S th = f.step S th := by
  cases does : f.kind? v with
  | none =>
    have plain : f.inputs? v = none := by rw [inputs?, does, Option.bind_none]
    rw [step_skip running next does, step_skip running next (by rw [kind?_onEdge plain, does])]
  | some u =>
    rw [step_node running next does]
    cases phi : f.inputs? v with
    | none => rw [step_node running next (by rw [kind?_onEdge phi, does])]
    | some is =>
      have phi' : ((f.onEdge source target kind depth).inputs? v).isSome := by rw [frame_onEdge.2, phi]; rfl
      obtain ⟨u', does'⟩ : ∃ u', (f.onEdge source target kind depth).kind? v = some u' := by
        rw [inputs?] at phi'
        exact Option.isSome_iff_exists.1 (Option.isSome_of_isSome_bind phi')
      rw [step_node running next does', perform_of_inputs? phi' does', perform_of_inputs? (by rw [phi]; rfl) does]

variable (checked : Checked f) (bare : Bare f) (goes : (target, kind) ∈ (f.terminator source).targets)
include checked bare goes

lemma step_step_onEdge (depth : Nat) (running : th.ending = none) (next : th.rest = []) (here : th.block = source)
    (chosen : (f.terminator source).choose S ((f.terminator source).operands.map (th.value S)) = some (target, kind)) :
    ∃ th', (f.onEdge source target kind depth).step S th = th' ∧ th'.report = th.report ∧
      (f.onEdge source target kind depth).step S th' = f.step S th := by
  have live : (f.block? source).isSome := isSome_of_mem_succs (checked.mem_succs_of_mem_targets goes)
  have absent := parts_of_isNone (f := f) block?_size
  have other := ne_size_of_goes checked goes
  have first : (f.onEdge source target kind depth).step S th = { th with block := f.blocks.size, rest := [] } := by
    have led : ((f.onEdge source target kind depth).terminator th.block).choose S
        (((f.onEdge source target kind depth).terminator th.block).operands.map (th.value S)) =
          some (f.blocks.size, kind) := by
      rw [here, terminator_onEdge live, if_pos rfl, retargeted, Terminator.choose_retarget,
        Terminator.operands_retarget,
        chosen, Option.map_some, if_pos rfl]
    rw [step_edge running next led, enter_blank]
    · rw [phis_onEdge, absent.1]
    · rw [body_onEdge, absent.2.1]
  refine ⟨_, first, rfl, ?_⟩
  have on : ((f.onEdge source target kind depth).terminator f.blocks.size).choose S
      (((f.onEdge source target kind depth).terminator f.blocks.size).operands.map
        (Thread.value S { th with block := f.blocks.size, rest := [] })) = some (target, .fallthrough) := by
    rw [terminator_onEdge live, if_neg other.symm, if_pos rfl]
    rfl
  rw [step_edge (t := { th with block := f.blocks.size, rest := [] }) running rfl on,
    step_edge running next (by rw [here]; exact chosen)]
  refine enter_congr phis_onEdge body_onEdge [] fun v mem => ?_
  rw [incoming_onEdge checked bare goes mem, if_pos rfl, if_pos rfl, if_pos rfl, here]

lemma step_onEdge_edge (running : th.ending = none) (next : th.rest = []) (old : th.block ≠ f.blocks.size)
    (away : ∀ e, (f.terminator th.block).choose S ((f.terminator th.block).operands.map (th.value S)) = some e →
      ¬(th.block = source ∧ e.2 = kind)) : (f.onEdge source target kind depth).step S th = f.step S th := by
  have live : (f.block? source).isSome := isSome_of_mem_succs (checked.mem_succs_of_mem_targets goes)
  have choice : ((f.onEdge source target kind depth).terminator th.block).choose S
      (((f.onEdge source target kind depth).terminator th.block).operands.map (th.value S)) =
        (f.terminator th.block).choose S ((f.terminator th.block).operands.map (th.value S)) := by
    rw [terminator_onEdge live, if_neg old]
    split
    · rename_i here
      rw [retargeted, Terminator.choose_retarget, Terminator.operands_retarget, ← here]
      cases chosen : (f.terminator th.block).choose S ((f.terminator th.block).operands.map (th.value S)) with
      | none => rfl
      | some e => rw [Option.map_some, if_neg fun same => away e chosen ⟨here, same⟩]
    · rfl
  cases chosen : (f.terminator th.block).choose S ((f.terminator th.block).operands.map (th.value S)) with
  | none =>
    rw [step_last running next chosen, step_last running next (choice.trans chosen)]
    have finish : ((f.onEdge source target kind depth).terminator th.block).finish
        (((f.onEdge source target kind depth).terminator th.block).operands.map (th.value S)) =
          (f.terminator th.block).finish ((f.terminator th.block).operands.map (th.value S)) := by
      rw [terminator_onEdge live, if_neg old]
      split
      · rename_i here
        rw [retargeted, Terminator.finish_retarget, Terminator.operands_retarget, ← here]
      · rfl
    rw [finish]
  | some e =>
    obtain ⟨b, k⟩ := e
    rw [step_edge running next chosen, step_edge running next (choice.trans chosen)]
    refine enter_congr phis_onEdge body_onEdge th.rest fun v mem => ?_
    rw [incoming_onEdge checked bare goes mem, if_neg old, if_neg fun both => away _ chosen both, ite_self]

lemma stutters_onEdge : Stutters (f.step S) ((f.onEdge source target kind depth).step S)
    fun th th' => th' = th ∧ th.block ≠ f.blocks.size where
  report := by
    rintro _ th ⟨rfl, -⟩
    rfl
  next := by
    rintro _ th ⟨rfl, old⟩
    have once (same : (f.onEdge source target kind depth).step S th = f.step S th)
        (stays : (f.step S th).block ≠ f.blocks.size) :
        ∃ n, ((f.onEdge source target kind depth).step S)^[n] th = f.step S th ∧ (f.step S th).block ≠ f.blocks.size ∧
          (∀ i < n, (((f.onEdge source target kind depth).step S)^[i] th).report = th.report) ∧
            (n = 0 → (f.step S th).rest.length < th.rest.length) := by
      refine ⟨1, same, stays, fun i less => ?_, nofun⟩
      obtain rfl : i = 0 := by omega
      rfl
    simp only [and_assoc]
    by_cases running : th.ending = none
    · cases next : th.rest with
      | cons v rest =>
        rw [← next]
        exact once (step_onEdge_node running next) (by rwa [block_step_of_cons next])
      | nil =>
        rw [← next]
        cases chosen : (f.terminator th.block).choose S ((f.terminator th.block).operands.map (th.value S)) with
        | none =>
          refine once (step_onEdge_edge checked bare goes running next old fun e found => ?_) ?_
          · rw [chosen] at found
            cases found
          · rw [step_last running next chosen]
            exact old
        | some e =>
          obtain ⟨b, k⟩ := e
          have out := Terminator.mem_targets_of_choose chosen
          have lands : (f.step S th).block ≠ f.blocks.size := by
            rw [step_edge running next chosen]
            exact size_ne_of_isSome (checked.live (checked.mem_succs_of_mem_targets out))
          by_cases taken : th.block = source ∧ k = kind
          · obtain ⟨here, rfl⟩ := taken
            obtain rfl := Terminator.eq_of_mem_targets goes (here ▸ out)
            obtain ⟨th', first, quiet, second⟩ :=
              step_step_onEdge checked bare goes depth running next here (here ▸ chosen)
            refine ⟨2, ?_, lands, fun i less => ?_, nofun⟩
            · rw [Function.iterate_succ_apply, Function.iterate_one, first, second]
            · obtain rfl | rfl : i = 0 ∨ i = 1 := by omega
              · rfl
              · rw [Function.iterate_one, first, quiet]
          · refine once (step_onEdge_edge checked bare goes running next old fun e found => ?_) lands
            rw [chosen] at found
            cases found
            exact taken
    · exact once (by rw [step_ended running, step_ended running]) (by rwa [step_ended running])

lemma seen_onEdge : (f.onEdge source target kind depth).seen S registers = f.seen S registers := by
  refine (stutters_onEdge checked bare goes).seen_eq ⟨?_, ?_⟩
  · rw [start, body_onEdge, start]
  · exact size_ne_of_isSome checked.start

end Run

end Func

end Avm.Ir
