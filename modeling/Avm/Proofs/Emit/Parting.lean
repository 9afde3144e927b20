import Avm.Proofs.Ir.Padding
import Avm.Proofs.Opt.Guarding

/-!
# Edges to phis after splitting

A block is put on each edge that leads from a choice to a block with phis.  An edge that waits for its block is still
there when others have been split, since the edges that a choice takes are of different kinds, and no phi is in a new
block.  So in the end the edges to phis that no exception takes leave blocks with one way out.

The main statement is `exists_splitCriticalEdges`.
-/

namespace Avm.Emit

open Avm.Ir Avm.Ir.Func

variable {f g : Func} {s t source target : BlockId} {kind k : EdgeKind} {es : List (BlockId × BlockId × EdgeKind)}
  {term : Terminator} {depth : Nat}

lemma isChoice_retarget : isChoice ((term.retarget? kind t).getD term) = isChoice term := by
  cases term with
  | switch index default cases =>
    cases kind with
    | switchCase i =>
      rw [Terminator.retarget?]
      split <;> rfl
    | _ => rfl
  | _ => cases kind <;> rfl

lemma onlyEdge?_of_mem_targets (goes : (t, k) ∈ term.targets) (plain : isChoice term = false) :
    Plan.onlyEdge? term = some (k, t) := by
  cases term with
  | goto | jump =>
    cases List.mem_singleton.1 goes
    rfl
  | branch | switch => cases plain
  | leave | raise | none => cases goes

lemma mem_criticalEdges : (s, t, k) ∈ criticalEdges f ↔
    (t, k) ∈ f.succs s ∧ isChoice (f.terminator s) = true ∧ k ≠ .raise ∧ f.phis t ≠ [] := by
  rw [criticalEdges, List.mem_flatMap]
  constructor
  · rintro ⟨b, -, mem⟩
    cases here : f.block? b with
    | none =>
      rw [here] at mem
      cases mem
    | some x =>
      rw [here] at mem
      dsimp only at mem
      split at mem
      · rename_i choice
        obtain ⟨e, listed, same⟩ := List.mem_map.1 mem
        cases same
        obtain ⟨edge, normal⟩ := List.mem_filter.1 listed
        rw [Bool.and_eq_true, bne_iff_ne, Bool.not_eq_true', List.isEmpty_eq_false_iff] at normal
        rw [succs_of_block? here, terminator_of_block? here]
        exact ⟨edge, choice, normal⟩
      · cases mem
  · rintro ⟨edge, choice, normal, phis⟩
    obtain ⟨x, here⟩ := Option.isSome_iff_exists.1 (isSome_of_mem_succs edge)
    rw [succs_of_block? here] at edge
    rw [terminator_of_block? here] at choice
    refine ⟨s, mem_blockIds.2 (by rw [here]; rfl), ?_⟩
    rw [here]
    dsimp only
    rw [if_pos choice]
    refine List.mem_map_of_mem (f := fun e => (s, e)) (List.mem_filter.2 ⟨edge, ?_⟩)
    rw [Bool.and_eq_true, bne_iff_ne, Bool.not_eq_true', List.isEmpty_eq_false_iff]
    exact ⟨normal, phis⟩

/-- The graph has the same handlers, for the blocks that were there too. -/
structure Covered (f g : Func) : Prop where
  handlers : g.handlers = f.handlers
  isSome : ∀ b, (f.block? b).isSome → (g.block? b).isSome
  handlersOf : ∀ b, (f.block? b).isSome → g.handlersOf b = f.handlersOf b

lemma Covered.trans {h : Func} (first : Covered f g) (second : Covered g h) : Covered f h where
  handlers := second.handlers.trans first.handlers
  isSome b live := second.isSome b (first.isSome b live)
  handlersOf b live := (second.handlersOf b (first.isSome b live)).trans (first.handlersOf b live)

lemma covered_onEdge (live : (f.block? source).isSome) : Covered f (f.onEdge source target kind depth) where
  handlers := by rw [catches_onEdge]
  isSome b there := by rw [isSome_onEdge, there, Bool.or_true]
  handlersOf b there := by rw [handlersOf_onEdge live, if_neg (size_ne_of_isSome there)]

/-- Edges wait to be split, which are edges of choices, and there are no others to phis. -/
structure Pending (es : List (BlockId × BlockId × EdgeKind)) (f : Func) : Prop where
  linked : Linked (fun _ => False) f
  once : es.Nodup
  waits : ∀ s t k, (s, t, k) ∈ es → (t, k) ∈ (f.terminator s).targets ∧ k ≠ .raise
  only : ∀ s t k, (t, k) ∈ f.succs s → isChoice (f.terminator s) = true → k ≠ .raise → f.phis t ≠ [] → (s, t, k) ∈ es

lemma mem_targets_of_mem_succs (linked : Linked (fun _ => False) f) (edge : (t, k) ∈ f.succs s) (normal : k ≠ .raise)
    (stays : (t, k) ∉ (f.terminator s).leaving (f.handlersOf s)) : (t, k) ∈ (f.terminator s).targets := by
  rw [linked.wired s id, edgesOf_eq, mem_edgesFrom] at edge
  rcases edge with goes | leaves | ⟨h, -, c, -, same⟩
  · exact goes
  · exact absurd leaves stays
  · exact absurd (Prod.mk.inj same).2 normal

lemma leaving_of_isChoice (choice : isChoice term = true) (hs : List Nat) : term.leaving hs = [] := by
  cases term with
  | leave | raise => cases choice
  | _ => rfl

lemma nodup_flatMap_of_fst {β γ : Type} {l : List β} {g : β → List (β × γ)} (own : ∀ a, (g a).Nodup)
    (source : ∀ a, ∀ e ∈ g a, e.1 = a) (once : l.Nodup) : (l.flatMap g).Nodup :=
  List.nodup_flatMap.2 ⟨fun a _ => own a, once.imp fun {a b} other e mem mem' =>
    other ((source a e mem).symm.trans (source b e mem'))⟩

namespace Pending

lemma start (linked : Linked (fun _ => False) f) : Pending (criticalEdges f) f where
  linked := linked
  once := by
    have distinct (b : BlockId) : (f.succs b).Nodup := by
      rw [linked.wired b id, edgesOf_eq]
      exact nodup_edgesFrom
    refine nodup_flatMap_of_fst (fun b => ?_) (fun b e mem => ?_) nodup_blockIds
    · cases here : f.block? b with
      | none => exact List.nodup_nil
      | some x =>
        have once := distinct b
        rw [succs_of_block? here] at once
        dsimp only
        split
        · exact (once.filter _).map fun e e' same => (Prod.mk.inj same).2
        · exact List.nodup_nil
    · split at mem
      · cases mem
      · split at mem
        · obtain ⟨_, -, rfl⟩ := List.mem_map.1 mem
          rfl
        · cases mem
  waits s t k mem := by
    obtain ⟨edge, choice, normal, -⟩ := mem_criticalEdges.1 mem
    refine ⟨mem_targets_of_mem_succs linked edge normal ?_, normal⟩
    rw [leaving_of_isChoice choice]
    exact List.not_mem_nil
  only s t k edge choice normal phis := mem_criticalEdges.2 ⟨edge, choice, normal, phis⟩

lemma onEdge (pending : Pending ((source, target, kind) :: es) f) : Pending es (f.onEdge source target kind depth) := by
  obtain ⟨goes, normal⟩ := pending.waits source target kind List.mem_cons_self
  have edge : (target, kind) ∈ f.succs source := by
    rw [pending.linked.wired source id, edgesOf_eq]
    exact mem_edgesFrom.2 (.inl goes)
  have live : (f.block? source).isSome := isSome_of_mem_succs edge
  have led : (f.block? target).isSome := pending.linked.ends source _ goes
  have linked : Linked _ (f.onEdge source target kind depth) := pending.linked.onEdge live led
  refine ⟨linked, pending.once.of_cons, fun s t k mem => ?_, fun s t k edge choice plain phis => ?_⟩
  · obtain ⟨goes', normal'⟩ := pending.waits s t k (List.mem_cons_of_mem _ mem)
    refine ⟨?_, normal'⟩
    rw [terminator_onEdge live]
    split
    · rename_i here
      subst here
      -- Edges of one block that are of one kind are the same edge.
      have old : t ≠ f.blocks.size := size_ne_of_isSome (pending.linked.ends s _ goes')
      rw [retargeted, Terminator.mem_targets_retarget_iff old]
      refine ⟨goes', ?_⟩
      rintro rfl
      obtain rfl := Terminator.eq_of_mem_targets goes goes'
      exact (List.nodup_cons.1 pending.once).1 mem
    · split
      · rename_i new
        rw [new, terminator, block?_size] at goes'
        cases goes'
      · exact goes'
  · have out := mem_targets_of_mem_succs linked edge plain (by rw [leaving_of_isChoice choice]; exact List.not_mem_nil)
    rw [phis_onEdge] at phis
    rw [terminator_onEdge live] at choice out
    split at choice
    · rename_i here
      subst here
      rw [if_pos rfl] at out
      rw [retargeted, isChoice_retarget] at choice
      rcases Terminator.mem_targets_retarget out with new | ⟨stays, other⟩
      · rw [(Prod.mk.inj new).1, (parts_of_isNone block?_size).1] at phis
        exact absurd rfl phis
      · have before : (t, k) ∈ f.succs s := by
          rw [pending.linked.wired s id, edgesOf_eq]
          exact mem_edgesFrom.2 (.inl stays)
        refine (List.mem_cons.1 (pending.only s t k before choice plain phis)).resolve_left ?_
        intro same
        exact other (Prod.mk.inj (Prod.mk.inj same).2).2
    · rename_i away
      split at choice
      · cases choice
      · rename_i old
        rw [succs_onEdge live, if_neg away, if_neg old] at edge
        refine (List.mem_cons.1 (pending.only s t k edge choice plain phis)).resolve_left ?_
        intro same
        exact away (Prod.mk.inj same).1

lemma exists_splitEdges (pending : Pending es f) :
    ∃ g, (splitEdges es).run f = .ok () g ∧ Pending [] g ∧ Covered f g := by
  induction es generalizing f with
  | nil => exact ⟨f, rfl, pending, ⟨rfl, fun _ => id, fun _ _ => rfl⟩⟩
  | cons e es ih =>
    obtain ⟨source, target, kind⟩ := e
    obtain ⟨goes, normal⟩ := pending.waits source target kind List.mem_cons_self
    have edge : (target, kind) ∈ f.succs source := by
      rw [pending.linked.wired source id, edgesOf_eq]
      exact mem_edgesFrom.2 (.inl goes)
    obtain ⟨g, run, done, covered⟩ :=
      ih (show Pending es (f.onEdge source target kind (f.scopeDepth source)) from pending.onEdge)
    refine ⟨g, ?_, done, (covered_onEdge (isSome_of_mem_succs edge)).trans covered⟩
    rw [splitEdges, Edit.bind_eq_ok]
    exact ⟨_, _, Edit.run_splitEdge edge normal (pending.linked.covered source) (pending.linked.ends source _ goes)
      (pending.linked.ends source), run⟩

end Pending

/-- Critical edges can be split, which keeps the handlers.  Then each edge to a block with phis,
unless an exception takes it or it leaves the method, is the only way out of a block. -/
theorem exists_splitCriticalEdges (linked : Linked (fun _ => False) f) :
    ∃ g, splitCriticalEdges.run f = .ok () g ∧ Linked (fun _ => False) g ∧ Covered f g ∧
      ∀ s t k, (t, k) ∈ g.succs s → g.phis t ≠ [] → k ≠ .raise → k ≠ .leave →
        Plan.onlyEdge? (g.terminator s) = some (k, t) := by
  obtain ⟨g, run, done, covered⟩ := (Pending.start linked).exists_splitEdges
  refine ⟨g, ?_, done.linked, covered, fun s t k edge phis normal inside => ?_⟩
  · rw [splitCriticalEdges, Edit.bind_eq_ok]
    exact ⟨f, f, rfl, run⟩
  · have plain : isChoice (g.terminator s) = false := by
      by_contra choice
      cases done.only s t k edge (Bool.not_eq_false _ ▸ choice) normal phis
    apply onlyEdge?_of_mem_targets _ plain
    apply mem_targets_of_mem_succs done.linked edge normal
    intro leaves
    cases last : g.terminator s with
    | leave =>
      rw [last] at leaves
      exact inside (Prod.mk.inj (List.mem_singleton.1 leaves)).2
    | raise =>
      rw [last, Terminator.leaving] at leaves
      split at leaves
      · exact normal (Prod.mk.inj (List.mem_singleton.1 leaves)).2
      · cases leaves
    | _ =>
      rw [last] at leaves
      cases leaves

end Avm.Emit
