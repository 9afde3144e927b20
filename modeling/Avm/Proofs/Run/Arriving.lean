import Avm.Proofs.Run.Acting

/-!
# Nodes with their operands at hand

Control comes to a handler from any place in the blocks that it covers.  A use of a node is
preceded by the node if control cannot come there without evaluating it, by a handler or otherwise.
 The nodes of a block can be done in a row if what is evaluated on every way to the block has a
 value: their operands were evaluated on every way, or stand before them.

The main statement is `Scene.exists_course`.
-/

namespace Avm

open Ir

namespace Ir.Func

variable {f : Func} {b : BlockId} {v : ValueId} {rest : List ValueId} {P : ValueId → Prop}

/-- Control can come to a place without evaluating any of some nodes, also where an exception was caught. -/
inductive Arrives (f : Func) (avoided : ValueId → Prop) : BlockId → List ValueId → Prop
  | start : Arrives f avoided entry (f.body entry)
  | node {b : BlockId} {v : ValueId} {rest : List ValueId} :
    Arrives f avoided b (v :: rest) → ¬avoided v → Arrives f avoided b rest
  | edge {b t : BlockId} {kind : EdgeKind} :
    Arrives f avoided b [] → (t, kind) ∈ (f.terminator b).targets → (∀ v ∈ f.phis t, ¬avoided v) →
      Arrives f avoided t (f.body t)
  | caught {b : BlockId} {rest : List ValueId} {h : Nat} {c : Catch} :
    Arrives f avoided b rest → h ∈ f.handlersOf b → f.handlers[h]? = some c → (∀ v ∈ f.phis c.target, ¬avoided v) →
      Arrives f avoided c.target (f.body c.target)

/-- Every use of a node is preceded by the node. -/
def Preceded (f : Func) : Prop := ∀ v b rest, f.UsesAt (.node v) b rest → ¬f.Arrives (· = v) b rest

lemma Arrives.append {before : List ValueId} (h : f.Arrives P b (before ++ rest)) (others : ∀ v ∈ before, ¬P v) :
    f.Arrives P b rest := by
  induction before with
  | nil => exact h
  | cons w before ih =>
    obtain ⟨first, others⟩ := List.forall_mem_cons.1 others
    exact ih (h.node first) others

lemma Arrives.suffix (h : f.Arrives P b rest) : rest <:+ f.body b := by
  induction h with
  | start => exact List.suffix_refl _
  | node _ _ ih => exact (List.suffix_cons _ _).trans ih
  | edge => exact List.suffix_refl _
  | caught => exact List.suffix_refl _

lemma Arrives.mem (h : f.Arrives P b rest) (avoided : P v) (mem : v ∈ f.body b) : v ∈ rest := by
  induction h with
  | start => exact mem
  | node _ other ih =>
    rcases List.mem_cons.1 (ih mem) with rfl | later
    · exact absurd avoided other
    · exact later
  | edge => exact mem
  | caught => exact mem

/-- There are no phis, and nodes are used only behind themselves in their own blocks. -/
def Local (f : Func) : Prop :=
  ∀ b ∈ f.blockIds, f.phis b = [] ∧ (∀ x ∈ (f.terminator b).operands, ∀ v ∈ x.node?, v ∈ f.body b) ∧
    ∀ rest ∈ (f.body b).tails, ∀ w ∈ rest.head?, ∀ k ∈ f.kind? w, ∀ x ∈ k.operands, ∀ v ∈ x.node?,
      v ∈ f.body b ∧ v ∉ rest

instance (f : Func) : Decidable f.Local := inferInstanceAs (Decidable (∀ b ∈ f.blockIds, _))

lemma Local.preceded (h : f.Local) : f.Preceded := by
  -- Blocks that are no more have neither nodes nor an end.
  have absent {b : BlockId} (gone : b ∉ f.blockIds) : f.block? b = none := by
    rwa [mem_blockIds, Option.not_isSome_iff_eq_none] at gone
  intro v b rest used arrives
  cases used with
  | @node w rest k does mem =>
    by_cases live : b ∈ f.blockIds
    · have behind := arrives.suffix
      obtain ⟨here, new⟩ := (h b live).2.2 _ ((List.mem_tails _ _).2 behind) w rfl k does _ mem v rfl
      exact new (arrives.mem rfl here)
    · have none := arrives.suffix
      rw [(parts_of_isNone (absent live)).2.1] at none
      cases List.suffix_nil.1 none
  | last mem =>
    by_cases live : b ∈ f.blockIds
    · cases arrives.mem rfl ((h b live).2.1 _ mem v rfl)
    · rw [(parts_of_isNone (absent live)).2.2.2.1] at mem
      cases mem
  | @edge t kind q out mem into =>
    by_cases live : t ∈ f.blockIds
    · rw [(h t live).1] at mem
      cases mem
    · rw [(parts_of_isNone (absent live)).1] at mem
      cases mem

end Ir.Func

namespace Scene

variable {V : Type} {f : Func} {pool : Pool} {I : Interp V} {exception : Option V} {s : Scene V} {b : BlockId}

/-- What is evaluated on every way to a block, and has a result, has a value. -/
def Knows (f : Func) (b : BlockId) (s : Scene V) : Prop :=
  ∀ v, (f.kind? v).any NodeKind.producesValue = true → ¬f.Arrives (· = v) b (f.body b) → (s.values v).isSome

/-- The nodes of a block can be done: each of them where its operands have values, an exception is there if one of them
takes it, and no more scopes are left than there are. -/
structure Fits (f : Func) (pool : Pool) (exception : Option V) (b : BlockId) (s : Scene V) : Prop where
  suits : ∀ v ∈ f.body b, ∀ k, f.kind? v = some k → Suits pool k
  caught : ∀ v ∈ f.body b, f.kind? v = some .caught → exception.isSome
  scopes : (NodeKind.scopeWalk s.scope.length ((f.body b).filterMap f.kind?)).isSome

/-- The rest of a block can be done where the nodes before have values, and those that are evaluated on every way. -/
lemma exists_course_behind {before rest : List ValueId} (preceded : f.Preceded)
    (plain : ∀ v ∈ f.body b, ∃ k, f.kind? v = some k ∧ k.inputs? = none)
    (results : ∀ v ∈ f.body b, ∀ k, f.kind? v = some k → ∀ u, .node u ∈ k.operands →
      (f.kind? u).any NodeKind.producesValue = true)
    (suits : ∀ v ∈ f.body b, ∀ k, f.kind? v = some k → Suits pool k)
    (caught : ∀ v ∈ f.body b, f.kind? v = some .caught → exception.isSome) (split : f.body b = before ++ rest)
    (known : ∀ u, (f.kind? u).any NodeKind.producesValue = true → u ∈ before ∨ ¬f.Arrives (· = u) b (f.body b) →
      (s.values u).isSome)
    (inside : (NodeKind.scopeWalk s.scope.length (rest.filterMap f.kind?)).isSome) :
    ∃ course, s.follow f pool I exception rest = some course := by
  induction rest generalizing before s with
  | nil => exact ⟨_, rfl⟩
  | cons v rest ih =>
    have mem : v ∈ f.body b := by
      rw [split]
      exact List.mem_append_right _ List.mem_cons_self
    obtain ⟨k, does, phi⟩ := plain v mem
    rw [List.filterMap_cons_some does, NodeKind.scopeWalk_cons] at inside
    obtain ⟨d, depth, after⟩ : ∃ d, k.depthAfter s.scope.length = some d ∧
        (NodeKind.scopeWalk d (rest.filterMap f.kind?)).isSome := by
      cases depth : k.depthAfter s.scope.length with
      | none =>
        rw [depth] at inside
        cases inside
      | some d =>
        rw [depth] at inside
        exact ⟨d, rfl, inside⟩
    have operands : ∀ y ∈ k.operands, (s.value? I y).isSome := by
      intro y used
      cases y with
      | const c | reg r version => rfl
      | node u =>
        refine known u (results v mem k does u used) ?_
        by_contra unknown
        obtain ⟨new, arrives⟩ := not_or.1 unknown
        -- Control would come to the use without the node.
        have arrives := not_not.1 arrives
        rw [split] at arrives
        refine preceded u b (v :: rest) (.node does used) (arrives.append ?_)
        rintro w there rfl
        exact new there
    have taken : k = .caught → exception.isSome := by
      rintro rfl
      exact caught v mem does
    obtain ⟨o, done⟩ := exists_acts (I := I) (v := v) (suits v mem k does) phi taken (depth ▸ rfl) operands
    rw [follow, does, Option.bind_some, done]
    cases o with
    | raises t x => exact ⟨_, rfl⟩
    | goes s' =>
      have advances := advances_of_acts done
      have level : d = s'.scope.length := Option.some.inj (depth.symm.trans advances.depth)
      have split : f.body b = before ++ [v] ++ rest := by rw [split, List.append_assoc, List.singleton_append]
      refine ih split (fun u has there => ?_) (level ▸ after)
      by_cases here : u = v
      · rw [here] at has ⊢
        rw [does] at has
        exact advances.result has
      · rw [advances.others u here]
        refine known u has (there.imp_left fun mem => ?_)
        exact (List.mem_append.1 mem).resolve_right fun last => here (List.mem_singleton.1 last)

/-- If uses are preceded by nodes with results, the nodes of a block can be done in a row. -/
theorem exists_course (preceded : f.Preceded) (plain : ∀ v ∈ f.body b, ∃ k, f.kind? v = some k ∧ k.inputs? = none)
    (results : ∀ v ∈ f.body b, ∀ k, f.kind? v = some k → ∀ u, .node u ∈ k.operands →
      (f.kind? u).any NodeKind.producesValue = true)
    (knows : s.Knows f b) (fits : s.Fits f pool exception b) :
    ∃ course, s.follow f pool I exception (f.body b) = some course :=
  exists_course_behind preceded plain results fits.suits fits.caught (List.nil_append _).symm
    (fun u has there => knows u has (there.resolve_left List.not_mem_nil)) fits.scopes

end Scene

end Avm
