import Avm.Proofs.Opt.Fixpoint
import Avm.Proofs.Ir.Reading

/-!
# Places in a graph

A place is a block together with the nodes of it that are still to come.  Control comes to places by
evaluating nodes one after another and by going from block to block; the phis of a block are evaluated on the
way into it.  A use of a node is dominated by the node if control cannot come there without evaluating it.

The main definitions are `Dominated` and `Unbroken`: uses come behind what they use, and the registers that
phis read are not written in between.
-/

namespace Avm.Ir.Func

variable {f g : Func} {b c t : BlockId} {v w p : ValueId} {rest : List ValueId} {x y : Value} {r : Nat}
  {P Q : ValueId → Prop}

/-- Control can come to a place without evaluating any of some nodes. -/
inductive Comes (f : Func) (avoided : ValueId → Prop) : BlockId → List ValueId → Prop
  | start : Comes f avoided entry (f.body entry)
  | node {b : BlockId} {v : ValueId} {rest : List ValueId} :
    Comes f avoided b (v :: rest) → ¬avoided v → Comes f avoided b rest
  | edge {b t : BlockId} {kind : EdgeKind} :
    Comes f avoided b [] → (t, kind) ∈ (f.terminator b).targets → (∀ v ∈ f.phis t, ¬avoided v) →
      Comes f avoided t (f.body t)

/-- Control can come to a place. -/
def Reached (f : Func) : BlockId → List ValueId → Prop := f.Comes fun _ => False

/-- Control can come to a place without evaluating a node. -/
def Avoids (f : Func) (v : ValueId) : BlockId → List ValueId → Prop := f.Comes (· = v)

/-- An operand is used at a place: by the node that is next, by the end of the block, or by a phi on an edge
that leaves the block. -/
inductive UsesAt (f : Func) (x : Value) : BlockId → List ValueId → Prop
  | node {b : BlockId} {v : ValueId} {rest : List ValueId} {k : NodeKind} :
    f.kind? v = some k → x ∈ k.operands → UsesAt f x b (v :: rest)
  | last {b : BlockId} : x ∈ (f.terminator b).operands → UsesAt f x b []
  | edge {b t : BlockId} {kind : EdgeKind} {p : ValueId} :
    (t, kind) ∈ (f.terminator b).targets → p ∈ f.phis t → f.incoming p b kind = some x → UsesAt f x b []

/-- Every use of a node is dominated by it. -/
def Dominated (f : Func) : Prop := ∀ v b rest, f.UsesAt (.node v) b rest → ¬f.Avoids v b rest

/-- The node sets the register. -/
def sets (f : Func) (v : ValueId) (r : Nat) : Bool := (f.kind? v).any fun k => k.written.contains r

/-- Control can come from the entrance of a block to a place without entering the block again, and sets a
register on the way, or does not. -/
inductive Since (f : Func) (c : BlockId) (r : Nat) : Bool → BlockId → List ValueId → Prop
  | start : Since f c r false c (f.body c)
  | node {set : Bool} {b : BlockId} {v : ValueId} {rest : List ValueId} :
    Since f c r set b (v :: rest) → Since f c r (set || f.sets v r) b rest
  | edge {set : Bool} {b t : BlockId} {kind : EdgeKind} :
    Since f c r set b [] → (t, kind) ∈ (f.terminator b).targets → t ≠ c → Since f c r set t (f.body t)

/-- Where control uses a phi that reads a register, the register was not set since the block of the phi was
entered. -/
def Unbroken (f : Func) : Prop :=
  ∀ p c r b rest, p ∈ f.phis c → f.Reads (.node p) r → f.Reached b rest → f.UsesAt (.node p) b rest →
    ¬f.Since c r true b rest

/-- Place just behind a node. -/
inductive Behind (f : Func) (v : ValueId) : BlockId → List ValueId → Prop
  | phi {b : BlockId} : v ∈ f.phis b → Behind f v b (f.body b)
  | node {b : BlockId} {before rest : List ValueId} : f.body b = before ++ v :: rest → Behind f v b rest

lemma Comes.mono (h : f.Comes P b rest) (weaker : ∀ v, Q v → P v) : f.Comes Q b rest := by
  induction h with
  | start => exact .start
  | node _ other ih => exact .node ih fun avoided => other (weaker _ avoided)
  | edge _ out none ih => exact .edge ih out fun v mem avoided => none v mem (weaker v avoided)

lemma Avoids.reached (h : f.Avoids v b rest) : f.Reached b rest := Comes.mono h fun _ => False.elim

lemma Comes.suffix (h : f.Comes P b rest) : rest <:+ f.body b := by
  induction h with
  | start => exact List.suffix_refl _
  | node _ _ ih => exact (List.suffix_cons _ _).trans ih
  | edge => exact List.suffix_refl _

lemma Comes.mem (h : f.Comes P b rest) (avoided : P v) (mem : v ∈ f.body b) : v ∈ rest := by
  induction h with
  | start => exact mem
  | node _ other ih =>
    rcases List.mem_cons.1 (ih mem) with rfl | later
    · exact absurd avoided other
    · exact later
  | edge => exact mem

/-- Uses are dominated if nodes are used only at the ends of their own blocks. -/
lemma dominated_of_last (nodes : ∀ v k, f.kind? v = some k → ∀ w, .node w ∉ k.operands)
    (ends : ∀ b v, .node v ∈ (f.terminator b).operands → v ∈ f.body b) : f.Dominated := by
  intro v b rest used avoids
  cases used with
  | node does mem => exact nodes _ _ does v mem
  | last mem => cases avoids.mem rfl (ends b v mem)
  | edge out mem reads =>
    obtain ⟨is, phi, found⟩ := Option.bind_eq_some_iff.1 reads
    obtain ⟨i, listed, -, -, worth⟩ := exists_of_incoming? found
    obtain ⟨k, does, inputs⟩ := Option.bind_eq_some_iff.1 phi
    cases k with
    | phi is' =>
      obtain rfl := Option.some.inj inputs
      exact nodes _ _ does v (worth ▸ List.mem_map_of_mem listed)
    | _ => cases inputs

lemma Comes.exists_behind (h : f.Comes P b rest) (w : ValueId) :
    f.Comes (fun v => P v ∨ v = w) b rest ∨ ∃ c rest', f.Behind w c rest' ∧ f.Comes P c rest' := by
  induction h with
  | start => exact .inl .start
  | @node b v rest way other ih =>
    rcases ih with avoids | behind
    · by_cases here : v = w
      · obtain ⟨before, split⟩ := way.suffix
        rw [here] at split
        exact .inr ⟨b, rest, .node split.symm, .node way other⟩
      · exact .inl (.node avoids (not_or.2 ⟨other, here⟩))
    · exact .inr behind
  | @edge b t kind way out none ih =>
    rcases ih with avoids | behind
    · by_cases here : w ∈ f.phis t
      · exact .inr ⟨t, f.body t, .phi here, .edge way out none⟩
      · refine .inl (.edge avoids out fun v mem => not_or.2 ⟨none v mem, ?_⟩)
        rintro rfl
        exact here mem
    · exact .inr behind

lemma Listed.behind_unique (listed : f.Listed) {rest' : List ValueId} (h : f.Behind v b rest)
    (h' : f.Behind v c rest') :
    c = b ∧ rest' = rest := by
  have home {b : BlockId} {rest : List ValueId} (h : f.Behind v b rest) : v ∈ f.nodesOf b := by
    cases h with
    | phi mem => exact List.mem_append_left _ mem
    | node split =>
      refine List.mem_append_right _ ?_
      rw [split]
      exact List.mem_append_right _ List.mem_cons_self
  obtain rfl : b = c := listed.eq_of_mem_nodesOf (home h) (home h')
  have once := listed.nodup b
  rw [nodesOf] at once
  cases h with
  | phi mem =>
    cases h' with
    | phi => exact ⟨rfl, rfl⟩
    | node split =>
      rw [split] at once
      exact absurd rfl ((List.nodup_append.1 once).2.2 v mem v (List.mem_append_right _ List.mem_cons_self))
  | @node before _ split =>
    cases h' with
    | phi mem =>
      rw [split] at once
      exact absurd rfl ((List.nodup_append.1 once).2.2 v mem v (List.mem_append_right _ List.mem_cons_self))
    | @node before' _ split' =>
      have nodup := (List.nodup_append.1 once).2.1
      rw [split, List.nodup_middle, List.nodup_cons, List.mem_append, not_or] at nodup
      rw [split, List.append_cons_inj_of_notMem nodup.1.1 nodup.1.2] at split'
      exact ⟨rfl, split'.2.2.symm⟩

end Avm.Ir.Func
