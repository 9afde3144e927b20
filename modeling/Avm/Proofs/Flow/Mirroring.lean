import Avm.Proofs.Code.Twins
import Avm.Proofs.Depth.Counting

/-!
# Code with the same listing

Code that is decoded from bytes has other numbers for instructions and markers than the code that
was encoded, and the same listing.  Where listings are the same, instructions have the same effects
and name the same registers, and control goes the same ways with the same depths of the stacks.

The main statement is `Code.Mirrors.comes`.
-/

namespace Avm

namespace Instruction

variable {α β : Type} {f : α → β} {i : Instruction α} {pool : Pool}

@[simp] lemma index?_map : (i.map f).index? = i.index? := by
  obtain ⟨o, operands⟩ := i
  cases operands <;> rfl

@[simp] lemma argCount?_map : (i.map f).argCount? = i.argCount? := by
  obtain ⟨o, operands⟩ := i
  cases o
  all_goals first | rfl | (cases operands <;> rfl)

lemma effect_map : (i.map f).effect pool = i.effect pool := by
  have arguments : (i.map f).argumentSlots = i.argumentSlots := by
    rw [argumentSlots, argumentSlots, argCount?_map]
    rfl
  have names : (i.map f).nameSlots pool = i.nameSlots pool := by
    rw [nameSlots, nameSlots, index?_map]
    rfl
  rw [effect, effect, arguments, names]
  rfl

lemma registers_map : (i.map f).registers = i.registers := by
  obtain ⟨o, operands⟩ := i
  cases o
  all_goals first | rfl | (cases operands <;> rfl)

end Instruction

lemma Operands.Rel.comp {α β γ : Type} {R : α → γ → Prop} {S : β → γ → Prop} {a : Operands α} {b : Operands β}
    {x : Operands γ} (left : Operands.Rel R a x) (right : Operands.Rel S b x) :
    Operands.Rel (fun m n => ∃ r, R m r ∧ S n r) a b := by
  cases left with
  | none => cases right; exact .none
  | byte => cases right; exact .byte
  | index => cases right; exact .index
  | pair => cases right; exact .pair
  | debug => cases right; exact .debug
  | branch r =>
    cases right with
    | branch s => exact .branch ⟨_, r, s⟩
  | switch r rs =>
    cases right with
    | switch s ss =>
      refine .switch ⟨_, r, s⟩ ?_
      obtain ⟨length, rs⟩ := List.forall₂_iff_get.1 rs
      obtain ⟨length', ss⟩ := List.forall₂_iff_get.1 ss
      refine List.forall₂_iff_get.2 ⟨length.trans length'.symm, fun n here there => ?_⟩
      exact ⟨_, rs n here (length ▸ here), ss n there (length' ▸ there)⟩

namespace Code

variable {c d : Code} {id id' : InstrId} {i i' : Instruction Marker} {k : Instruction Nat} {p q : Nat} {kind : EdgeKind}
  {pool : Pool} {operand scope : Int}

lemma rel_of_resolveInstr (resolved : c.resolveInstr (id, i) = .ok k) :
    k.opcode = i.opcode ∧ Operands.Rel (fun m q => c.resolve? m = some q) i.operands k.operands := by
  rw [resolveInstr] at resolved
  split at resolved
  · cases resolved
  · rename_i missing
    obtain rfl := Except.ok.inj resolved
    have known : ∀ m ∈ i.targets, c.resolve? m = some ((c.resolve? m).getD 0) := fun m mem => by
      have some := List.find?_eq_none.1 missing m (List.mem_reverse.2 mem)
      cases here : c.resolve? m with
      | none => exact absurd (by rw [here]; rfl) some
      | some q => rfl
    refine ⟨rfl, ?_⟩
    obtain ⟨o, operands⟩ := i
    cases operands with
    | none => exact .none
    | byte => exact .byte
    | index => exact .index
    | pair => exact .pair
    | debug => exact .debug
    | branch m => exact .branch (known m (List.mem_singleton_self m))
    | switch m ms =>
      refine .switch (known m List.mem_cons_self) ?_
      rw [List.forall₂_map_right_iff, List.forall₂_same]
      exact fun n mem => known n (List.mem_cons_of_mem _ mem)

lemma eq_map_of_resolveInstr (resolved : c.resolveInstr (id, i) = .ok k) :
    k = i.map fun m => (c.resolve? m).getD 0 := by
  rw [resolveInstr] at resolved
  split at resolved
  · cases resolved
  · exact (Except.ok.inj resolved).symm

/-- Two pieces of code have the same instructions and the same handlers, with positions for markers. -/
structure Mirrors (c d : Code) : Prop where
  instrs : ∃ is, c.listing = .ok is ∧ d.listing = .ok is
  handlers : ∃ hs, c.resolvedHandlers = .ok hs ∧ d.resolvedHandlers = .ok hs

namespace Mirrors

variable (h : c.Mirrors d)
include h

lemma symm : d.Mirrors c where
  instrs := by
    obtain ⟨is, left, right⟩ := h.instrs
    exact ⟨is, right, left⟩
  handlers := by
    obtain ⟨hs, left, right⟩ := h.handlers
    exact ⟨hs, right, left⟩

lemma size : d.size = c.size := by
  obtain ⟨is, left, right⟩ := h.instrs
  rw [listing, mapM_eq_ok] at left right
  rw [Code.size, Code.size, right.length_eq, left.length_eq]

lemma exists_resolveInstr (here : c.at? p = some (id, i)) : ∃ id' i' k, d.at? p = some (id', i') ∧
    c.resolveInstr (id, i) = .ok k ∧
    d.resolveInstr (id', i') = .ok k := by
  obtain ⟨is, left, right⟩ := h.instrs
  rw [listing, mapM_eq_ok] at left right
  obtain ⟨length, left⟩ := List.forall₂_iff_get.1 left
  obtain ⟨length', right⟩ := List.forall₂_iff_get.1 right
  obtain ⟨inside, same⟩ := List.getElem?_eq_some_iff.1 here
  have there : p < d.instrs.length := by omega
  have resolved := left p inside (by omega)
  rw [List.get_eq_getElem, same] at resolved
  exact ⟨_, _, _, List.getElem?_eq_getElem there, resolved, right p there (by omega)⟩

lemma way (here : c.resolveInstr (id, i) = .ok k) (there : d.resolveInstr (id', i') = .ok k) (way : c.Way p i kind q) :
    d.Way p i' kind q := by
  obtain ⟨opcode, left⟩ := rel_of_resolveInstr here
  obtain ⟨opcode', right⟩ := rel_of_resolveInstr there
  have rel := left.comp right
  have flow : i'.opcode.flow = i.opcode.flow := by rw [← opcode', opcode]
  have branches {m n : Marker} (both : ∃ r, c.resolve? m = some r ∧ d.resolve? n = some r) (leads : c.BranchesTo m q) :
      d.BranchesTo n q := by
    obtain ⟨r, left, right⟩ := both
    obtain rfl := Option.some.inj (left.symm.trans leads.1)
    exact ⟨right, h.size ▸ leads.2⟩
  generalize other : i'.operands = operands' at rel
  cases way with
  | next same => exact .next (flow.trans same)
  | jump same operands leads =>
    rw [operands] at rel
    cases rel with
    | branch both => exact .jump (flow.trans same) other (branches both leads)
  | whenTrue same operands leads =>
    rw [operands] at rel
    cases rel with
    | branch both => exact .whenTrue (flow.trans same) other (branches both leads)
  | whenFalse same operands =>
    rw [operands] at rel
    cases rel with
    | branch both => exact .whenFalse (flow.trans same) other
  | switchDefault same operands leads =>
    rw [operands] at rel
    cases rel with
    | switch both others => exact .switchDefault (flow.trans same) other (branches both leads)
  | @switchCase _ _ n _ _ same operands found leads =>
    rw [operands] at rel
    cases rel with
    | switch both others =>
      obtain ⟨length, all⟩ := List.forall₂_iff_get.1 others
      obtain ⟨inside, rfl⟩ := List.getElem?_eq_some_iff.1 found
      exact .switchCase (flow.trans same) other (List.getElem?_eq_getElem (length ▸ inside))
        (branches (all n inside (length ▸ inside)) leads)

lemma exists_at? (here : c.at? p = some (id, i)) : ∃ id' i', d.at? p = some (id', i') ∧
    (∀ pool, i'.effect pool = i.effect pool) ∧ ∀ kind q, c.Way p i kind q → d.Way p i' kind q := by
  obtain ⟨id', i', k, there, left, right⟩ := h.exists_resolveInstr here
  refine ⟨id', i', there, fun pool => ?_, fun kind q => h.way left right⟩
  rw [← Instruction.effect_map, ← eq_map_of_resolveInstr right, eq_map_of_resolveInstr left, Instruction.effect_map]

/-- Control comes to the same positions with the same depths. -/
theorem comes (comes : c.Comes pool p operand scope) : d.Comes pool p operand scope := by
  induction comes with
  | first => exact .first
  | handler resolved mem =>
    obtain ⟨hs, left, right⟩ := h.handlers
    obtain rfl := Except.ok.inj (left.symm.trans resolved)
    exact .handler right mem
  | next _ here way effect ih =>
    obtain ⟨id', i', there, same, ways⟩ := h.exists_at? here
    exact .next ih there (ways _ _ way) ((same pool).trans effect)

lemma localCount (params : Nat) (flags : MethodFlags) : d.localCount params flags = c.localCount params flags := by
  obtain ⟨is, left, right⟩ := h.instrs
  have named {c : Code} (listed : c.listing = .ok is) :
      (c.instrs.flatMap fun x => x.2.registers) = is.flatMap Instruction.registers := by
    rw [eq_of_listing listed, List.flatMap_map]
    simp only [Instruction.registers_map]
  rw [Code.localCount, Code.localCount, named left, named right]

end Mirrors

end Code

end Avm
