import Avm.Flow.Graph
import Avm.Proofs.Sequence

/-!
# The ways that code prescribes

What control may do at a position, said on the instructions themselves: `Code.Way` are the ways
inside the method without an exception, `Code.Prescribes` adds the ways out and those to handlers, and
`Code.Reachable` holds of the positions that control can come to.  A control flow graph is measured
against these.
-/

namespace Avm

/-- The position lies in the protected range. -/
def Handler.Covers (h : Handler Nat) (position : Nat) : Prop :=
  h.start ≤ position ∧ position < h.stop

namespace Code

variable {code : Code} {p q : Nat} {id : InstrId} {i j : Instruction Marker}

/-- The marker stands for the instruction at a position. -/
def BranchesTo (code : Code) (m : Marker) (position : Nat) : Prop :=
  code.resolve? m = some position ∧ position < code.size

/-- The ways inside the method of an instruction at a position that raises no exception. -/
inductive Way (code : Code) (p : Nat) (i : Instruction Marker) : EdgeKind → Nat → Prop
  | next : i.opcode.flow = .next → Way code p i .fallthrough (p + 1)
  | jump {m q} : i.opcode.flow = .jump → i.operands = .branch m → code.BranchesTo m q →
      Way code p i .jump q
  | whenTrue {m q} : i.opcode.flow = .conditional → i.operands = .branch m →
      code.BranchesTo m q → Way code p i .whenTrue q
  | whenFalse {m} : i.opcode.flow = .conditional → i.operands = .branch m →
      Way code p i .whenFalse (p + 1)
  | switchDefault {m ms q} : i.opcode.flow = .switch → i.operands = .switch m ms →
      code.BranchesTo m q → Way code p i .switchDefault q
  | switchCase {m ms k c q} : i.opcode.flow = .switch → i.operands = .switch m ms →
      ms[k]? = some c → code.BranchesTo c q → Way code p i (.switchCase k) q

/-- The operands suit the flow of the instruction, and wherever control may go inside the method there
is an instruction. -/
def Defined (code : Code) (p : Nat) (i : Instruction Marker) : Prop :=
  match i.opcode.flow, i.operands with
  | .next, _ => p + 1 < code.size
  | .jump, .branch m => ∃ q, code.BranchesTo m q
  | .conditional, .branch m => (∃ q, code.BranchesTo m q) ∧ p + 1 < code.size
  | .switch, .switch m ms => ∀ c ∈ m :: ms, ∃ q, code.BranchesTo c q
  | .leave, _ => True
  | .raise, _ => True
  | _, _ => False

/-- The positions that control can come to. -/
inductive Reachable (code : Code) : Nat → Prop
  | first : Reachable code 0
  | handler {handlers h} : code.resolvedHandlers = .ok handlers → h ∈ handlers →
      Reachable code h.target
  | next {p q id i kind} : Reachable code p → code.at? p = some (id, i) → Way code p i kind q →
      Reachable code q

/-- All ways of an instruction at a position; those without a destination leave the method. -/
inductive Prescribes (code : Code) (handlers : List (Handler Nat)) (p : Nat)
    (i : Instruction Marker) : EdgeKind → Option Nat → Prop
  | way {kind q} : Way code p i kind q → Prescribes code handlers p i kind (some q)
  | leave : i.opcode.flow = .leave → Prescribes code handlers p i .leave none
  | escape : i.opcode.flow = .raise → (∀ h ∈ handlers, ¬h.Covers p) →
      Prescribes code handlers p i .raise none
  | caught {h} : i.opcode.canThrow = true → h ∈ handlers → h.Covers p →
      Prescribes code handlers p i .raise (some h.target)

lemma BranchesTo.iff_eq {m : Marker} (h : code.BranchesTo m p) : code.BranchesTo m q ↔ q = p := by
  constructor
  · intro other
    exact Option.some.inj (other.1.symm.trans h.1)
  · rintro rfl
    exact h

section Flows

variable {handlers : List (Handler Nat)} {kind : EdgeKind} {m : Marker} {ms : List Marker}

lemma way_next (flow : i.opcode.flow = .next) :
    Way code p i kind q ↔ kind = .fallthrough ∧ q = p + 1 := by
  constructor
  · intro way
    cases way <;> simp_all
  · rintro ⟨rfl, rfl⟩
    exact .next flow

lemma way_jump (flow : i.opcode.flow = .jump) (operands : i.operands = .branch m) :
    Way code p i kind q ↔ kind = .jump ∧ code.BranchesTo m q := by
  constructor
  · intro way
    cases way <;> simp_all
  · rintro ⟨rfl, branches⟩
    exact .jump flow operands branches

lemma way_conditional (flow : i.opcode.flow = .conditional) (operands : i.operands = .branch m) :
    Way code p i kind q ↔
      (kind = .whenTrue ∧ code.BranchesTo m q) ∨ (kind = .whenFalse ∧ q = p + 1) := by
  constructor
  · intro way
    cases way <;> simp_all
  · rintro (⟨rfl, branches⟩ | ⟨rfl, rfl⟩)
    · exact .whenTrue flow operands branches
    · exact .whenFalse flow operands

lemma way_switch (flow : i.opcode.flow = .switch) (operands : i.operands = .switch m ms) :
    Way code p i kind q ↔ (kind = .switchDefault ∧ code.BranchesTo m q) ∨
      ∃ k c, kind = .switchCase k ∧ ms[k]? = some c ∧ code.BranchesTo c q := by
  constructor
  · intro way
    cases way <;> simp_all
  · rintro (⟨rfl, branches⟩ | ⟨k, c, rfl, case, branches⟩)
    · exact .switchDefault flow operands branches
    · exact .switchCase flow operands case branches

lemma not_way_of_leave (flow : i.opcode.flow = .leave) : ¬Way code p i kind q := by
  intro way
  cases way <;> simp_all

lemma not_way_of_raise (flow : i.opcode.flow = .raise) : ¬Way code p i kind q := by
  intro way
  cases way <;> simp_all

lemma Defined.exists_way (h : Defined code p i) (leave : i.opcode.flow ≠ .leave)
    (raise : i.opcode.flow ≠ .raise) : ∃ kind q, Way code p i kind q := by
  rw [Defined] at h
  split at h
  case h_1 flow => exact ⟨_, _, .next flow⟩
  case h_2 m flow operands =>
    obtain ⟨q, branches⟩ := h
    exact ⟨_, q, .jump flow operands branches⟩
  case h_3 m flow operands => exact ⟨_, _, .whenFalse flow operands⟩
  case h_4 m ms flow operands =>
    obtain ⟨q, branches⟩ := h m List.mem_cons_self
    exact ⟨_, q, .switchDefault flow operands branches⟩
  case h_5 flow => exact absurd flow leave
  case h_6 flow => exact absurd flow raise
  case h_7 => exact h.elim

lemma prescribes_none : Prescribes code handlers p i kind none ↔
    (kind = .leave ∧ i.opcode.flow = .leave) ∨
    (kind = .raise ∧ i.opcode.flow = .raise ∧ ∀ h ∈ handlers, ¬h.Covers p) := by
  constructor
  · intro out
    cases out with
    | leave flow => exact .inl ⟨rfl, flow⟩
    | escape flow uncovered => exact .inr ⟨rfl, flow, uncovered⟩
  · rintro (⟨rfl, flow⟩ | ⟨rfl, flow, uncovered⟩)
    · exact .leave flow
    · exact .escape flow uncovered

lemma Prescribes.reachable (resolved : code.resolvedHandlers = .ok handlers)
    (reach : code.Reachable p) (here : code.at? p = some (id, i))
    (h : Prescribes code handlers p i kind (some q)) : code.Reachable q := by
  cases h with
  | way way => exact .next reach here way
  | caught _ mem _ => exact .handler resolved mem

end Flows

lemma lt_size_of_at? {e : InstrId × Instruction Marker} (h : code.at? p = some e) :
    p < code.size :=
  (List.getElem?_eq_some_iff.1 h).1

lemma at?_inj (hp : code.at? p = some (id, i)) (hq : code.at? q = some (id, j)) : p = q := by
  have number {r k} (h : code.at? r = some (id, k)) : (code.instrs.map (·.1))[r]? = some id := by
    rw [List.getElem?_map, show code.instrs[r]? = some (id, k) from h]
    rfl
  have lt : p < (code.instrs.map (·.1)).length := by
    rw [List.length_map]
    exact lt_size_of_at? hp
  exact (List.getElem?_inj lt code.nodup).1 ((number hp).trans (number hq).symm)

lemma at?_of_position? (h : code.position? id = some p) : ∃ i, code.at? p = some (id, i) := by
  obtain ⟨lt, here, -⟩ := List.findIdx?_eq_some_iff_getElem.1 h
  refine ⟨code.instrs[p].2, ?_⟩
  rw [at?, List.getElem?_eq_getElem lt, ← LawfulBEq.eq_of_beq here]

lemma position?_of_at? (h : code.at? p = some (id, i)) : code.position? id = some p := by
  cases found : code.position? id with
  | none =>
    have absent := List.findIdx?_eq_none_iff.1 found (id, i) (List.mem_of_getElem? h)
    exact absurd (beq_self_eq_true id) (by rw [absent]; exact Bool.false_ne_true)
  | some q =>
    obtain ⟨j, there⟩ := at?_of_position? found
    rw [at?_inj there h]

lemma get?_of_at? (h : code.at? p = some (id, i)) : code.get? id = some i := by
  have mem : (id, i) ∈ code.instrs := List.mem_of_getElem? h
  have nodup := code.nodup
  rw [get?]
  generalize code.instrs = instrs at mem nodup
  induction instrs with
  | nil => exact absurd mem List.not_mem_nil
  | cons e rest ih =>
    obtain ⟨absent, nodup⟩ := List.nodup_cons.1 nodup
    obtain rfl | mem := List.mem_cons.1 mem
    · rw [List.lookup_cons_self]
    · have other : id ≠ e.1 := by
        rintro rfl
        exact absent (List.mem_map.2 ⟨_, mem, rfl⟩)
      rw [List.lookup_cons, beq_false_of_ne other]
      exact ih mem nodup

end Code

lemma FlowGraph.Builder.targetPosition_eq_ok {code : Code} {m : Marker} {q : Nat} :
    targetPosition code m = .ok q ↔ code.BranchesTo m q := by
  simp only [targetPosition, Code.BranchesTo, Code.resolve?]
  cases code.markers.target? m with
  | none => simp
  | some anchor =>
    cases anchor with
    | codeEnd =>
      simp only [reduceCtorEq, Option.some.injEq, false_iff, not_and]
      rintro rfl
      exact Nat.lt_irrefl _
    | instr id =>
      cases found : code.position? id with
      | none => simp [found]
      | some position =>
        obtain ⟨_, here⟩ := Code.at?_of_position? found
        simp only [found, Except.ok.injEq, Option.some.injEq, iff_self_and]
        rintro rfl
        exact Code.lt_size_of_at? here

lemma FlowGraph.Builder.mem_handlersAt {handlers : List (Handler Nat)} {k p : Nat} :
    k ∈ handlersAt handlers p ↔ ∃ h, handlers[k]? = some h ∧ h.Covers p := by
  simp only [handlersAt, List.mem_filter, List.mem_range, Handler.Covers, Option.any_eq_true,
    Bool.and_eq_true, decide_eq_true_eq]
  constructor
  · rintro ⟨-, h, here, covers⟩
    exact ⟨h, here, covers⟩
  · rintro ⟨h, here, covers⟩
    exact ⟨(List.getElem?_eq_some_iff.1 here).1, h, here, covers⟩

lemma FlowGraph.Builder.mem_filterMap_handlersAt {handlers : List (Handler Nat)} {p : Nat}
    {h : Handler Nat} : h ∈ (handlersAt handlers p).filterMap (handlers[·]?) ↔
      h ∈ handlers ∧ h.Covers p := by
  rw [List.mem_filterMap]
  constructor
  · rintro ⟨k, mem, here⟩
    obtain ⟨h', here', covers⟩ := mem_handlersAt.1 mem
    obtain rfl := Option.some.inj (here.symm.trans here')
    exact ⟨List.mem_of_getElem? here, covers⟩
  · rintro ⟨mem, covers⟩
    obtain ⟨k, here⟩ := List.getElem?_of_mem mem
    exact ⟨k, mem_handlersAt.2 ⟨h, here, covers⟩, here⟩

lemma FlowGraph.Builder.handlersAt_isEmpty {handlers : List (Handler Nat)} {p : Nat} :
    (handlersAt handlers p).isEmpty = true ↔ ∀ h ∈ handlers, ¬h.Covers p := by
  rw [List.isEmpty_iff, List.eq_nil_iff_forall_not_mem]
  constructor
  · intro none h mem covers
    obtain ⟨k, here⟩ := List.getElem?_of_mem mem
    exact none k (mem_handlersAt.2 ⟨h, here, covers⟩)
  · intro none k mem
    obtain ⟨h, here, covers⟩ := mem_handlersAt.1 mem
    exact none h (List.mem_of_getElem? here) covers

end Avm
