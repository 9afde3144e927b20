import Avm.Proofs.Ir.Writable
import Avm.Proofs.Run.Collapsing

/-!
# What the nodes of a graph may say

A vocabulary tells which nodes a graph may have and which operands the ends of its blocks may have.  Edits that move
things about, drop nodes, or put a value in place of a node that stands for it keep to a vocabulary.  Those that add a
node or an end of a block keep to it if the vocabulary admits what they add.  So what the nodes of a graph name can be
followed through any number of edits, without looking at what the edits are for.

The main statements say for each edit that it retains `Func.Speaks`.
-/

namespace Avm

/-- Instructions with the opcode set registers. -/
def Opcode.isSetter : Opcode → Bool
  | .hasNext2 | .kill | .incLocal | .decLocal | .incLocalI | .decLocalI | .setLocal | .setLocal0 | .setLocal1
  | .setLocal2 | .setLocal3 => true
  | _ => false

namespace Instruction

variable {α : Type} {i : Instruction α}

/-- The registers that the instruction sets. -/
def sets (i : Instruction α) : List Register :=
  match i.opcode, i.operands with
  | .hasNext2, .pair object index => [object, index]
  | .kill, .index r | .incLocal, .index r | .decLocal, .index r | .incLocalI, .index r | .decLocalI, .index r => [r]
  | _, _ => i.localWrite?.toList

lemma sets_of_isSetter (none : i.opcode.isSetter = false) : i.sets = [] := by
  have write : i.localWrite? = Option.none := by
    rw [localWrite?]
    split
    iterate 5
      rename_i here
      rw [here] at none
      cases none
    rfl
  rw [sets]
  split
  iterate 6
    rename_i here _
    rw [here] at none
    cases none
  rw [write]
  rfl

lemma sets_setLocal (r : Register) : (.setLocal r : Instruction α).sets = [r] := by
  match r with
  | 0 | 1 | 2 | 3 | _ + 4 => rfl

end Instruction

namespace Ir

/-- The registers that a node names: those that it sets, and those that it reads. -/
def NodeKind.registers (k : NodeKind) : List Nat := k.written ++ k.operands.filterMap Value.register?

/-- The instruction of the node sets no registers but those that the node sets. -/
def NodeKind.SetsOwn (k : NodeKind) : Prop := ∀ i, k.instruction? = some i → ∀ r ∈ i.sets, r ∈ k.written

/-- What a graph may say. -/
structure Vocabulary where
  /-- The number of parameters. -/
  params : Nat
  /-- The number of registers. -/
  locals : Nat
  /-- Nodes with smaller numbers are there already. -/
  known : Nat
  /-- What nodes may do. -/
  kinds : ValueId → NodeKind → Prop
  /-- The operands that ends of blocks may have. -/
  ends : Value → Prop

namespace Vocabulary

variable {V : Vocabulary} {k : NodeKind} {v : ValueId} {r : Nat}

/-- A new node may do this. -/
def Admits (V : Vocabulary) (k : NodeKind) : Prop := ∀ v, V.known ≤ v → V.kinds v k

/-- The value may stand in place of the node: it is no register, or the node has it among its operands. -/
def Replaces (V : Vocabulary) (v : ValueId) (x : Value) : Prop :=
  x.register? = none ∨ ∃ k, V.kinds v k ∧ x ∈ k.operands

/-- Phis may lose inputs and get more for the blocks that they have inputs for, and nodes may be replaced. -/
structure Stable (V : Vocabulary) : Prop where
  inputs : ∀ v is js, V.kinds v (.phi is) → (∀ j ∈ js, ∃ i ∈ is, i.value = j.value ∧ i.source = j.source) →
    V.kinds v (.phi js)
  nodes : ∀ u x, V.Replaces u x → ∀ v k, V.kinds v k → V.kinds v (k.mapOperands (Value.replaceNode u x))
  ends : ∀ u x, V.Replaces u x → ∀ y, V.ends y → V.ends (Value.replaceNode u x y)

lemma Stable.reconcile (stable : V.Stable) {is : List PhiInput} {source : BlockId} {es : List EdgeKind}
    (old : V.kinds v (.phi is)) : V.kinds v (.phi (Func.reconcile source es is)) :=
  stable.inputs v is _ old fun _ mem => Func.exists_of_mem_reconcile mem

/-- It does not matter which block an input of a phi is for. -/
def Loose (V : Vocabulary) : Prop :=
  ∀ v is js, V.kinds v (.phi is) → (∀ j ∈ js, ∃ i ∈ is, i.value = j.value) → V.kinds v (.phi js)

/-- Whatever names only these registers, with instructions that set only registers that their nodes set. -/
def among (Q : Nat → Prop) (params locals : Nat) : Vocabulary where
  params := params
  locals := locals
  known := 0
  kinds _ k := k.SetsOwn ∧ ∀ r ∈ k.registers, Q r
  ends x := ∀ r, x.register? = some r → Q r

/-- Whatever names only registers that there are. -/
abbrev below (params n : Nat) : Vocabulary := .among (· < n) params n

/-- Whatever there is. -/
def any (params locals : Nat) : Vocabulary := ⟨params, locals, 0, fun _ _ => True, fun _ => True⟩

/-- The same with more registers. -/
def widen (V : Vocabulary) (n : Nat) : Vocabulary := { V with locals := V.locals + n }

end Vocabulary

namespace NodeKind

variable {k : NodeKind} {r : Nat}

lemma mem_registers : r ∈ k.registers ↔ r ∈ k.written ∨ ∃ x ∈ k.operands, x.register? = some r := by
  rw [registers, List.mem_append, List.mem_filterMap]

lemma setsOwn_mapOperands {g : Value → Value} : (k.mapOperands g).SetsOwn ↔ k.SetsOwn := by
  rw [SetsOwn, SetsOwn, instruction?_mapOperands, written_mapOperands]

lemma setsOwn_of_isSetter (none : ∀ i, k.instruction? = some i → i.opcode.isSetter = false) : k.SetsOwn := by
  intro i here r mem
  rw [Instruction.sets_of_isSetter (none i here)] at mem
  cases mem

lemma setsOwn_phi {is : List PhiInput} : (phi is).SetsOwn := by rintro i ⟨⟩

lemma setsOwn_copy {x : Value} : (copy x).SetsOwn := by rintro i ⟨⟩

lemma setsOwn_caught : caught.SetsOwn := by rintro i ⟨⟩

lemma setsOwn_store {x : Value} : (store r x).SetsOwn := by
  rintro i ⟨⟩ r' mem
  rwa [Instruction.sets_setLocal] at mem

lemma setsOwn_hasNext2 {object index : Nat} : (hasNext2 object index).SetsOwn := by
  rintro i ⟨⟩ r mem
  exact mem

lemma setsOwn_unary {op : UnaryOp} {x : Value} : (unary op x).SetsOwn :=
  setsOwn_of_isSetter (by rintro i ⟨⟩; cases op <;> rfl)

lemma setsOwn_type {op : TypeOp} {name : Nat} {x : Value} : (type op name x).SetsOwn :=
  setsOwn_of_isSetter (by rintro i ⟨⟩; cases op <;> rfl)

lemma setsOwn_binary {op : BinaryOp} {x y : Value} : (binary op x y).SetsOwn :=
  setsOwn_of_isSetter (by rintro i ⟨⟩; cases op <;> rfl)

lemma setsOwn_scope {op : ScopeOp} {x : Option Value} : (scope op x).SetsOwn :=
  setsOwn_of_isSetter (by rintro i ⟨⟩; cases op <;> rfl)

end NodeKind

namespace Vocabulary

variable {Q : Nat → Prop} {params locals : Nat}

lemma stable_any : (any params locals).Stable :=
  ⟨fun _ _ _ _ _ => trivial, fun _ _ _ _ _ _ => trivial, fun _ _ _ _ _ => trivial⟩

lemma loose_any : (any params locals).Loose := fun _ _ _ _ _ => trivial

lemma kinds_phi {v : ValueId} {is : List PhiInput} :
    (among Q params locals).kinds v (.phi is) ↔ ∀ i ∈ is, (among Q params locals).ends i.value := by
  constructor
  · exact fun old i mem r found => old.2 r (NodeKind.mem_registers.2 (.inr ⟨i.value, List.mem_map_of_mem mem, found⟩))
  · intro read
    refine ⟨NodeKind.setsOwn_phi, fun r mem => ?_⟩
    rcases NodeKind.mem_registers.1 mem with none | ⟨x, listed, found⟩
    · cases none
    · obtain ⟨i, there, rfl⟩ := List.mem_map.1 listed
      exact read i there r found

lemma ends_of_mem_operands {v : ValueId} {k : NodeKind} {x : Value} (old : (among Q params locals).kinds v k)
    (mem : x ∈ k.operands) : (among Q params locals).ends x :=
  fun r found => old.2 r (NodeKind.mem_registers.2 (.inr ⟨x, mem, found⟩))

lemma kinds_mapOperands {v : ValueId} {k : NodeKind} {g : Value → Value} (old : (among Q params locals).kinds v k)
    (keeps : ∀ x ∈ k.operands, (among Q params locals).ends x → (among Q params locals).ends (g x)) :
    (among Q params locals).kinds v (k.mapOperands g) := by
  refine ⟨NodeKind.setsOwn_mapOperands.2 old.1, fun r mem => ?_⟩
  rcases NodeKind.mem_registers.1 mem with set | ⟨y, listed, found⟩
  · rw [NodeKind.written_mapOperands] at set
    exact old.2 r (NodeKind.mem_registers.2 (.inl set))
  · rw [NodeKind.operands_mapOperands] at listed
    obtain ⟨x, there, rfl⟩ := List.mem_map.1 listed
    exact keeps x there (ends_of_mem_operands old there) r found

lemma admits_store {r : Nat} {x : Value} (sets : Q r) (reads : (among Q params locals).ends x) :
    (among Q params locals).Admits (.store r x) := by
  refine fun w _ => ⟨NodeKind.setsOwn_store, fun r' mem => ?_⟩
  rcases NodeKind.mem_registers.1 mem with set | ⟨y, listed, found⟩
  · rwa [List.mem_singleton.1 set]
  · rw [List.mem_singleton.1 listed] at found
    exact reads r' found

lemma admits_copy {x : Value} (reads : (among Q params locals).ends x) : (among Q params locals).Admits (.copy x) := by
  refine fun w _ => ⟨NodeKind.setsOwn_copy, fun r mem => ?_⟩
  rcases NodeKind.mem_registers.1 mem with none | ⟨y, listed, found⟩
  · cases none
  · rw [List.mem_singleton.1 listed] at found
    exact reads r found

lemma admits_pop : (among Q params locals).Admits (.scope .pop none) :=
  fun _ _ => ⟨NodeKind.setsOwn_scope, List.forall_mem_nil _⟩

lemma loose_among : (among Q params locals).Loose := by
  intro v is js old from_
  refine kinds_phi.2 fun j mem => ?_
  obtain ⟨i, there, same⟩ := from_ j mem
  rw [← same]
  exact kinds_phi.1 old i there

lemma stable_among : (among Q params locals).Stable := by
  -- A register that a value names that stands for a node is named by the node.
  have stands (u : ValueId) (x : Value) (replaces : (among Q params locals).Replaces u x) (y : Value)
      (old : (among Q params locals).ends y) : (among Q params locals).ends (Value.replaceNode u x y) := by
    intro r found
    rw [Value.replaceNode] at found
    split at found
    · rcases replaces with none | ⟨k, speaks, mem⟩
      · rw [none] at found
        cases found
      · exact ends_of_mem_operands speaks mem r found
    · exact old r found
  refine ⟨fun v is js old from_ => loose_among v is js old fun j mem => ?_,
    fun u x replaces v k old => kinds_mapOperands old fun y _ => stands u x replaces y, stands⟩
  obtain ⟨i, there, same, -⟩ := from_ j mem
  exact ⟨i, there, same⟩

end Vocabulary

namespace Func

variable {V : Vocabulary} {f f' : Func} {b : BlockId} {v : ValueId} {x : Value} {k : NodeKind} {t : Terminator}
  {hs : List Nat}

/-- The graph keeps to a vocabulary. -/
structure Speaks (V : Vocabulary) (f : Func) : Prop where
  params : f.params = V.params
  locals : f.locals = V.locals
  known : V.known ≤ f.nodes.size
  kinds : ∀ v k, f.kind? v = some k → V.kinds v k
  ends : ∀ b, ∀ x ∈ (f.terminator b).operands, V.ends x

/-- The graph names a register: some node does, or some end of a block reads it. -/
def Names (f : Func) (r : Nat) : Prop :=
  (∃ v k, f.kind? v = some k ∧ r ∈ k.registers) ∨ ∃ b, ∃ x ∈ (f.terminator b).operands, x.register? = some r

lemma speaks_among {Q : Nat → Prop} (own : ∀ v k, f.kind? v = some k → k.SetsOwn) (all : ∀ r, f.Names r → Q r) :
    f.Speaks (.among Q f.params f.locals) where
  params := rfl
  locals := rfl
  known := Nat.zero_le _
  kinds v k here := ⟨own v k here, fun r mem => all r (.inl ⟨v, k, here, mem⟩)⟩
  ends b x mem r found := all r (.inr ⟨b, x, mem, found⟩)

/-- The graph names only registers that it has, and has registers for the receiver and the parameters. -/
structure Confined (f : Func) : Prop where
  speaks : f.Speaks (.below f.params f.locals)
  arguments : f.params < f.locals

lemma Confined.of_speaks {params n : Nat} (speaks : f.Speaks (.below params n)) (arguments : params < n) :
    f.Confined := by
  have same : f.params = params ∧ f.locals = n := ⟨speaks.params, speaks.locals⟩
  rw [← same.1, ← same.2] at speaks
  exact ⟨speaks, by rwa [same.1, same.2]⟩

lemma speaks_any (f : Func) : f.Speaks (.any f.params f.locals) :=
  ⟨rfl, rfl, Nat.zero_le _, fun _ _ _ => trivial, fun _ _ _ => trivial⟩

namespace Speaks

lemma names {Q : Nat → Prop} {params locals r : Nat} (h : f.Speaks (.among Q params locals)) (named : f.Names r) :
    Q r := by
  rcases named with ⟨v, k, here, mem⟩ | ⟨b, x, mem, found⟩
  · exact (h.kinds v k here).2 r mem
  · exact h.ends b x mem r found

section Changing

lemma of_nodes (h : f.Speaks V) (params : f'.params = f.params) (locals : f'.locals = f.locals)
    (known : f.nodes.size ≤ f'.nodes.size) (kinds : ∀ v k, f'.kind? v = some k → V.kinds v k)
    (ends : ∀ b, f'.terminator b = f.terminator b) : f'.Speaks V where
  params := params.trans h.params
  locals := locals.trans h.locals
  known := h.known.trans known
  kinds := kinds
  ends b x mem := h.ends b x (by rwa [ends] at mem)

lemma foldl {α : Type} {step : Func → α → Func} (h : f.Speaks V) (each : ∀ f a, f.Speaks V → (step f a).Speaks V)
    (l : List α) :
    (l.foldl step f).Speaks V :=
  List.foldlRecOn l step h fun f speaks a _ => each f a speaks

lemma modifyBlock {g : Block → Block} (h : f.Speaks V) (keeps : ∀ x, (∀ y ∈ x.terminator.operands, V.ends y) →
    ∀ y ∈ (g x).terminator.operands, V.ends y) : (f.modifyBlock b g).Speaks V := by
  refine ⟨h.params, h.locals, h.known, h.kinds, fun t y mem => ?_⟩
  have old := h.ends t
  rw [terminator, block?_modifyBlock] at mem
  split at mem
  · cases here : f.block? t with
    | none =>
      rw [here] at mem
      cases mem
    | some x =>
      rw [here] at mem
      rw [terminator, here] at old
      exact keeps x old y mem
  · exact old y mem

lemma relist {g : Block → Block} (h : f.Speaks V) (same : ∀ x, (g x).terminator = x.terminator) :
    (f.modifyBlock b g).Speaks V :=
  h.modifyBlock fun x old => by rwa [same]

lemma modifyNode {g : Node → Node} (h : f.Speaks V) (keeps : ∀ n, f.node? v = some n → V.kinds v (g n).kind) :
    (f.modifyNode v g).Speaks V := by
  refine h.of_nodes rfl rfl size_nodes_modifyNode.ge (fun w k here => ?_) fun _ => rfl
  rw [kind?, node?_modifyNode] at here
  split at here
  · rename_i same
    rw [← same] at here ⊢
    obtain ⟨_, changed, rfl⟩ := Option.map_eq_some_iff.1 here
    obtain ⟨n, found, rfl⟩ := Option.map_eq_some_iff.1 changed
    exact keeps n found
  · exact h.kinds w k here

lemma modifyKind {g : NodeKind → NodeKind} (h : f.Speaks V) (keeps : ∀ k, f.kind? v = some k → V.kinds v (g k)) :
    (f.modifyKind v g).Speaks V := by
  refine h.modifyNode fun n found => keeps n.kind ?_
  rw [kind?, found]
  rfl

lemma modifyInputs {g : List PhiInput → List PhiInput} (h : f.Speaks V)
    (keeps : ∀ is, f.kind? v = some (.phi is) → V.kinds v (.phi (g is))) : (f.modifyInputs v g).Speaks V := by
  refine h.modifyKind fun k here => ?_
  have old := h.kinds v k here
  cases k with
  | phi is => exact keeps is here
  | _ => exact old

lemma modifyPhis {vs : List ValueId} {g : List PhiInput → List PhiInput} (h : f.Speaks V)
    (keeps : ∀ v is, V.kinds v (.phi is) → V.kinds v (.phi (g is))) : (f.modifyPhis vs g).Speaks V :=
  h.foldl (fun _ v speaks => speaks.modifyInputs fun is here => keeps v is (speaks.kinds v _ here)) vs

lemma rewire (h : f.Speaks V) (stable : V.Stable) : (f.rewire b).Speaks V :=
  rewire_keeps (fun _ _ _ speaks => speaks.relist fun _ => rfl) (fun _ _ speaks => speaks.relist fun _ => rfl)
    (fun _ v _ speaks => speaks.modifyInputs fun _ here => stable.reconcile (speaks.kinds v _ here)) h

lemma reend (h : f.Speaks V) (stable : V.Stable) (new : ∀ x ∈ t.operands, V.ends x) : (f.reend b t hs).Speaks V :=
  (h.modifyBlock fun _ _ => new).rewire stable

lemma pushBlock (h : f.Speaks V) : (f.pushBlock {}).Speaks V :=
  h.of_nodes rfl rfl (Nat.le_refl _) h.kinds fun _ => terminator_pushBlock

lemma putNode {index : Nat} (h : f.Speaks V) (new : V.kinds f.nodes.size k) : (f.putNode b index k).Speaks V := by
  refine h.of_nodes rfl rfl (ages_putNode f b index k).nodes (fun w k' here => ?_) fun t => ?_
  · rw [kind?, node?_putNode] at here
    split at here
    · rename_i same
      rw [← Option.some.inj here, same]
      exact new
    · exact h.kinds w k' here
  · refine terminator_modifyBlock fun x => ?_
    split <;> rfl

lemma putPhis {inputs : List (List PhiInput)} (h : f.Speaks V) (new : ∀ is ∈ inputs, V.Admits (.phi is)) :
    (f.putPhis b inputs).Speaks V := by
  refine h.of_nodes rfl rfl ?_ (fun w k here => ?_) fun _ => terminator_modifyBlock fun _ => rfl
  · rw [Func.putPhis, nodes_modifyBlock, ← Array.length_toList, ← Array.length_toList, Array.toList_appendList,
      List.length_append]
    exact Nat.le_add_right _ _
  · obtain old | ⟨above, is, mem, rfl⟩ := kind?_putPhis here
    · exact h.kinds w k old
    · exact new is mem w (h.known.trans above)

lemma dropNode (h : f.Speaks V) : (f.dropNode v).Speaks V := by
  have counts : (f.dropNode v).params = f.params ∧ (f.dropNode v).locals = f.locals := by
    rw [Func.dropNode]
    split
    · exact ⟨rfl, rfl⟩
    · exact ⟨rfl, rfl⟩
  refine h.of_nodes counts.1 counts.2 (ages_dropNode f v).nodes (fun w k here => ?_) fun t => ?_
  · rw [kind?, node?_dropNode] at here
    split at here
    · cases here
    · exact h.kinds w k here
  · rw [terminator, map_dropNode fun _ _ _ => rfl]
    rfl

lemma replaceUses (h : f.Speaks V) (stable : V.Stable) (replaces : V.Replaces v x) : (f.replaceUses v x).Speaks V := by
  refine ⟨h.params, h.locals, h.known.trans (ages_replaceUses f v x).nodes, fun w k here => ?_, fun t y mem => ?_⟩
  · rw [kind?_replaceUses] at here
    obtain ⟨k, found, rfl⟩ := Option.map_eq_some_iff.1 here
    exact stable.nodes v x replaces w k (h.kinds w k found)
  · rw [terminator_replaceUses, Terminator.operands_mapOperands] at mem
    obtain ⟨z, there, rfl⟩ := List.mem_map.1 mem
    exact stable.ends v x replaces z (h.ends t z there)

lemma without (h : f.Speaks V) (stable : V.Stable) {y : Block} : (f.without b y).Speaks V := by
  have cleared : (f.clearBlock b).Speaks V := by
    refine ⟨h.params, h.locals, h.known, h.kinds, fun t x mem => h.ends t x ?_⟩
    rw [terminator, block?_clearBlock] at mem
    split at mem
    · cases mem
    · exact mem
  have unlinked : ((f.clearBlock b).unlink b y.succs).Speaks V := by
    rw [unlink]
    refine cleared.foldl (fun g e speaks => ?_) _
    refine modifyPhis ?_ fun v is old => stable.reconcile old
    exact speaks.relist fun _ => rfl
  have forgotten : (((f.clearBlock b).unlink b y.succs).forget b y.preds).Speaks V := by
    rw [forget]
    refine unlinked.foldl (fun g e speaks => ?_) _
    exact speaks.relist fun _ => rfl
  refine forgotten.of_nodes rfl rfl (ages_eraseNodes _ _).nodes (fun v k here => ?_) fun _ => rfl
  rw [kind?, Func.without, node?_eraseNodes] at here
  split at here
  · cases here
  · exact forgotten.kinds v k here

lemma reserve (h : f.Speaks V) (n : Nat) : Speaks (V.widen n) { f with locals := f.locals + n } where
  params := h.params
  locals := congrArg (· + n) h.locals
  known := h.known
  kinds := h.kinds
  ends := h.ends

end Changing

section Cleaning

lemma removeTrivialPhis (h : f.Speaks V) (stable : V.Stable) : f.removeTrivialPhis.1.Speaks V := by
  refine removeTrivialPhis_keeps (fun g p x speaks trivial => (speaks.replaceUses stable ?_).dropNode) h
  obtain ⟨is, inputs, i, mem, rfl⟩ := mem_merged.1 (mem_merged_of_trivialValue? trivial).1
  obtain ⟨k, here, phi⟩ := Option.bind_eq_some_iff.1 inputs
  cases k with
  | phi js =>
    cases phi
    exact .inr ⟨_, speaks.kinds p _ here, List.mem_map_of_mem mem⟩
  | _ => cases phi

lemma removeRedundantCopies (h : f.Speaks V) (stable : V.Stable) : f.removeRedundantCopies.1.Speaks V := by
  refine List.foldlRecOn (motive := fun acc : Func × Nat => acc.1.Speaks V) _ _ h fun acc speaks v _ => ?_
  rw [removeCopy]
  split
  · rename_i x copied
    refine (speaks.replaceUses stable ?_).dropNode
    rw [copiedValue?] at copied
    split at copied
    · cases copied
      exact .inl rfl
    · split at copied
      · cases copied
      · cases copied
        exact .inl rfl
    · cases copied
  · exact speaks

lemma removeDeadNodes (h : f.Speaks V) : f.removeDeadNodes.1.Speaks V := by
  have loop (fuel : Nat) (acc : Func × Nat) (speaks : acc.1.Speaks V) : (removeDeadLoop fuel acc).1.Speaks V := by
    induction fuel generalizing acc with
    | zero => exact speaks
    | succ fuel ih =>
      rw [removeDeadLoop]
      split
      · exact speaks
      · exact ih _ (speaks.foldl (fun _ _ speaks => speaks.dropNode) _)
  exact loop _ _ h

end Cleaning

end Speaks

end Func

namespace Edit

open Func

variable {V : Vocabulary} {f : Func} {b : BlockId} {v : ValueId} {k : NodeKind} {t : Terminator} {index : Nat}

section Saying

lemma speaks_modifyBlock {g : Block → Block} (same : ∀ x, (g x).terminator = x.terminator) :
    (modifyBlock b g).Retains (Speaks V) := by
  refine retains_of_run fun f a f' speaks run => ?_
  obtain ⟨-, rfl⟩ := modifyBlock_eq_ok.1 run
  exact speaks.relist same

lemma speaks_addBlock : addBlock.Retains (Speaks V) := by
  refine retains_of_run fun f a f' speaks run => ?_
  obtain ⟨-, rfl⟩ := addBlock_eq_ok.1 run
  exact speaks.pushBlock

lemma speaks_addHandler {c : Catch} : (addHandler c).Retains (Speaks V) := by
  refine retains_of_run fun f a f' speaks run => ?_
  obtain ⟨-, rfl⟩ := addHandler_eq_ok.1 run
  exact speaks.of_nodes rfl rfl (Nat.le_refl _) speaks.kinds fun _ => rfl

lemma speaks_freshVersion : freshVersion.Retains (Speaks V) := by
  refine retains_of_run fun f a f' speaks run => ?_
  obtain ⟨-, rfl⟩ := freshVersion_eq_ok.1 run
  exact speaks.of_nodes rfl rfl (Nat.le_refl _) speaks.kinds fun _ => rfl

lemma speaks_insertNode (new : V.Admits k) : (insertNode b index k).Retains (Speaks V) := by
  refine retains_of_run fun f a f' speaks run => ?_
  obtain ⟨-, -, -, rfl⟩ := insertNode_eq_ok.1 run
  exact speaks.putNode (new _ speaks.known)

lemma speaks_appendNode (new : V.Admits k) : (appendNode b k).Retains (Speaks V) := by
  refine retains_of_run fun f a f' speaks run => ?_
  obtain ⟨-, -, rfl⟩ := appendNode_eq_ok.1 run
  exact speaks.putNode (new _ speaks.known)

lemma speaks_removeNode : (removeNode v).Retains (Speaks V) := by
  refine retains_of_run fun f a f' speaks run => ?_
  obtain ⟨-, rfl⟩ := removeNode_eq_ok.1 run
  exact speaks.dropNode

lemma speaks_moveNode : (moveNode v b index).Retains (Speaks V) := by
  refine retains_of_run fun f a f' speaks run => ?_
  obtain ⟨n, here, -, -, -, rfl⟩ := moveNode_eq_ok.1 run
  rw [moveTo]
  refine Speaks.modifyNode ?_ fun n found => speaks.kinds v _ ?_
  · refine Speaks.relist ?_ fun _ => rfl
    exact speaks.relist fun _ => rfl
  · rw [node?_modifyBlock, node?_modifyBlock] at found
    rw [kind?, found]
    rfl

lemma speaks_setTerminator (stable : V.Stable) (new : ∀ x ∈ t.operands, V.ends x) :
    (setTerminator b t).Retains (Speaks V) := by
  refine retains_of_run fun f a f' speaks run => ?_
  obtain ⟨-, -, rfl⟩ := setTerminator_eq_ok.1 run
  exact speaks.reend stable new

lemma speaks_setHandlers (stable : V.Stable) {hs : List Nat} : (setHandlers b hs).Retains (Speaks V) := by
  refine retains_of_run fun f a f' speaks run => ?_
  obtain ⟨-, -, rfl⟩ := setHandlers_eq_ok.1 run
  exact speaks.reend stable (speaks.ends b)

lemma speaks_modifyPhis {vs : Func → List ValueId} {g : List PhiInput → List PhiInput}
    (keeps : ∀ v is, V.kinds v (.phi is) → V.kinds v (.phi (g is))) :
    (modify fun f => f.modifyPhis (vs f) g : Edit PUnit).Retains (Speaks V) :=
  retains_modify fun _ speaks => speaks.modifyPhis keeps

lemma speaks_removeBlock (stable : V.Stable) : (removeBlock b).Retains (Speaks V) := by
  refine retains_of_run fun f a f' speaks run => ?_
  obtain ⟨-, x, -, rfl⟩ := removeBlock_eq_ok.1 run
  exact speaks.without stable

lemma operands_retarget (t : Terminator) (kind : EdgeKind) (target : BlockId) :
    ((t.retarget? kind target).getD t).operands = t.operands := by
  cases t with
  | switch index default cases =>
    cases kind with
    | switchCase i =>
      rw [Terminator.retarget?]
      split <;> rfl
    | _ => rfl
  | _ => cases kind <;> rfl

lemma speaks_splitEdge (stable : V.Stable) (loose : V.Loose) {source target : BlockId} {kind : EdgeKind} :
    (splitEdge source target kind).Retains (Speaks V) := by
  rw [splitEdge]
  refine retains_get fun f speaks => ?_
  split
  · exact meets_throw_bind trivial
  · refine meets_of_retains (speaks_addBlock.bind fun middle => retains_block.bind fun x => ?_) speaks
    refine Retains.bind (speaks_modifyBlock fun _ => rfl) fun _ => (speaks_setHandlers stable).bind fun _ => ?_
    refine Retains.bind (speaks_modifyPhis fun v is old => loose v is _ old fun j mem => ?_) fun _ => ?_
    · obtain ⟨i, there, rfl⟩ := List.mem_map.1 mem
      exact ⟨i, there, by split <;> rfl⟩
    refine (speaks_setTerminator stable (List.forall_mem_nil _)).bind fun _ => ?_
    refine retains_ofBlock fun f₁ y speaks₁ here => ?_
    refine meets_of_retains (Retains.bind (speaks_setTerminator stable ?_) fun _ => retains_pure) speaks₁
    rw [operands_retarget, ← terminator_of_block? here]
    exact speaks₁.ends source

lemma speaks_splitBlock (stable : V.Stable) (loose : V.Loose) : (splitBlock b index).Retains (Speaks V) := by
  have hands (f : Func) (vs : List ValueId) (tail : BlockId) (speaks : f.Speaks V) :
      (vs.foldl (fun f v => f.modifyNode v fun n => { n with block := tail }) f).Speaks V := by
    refine speaks.foldl (fun f v speaks => speaks.modifyNode fun n found => speaks.kinds v _ ?_) vs
    rw [kind?, found]
    rfl
  have inputs (tail : BlockId) (kind : EdgeKind) (is : List PhiInput) :
      ∀ j ∈ splitInputs b tail kind is, ∃ i ∈ is, i.value = j.value := by
    intro j mem
    rw [splitInputs] at mem
    split at mem
    · rcases List.mem_append.1 mem with old | new
      · exact ⟨j, old, rfl⟩
      · obtain ⟨i, there, rfl⟩ := List.mem_map.1 new
        exact ⟨i, (List.mem_filter.1 there).1, rfl⟩
    · obtain ⟨i, there, rfl⟩ := List.mem_map.1 mem
      exact ⟨i, there, by split <;> rfl⟩
  rw [splitBlock]
  refine retains_block.bind fun x => ?_
  split
  · exact fun f _ => meets_throw_bind trivial
  · refine speaks_addBlock.bind fun tail => Retains.bind (speaks_modifyBlock fun _ => rfl) fun _ => ?_
    refine (speaks_setHandlers stable).bind fun _ => retains_get fun f speaks => ?_
    dsimp only
    refine meets_of_retains (Retains.bind (speaks_modifyBlock fun _ => rfl) fun _ => ?_) speaks
    refine Retains.bind (retains_modify fun f speaks => hands f _ tail speaks) fun _ => ?_
    refine Retains.bind (speaks_modifyBlock fun _ => rfl) fun _ =>
      Retains.bind (speaks_modifyBlock fun _ => rfl) fun _ => ?_
    refine Retains.bind (retains_modify fun f speaks => ?_) fun _ => ?_
    · refine speaks.foldl (fun f e speaks => speaks.modifyPhis fun v is old => ?_) _
      exact loose v is _ old (inputs tail e.2 is)
    refine retains_ofBlock fun f₁ y speaks₁ here => ?_
    refine meets_of_retains (Retains.bind ?_ fun _ => ?_) speaks₁
    · refine retains_of_run fun f a f' speaks run => ?_
      obtain ⟨-, rfl⟩ := modifyBlock_eq_ok.1 run
      exact speaks.modifyBlock fun _ _ => List.forall_mem_nil _
    refine (speaks_setTerminator stable ?_).bind fun _ => ?_
    · rw [← terminator_of_block? here]
      exact speaks₁.ends b
    · exact (speaks_setTerminator stable (List.forall_mem_nil _)).bind fun _ => retains_pure

end Saying

end Edit

end Ir

end Avm
