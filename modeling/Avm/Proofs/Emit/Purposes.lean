import Avm.Proofs.Emit.Computing

/-!
# What instructions are there for

Each instruction that is written, other than those at the end of a block, is there for one purpose: it pushes a
constant or a register, saves the result of a node, does what a node does, drops what is on the operand stack, or stands
where control comes back to.  None of these hands control elsewhere unless a node does.

The main statement is `front_adds`, for what comes before the end of a block.
-/

namespace Avm.Ir.Func

variable {f g : Func}

/-- The instructions of nodes hand control to what comes next. -/
def Straight (f : Func) : Prop := ∀ v k i, f.kind? v = some k → k.instruction? = some i → i.opcode.flow = .next

lemma Straight.congr (straight : f.Straight) (same : ∀ v, g.shape? v = f.shape? v) : g.Straight := by
  intro v k i does here
  have own (k : NodeKind) : k.shape.instruction? = k.instruction? := by cases k <;> rfl
  obtain ⟨n, does', shapes⟩ := Option.map_eq_some_iff.1 ((same v).symm.trans (shape?_of_kind? does))
  exact straight v n.kind i (by rw [kind?, does']; rfl) (by rw [← own, shapes, own, here])

end Avm.Ir.Func

namespace Avm.Emit

open Avm.Ir

/-- What an instruction is there for, where nodes have registers as given. -/
inductive Purpose (p : Plan) (temps : List (ValueId × Nat)) : Instruction Marker → Prop
  /-- A constant is pushed. -/
  | pushes {c : Constant} {i : Instruction Marker} {d d' : Draft} : (Write.constant c).run d = .ok i d' →
    Purpose p temps i
  /-- A register is pushed. -/
  | fetches (r : Register) : Purpose p temps (.getLocal r)
  /-- The result of a node is saved in the register of the node. -/
  | saves {v : ValueId} {r : Register} : temps.lookup v = some r → Purpose p temps (.setLocal r)
  /-- A node is done. -/
  | does {v : ValueId} {k : NodeKind} {i : Instruction Marker} : p.func.kind? v = some k → k.instruction? = some i →
    Purpose p temps i
  /-- A node empties a register. -/
  | empties {v : ValueId} {r : Register} {x : Value} : p.func.kind? v = some (.store r x) →
    Purpose p temps (.withIndex .kill r)
  /-- What is on the operand stack is dropped. -/
  | drops : Purpose p temps ⟨.pop, .none⟩
  /-- Control comes back here. -/
  | marks : Purpose p temps ⟨.label, .none⟩

variable {α β : Type} {p : Plan} {temps temps' : List (ValueId × Nat)} {i : Instruction Marker} {d d' d'' : Draft}
  {c : Constant} {b : BlockId}

section Purpose

lemma Purpose.mono (h : Purpose p temps i) (more : ∀ v r, temps.lookup v = some r → temps'.lookup v = some r) :
    Purpose p temps' i := by
  cases h with
  | pushes made => exact .pushes made
  | fetches r => exact .fetches r
  | saves known => exact .saves (more _ _ known)
  | does does same => exact .does does same
  | empties does => exact .empties does
  | drops => exact .drops
  | marks => exact .marks

/-- The opcodes that push constants. -/
def constantOpcodes : List Opcode :=
  [.pushNull, .pushUndefined, .pushTrue, .pushFalse, .pushNaN, .pushByte, .pushShort, .pushInt, .pushUInt, .pushDouble,
    .pushString, .pushNamespace]

lemma constant_eq_ok (run : (Write.constant c).run d = .ok i d') : i.opcode ∈ constantOpcodes ∧ i.targets = [] := by
  have pooled {o : Opcode} {k : PoolKind} {v : k.Entry} (plain : o ∈ constantOpcodes)
      (run : (do return .withIndex o (← Write.intern k v) : Write (Instruction Marker)).run d = .ok i d') :
      i.opcode ∈ constantOpcodes ∧ i.targets = [] := by
    obtain ⟨n, d₁, -, rest⟩ := Write.bind_eq_ok.1 run
    obtain ⟨rfl, -⟩ := Write.pure_eq_ok.1 rest
    exact ⟨plain, rfl⟩
  cases c with
  | undefined | null | ns n =>
    obtain ⟨rfl, -⟩ := Write.pure_eq_ok.1 run
    exact ⟨by simp [constantOpcodes, Instruction.withIndex], rfl⟩
  | bool b => cases b <;> (obtain ⟨rfl, -⟩ := Write.pure_eq_ok.1 run; exact ⟨by simp [constantOpcodes], rfl⟩)
  | int n =>
    rw [Write.constant] at run
    split_ifs at run
    · obtain ⟨rfl, -⟩ := Write.pure_eq_ok.1 run
      exact ⟨by simp [constantOpcodes, Instruction.withByte], rfl⟩
    · obtain ⟨rfl, -⟩ := Write.pure_eq_ok.1 run
      exact ⟨by simp [constantOpcodes, Instruction.withIndex], rfl⟩
    · exact pooled (by simp [constantOpcodes]) run
  | double x =>
    rw [Write.constant] at run
    split_ifs at run
    · obtain ⟨rfl, -⟩ := Write.pure_eq_ok.1 run
      exact ⟨by simp [constantOpcodes], rfl⟩
    · exact pooled (by simp [constantOpcodes]) run
  | uint n | string s => exact pooled (by simp [constantOpcodes]) run

lemma flow_getLocal (r : Register) : (.getLocal r : Instruction Marker).opcode.flow = .next := by
  match r with
  | 0 | 1 | 2 | 3 | _ + 4 => rfl

lemma flow_setLocal (r : Register) : (.setLocal r : Instruction Marker).opcode.flow = .next := by
  match r with
  | 0 | 1 | 2 | 3 | _ + 4 => rfl

lemma Purpose.flow (h : Purpose p temps i) (straight : p.func.Straight) : i.opcode.flow = .next := by
  cases h with
  | pushes made =>
    have flows : ∀ o ∈ constantOpcodes, o.flow = .next := by decide
    exact flows _ (constant_eq_ok made).1
  | fetches r => exact flow_getLocal r
  | saves => exact flow_setLocal _
  | does does same => exact straight _ _ _ does same
  | empties | drops | marks => rfl

lemma targets_getLocal (r : Register) : (.getLocal r : Instruction Marker).targets = [] := by
  match r with
  | 0 | 1 | 2 | 3 | _ + 4 => rfl

lemma targets_setLocal (r : Register) : (.setLocal r : Instruction Marker).targets = [] := by
  match r with
  | 0 | 1 | 2 | 3 | _ + 4 => rfl

lemma Purpose.targets (h : Purpose p temps i)
    (bare : ∀ v k j, p.func.kind? v = some k → k.instruction? = some j → j.targets = []) : i.targets = [] := by
  cases h with
  | pushes made => exact (constant_eq_ok made).2
  | fetches r => exact targets_getLocal r
  | saves => exact targets_setLocal _
  | does does same => exact bare _ _ _ does same
  | empties | drops | marks => rfl

end Purpose

/-- Instructions with a purpose are put behind those of a draft, and nodes keep their registers. -/
structure Draft.Adds (p : Plan) (d d' : Draft) : Prop where
  instrs : ∃ is, d'.written = d.written ++ is ∧ ∀ i ∈ is, Purpose p d'.temps i
  temps : ∀ v r, d.temps.lookup v = some r → d'.temps.lookup v = some r

namespace Draft.Adds

lemma refl (d : Draft) : Adds p d d := ⟨⟨[], (List.append_nil _).symm, List.forall_mem_nil _⟩, fun _ _ => id⟩

lemma trans (h : Adds p d d') (h' : Adds p d' d'') : Adds p d d'' := by
  obtain ⟨is, written, meant⟩ := h.instrs
  obtain ⟨js, written', meant'⟩ := h'.instrs
  refine ⟨⟨is ++ js, by rw [written', written, List.append_assoc], fun i mem => ?_⟩,
    fun v r known => h'.temps v r (h.temps v r known)⟩
  obtain mem | mem := List.mem_append.1 mem
  · exact (meant i mem).mono h'.temps
  · exact meant' i mem

lemma of_puts {is : List (Instruction Marker)} (puts : Draft.Puts is d d') (meant : ∀ i ∈ is, Purpose p d'.temps i) :
    Adds p d d' :=
  ⟨⟨is, puts.written, meant⟩, fun v r known => by rwa [puts.temps]⟩

end Draft.Adds

namespace Write

/-- The function of the writer only puts instructions with a purpose behind the others. -/
def IsMeant (p : Plan) (x : Write α) : Prop := ∀ d a d', x.run d = .ok a d' → d.Adds p d'

instance : Std.Refl (Draft.Adds p) := ⟨.refl⟩

instance : IsTrans Draft (Draft.Adds p) := ⟨fun _ _ _ => .trans⟩

lemma IsMeant.bind {x : Write α} {g : α → Write β} (first : IsMeant p x) (rest : ∀ a, IsMeant p (g a)) :
    IsMeant p (x >>= g) :=
  Relates.bind (R := Draft.Adds p) first rest

lemma isMeant_push (meant : ∀ temps, Purpose p temps i) : IsMeant p (push i) :=
  fun _ _ d' run => .of_puts (puts_push run) fun _ mem => List.mem_singleton.1 mem ▸ meant d'.temps

lemma isMeant_save (v : ValueId) : IsMeant p (do push (.setLocal (← temp v))) := by
  intro d u d' run
  obtain ⟨r, d₁, asked, pushed⟩ := bind_eq_ok.1 run
  have puts := puts_push pushed
  refine ⟨⟨[.setLocal r], ?_, fun i mem => ?_⟩, fun w s known => ?_⟩
  · rw [puts.written, (written_of_temp asked).1]
  · rw [List.mem_singleton.1 mem, puts.temps]
    exact .saves (lookup_of_temp asked)
  · rw [puts.temps]
    obtain ⟨-, rfl⟩ | ⟨new, -, rfl⟩ := temp_eq_ok asked
    · exact known
    · rw [List.lookup_cons, beq_false_of_ne]
      · exact known
      · rintro rfl
        rw [new] at known
        cases known

lemma isMeant_value (x : Value) : IsMeant p (value p x) := by
  intro d u d' run
  cases x with
  | const c =>
    obtain ⟨i, d₁, made, pushed⟩ := bind_eq_ok.1 run
    refine .of_puts ((puts_constant made).trans (puts_push pushed)) fun j mem => ?_
    rw [List.nil_append, List.mem_singleton] at mem
    exact mem ▸ .pushes made
  | reg r version => exact isMeant_push (fun _ => .fetches r) _ _ _ run
  | node v =>
    rw [value] at run
    split at run
    · exact relates_pure () _ _ _ run
    · obtain ⟨e, d₁, got, rest⟩ := bind_eq_ok.1 run
      obtain ⟨-, rfl⟩ := get_eq_ok.1 got
      split at rest
      · exact isMeant_push (fun _ => .fetches _) _ _ _ rest
      · exact absurd rest throw_ne_ok

lemma isMeant_values (xs : List Value) : IsMeant p (values p xs) := relates_values isMeant_value xs

lemma isMeant_node (v : ValueId) : IsMeant p (node p v) :=
  relates_node (fun _ does => relates_effect isMeant_value (fun _ own => isMeant_push fun _ => .does does own)
    fun _ _ here => isMeant_push fun _ => .empties (here ▸ does)) (fun _ => isMeant_save v) (isMeant_push fun _ =>
      .drops)

lemma isMeant_popInto (vs : List ValueId) : IsMeant p (popInto vs) := relates_popInto fun v _ => isMeant_save v

lemma isMeant_nodes (b : BlockId) (vs : List ValueId) : IsMeant p (nodes p b vs) := relates_nodes isMeant_node vs

/-- What comes before the end of a block starts with a label where control comes back to the block. -/
theorem front_adds {u : Unit} (run : (front p b).run d = .ok u d') : ∃ is, d'.written = d.written ++ is ∧
    (∀ i ∈ is, Purpose p d'.temps i) ∧ (∀ v r, d.temps.lookup v = some r → d'.temps.lookup v = some r) ∧
      (isBackwardTarget p.func p.order b = true → is.head? = some ⟨.label, .none⟩) := by
  have behind {c : Prop} [Decidable c] {i : Instruction Marker} {x : Write Unit} (meant : ∀ temps, Purpose p temps i)
      (h : IsMeant p x) : IsMeant p (if c then push i >>= fun _ => x else x) := by
    split
    · exact (isMeant_push meant).bind fun _ => h
    · exact h
  obtain ⟨d₁, label, rest⟩ := puts_behind run
  have others : Draft.Adds p d₁ d' := behind (fun _ => .drops) (isMeant_nodes b _) _ _ _ rest
  obtain ⟨is, written, meant⟩ := others.instrs
  refine ⟨_, by rw [written, label.written, List.append_assoc], fun i mem => ?_, fun v r known => ?_, fun back => ?_⟩
  · obtain mem | mem := List.mem_append.1 mem
    · split at mem
      · rw [List.mem_singleton.1 mem]
        exact .marks
      · cases mem
    · exact meant i mem
  · exact others.temps v r (by rwa [label.temps])
  · rw [if_pos back]
    rfl

end Write

end Avm.Emit
