import Avm.Code.Assembler
import Avm.Proofs.Code.Anchoring
import Avm.Proofs.Code.RoundTrip

/-!
# Labels of assembled code

A name may be referred to before or after it is placed.  It gets a marker when it is first mentioned, and no two names
share one.  When a name is placed, its marker waits for the next instruction, or for the end.  Which instruction that is
can be told at once: the one with the next number (`Assembler.spot?`), so binding the markers that wait changes nothing
about where they stand (`Assembler.Tracks.push`), and each name stands where the program places it (`place?`).

The main statement is `resolves_of_assemble`.
-/

namespace Avm

namespace Statement

/-- The name that a statement places. -/
def placed? : Statement → Option String
  | label name => some name
  | _ => none

/-- The instruction of a statement. -/
def instr? : Statement → Option (Instruction String)
  | instr i => some i
  | _ => none

/-- The handler of a statement. -/
def handler? : Statement → Option (Handler String)
  | handler h => some h
  | _ => none

/-- The names that a statement refers to. -/
def mentions : Statement → List String
  | label _ => []
  | instr i => i.targets
  | handler h => [h.start, h.stop, h.target]

/-- The statement is a switch without cases. -/
def isBare : Statement → Bool
  | instr ⟨_, .switch _ []⟩ => true
  | _ => false

end Statement

namespace Assembler

open MarkerTable

/-- The number of instructions before a name is placed. -/
def place? (name : String) : List Statement → Option Nat
  | [] => none
  | .label n :: rest => if n = name then some 0 else place? name rest
  | .instr _ :: rest => (place? name rest).map (· + 1)
  | .handler _ :: rest => place? name rest

variable {program before behind : List Statement} {n name : String} {names names' : List String} {a a' a'' : Assembler}
  {m : Marker} {k : Nat}

section Places

lemma place?_append : place? name (before ++ behind) =
    (place? name before).or ((place? name behind).map (· + (before.filterMap Statement.instr?).length)) := by
  induction before with
  | nil => simp [place?]
  | cons s before ih =>
    cases s with
    | label n =>
      rw [List.cons_append, place?, place?, ih]
      split
      · rfl
      · rfl
    | instr i =>
      rw [List.cons_append, place?, place?, ih]
      cases place? name before <;> simp [Statement.instr?, Function.comp_def, Nat.add_assoc]
    | handler h => exact ih

lemma isSome_place? : (place? name program).isSome ↔ name ∈ program.filterMap Statement.placed? := by
  induction program with
  | nil => simp [place?]
  | cons s program ih =>
    cases s with
    | label n =>
      rw [place?]
      by_cases same : n = name
      · simp [same, Statement.placed?]
      · simp [same, Ne.symm same, Statement.placed?, ih]
    | instr i => simpa [place?, Statement.placed?] using ih
    | handler h => simpa [place?, Statement.placed?] using ih

lemma place?_eq_none : place? name program = none ↔ name ∉ program.filterMap Statement.placed? := by
  rw [← isSome_place?, Bool.not_eq_true, Option.isSome_eq_false_iff, Option.isNone_iff_eq_none]

lemma place?_of_once (once : ((before ++ .label name :: behind).filterMap Statement.placed?).Nodup) :
    place? name (before ++ .label name :: behind) = some (before.filterMap Statement.instr?).length := by
  rw [List.filterMap_append, List.nodup_append] at once
  have absent : name ∉ before.filterMap Statement.placed? :=
    fun mem => once.2.2 name mem name (by simp [Statement.placed?]) rfl
  simp [place?_append, place?_eq_none.2 absent, place?]

end Places

/-- The position that a marker stands for, or will stand for once it is bound. -/
def spot? (a : Assembler) (m : Marker) : Option Nat :=
  if m ∈ a.pending then some a.code.nextId
  else match a.code.markers.target? m with
    | some (.instr id) => some id
    | _ => none

/-- Names have markers of their own, and what is bound is bound to an instruction. -/
structure Labelled (a : Assembler) : Prop where
  small : ∀ n m, a.labels.lookup n = some m → m < a.code.markers.size
  apart : ∀ n n' m, a.labels.lookup n = some m → a.labels.lookup n' = some m → n = n'
  waiting : ∀ m ∈ a.pending, m < a.code.markers.size
  bound : ∀ m id, a.code.markers.target? m = some (.instr id) → id < a.code.nextId

/-- Some names get markers, and nothing else happens. -/
structure Marks (a a' : Assembler) (names : List String) : Prop where
  same : a' = { a with code := { a.code with markers := a'.code.markers }, labels := a'.labels }
  targets : ∀ m, a'.code.markers.target? m = a.code.markers.target? m
  keeps : ∀ n m, a.labels.lookup n = some m → a'.labels.lookup n = some m
  known : ∀ n, (a'.labels.lookup n).isSome ↔ (a.labels.lookup n).isSome ∨ n ∈ names
  fresh : ∀ n m, a'.labels.lookup n = some m → a.labels.lookup n = some m ∨ a.code.markers.size ≤ m
  size : a.code.markers.size ≤ a'.code.markers.size
  labelled : a.Labelled → a'.Labelled

namespace Marks

lemma refl (a : Assembler) : Marks a a [] :=
  ⟨rfl, fun _ => rfl, fun _ _ => id, by simp, fun _ _ => .inl, Nat.le_refl _, id⟩

lemma trans (h : Marks a a' names) (h' : Marks a' a'' names') : Marks a a'' (names ++ names') where
  same := by rw [h'.same, h.same]
  targets m := (h'.targets m).trans (h.targets m)
  keeps n m found := h'.keeps n m (h.keeps n m found)
  known n := by rw [h'.known, h.known, List.mem_append, or_assoc]
  fresh n m found := (h'.fresh n m found).elim (h.fresh n m) fun new => .inr (h.size.trans new)
  size := h.size.trans h'.size
  labelled := h'.labelled ∘ h.labelled

lemma spot? (h : Marks a a' names) : a'.spot? m = a.spot? m := by
  rw [Assembler.spot?, Assembler.spot?, h.targets, h.same]

lemma bind_spot? (h : Marks a a' names) (labelled : a.Labelled) :
    (a'.labels.lookup n).bind a'.spot? = (a.labels.lookup n).bind a.spot? := by
  cases found : a'.labels.lookup n with
  | none =>
    cases old : a.labels.lookup n with
    | none => rfl
    | some m =>
      rw [h.keeps n m old] at found
      cases found
  | some m =>
    rw [Option.bind_some, h.spot?]
    cases old : a.labels.lookup n with
    | some m' =>
      rw [h.keeps n m' old] at found
      rw [Option.some.inj found]
      rfl
    | none =>
      -- A new marker does not wait, and is not bound.
      have new : a.code.markers.size ≤ m := (h.fresh n m found).resolve_left (by simp [old])
      have free : a.code.markers.target? m = none := by
        rw [target?, List.getElem?_eq_none new]
      rw [Assembler.spot?, if_neg fun waits => absurd (labelled.waiting m waits) (Nat.not_lt.2 new), free]
      rfl

end Marks

section Mint

/-- A name gets a new marker. -/
def minted (a : Assembler) (name : String) : Assembler :=
  { a with
    code := { a.code with markers := (a.code.markers.allocate .unbound).1 }
    labels := (name, a.code.markers.size) :: a.labels }

lemma lookup_minted : (a.minted name).labels.lookup n =
    if n = name then some a.code.markers.size else a.labels.lookup n := by
  rw [minted, List.lookup_cons]
  by_cases same : n = name
  · simp [same]
  · simp [same, beq_false_of_ne same]

lemma lookup_minted_cases (found : (a.minted name).labels.lookup n = some m) :
    n = name ∧ m = a.code.markers.size ∨ a.labels.lookup n = some m := by
  rw [lookup_minted] at found
  split at found
  · exact .inl ⟨‹_›, (Option.some.inj found).symm⟩
  · exact .inr found

lemma target?_minted : (a.minted name).code.markers.target? m = a.code.markers.target? m := target?_allocate nofun

lemma size_minted : (a.minted name).code.markers.size = a.code.markers.size + 1 := List.length_append

lemma Labelled.minted (labelled : a.Labelled) : (a.minted name).Labelled where
  small n m found := by
    rw [size_minted]
    obtain ⟨-, rfl⟩ | old := lookup_minted_cases found
    · exact Nat.lt_succ_self _
    · exact (labelled.small n m old).trans (Nat.lt_succ_self _)
  apart n n' m found found' := by
    obtain ⟨rfl, rfl⟩ | old := lookup_minted_cases found
    · obtain ⟨rfl, -⟩ | old' := lookup_minted_cases found'
      · rfl
      · exact absurd (labelled.small n' _ old') (Nat.lt_irrefl _)
    · obtain ⟨rfl, rfl⟩ | old' := lookup_minted_cases found'
      · exact absurd (labelled.small n _ old) (Nat.lt_irrefl _)
      · exact labelled.apart n n' m old old'
  waiting m waits := by
    rw [size_minted]
    exact (labelled.waiting m waits).trans (Nat.lt_succ_self _)
  bound m id found := labelled.bound m id (target?_minted.symm.trans found)

lemma marks_minted (new : a.labels.lookup name = none) : Marks a (a.minted name) [name] where
  same := rfl
  targets _ := target?_minted
  keeps n m found := by
    rw [lookup_minted, if_neg, found]
    rintro rfl
    rw [new] at found
    cases found
  known n := by
    rw [lookup_minted, List.mem_singleton]
    split
    · rename_i same
      simp [same]
    · rename_i other
      rw [or_iff_left other]
  fresh n m found := (lookup_minted_cases found).elim (fun here => .inr here.2.ge) .inl
  size := by
    rw [size_minted]
    exact Nat.le_succ _
  labelled := Labelled.minted

end Mint

lemma marks_marker (a : Assembler) (name : String) :
    Marks a (a.marker name).1 [name] ∧ (a.marker name).1.labels.lookup name = some (a.marker name).2 := by
  rw [marker]
  split
  · rename_i m found
    refine ⟨{ Marks.refl a with known := fun n => ?_ }, found⟩
    rw [List.mem_singleton, iff_self_or]
    rintro rfl
    rw [found]
    rfl
  · rename_i new
    exact ⟨marks_minted new, lookup_minted.trans (if_pos rfl)⟩

lemma marks_markersOf (a : Assembler) (names : List String) : Marks a (a.markersOf names).1 names ∧
    List.Forall₂ (fun m n => (a.markersOf names).1.labels.lookup n = some m) (a.markersOf names).2 names := by
  induction names generalizing a with
  | nil => exact ⟨.refl a, .nil⟩
  | cons name names ih =>
    obtain ⟨first, found⟩ := marks_marker a name
    obtain ⟨rest, all⟩ := ih (a.marker name).1
    exact ⟨first.trans rest, .cons (rest.keeps _ _ found) all⟩

lemma marks_operands (a : Assembler) (ops : Operands String) : Marks a (a.operands ops).1 ops.targets ∧
    Operands.Rel (fun m n => (a.operands ops).1.labels.lookup n = some m) (a.operands ops).2 ops := by
  cases ops with
  | none => exact ⟨.refl a, .none⟩
  | byte value => exact ⟨.refl a, .byte⟩
  | index value => exact ⟨.refl a, .index⟩
  | pair first second => exact ⟨.refl a, .pair⟩
  | debug kind name register extra => exact ⟨.refl a, .debug⟩
  | branch name =>
    obtain ⟨marks, found⟩ := marks_marker a name
    exact ⟨marks, .branch found⟩
  | switch default cases =>
    obtain ⟨first, found⟩ := marks_marker a default
    obtain ⟨rest, all⟩ := marks_markersOf (a.marker default).1 cases
    exact ⟨first.trans rest, .switch (rest.keeps _ _ found) all⟩

lemma filterMap_snoc {α : Type} {f : Statement → Option α} {s : Statement} (nothing : f s = none) :
    (program ++ [s]).filterMap f = program.filterMap f := by
  rw [List.filterMap_append, List.filterMap_cons_none nothing, List.filterMap_nil, List.append_nil]

lemma foldl_bind {t : MarkerTable} {a : Anchor} {ms : List Marker} (there : ∀ m ∈ ms, m < t.size) :
    (ms.foldl (fun t m => t.bind m a) t).size = t.size ∧
      ∀ k, (ms.foldl (fun t m => t.bind m a) t).target? k = if k ∈ ms then some a else t.target? k := by
  induction ms generalizing t with
  | nil => exact ⟨rfl, fun k => by simp⟩
  | cons m ms ih =>
    obtain ⟨here, others⟩ := List.forall_mem_cons.1 there
    have size : (t.bind m a).size = t.size := by
      rw [MarkerTable.size, bindings_bind here, List.length_set, MarkerTable.size]
    obtain ⟨size', targets⟩ := ih fun k mem => size.symm ▸ others k mem
    refine ⟨size'.trans size, fun k => ?_⟩
    rw [List.foldl_cons, targets, target?_bind here]
    by_cases same : k = m
    · simp [same]
    · simp [same]

/-- What an assembler knows of a program, and of some names. -/
structure Tracks (known : String → Prop) (program : List Statement) (a : Assembler) : Prop where
  labelled : a.Labelled
  known : ∀ n, (a.labels.lookup n).isSome ↔ known n
  spots : ∀ n, (a.labels.lookup n).bind a.spot? = place? n program
  next : a.code.nextId = (program.filterMap Statement.instr?).length
  ids : a.code.instrs.map (·.1) = List.range a.code.nextId
  instrs : List.Forall₂ (fun e i => i.opcode = e.2.opcode ∧
    Operands.Rel (fun m n => a.labels.lookup n = some m) e.2.operands i.operands) a.code.instrs
      (program.filterMap Statement.instr?)
  handlers : List.Forall₂ (Handler.Rel fun m n => a.labels.lookup n = some m) a.code.handlers
    (program.filterMap Statement.handler?)

namespace Tracks

variable {known : String → Prop}

lemma marks (h : Tracks known program a) (marks : Marks a a' names) :
    Tracks (fun n => known n ∨ n ∈ names) program a' where
  labelled := marks.labelled h.labelled
  known n := by rw [marks.known, h.known]
  spots n := (marks.bind_spot? h.labelled).trans (h.spots n)
  next := by rw [marks.same, h.next]
  ids := by rw [marks.same, h.ids]
  instrs := by
    have same : a'.code.instrs = a.code.instrs := by rw [marks.same]
    rw [same]
    exact h.instrs.imp fun e i same => ⟨same.1, same.2.mono fun m n => marks.keeps n m⟩
  handlers := by
    have same : a'.code.handlers = a.code.handlers := by rw [marks.same]
    rw [same]
    exact h.handlers.imp fun x y same => ⟨marks.keeps _ _ same.start, marks.keeps _ _ same.stop,
      marks.keeps _ _ same.target, same.excType, same.varName⟩

lemma place (h : Tracks known program a) (found : a.labels.lookup name = some m)
    (new : name ∉ program.filterMap Statement.placed?) :
    Tracks known (program ++ [.label name]) { a with pending := a.pending ++ [m] } where
  labelled := ⟨h.labelled.small, h.labelled.apart, fun k mem => by
    obtain old | here := List.mem_append.1 mem
    · exact h.labelled.waiting k old
    · rw [List.mem_singleton.1 here]
      exact h.labelled.small name m found, h.labelled.bound⟩
  known := h.known
  spots n := by
    have before := h.spots n
    rw [place?_append, ← before, ← h.next]
    change (a.labels.lookup n).bind _ = _
    by_cases same : n = name
    · subst same
      rw [before, place?_eq_none.2 new, found]
      simp [spot?, place?]
    · cases lookup : a.labels.lookup n with
      | none => simp [place?, Ne.symm same]
      | some k =>
        have other : k ≠ m := fun eq => same (h.labelled.apart n name m (eq ▸ lookup) found)
        simp [spot?, place?, Ne.symm same, other]
  next := by rw [filterMap_snoc rfl, ← h.next]
  ids := h.ids
  instrs := by
    rw [filterMap_snoc rfl]
    exact h.instrs
  handlers := by
    rw [filterMap_snoc rfl]
    exact h.handlers

lemma push (h : Tracks known program a) {i : Instruction String} {ops : Operands Marker}
    (rel : Operands.Rel (fun m n => a.labels.lookup n = some m) ops i.operands) :
    Tracks known (program ++ [.instr i]) (a.push ⟨i.opcode, ops⟩) := by
  obtain ⟨size, targets⟩ := foldl_bind (a := .instr a.code.nextId) h.labelled.waiting
  have spot (m : Marker) : (a.push ⟨i.opcode, ops⟩).spot? m = a.spot? m := by
    have nothing : (a.push ⟨i.opcode, ops⟩).pending = [] := rfl
    rw [spot?, spot?, nothing, if_neg List.not_mem_nil]
    change (match (a.pending.foldl _ a.code.markers).target? m with | some (.instr id) => some id | _ => none) = _
    rw [targets]
    split_ifs <;> rfl
  constructor
  case labelled =>
    refine ⟨fun n m found => size ▸ h.labelled.small n m found, h.labelled.apart, List.forall_mem_nil _,
      fun m id found => ?_⟩
    change (a.pending.foldl _ a.code.markers).target? m = _ at found
    rw [targets] at found
    split at found
    · cases found
      exact Nat.lt_succ_self _
    · exact (h.labelled.bound m id found).trans (Nat.lt_succ_self _)
  case known => exact h.known
  case spots =>
    intro n
    rw [place?_append, place?, place?, Option.map_none, Option.map_none, Option.or_none, ← h.spots]
    exact congrArg _ (funext spot)
  case next =>
    rw [List.filterMap_append, List.length_append, ← h.next]
    rfl
  case ids =>
    change List.map _ (a.code.instrs ++ [(a.code.nextId, _)]) = List.range (a.code.nextId + 1)
    rw [List.map_append, h.ids, List.range_succ]
    rfl
  case instrs =>
    rw [List.filterMap_append]
    exact List.rel_append h.instrs (.cons ⟨rfl, rel⟩ .nil)
  case handlers =>
    rw [filterMap_snoc rfl]
    exact h.handlers

lemma addHandler (h : Tracks known program a) {x : Handler Marker} {y : Handler String}
    (rel : Handler.Rel (fun m n => a.labels.lookup n = some m) x y) :
    Tracks known (program ++ [.handler y]) { a with code := { a.code with handlers := a.code.handlers ++ [x] } } where
  labelled := ⟨h.labelled.small, h.labelled.apart, h.labelled.waiting, h.labelled.bound⟩
  known := h.known
  spots n := by
    rw [place?_append, place?, place?, Option.map_none, Option.or_none]
    exact h.spots n
  next := by rw [filterMap_snoc rfl, ← h.next]
  ids := h.ids
  instrs := by
    rw [filterMap_snoc rfl]
    exact h.instrs
  handlers := by
    rw [List.filterMap_append]
    exact List.rel_append h.handlers (.cons rel .nil)

lemma congr {known' : String → Prop} (h : Tracks known program a) (same : ∀ n, known n ↔ known' n) :
    Tracks known' program a :=
  { h with known := fun n => (h.known n).trans (same n) }

lemma step (h : Tracks known program a) {s : Statement}
    (new : ∀ n, s.placed? = some n → n ∉ a.defined ∧ n ∉ program.filterMap Statement.placed?)
    (full : s.isBare = false) :
    Tracks (fun n => known n ∨ s.placed? = some n ∨ n ∈ s.mentions) (program ++ [s]) (a.step s) := by
  cases s with
  | label name =>
    obtain ⟨undefined, absent⟩ := new name rfl
    obtain ⟨marks, found⟩ := marks_marker { a with defined := name :: a.defined } name
    have defined : Tracks known program { a with defined := name :: a.defined } :=
      { h with labelled := ⟨h.labelled.small, h.labelled.apart, h.labelled.waiting, h.labelled.bound⟩ }
    rw [Assembler.step, label, if_neg undefined]
    refine ((defined.marks marks).place found absent).congr fun n => ?_
    simp [Statement.placed?, Statement.mentions, eq_comm]
  | instr i =>
    obtain ⟨marks, rel⟩ := marks_operands a i.operands
    rw [Assembler.step, instr]
    split
    · rename_i bare
      obtain ⟨opcode, operands⟩ := i
      obtain rfl := bare
      cases full
    · refine ((h.marks marks).push rel).congr fun n => ?_
      simp [Statement.placed?, Statement.mentions, Instruction.targets]
  | handler x =>
    obtain ⟨first, start⟩ := marks_marker a x.start
    obtain ⟨second, stop⟩ := marks_marker (a.marker x.start).1 x.stop
    obtain ⟨third, target⟩ := marks_marker ((a.marker x.start).1.marker x.stop).1 x.target
    have rel := third.keeps _ _ (second.keeps _ _ start)
    refine ((h.marks ((first.trans second).trans third)).addHandler (y := x)
      ⟨rel, third.keeps _ _ stop, target, rfl, rfl⟩).congr fun n => ?_
    simp [Statement.placed?, Statement.mentions]

end Tracks

section Runs

lemma step_keeps (a : Assembler) (s : Statement) :
    (∀ n, n ∈ (a.step s).defined ↔ n ∈ a.defined ∨ s.placed? = some n) ∧
    ((a.step s).fault = none ↔ a.fault = none ∧ (∀ n, s.placed? = some n → n ∉ a.defined) ∧ s.isBare = false) := by
  cases s with
  | label name =>
    have marks := (marks_marker { a with defined := name :: a.defined } name).1
    rw [step, label]
    split
    · rename_i again
      refine ⟨fun n => ?_, ?_⟩
      · simpa [Statement.placed?, fail] using fun same => same ▸ again
      · cases fault : a.fault <;> simp [Statement.placed?, fail, fault, again]
    · rename_i new
      change (∀ n, n ∈ ({ a with defined := name :: a.defined }.marker name).1.defined ↔ _) ∧
        (({ a with defined := name :: a.defined }.marker name).1.fault = none ↔ _)
      rw [marks.same]
      exact ⟨fun n => by simp [Statement.placed?, eq_comm, or_comm], by simp [Statement.placed?, Statement.isBare, new]⟩
  | instr i =>
    have marks := (marks_operands a i.operands).1
    obtain ⟨opcode, operands⟩ := i
    rw [step, instr]
    split
    · rename_i bare
      obtain rfl := bare
      refine ⟨fun n => by simp [Statement.placed?, fail], ?_⟩
      cases fault : a.fault <;> simp [Statement.isBare, fail, fault]
    · rename_i full
      have whole : (Statement.instr ⟨opcode, operands⟩).isBare = false := by
        rw [Statement.isBare]
        rintro _ _ ⟨rfl⟩
        exact full _ rfl
      change (∀ n, n ∈ (a.operands operands).1.defined ↔ _) ∧ ((a.operands operands).1.fault = none ↔ _)
      rw [marks.same]
      exact ⟨fun n => by simp [Statement.placed?], by simp [Statement.placed?, whole]⟩
  | handler x =>
    have marks := ((marks_marker a x.start).1.trans (marks_marker (a.marker x.start).1 x.stop).1).trans
      (marks_marker ((a.marker x.start).1.marker x.stop).1 x.target).1
    change (∀ n, n ∈ (((a.marker x.start).1.marker x.stop).1.marker x.target).1.defined ↔ _) ∧
      ((((a.marker x.start).1.marker x.stop).1.marker x.target).1.fault = none ↔ _)
    rw [marks.same]
    exact ⟨fun n => by simp [Statement.placed?], by simp [Statement.placed?, Statement.isBare]⟩

lemma nodup_placed_snoc {s : Statement} : ((program ++ [s]).filterMap Statement.placed?).Nodup ↔
    (program.filterMap Statement.placed?).Nodup ∧
      ∀ n, s.placed? = some n → n ∉ program.filterMap Statement.placed? := by
  cases placed : s.placed? with
  | none => simp [filterMap_snoc placed]
  | some n =>
    rw [List.filterMap_append, List.filterMap_cons_some placed, List.filterMap_nil, List.nodup_append]
    simp only [List.nodup_singleton, List.forall_mem_singleton, true_and, Option.some.injEq, forall_eq']
    exact and_congr_right fun _ => ⟨fun apart mem => apart n mem rfl, fun absent k mem same => absent (same ▸ mem)⟩

lemma run_keeps (program : List Statement) :
    (∀ n, n ∈ (program.foldl Assembler.step {}).defined ↔ n ∈ program.filterMap Statement.placed?) ∧
    ((program.foldl Assembler.step {}).fault = none ↔
      (program.filterMap Statement.placed?).Nodup ∧ ∀ s ∈ program, s.isBare = false) := by
  induction program using List.reverseRecOn with
  | nil => simp
  | append_singleton program s ih =>
    obtain ⟨defined, fault⟩ := ih
    rw [List.foldl_append, List.foldl_cons, List.foldl_nil]
    obtain ⟨defined', fault'⟩ := step_keeps (program.foldl Assembler.step {}) s
    refine ⟨fun n => ?_, ?_⟩
    · rw [defined', defined]
      simp
    · simp only [fault', fault, defined, nodup_placed_snoc, List.forall_mem_append, List.forall_mem_singleton]
      exact and_and_and_comm

lemma tracks_run (once : (program.filterMap Statement.placed?).Nodup) (full : ∀ s ∈ program, s.isBare = false) :
    Tracks (fun n => n ∈ program.filterMap Statement.placed? ∨ n ∈ program.flatMap Statement.mentions) program
      (program.foldl Assembler.step {}) := by
  induction program using List.reverseRecOn with
  | nil => exact ⟨⟨nofun, nofun, nofun, nofun⟩, by simp, fun _ => rfl, rfl, rfl, .nil, .nil⟩
  | append_singleton program s ih =>
    obtain ⟨once, last⟩ := nodup_placed_snoc.1 once
    have before := ih once fun s mem => full s (List.mem_append_left _ mem)
    have new (n) (places : s.placed? = some n) := last n places
    rw [List.foldl_append, List.foldl_cons, List.foldl_nil]
    refine (before.step (fun n places => ⟨fun mem => new n places (((run_keeps program).1 n).1 mem), new n places⟩)
      (full s (by simp))).congr fun n => ?_
    simp only [List.filterMap_append, List.flatMap_append, List.mem_append, List.mem_filterMap, List.mem_flatMap,
      List.mem_singleton, exists_eq_left]
    exact or_or_or_comm

end Runs

lemma resolve?_of_spot? {known : String → Prop} (h : Tracks known program a) (spot : a.spot? m = some k) :
    ({ a.code with markers := a.pending.foldl (fun t m => t.bind m .codeEnd) a.code.markers } : Code).resolve? m =
      some k := by
  have size : a.code.size = a.code.nextId := by
    have length := congrArg List.length h.ids
    rwa [List.length_map, List.length_range] at length
  rw [Code.resolve?]
  dsimp only
  rw [(foldl_bind h.labelled.waiting).2]
  rw [spot?] at spot
  split at spot
  · rename_i waits
    rw [if_pos waits]
    exact (congrArg some size).trans spot
  · rename_i other
    rw [if_neg other]
    split at spot
    · rename_i id found
      rw [found, ← spot]
      exact Code.position?_of_range h.ids (h.labelled.bound m id found)
    · cases spot

lemma stands {known : String → Prop} (h : Tracks known program a)
    (placed : ∀ n, known n → n ∈ program.filterMap Statement.placed?) (found : a.labels.lookup n = some m) :
    ({ a.code with markers := a.pending.foldl (fun t m => t.bind m .codeEnd) a.code.markers } : Code).resolve? m =
      some ((place? n program).getD 0) := by
  have known := (h.known n).1 (by rw [found]; rfl)
  obtain ⟨k, there⟩ := Option.isSome_iff_exists.1 (isSome_place?.2 (placed n known))
  have spot := h.spots n
  rw [found, Option.bind_some, there] at spot
  rw [there]
  exact resolve?_of_spot? h spot

lemma isEmpty_undefined {known : String → Prop} (h : Tracks known program a)
    (defined : ∀ n, n ∈ a.defined ↔ n ∈ program.filterMap Statement.placed?) :
    ((a.labels.map (·.1)).filter (· ∉ a.defined)).isEmpty = true ↔
      ∀ n, known n → n ∈ program.filterMap Statement.placed? := by
  rw [List.isEmpty_iff, List.filter_eq_nil_iff]
  simp only [decide_not, Bool.not_eq_true', decide_eq_false_iff_not, not_not, defined, ← h.known]
  refine ⟨fun all n here => ?_, fun all n mem => all n ?_⟩
  · obtain ⟨m, found⟩ := Option.isSome_iff_exists.1 here
    exact all n (List.mem_map_of_mem (mem_of_lookup found))
  · obtain ⟨e, listed, rfl⟩ := List.mem_map.1 mem
    exact List.lookup_isSome_iff.2 ⟨e, listed, beq_self_eq_true _⟩

end Assembler

open Assembler in
/-- A program is assembled just if it places no name twice, places all names that it refers to, and
has no switch without cases.  The code has the instructions and handlers of the program, and each
name stands for the number of instructions before it is placed. -/
theorem resolves_of_assemble (program : List Statement) :
    ((∃ c, assemble program = .ok c) ↔ (program.filterMap Statement.placed?).Nodup ∧
      (∀ name ∈ program.flatMap Statement.mentions, name ∈ program.filterMap Statement.placed?) ∧
      ∀ s ∈ program, s.isBare = false) ∧
    ∀ c, assemble program = .ok c → ∃ place : String → Nat,
      (∀ before name behind, program = before ++ .label name :: behind →
        place name = (before.filterMap Statement.instr?).length) ∧
      c.listing = .ok ((program.filterMap Statement.instr?).map (·.map place)) ∧
      c.resolvedHandlers = .ok ((program.filterMap Statement.handler?).map (·.map place)) := by
  obtain ⟨defined, fault⟩ := run_keeps program
  rw [assemble, finish]
  cases faults : (program.foldl step {}).fault with
  | some e =>
    refine ⟨⟨?_, ?_⟩, ?_⟩
    · rintro ⟨_, ⟨⟩⟩
    · rintro ⟨once, _, full⟩
      rw [fault.2 ⟨once, full⟩] at faults
      cases faults
    · rintro _ ⟨⟩
  | none =>
    obtain ⟨once, full⟩ := fault.1 faults
    have tracks := tracks_run once full
    generalize program.foldl step {} = a at defined tracks
    have mentioned := isEmpty_undefined tracks defined
    dsimp only
    split
    · rename_i none
      have placed := mentioned.1 none
      refine ⟨⟨fun _ => ⟨once, fun n mem => placed n (.inr mem), full⟩, fun _ => ⟨_, rfl⟩⟩, fun c assembled => ?_⟩
      obtain rfl := Except.ok.inj assembled
      have stands (m n) := stands (m := m) (n := n) tracks placed
      refine ⟨fun n => (place? n program).getD 0, ?_, ?_, Code.resolvedHandlers_eq_ok stands tracks.handlers⟩
      · rintro before name behind rfl
        dsimp only
        rw [place?_of_once once]
        rfl
      · rw [Code.listing, mapM_eq_ok, List.forall₂_map_right_iff]
        exact tracks.instrs.imp fun e i rel => Code.resolveInstr_eq_ok stands rel.1 rel.2
    · rename_i missing
      refine ⟨⟨?_, ?_⟩, ?_⟩
      · rintro ⟨_, ⟨⟩⟩
      · rintro ⟨_, placed, _⟩
        exact absurd (mentioned.2 fun n => Or.rec id (placed n)) missing
      · rintro _ ⟨⟩

/-- Two names at the start, one of which is jumped back to, and one at the end, which is jumped to
before it is placed. -/
def crossing : List Statement :=
  [.label "top", .label "again", .instr ⟨.jump, .branch "end"⟩, .instr ⟨.jump, .branch "again"⟩, .label "end"]

theorem resolves_of_assemble_crossing : ∃ c, assemble crossing = .ok c ∧
    c.listing = .ok [⟨.jump, .branch 2⟩, ⟨.jump, .branch 0⟩] := by
  obtain ⟨assembles, resolves⟩ := resolves_of_assemble crossing
  obtain ⟨c, assembled⟩ := assembles.2 (by decide)
  obtain ⟨place, places, listed, -⟩ := resolves c assembled
  have again : place "again" = 0 := places [.label "top"] "again" _ rfl
  have done : place "end" = 2 := places [.label "top", .label "again", .instr _, .instr _] "end" [] rfl
  refine ⟨c, assembled, listed.trans ?_⟩
  change Except.ok [(⟨.jump, .branch (place "end")⟩ : Instruction Nat), ⟨.jump, .branch (place "again")⟩] = _
  rw [again, done]

end Avm
