import Avm.Proofs.Code.Anchoring
import Avm.Proofs.Emit.Growing

/-!
# Where labels are

The marker of a block waits for the next instruction once the block is begun, and is bound to it
when it comes, or to the end of the code if none comes.  Either way it stands for the position at
which the block starts, also if the block and those behind it have no instructions.

The main statement is `settled_of_finish`.
-/

namespace Avm

section Table

open MarkerTable

variable {t : MarkerTable} {a : Anchor} {ms : List Marker}

lemma MarkerTable.size_bind {m : Marker} : (t.bind m a).size = t.size := by
  rw [bind]
  split
  · rw [offer]
    split <;> simp [size]
  · rfl

lemma MarkerTable.foldl_bind (agrees : t.Agrees)
    (free : ∀ m ∈ ms, m < t.size ∧ (t.target? m = none ∨ t.target? m = some a)) :
    (ms.foldl (fun t m => t.bind m a) t).Agrees ∧ (ms.foldl (fun t m => t.bind m a) t).size = t.size ∧
      ∀ k, (ms.foldl (fun t m => t.bind m a) t).target? k = if k ∈ ms then some a else t.target? k := by
  induction ms generalizing t with
  | nil => exact ⟨agrees, rfl, fun k => (if_neg List.not_mem_nil).symm⟩
  | cons m ms ih =>
    obtain ⟨⟨there, before⟩, others⟩ := List.forall_mem_cons.1 free
    have agrees' : (t.bind m a).Agrees := by
      refine (agrees_bind_iff agrees there).2 fun b known => ?_
      have bound := agrees b m known
      cases before with
      | inl none =>
        rw [none] at bound
        cases bound
      | inr same => exact Option.some.inj (bound.symm.trans same)
    have free' : ∀ k ∈ ms, k < (t.bind m a).size ∧
      ((t.bind m a).target? k = none ∨ (t.bind m a).target? k = some a) := by
      intro k mem
      rw [MarkerTable.size_bind, target?_bind there]
      refine ⟨(others k mem).1, ?_⟩
      split
      · exact .inr rfl
      · exact (others k mem).2
    obtain ⟨all, size, targets⟩ := ih agrees' free'
    refine ⟨all, size.trans MarkerTable.size_bind, fun k => ?_⟩
    rw [List.foldl_cons, targets, target?_bind there]
    by_cases later : k ∈ ms
    · rw [if_pos later, if_pos (List.mem_cons_of_mem _ later)]
    · rw [if_neg later]
      refine if_congr ?_ rfl rfl
      rw [List.mem_cons, or_iff_left later]

end Table

namespace Emit

open Avm.Ir

variable {f : Func} {p : Plan} {d d' : Draft} {n m : Nat} {b : BlockId} {bs cs : List BlockId} {pool : Pool}

lemma nodup_place (fuel : Nat) {placed waiting : List BlockId} (once : placed.Nodup) :
    (place f fuel placed waiting).Nodup := by
  induction fuel generalizing placed waiting with
  | zero => exact once
  | succ fuel ih =>
    cases waiting with
    | nil => exact once
    | cons b waiting =>
      rw [place]
      split
      · exact ih once
      · rename_i new
        have more : (placed ++ [b]).Nodup := by
          refine List.nodup_append.2 ⟨once, List.nodup_singleton b, fun c mem c' mem' same => ?_⟩
          rw [List.mem_singleton.1 mem'] at same
          exact new (.inr (same ▸ mem))
        split
        · exact ih more
        · exact ih more

lemma nodup_order (f : Func) : (order f).Nodup := nodup_place _ List.nodup_nil

lemma subset_place (fuel : Nat) {placed waiting : List BlockId} : placed ⊆ place f fuel placed waiting := by
  induction fuel generalizing placed waiting with
  | zero => exact List.Subset.refl placed
  | succ fuel ih =>
    cases waiting with
    | nil => exact List.Subset.refl placed
    | cons b waiting =>
      rw [place]
      split
      · exact ih
      · split
        · exact List.Subset.trans (List.subset_append_left placed [b]) ih
        · exact List.Subset.trans (List.subset_append_left placed [b]) ih

lemma entry_mem_order (f : Func) : Func.entry ∈ order f := by
  rw [order, place, if_neg (by decide)]
  dsimp only
  split
  · exact subset_place _ (List.mem_singleton_self _)
  · exact subset_place _ (List.mem_singleton_self _)

lemma findIdx?_order {before after : List BlockId} (once : p.order.Nodup) (split : p.order = before ++ b :: after) :
    p.order.findIdx? (· == b) = some before.length := by
  rw [split] at once ⊢
  have new : b ∉ before := fun mem => (List.nodup_append.1 once).2.2 b mem b List.mem_cons_self rfl
  rw [List.findIdx?_append, List.findIdx?_eq_none_iff.2 fun c mem => ?_]
  · simp [List.findIdx?_cons]
  · rw [beq_eq_false_iff_ne]
    rintro rfl
    exact new mem

/-- While blocks are written, of which the first `n` are begun: instructions are numbered from the first one on, and the
markers of these blocks stand for the positions where they start, or wait if that is the next one. -/
structure Draft.Laid (p : Plan) (n : Nat) (d : Draft) : Prop where
  ids : d.code.instrs.map (·.1) = List.range d.code.size
  next : d.code.nextId = d.code.size
  bare : d.code.handlers = []
  room : d.code.markers.size = p.order.length
  agrees : d.code.markers.Agrees
  count : d.starts.length = n
  few : n ≤ p.order.length
  rising : d.starts.Pairwise (· ≤ ·)
  within : ∀ s ∈ d.starts, s ≤ d.code.size
  waits : ∀ m ∈ d.pending, d.starts[m]? = some d.code.size ∧ d.code.markers.target? m = none
  placed : ∀ m s, d.starts[m]? = some s → m ∈ d.pending ∨ d.code.markers.target? m = some (.instr s) ∧ s < d.code.size
  free : ∀ m, n ≤ m → d.code.markers.target? m = none

namespace Draft.Laid

lemma start (p : Plan) (pool : Pool) : Laid p 0 (.start p pool) := by
  have none (m : Marker) : (Draft.start p pool).code.markers.target? m = none := by
    rw [MarkerTable.target?]
    split
    · rename_i a found
      have mem := List.mem_of_getElem? found
      simp [Draft.start] at mem
    · rfl
  refine ⟨rfl, rfl, rfl, List.length_map _, ?_, rfl, Nat.zero_le _, .nil, List.forall_mem_nil _,
    List.forall_mem_nil _, ?_,
    fun m _ => none m⟩
  · rintro _ _ ⟨⟩
  · rintro _ _ ⟨⟩

lemma step (laid : Laid p n d) (step : Step p d d') : Laid p n d' := by
  cases step with
  | pool | temp => exact ⟨laid.ids, laid.next, laid.bare, laid.room, laid.agrees, laid.count, laid.few, laid.rising,
      laid.within, laid.waits, laid.placed, laid.free⟩
  | push i =>
    have inside (m : Marker) (mem : m ∈ d.pending) : m < n := by
      rw [← laid.count]
      exact (List.getElem?_eq_some_iff.1 (laid.waits m mem).1).1
    obtain ⟨agrees, size, targets⟩ := MarkerTable.foldl_bind (a := .instr d.code.nextId) laid.agrees fun m mem =>
      ⟨laid.room ▸ Nat.lt_of_lt_of_le (inside m mem) laid.few, .inl (laid.waits m mem).2⟩
    have longer : (d.code.push i).1.size = d.code.size + 1 := List.length_append
    refine ⟨?_, ?_, laid.bare, size.trans laid.room, agrees, laid.count, laid.few, laid.rising, fun s mem => ?_, nofun,
      fun m s starts => .inr ?_, fun m above => ?_⟩
    · change (d.code.push i).1.instrs.map (·.1) = List.range (d.code.push i).1.size
      rw [longer, List.range_succ, ← laid.ids, ← laid.next]
      exact List.map_append
    · change d.code.nextId + 1 = (d.code.push i).1.size
      rw [longer, laid.next]
    · exact Nat.le_trans (laid.within s mem) (longer ▸ Nat.le_succ _)
    · change _ ∧ s < (d.code.push i).1.size
      rw [targets, longer]
      cases laid.placed m s starts with
      | inl waiting =>
        rw [if_pos waiting]
        obtain rfl := Option.some.inj (starts.symm.trans (laid.waits m waiting).1)
        exact ⟨by rw [laid.next], Nat.lt_succ_self _⟩
      | inr bound =>
        refine ⟨?_, Nat.lt_succ_of_lt bound.2⟩
        rw [if_neg fun waiting => ?_, bound.1]
        rw [(laid.waits m waiting).2] at bound
        cases bound.1
    · rw [targets, if_neg fun mem => Nat.not_lt.2 above (inside m mem)]
      exact laid.free m above

lemma steps (laid : Laid p n d) (steps : Relation.ReflTransGen (Step p) d d') : Laid p n d' := by
  induction steps with
  | refl => exact laid
  | tail _ step ih => exact ih.step step

lemma opened (laid : Laid p n d) (more : n < p.order.length) : Laid p (n + 1) (Write.opened n d) := by
  have found (m : Nat) : (d.starts ++ [d.code.size])[m]? = if m = n then some d.code.size else d.starts[m]? := by
    rw [List.getElem?_append, laid.count]
    split
    · rw [if_neg (by omega)]
    · split
      · rename_i same
        rw [same, Nat.sub_self]
        rfl
      · rw [List.getElem?_eq_none (by simp; omega), List.getElem?_eq_none (by rw [laid.count]; omega)]
  refine ⟨laid.ids, laid.next, laid.bare, laid.room, laid.agrees, ?_, more, ?_, fun s mem => ?_, fun m mem => ?_,
    fun m s starts => ?_, fun m above => laid.free m (by omega)⟩
  · rw [Write.opened, List.length_append, laid.count]
    rfl
  · refine List.pairwise_append.2 ⟨laid.rising, List.pairwise_singleton _ _, fun s mem s' mem' => ?_⟩
    rw [List.mem_singleton.1 mem']
    exact laid.within s mem
  · rcases List.mem_append.1 mem with old | new
    · exact laid.within s old
    · exact (List.mem_singleton.1 new).le
  · change (d.starts ++ [d.code.size])[m]? = _ ∧ _
    rw [found]
    rcases List.mem_append.1 mem with old | new
    · rw [(laid.waits m old).1, ite_self]
      exact ⟨rfl, (laid.waits m old).2⟩
    · rw [List.mem_singleton.1 new, if_pos rfl]
      exact ⟨rfl, laid.free n (Nat.le_refl n)⟩
  · change (d.starts ++ [d.code.size])[m]? = _ at starts
    rw [found] at starts
    split at starts
    · rename_i same
      exact .inl (same ▸ List.mem_append_right _ List.mem_cons_self)
    · exact (laid.placed m s starts).imp_left (List.mem_append_left _)

end Draft.Laid

lemma Write.blocks_append {u : Unit} : (blocks p (bs ++ cs)).run d = .ok u d' ↔
    ∃ d₁, (blocks p bs).run d = .ok () d₁ ∧ (blocks p cs).run d₁ = .ok u d' := by
  induction bs generalizing d with
  | nil =>
    refine ⟨fun run => ⟨d, rfl, run⟩, fun ⟨d₁, first, run⟩ => ?_⟩
    obtain ⟨-, rfl⟩ := pure_eq_ok.1 first
    exact run
  | cons b bs ih =>
    rw [List.cons_append, blocks_cons_eq_ok]
    constructor
    · rintro ⟨m, d₁, labelled, written, rest⟩
      obtain ⟨d₂, first, last⟩ := ih.1 rest
      exact ⟨d₂, blocks_cons_eq_ok.2 ⟨m, d₁, labelled, written, first⟩, last⟩
    · rintro ⟨d₂, first, last⟩
      obtain ⟨m, d₁, labelled, written, rest⟩ := blocks_cons_eq_ok.1 first
      exact ⟨m, d₁, labelled, written, ih.2 ⟨d₂, rest, last⟩⟩

lemma Draft.starts_of_steps (steps : Relation.ReflTransGen (Step p) d d') : d'.starts = d.starts := by
  induction steps with
  | refl => rfl
  | tail _ step ih =>
    rw [← ih]
    cases step <;> rfl

lemma Draft.Laid.blocks {before after : List BlockId} {u : Unit} (laid : Laid p before.length d) (once : p.order.Nodup)
    (split : p.order = before ++ bs ++ after) (run : (Write.blocks p bs).run d = .ok u d') :
    Laid p (before ++ bs).length d' ∧ d.starts <+: d'.starts ∧
      (bs ≠ [] → d'.starts[before.length]? = some d.code.size) := by
  induction bs generalizing before d with
  | nil =>
    obtain ⟨-, rfl⟩ := Write.pure_eq_ok.1 run
    rw [List.append_nil]
    exact ⟨laid, List.prefix_rfl, fun some => absurd rfl some⟩
  | cons b bs ih =>
    obtain ⟨m, d₁, labelled, written, rest⟩ := Write.blocks_cons_eq_ok.1 run
    have here : p.order = before ++ b :: (bs ++ after) := by rw [split, List.append_assoc, List.cons_append]
    obtain rfl := Option.some.inj ((findIdx?_order once here).symm.trans (Write.label_eq_ok.1 labelled).1)
    have more : before.length < p.order.length := by
      rw [here, List.length_append]
      exact Nat.lt_add_of_pos_right (Nat.succ_pos _)
    have steps := Write.isMade_block b _ _ _ written
    have begun : Laid p (before ++ [b]).length d₁ := by
      rw [List.length_append]
      exact (laid.opened more).steps steps
    obtain ⟨all, starts, -⟩ := ih begun (by rw [split]; simp) rest
    have noted : d₁.starts = d.starts ++ [d.code.size] := Draft.starts_of_steps steps
    rw [noted] at starts
    refine ⟨by simpa using all, (List.prefix_append _ _).trans starts, fun _ => ?_⟩
    obtain ⟨more, eq⟩ := starts
    rw [← eq, List.append_assoc, List.getElem?_append_right laid.count.le, laid.count, Nat.sub_self]
    rfl

/-- The positions where blocks start, and the end of the code. -/
def Draft.bounds (d : Draft) : List Nat := d.starts ++ [d.code.size]

/-- When all blocks are written, their markers stand for the positions where they start. -/
structure Draft.Settled (p : Plan) (d : Draft) : Prop where
  agrees : d.code.markers.Agrees
  count : d.starts.length = p.order.length
  rising : d.bounds.Pairwise (· ≤ ·)
  resolves : ∀ m s, d.starts[m]? = some s → d.code.resolve? m = some s

lemma position?_of_ids {c : Code} {s : Nat} (ids : c.instrs.map (·.1) = List.range c.size) (inside : s < c.size) :
    c.position? s = some s := by
  have there : (c.instrs.map (·.1)).findIdx? (· == s) = some s := by
    rw [ids, List.findIdx?_eq_some_iff_getElem]
    refine ⟨by simpa using inside, by simp, fun j less => ?_⟩
    simpa using less.ne
  rwa [List.findIdx?_map] at there

lemma settled_of_finish {u : Unit} (laid : Draft.Laid p p.order.length d) (run : Write.finish.run d = .ok u d') :
    d'.Settled p ∧ d'.starts = d.starts ∧ d'.code.instrs = d.code.instrs ∧ d'.code.handlers = [] := by
  rw [Write.finish, Write.modify_eq_ok] at run
  subst run
  have inside (m : Marker) (mem : m ∈ d.pending) : m < d.code.markers.size := by
    rw [laid.room, ← laid.count]
    exact (List.getElem?_eq_some_iff.1 (laid.waits m mem).1).1
  obtain ⟨agrees, -, targets⟩ := MarkerTable.foldl_bind (a := .codeEnd) laid.agrees fun m mem =>
    ⟨inside m mem, .inl (laid.waits m mem).2⟩
  refine ⟨⟨agrees, laid.count, ?_, fun m s starts => ?_⟩, rfl, rfl, laid.bare⟩
  · refine List.pairwise_append.2 ⟨laid.rising, List.pairwise_singleton _ _, fun s mem s' mem' => ?_⟩
    rw [List.mem_singleton.1 mem']
    exact laid.within s mem
  · rw [Code.resolve?]
    dsimp only
    rw [targets]
    cases laid.placed m s starts with
    | inl waiting =>
      rw [if_pos waiting]
      exact (laid.waits m waiting).1.symm.trans starts
    | inr bound =>
      rw [if_neg fun waiting => ?_, bound.1]
      · exact position?_of_ids laid.ids bound.2
      · rw [(laid.waits m waiting).2] at bound
        cases bound.1

end Emit

end Avm
