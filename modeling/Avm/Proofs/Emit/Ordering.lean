import Avm.Proofs.Opt.Fixpoint
import Avm.Proofs.Emit.Placing

/-!
# The order of blocks

Blocks wait until they are placed.  What waits goes on from a block that has been placed, and where a placed block goes
on has been placed too or waits, unless it is the exit.  Each block is placed once, and only the blocks behind a placed
block come to wait, so at some point nothing waits any more.  Then the blocks that control can reach are placed, each
behind one from which control comes, and so behind all the blocks that control has to pass before.

The main statement is `preds_first_of_order`.
-/

namespace Avm.Ir.Func

variable {f : Func}

/-- Every way from the entry to the block passes another block first. -/
def StrictlyDominates (f : Func) (a b : BlockId) : Prop :=
  a ≠ b ∧ ∀ path : List BlockId, path.IsChain (fun s t => t ∈ f.succIds s) → path.head? = some entry →
    path.getLast? = some b → a ∈ path

end Avm.Ir.Func

namespace Avm.Emit

open Avm.Ir Avm.Ir.Func

/-- What waits behind a block that was placed last. -/
def behind (f : Func) (placed : List BlockId) (b : BlockId) (waiting : List BlockId) : List BlockId :=
  match f.block? b with
  | none => waiting
  | some block =>
    let next := preferred? block.terminator
    let open_ := block.succs.filter fun e => !placed.contains e.1
    let caught := (open_.filter (·.2 == .raise)).map (·.1)
    let others := (open_.filter fun e => e.2 != .raise && some e.1 != next).map (·.1)
    (next.filter fun t => !placed.contains t).toList ++ others ++ waiting ++ caught.reverse

/-- Takes the first block that waits.  It is placed, unless it is the exit or was placed before.  Where nothing waits,
nothing changes. -/
def turn (f : Func) : List BlockId × List BlockId → List BlockId × List BlockId
  | (placed, []) => (placed, [])
  | (placed, b :: waiting) =>
    if b = exit ∨ b ∈ placed then (placed, waiting) else (placed ++ [b], behind f (placed ++ [b]) b waiting)

variable {f : Func} {a b t : BlockId} {placed waiting : List BlockId} {s : List BlockId × List BlockId}

lemma turn_of_nil (done : s.2 = []) : turn f s = s := by
  obtain ⟨placed, waiting⟩ := s
  cases done
  rfl

lemma place_eq_turn (fuel : Nat) : place f fuel placed waiting = ((turn f)^[fuel] (placed, waiting)).1 := by
  induction fuel generalizing placed waiting with
  | zero => rfl
  | succ fuel ih =>
    cases waiting with
    | nil =>
      rw [place, Function.iterate_fixed (turn_of_nil rfl)]
      exact Nat.succ_ne_zero _
    | cons b waiting =>
      rw [Function.iterate_succ_apply, place, turn]
      split
      · exact ih
      · cases here : f.block? b with
        | none | some x =>
          simp only [behind, here]
          exact ih

section Waiting

variable {x : Block}

lemma mem_behind (wired : f.succs b = f.edgesOf b) (mem : t ∈ behind f placed b waiting) :
    t ∈ waiting ∨ t ∈ f.succIds b := by
  rw [behind] at mem
  split at mem
  · exact .inl mem
  · rename_i x here
    have edges : ∀ e ∈ x.succs, e.1 ∈ f.succIds b := fun e mem => by
      rw [← succs_of_block? here] at mem
      exact List.mem_map_of_mem mem
    simp only [List.mem_append, List.mem_map, List.mem_filter, List.mem_reverse, Option.mem_toList,
      Option.filter_eq_some_iff] at mem
    obtain ((⟨next, -⟩ | ⟨e, ⟨⟨mem, -⟩, -⟩, rfl⟩) | mem) | ⟨e, ⟨⟨mem, -⟩, -⟩, rfl⟩ := mem
    · obtain ⟨kind, goes⟩ := exists_mem_targets_of_preferred next
      rw [← terminator_of_block? here] at goes
      refine .inr (List.mem_map_of_mem (f := Prod.fst) (a := (t, kind)) ?_)
      rw [wired, edgesOf_eq]
      exact mem_edgesFrom.2 (.inl goes)
    · exact .inr (edges e mem)
    · exact .inl mem
    · exact .inr (edges e mem)

lemma mem_behind_of_mem (mem : t ∈ waiting) : t ∈ behind f placed b waiting := by
  rw [behind]
  split
  · exact mem
  · exact List.mem_append_left _ (List.mem_append_right _ mem)

lemma mem_behind_of_mem_succIds (goes : t ∈ f.succIds b) (fresh : t ∉ placed) : t ∈ behind f placed b waiting := by
  obtain ⟨e, edge, rfl⟩ := List.mem_map.1 goes
  obtain ⟨x, here⟩ := Option.isSome_iff_exists.1 (isSome_of_mem_succs edge)
  rw [succs_of_block? here] at edge
  have unplaced : e ∈ x.succs.filter fun e => !placed.contains e.1 := by
    simpa using ⟨edge, fresh⟩
  rw [behind, here]
  simp only [List.mem_append, List.mem_reverse, Option.mem_toList]
  by_cases raises : e.2 = .raise
  · exact .inr (List.mem_map_of_mem (List.mem_filter.2 ⟨unplaced, by simp [raises]⟩))
  · by_cases next : preferred? x.terminator = some e.1
    · exact .inl (.inl (.inl (Option.filter_eq_some_iff.2 ⟨next, by simpa using fresh⟩)))
    · refine .inl (.inl (.inr (List.mem_map_of_mem (List.mem_filter.2 ⟨unplaced, ?_⟩))))
      simpa [raises] using Ne.symm next

lemma length_behind_le : (behind f placed b waiting).length ≤
    waiting.length + if (f.block? b).isSome then (f.succs b).length + 1 else 0 := by
  rw [behind]
  split
  · exact Nat.le_add_right _ _
  · rename_i x here
    rw [here, Option.isSome_some, if_pos rfl, succs_of_block? here]
    generalize unplaced : (x.succs.filter fun e => !placed.contains e.1) = es
    have fewer : es.length ≤ x.succs.length := by
      rw [← unplaced]
      exact List.length_filter_le _ _
    have once : ((preferred? x.terminator).filter fun t => !placed.contains t).toList.length ≤ 1 :=
      Option.length_toList_le
    have apart : (es.filter fun e => e.2 != .raise && some e.1 != preferred? x.terminator).length +
        (es.filter (·.2 == .raise)).length ≤ es.length := by
      rw [es.length_eq_length_filter_add fun e => e.2 == .raise, Nat.add_comm]
      refine Nat.add_le_add_left (List.monotone_filter_right es fun e both => ?_).length_le _
      exact (Bool.and_eq_true_iff.1 both).1
    simp only [List.length_append, List.length_map, List.length_reverse]
    omega

end Waiting

/-- What holds between two turns. -/
structure Orderly (f : Func) (s : List BlockId × List BlockId) : Prop where
  /-- No block is placed twice. -/
  once : s.1.Nodup
  /-- The exit is not placed. -/
  inner : exit ∉ s.1
  /-- The entry has been placed or waits. -/
  starts : entry ∈ s.1 ∨ entry ∈ s.2
  /-- A block was placed behind one that goes on there. -/
  comes : ∀ before b rest, s.1 = before ++ b :: rest → b = entry ∨ ∃ a ∈ before, b ∈ f.succIds a
  /-- What waits goes on from a block that was placed. -/
  waits : ∀ b ∈ s.2, b = entry ∨ ∃ a ∈ s.1, b ∈ f.succIds a
  /-- Where a placed block goes on has been placed or waits. -/
  goes : ∀ a ∈ s.1, ∀ b ∈ f.succIds a, b = exit ∨ b ∈ s.1 ∨ b ∈ s.2

lemma orderly_start : Orderly f ([], [entry]) where
  once := List.nodup_nil
  inner := List.not_mem_nil
  starts := .inr List.mem_cons_self
  comes before b rest split := by simp at split
  waits b mem := .inl (List.mem_singleton.1 mem)
  goes a mem := by cases mem

lemma orderly_turn (wired : ∀ b, f.succs b = f.edgesOf b) (h : Orderly f s) : Orderly f (turn f s) := by
  obtain ⟨placed, waiting⟩ := s
  cases waiting with
  | nil => exact h
  | cons b waiting =>
    rw [turn]
    split
    · rename_i skipped
      -- The exit and what has been placed need not wait.
      have kept : ∀ c, c ∈ b :: waiting → c = exit ∨ c ∈ placed ∨ c ∈ waiting := by
        intro c mem
        obtain rfl | mem := List.mem_cons.1 mem
        · exact skipped.imp_right .inl
        · exact .inr (.inr mem)
      refine ⟨h.once, h.inner, ?_, h.comes, fun c mem => h.waits c (List.mem_cons_of_mem _ mem), fun a mem c out => ?_⟩
      · exact h.starts.elim .inl fun mem => (kept _ mem).resolve_left (by decide)
      · obtain rfl | mem | mem := h.goes a mem c out
        · exact .inl rfl
        · exact .inr (.inl mem)
        · exact kept c mem
    · rename_i new
      obtain ⟨other, new⟩ := not_or.1 new
      refine ⟨?_, ?_, ?_, ?_, ?_, ?_⟩
      · rw [← List.concat_eq_append]
        exact h.once.concat new
      · rw [List.mem_append, List.mem_singleton, not_or]
        exact ⟨h.inner, fun same => other same.symm⟩
      · rw [List.mem_append, List.mem_singleton]
        obtain mem | mem := h.starts
        · exact .inl (.inl mem)
        · obtain here | mem := List.mem_cons.1 mem
          · exact .inl (.inr here)
          · exact .inr (mem_behind_of_mem mem)
      · intro before c rest split
        obtain ⟨rfl, rfl, rfl⟩ | ⟨rest', -, split⟩ : (placed = before ∧ b = c ∧ rest = []) ∨
            ∃ rest', rest = rest' ++ [b] ∧ placed = before ++ c :: rest' := by
          cases rest using List.reverseRecOn with
          | nil => exact .inl (by simpa using List.append_inj' split rfl)
          | append_singleton rest' x =>
            rw [← List.cons_append, ← List.append_assoc] at split
            obtain ⟨same, last⟩ := List.append_inj' split rfl
            obtain rfl := List.singleton_injective last
            exact .inr ⟨rest', rfl, same⟩
        · exact h.waits b List.mem_cons_self
        · exact h.comes before c rest' split
      · intro c mem
        obtain mem | mem := mem_behind (wired b) mem
        · obtain first | ⟨a, there, out⟩ := h.waits c (List.mem_cons_of_mem _ mem)
          · exact .inl first
          · exact .inr ⟨a, List.mem_append_left _ there, out⟩
        · exact .inr ⟨b, List.mem_append_right _ (List.mem_singleton_self b), mem⟩
      · intro a mem c out
        by_cases there : c ∈ placed ++ [b]
        · exact .inr (.inl there)
        obtain mem | mem := List.mem_append.1 mem
        · obtain last | mem | mem := h.goes a mem c out
          · exact .inl last
          · exact absurd (List.mem_append_left _ mem) there
          · obtain rfl | mem := List.mem_cons.1 mem
            · exact absurd (List.mem_append_right _ (List.mem_singleton_self c)) there
            · exact .inr (.inr (mem_behind_of_mem mem))
        · obtain rfl := List.mem_singleton.1 mem
          exact .inr (.inr (mem_behind_of_mem_succIds out there))

lemma orderly_iterate (wired : ∀ b, f.succs b = f.edgesOf b) (turns : Nat) :
    Orderly f ((turn f)^[turns] ([], [entry])) := by
  induction turns with
  | zero => exact orderly_start
  | succ turns ih =>
    rw [Function.iterate_succ_apply']
    exact orderly_turn wired ih

section Effort

/-- How many turns are left at most: one for each block that waits, and those that come to wait behind the blocks that
were not placed. -/
def effort (f : Func) (s : List BlockId × List BlockId) : Nat :=
  s.2.length + ((f.blockIds.filter fun b => b ∉ s.1).map fun b => (f.succs b).length + 1).sum

lemma sum_unplaced (new : b ∉ placed) : (if (f.block? b).isSome then (f.succs b).length + 1 else 0) +
    ((f.blockIds.filter fun c => c ∉ placed ++ [b]).map fun c => (f.succs c).length + 1).sum ≤
      ((f.blockIds.filter fun c => c ∉ placed).map fun c => (f.succs c).length + 1).sum := by
  have split : (f.blockIds.filter fun c => c ∉ placed ++ [b]) =
      (f.blockIds.filter fun c => c ∉ placed).filter (· != b) := by
    rw [List.filter_filter]
    refine List.filter_congr fun c _ => ?_
    by_cases same : c = b <;> simp [same]
  rw [split]
  split_ifs with live
  · have mem : b ∈ f.blockIds.filter fun c => c ∉ placed := by
      simpa using ⟨mem_blockIds.2 live, new⟩
    have perm := List.perm_cons_erase mem
    have once : (f.blockIds.filter fun c => c ∉ placed).Nodup := nodup_blockIds.filter _
    rw [(perm.map _).sum_eq, List.map_cons, List.sum_cons, once.erase_eq_filter]
  · rw [Nat.zero_add]
    exact (List.filter_sublist.map _).sum_le_sum fun n _ => n.zero_le

lemma effort_turn (waits : s.2 ≠ []) : effort f (turn f s) < effort f s := by
  obtain ⟨placed, waiting⟩ := s
  cases waiting with
  | nil => exact absurd rfl waits
  | cons b waiting =>
    rw [turn]
    split
    · simp [effort]
    · rename_i new
      have more : (behind f (placed ++ [b]) b waiting).length ≤ _ := length_behind_le
      have less := sum_unplaced (f := f) (not_or.1 new).2
      simp only [effort, List.length_cons]
      omega

lemma waits_iterate {turns : Nat} (enough : effort f s ≤ turns) : ((turn f)^[turns] s).2 = [] := by
  induction turns generalizing s with
  | zero => exact List.length_eq_zero_iff.1 (Nat.le_zero.1 (Nat.le_trans (Nat.le_add_right _ _) enough))
  | succ turns ih =>
    by_cases done : s.2 = []
    · rw [Function.iterate_fixed (turn_of_nil done), done]
    · rw [Function.iterate_succ_apply]
      exact ih (Nat.le_of_lt_succ (Nat.lt_of_lt_of_le (effort_turn done) enough))

end Effort

lemma exists_turns_of_order (f : Func) : ∃ turns, (turn f)^[turns] ([], [entry]) = (order f, []) := by
  have count : f.blockIds.foldl (fun n b => n + (f.succs b).length + 1) 0 + 1 = effort f ([], [entry]) := by
    simp only [effort, List.not_mem_nil, not_false_eq_true, decide_true, List.filter_true, List.length_singleton,
      List.sum_eq_foldl, List.foldl_map, Nat.add_assoc]
    exact Nat.add_comm _ _
  refine ⟨_, Prod.ext ?_ (waits_iterate (Nat.le_refl _))⟩
  rw [order, count]
  exact (place_eq_turn _).symm

lemma orderly_order (wired : ∀ b, f.succs b = f.edgesOf b) : Orderly f (order f, []) := by
  obtain ⟨turns, ends⟩ := exists_turns_of_order f
  rw [← ends]
  exact orderly_iterate wired turns

section Paths

variable {before rest : List BlockId}

/-- Control gets to a placed block by a way on which all other blocks are placed before it. -/
lemma exists_path_of_orderly (h : Orderly f s) (placed : s.1 = before ++ b :: rest) :
    ∃ path : List BlockId, path.IsChain (fun s t => t ∈ f.succIds s) ∧ path.head? = some entry ∧
      path.getLast? = some b ∧ ∀ x ∈ path, x = b ∨ x ∈ before := by
  induction size : before.length using Nat.strong_induction_on generalizing before b rest with
  | _ n ih =>
    obtain rfl | ⟨a, mem, goes⟩ := h.comes before b rest placed
    · exact ⟨[entry], .singleton _, rfl, rfl, fun x mem => .inl (List.mem_singleton.1 mem)⟩
    · obtain ⟨front, back, rfl⟩ := List.append_of_mem mem
      have earlier : s.1 = front ++ a :: (back ++ b :: rest) := by rw [placed, List.append_assoc, List.cons_append]
      obtain ⟨path, chain, first, last, inside⟩ := ih front.length (by simp [← size]) earlier rfl
      refine ⟨path ++ [b], List.isChain_append.2 ⟨chain, .singleton _, ?_⟩, ?_, List.getLast?_concat, fun x mem => ?_⟩
      · intro x atEnd y atStart
        obtain rfl := Option.some.inj (last.symm.trans atEnd)
        obtain rfl := Option.some.inj atStart
        exact goes
      · rw [List.head?_append, first]
        rfl
      · obtain mem | mem := List.mem_append.1 mem
        · obtain rfl | mem := inside x mem
          · exact .inr (List.mem_append_right _ List.mem_cons_self)
          · exact .inr (List.mem_append_left _ mem)
        · exact .inl (List.mem_singleton.1 mem)

lemma leads_of_isChain {path : List BlockId} (chain : path.IsChain fun s t => t ∈ f.succIds s)
    (first : path.head? = some a) (last : path.getLast? = some b) : f.Leads a b := by
  have some : path ≠ [] := by
    rintro rfl
    cases first
  have leads := List.relationReflTransGen_of_exists_isChain path chain some
  rwa [Option.some.inj ((List.head?_eq_some_head some).symm.trans first),
    Option.some.inj ((List.getLast?_eq_some_getLast some).symm.trans last)] at leads

/-- Where nothing waits any more, all blocks that control can reach have been placed, other than the exit. -/
lemma mem_of_leads (h : Orderly f s) (done : s.2 = []) (last : f.succs exit = []) (leads : f.Leads entry b) :
    b = exit ∨ b ∈ s.1 := by
  induction leads with
  | refl =>
    refine .inr (h.starts.resolve_right fun mem => ?_)
    rw [done] at mem
    cases mem
  | tail _ step ih =>
    obtain rfl | mem := ih
    · rw [succIds, last] at step
      cases step
    · obtain here | mem | mem := h.goes _ mem _ step
      · exact .inl here
      · exact .inr mem
      · rw [done] at mem
        cases mem

end Paths

/-- Of a graph that passes the check and whose exit leads nowhere, the order of blocks is found by a loop that ends.  It
has the blocks that control can reach other than the exit, each once.  The entry comes first, each
other block behind one of those from which control comes, and so behind all those that dominate it. -/
theorem preds_first_of_order (f : Func) (verified : f.verify = .ok ()) (last : f.succs exit = []) :
    (∃ turns, (turn f)^[turns] ([], [entry]) = (order f, [])) ∧ (order f).Nodup ∧ (order f).head? = some entry ∧
      (∀ b, b ∈ order f ↔ f.Leads entry b ∧ b ≠ exit) ∧
      ∀ before b rest, order f = before ++ b :: rest →
        (b ≠ entry → ∃ a ∈ before, ∃ kind, (b, kind) ∈ f.succs a ∧ (a, kind) ∈ f.preds b) ∧
        ∀ a, f.StrictlyDominates a b → a ∈ before := by
  have wired := wired_of_verify verified
  have h := orderly_order wired
  refine ⟨exists_turns_of_order f, h.once, ?_, fun b => ⟨fun mem => ?_, fun ⟨leads, inner⟩ => ?_⟩,
    fun before b rest placed => ⟨?_, ?_⟩⟩
  · -- Nothing is placed before the first block, so it can only be the entry.
    have some : entry ∈ order f := h.starts.resolve_right List.not_mem_nil
    cases placed : order f with
    | nil => simp [placed] at some
    | cons b rest =>
      obtain rfl | ⟨a, mem, -⟩ := h.comes [] b rest placed
      · rfl
      · cases mem
  · obtain ⟨before, rest, placed⟩ := List.append_of_mem mem
    obtain ⟨path, chain, first, last, -⟩ := exists_path_of_orderly h placed
    exact ⟨leads_of_isChain chain first last, fun same => h.inner (same ▸ mem)⟩
  · exact (mem_of_leads h rfl last leads).resolve_left inner
  · intro other
    obtain ⟨a, mem, goes⟩ := (h.comes before b rest placed).resolve_left other
    obtain ⟨⟨t, kind⟩, edge, rfl⟩ := List.mem_map.1 goes
    obtain ⟨x, here⟩ := Option.isSome_iff_exists.1 (isSome_of_mem_succs edge)
    refine ⟨a, mem, kind, edge, ?_⟩
    rw [succs_of_block? here] at edge
    exact (verifyBlock_eq_ok.1 (verify_eq_ok.1 verified a x here)).2.1 _ edge
  · rintro a ⟨other, passes⟩
    obtain ⟨path, chain, first, last, inside⟩ := exists_path_of_orderly h placed
    exact (inside a (passes path chain first last)).resolve_left other

/-- A loop with a handler around its body. -/
def guardedLoop : List Change :=
  [.addBlock, .addBlock, .addBlock, .addBlock, .setTerminator 0 (.goto 2),
    .setTerminator 2 (.branch .truthy [.reg 0 0] 3 4), .setTerminator 3 (.jump 2), .setTerminator 4 (.leave none),
    .setTerminator 5 (.leave none), .addHandler ⟨5, 0, 0⟩, .setHandlers 3 [0]]

/-- The handler comes last, behind the blocks that dominate it. -/
theorem preds_first_of_order_guarded : ∃ f, build? guardedLoop (.new 0 0 {} 1) = some f ∧ f.verify = .ok () ∧
    f.succs exit = [] ∧ order f = [0, 2, 4, 3, 5] ∧ f.Leads entry 5 ∧ ∀ a, f.StrictlyDominates a 5 →
      a ∈ [0, 2, 4, 3] := by
  have facts : (build? guardedLoop (.new 0 0 {} 1)).any (fun f => (f.block? entry).isSome && f.verify.isOk &&
      decide (f.succs exit = [] ∧ order f = [0, 2, 4, 3, 5])) = true := by decide +kernel
  obtain ⟨f, built, checked, last, placed⟩ := exists_checked facts
  obtain ⟨-, -, -, mem, behind⟩ := preds_first_of_order f checked.verified last
  refine ⟨f, built, checked.verified, last, placed, ((mem 5).1 ?_).1, (behind [0, 2, 4, 3] 5 [] placed).2⟩
  rw [placed]
  decide

end Avm.Emit
