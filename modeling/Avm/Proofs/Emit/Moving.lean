import Avm.Proofs.Emit.Parting
import Avm.Proofs.Emit.Staying

/-!
# Moving the values of phis

At the end of a block that goes on to one other block, the values that the phis there take are
fetched one after another, and only then popped into the registers of the phis.  So each phi gets
what its value was before any of them was set, even where phis take the values of one another.

The main statement is `moves_parallel`.
-/

namespace Avm.Emit

open Avm.Ir Avm.Ir.Func

variable {f : Func} {p : Plan} {d d' : Draft} {v : ValueId} {vs : List ValueId} {b : BlockId} {pool : Pool}

namespace Write

/-- Values on the operand stack, the first one on top, go to the registers of nodes, and all others stay. -/
lemma follow_popInto {u : Unit} (once : vs.Nodup)
    (results : ∀ v ∈ vs, (p.func.kind? v).any NodeKind.producesValue = true)
    (apart : d'.Apart p) (few : d'.temps.length ≤ wordBound) (run : (popInto vs).run d = .ok u d') :
      ∃ is, d'.written = d.written ++ is ∧
      ∀ {V : Type} {I : Interp V} {P : Pool} {m : Machine V}, m.stack.length = vs.length →
        ∃ registers, Machine.follow P I is m = some (.passes { m with stack := [], registers := registers }) ∧
          (∀ e ∈ vs.zip m.stack, ∃ r, d'.temps.lookup e.1 = some r ∧ registers r = e.2) ∧
            ∀ r, (∀ v ∈ vs, d'.temps.lookup v ≠ some r) → registers r = m.registers r := by
  induction vs generalizing d with
  | nil =>
    obtain ⟨-, rfl⟩ := pure_eq_ok.1 run
    refine ⟨[], (List.append_nil _).symm, fun {V I P m} length => ⟨m.registers, ?_, nofun, fun _ _ => rfl⟩⟩
    rw [Machine.follow, ← List.eq_nil_of_length_eq_zero length]
  | cons v vs ih =>
    obtain ⟨r, d₁, asked, rest⟩ := bind_eq_ok.1 run
    obtain ⟨_, d₂, pushed, rest⟩ := bind_eq_ok.1 rest
    obtain ⟨new, once⟩ := List.nodup_cons.1 once
    obtain ⟨-, results⟩ := List.forall_mem_cons.1 results
    have put := puts_push pushed
    obtain ⟨is, written, through⟩ := ih once results rest
    have own : d'.temps.lookup v = some r := by
      refine ((isMade_popInto results).isGrowth _ _ _ rest).temps v r ?_
      rw [put.temps]
      exact lookup_of_temp asked
    refine ⟨.setLocal r :: is, ?_, fun {V I P m} length => ?_⟩
    · rw [written, put.written, (written_of_temp asked).1, List.append_assoc, List.singleton_append]
    · cases stack : m.stack with
      | nil =>
        rw [stack] at length
        cases length
      | cons y ys =>
        have first : Machine.follow P I [.setLocal r] m = some (.passes ({ m with stack := ys }.set r y)) :=
          Machine.follow_setLocal stack
        rw [stack] at length
        obtain ⟨registers, passes, moved, kept⟩ := through (I := I) (P := P) (m := { m with stack := ys }.set r y)
          (Nat.succ.inj length)
        -- The register is not set again, since no other node has it.
        have mine : registers r = y := by
          rw [kept r fun w mem known => new (apart.inj few own known ▸ mem)]
          exact Function.update_self ..
        refine ⟨registers, ?_, List.forall_mem_cons.2 ⟨⟨r, own, mine⟩, moved⟩, fun r' other => ?_⟩
        · rw [← List.singleton_append, Machine.follow_append_passes first, passes]
          rfl
        · obtain ⟨ne, others⟩ := List.forall_mem_cons.1 other
          rw [kept r' others]
          refine Function.update_of_ne ?_ _ _
          rintro rfl
          exact ne own

end Write

lemma exists_mem_zip {V : Type} {read : Value → Option V} {ms : List (ValueId × Value)} {ys : List V} {x : Value}
    (worths : (ms.map (·.2)).map read = ys.map some) (mem : (v, x) ∈ ms) :
    ∃ y, (v, y) ∈ (ms.map (·.1)).zip ys ∧ read x = some y := by
  induction ms generalizing ys with
  | nil => cases mem
  | cons m ms ih =>
    cases ys with
    | nil => cases worths
    | cons y ys =>
      obtain ⟨first, rest⟩ := List.cons.inj worths
      rcases List.mem_cons.1 mem with rfl | later
      · exact ⟨y, List.mem_cons_self, first⟩
      · obtain ⟨z, there, worth⟩ := ih rest later
        exact ⟨z, List.mem_cons_of_mem _ there, worth⟩

/-- Writing has come to the end of a block: the blocks before it are written, and what comes before its end. -/
def Draft.AtEnd (f : Func) (pool : Pool) (b : BlockId) (d : Draft) : Prop :=
  ∃ before after m d₀, (Plan.ofFunc f).order = before ++ b :: after ∧
    (Write.blocks (Plan.ofFunc f) before).run (.start (Plan.ofFunc f) pool) = .ok () d₀ ∧
      (Write.label (Plan.ofFunc f) b).run d₀ = .ok m d₀ ∧ (Write.front (Plan.ofFunc f) b).run (Write.opened m d₀) =
        .ok () d

lemma Draft.AtEnd.grows (writing : d.AtEnd f pool b) : Draft.Grows (Plan.ofFunc f) (.start (Plan.ofFunc f) pool) d := by
  obtain ⟨before, after, m, d₀, -, written, -, front⟩ := writing
  have blocks := Write.isGrowth_blocks before _ _ _ written
  exact (blocks.trans (Write.grows_opened m)).trans ((Write.isMade_front b).isGrowth _ _ _ front)

/-- The namespaces that operands name are in the pool. -/
def Named (f : Func) (pool : Pool) : Prop := ∀ x ∈ f.allOperands, pool.Names x

/-- What is written between two drafts gives the phis of a block, as far as they are used, what
comes in by an edge, as a machine has it before any of them is set.  All other registers stay, and
nothing is left on the operand stack, where the first value may lie before if a node has left it there. -/
def Draft.Copies (f : Func) (b : BlockId) (kind : EdgeKind) (target : BlockId) (d d' : Draft) : Prop :=
  ∃ is, d'.written = d.written ++ is ∧ ∀ (V : Type) (I : Interp V) (P : Pool) (m : Machine V), I.OneNaN →
    d'.pool.Extends P → m.stack.length = (Plan.ofFunc f).ahead ((Plan.ofFunc f).endOperands b (f.terminator b)) →
      ∃ registers, Machine.follow P I is m = some (.passes { m with stack := [], registers := registers }) ∧
        (∀ v ∈ f.phis target, (Plan.ofFunc f).isUsed v = true → ∃ r x, d'.temps.lookup v = some r ∧
          f.incoming v b kind = some x ∧ reads I (Plan.ofFunc f) d.temps m x = some (registers r)) ∧
        ∀ r, (∀ v ∈ f.phis target, (Plan.ofFunc f).isUsed v = true → d'.temps.lookup v ≠ some r) →
          registers r = m.registers r

/-- At the end of a block that goes on to one block, phis get their values all at once.  If critical edges are split
first, all phis that are reached without an exception get their values there.  Nodes are numbered by words, so that no
two of them get the same register. -/
theorem moves_parallel (linked : Linked (fun _ => False) f) (checked : f.Checked) :
    (∀ (pool : Pool) (d d' : Draft) (b target : BlockId) (kind : EdgeKind), f.nodes.size ≤ wordBound →
      Named f pool → d.AtEnd f pool b →
      Plan.onlyEdge? (f.terminator b) = some (kind, target) →
        (Write.moves (Plan.ofFunc f) b kind target).run d = .ok () d' → Draft.Copies f b kind target d d') ∧
      ∃ g, splitCriticalEdges.run f = .ok () g ∧ ∀ s t kind, (t, kind) ∈ g.succs s → g.phis t ≠ [] → kind ≠ .raise →
        kind ≠ .leave → Plan.onlyEdge? (g.terminator s) = some (kind, t) := by
  refine ⟨fun pool d d' b target kind numbered named writing only run => ?_, ?_⟩
  · have filed := checked.toFiled
    have before := writing.grows
    have apart' := (((Write.isMade_moves b kind target).isGrowth _ _ _ run).apart ∘ before.apart)
      (Draft.apart_start pool)
    have few : d'.temps.length ≤ wordBound := Nat.le_trans apart'.length_le numbered
    obtain ⟨ms, d₁, asked, rest⟩ := Write.bind_eq_ok.1 run
    obtain ⟨moved, rfl⟩ := Write.ofExcept_eq_ok.1 asked
    obtain ⟨_, d₂, read, pops⟩ := Write.bind_eq_ok.1 rest
    obtain ⟨listed, values⟩ := Plan.phiMoves_eq_ok moved
    have ends : (Plan.ofFunc f).endOperands b (f.terminator b) = ms.map (·.2) := by
      rw [Plan.endOperands, only]
      dsimp only
      rw [moved]
      rfl
    have once : (ms.map (·.1)).Nodup := by
      rw [listed]
      exact (((List.nodup_append.1 (filed.nodup target)).1).filter _).filter _
    have used (v : ValueId) : v ∈ ms.map (·.1) ↔ v ∈ f.phis target ∧ (Plan.ofFunc f).isUsed v = true := by
      rw [listed, List.mem_filter, List.mem_filter]
      exact ⟨And.left, fun mem => ⟨mem, filed.phi target v mem.1⟩⟩
    have results : ∀ v ∈ (ms.map (·.1)).reverse, ((Plan.ofFunc f).func.kind? v).any NodeKind.producesValue = true :=
      fun v mem => producesValue_of_inputs? (filed.phi target v ((used v).1 (List.mem_reverse.1 mem)).1)
    obtain ⟨is, puts, fetched⟩ := Write.follow_values (not_stays_of_mem_phiMoves filed.toListed moved) read
    obtain ⟨js, written, popped⟩ := Write.follow_popInto (List.nodup_reverse.2 once) results apart' few pops
    refine ⟨is ++ js, by rw [written, puts.written, List.append_assoc], fun V I P m nan later deep => ?_⟩
    have longer : d₂.pool.Extends P := ((Write.isMade_popInto results).isGrowth _ _ _ pops).pool.trans later
    have known : ∀ x ∈ ms.map (·.2), P.Names x := by
      intro x mem
      obtain ⟨e, there, rfl⟩ := List.mem_map.1 mem
      apply Pool.Names.mono _ (before.pool.trans (puts.pool.trans longer))
      exact named _ (mem_allOperands_of_taken (mem_taken_of_incoming (values e there)))
    rw [ends] at deep
    obtain ⟨ys, worths, passes⟩ := fetched longer nan known deep
    have length : ys.length = ms.length := by simpa using (congrArg List.length worths).symm
    obtain ⟨registers, passes', set, kept⟩ :=
      popped (I := I) (P := P) (m := { m with stack := ys.reverse }) (by simp [length])
    refine ⟨registers, by rw [Machine.follow_append_passes passes, passes'], fun v mem isUsed => ?_, fun r other => ?_⟩
    · obtain ⟨⟨w, x⟩, there, same⟩ := List.mem_map.1 ((used v).2 ⟨mem, isUsed⟩)
      obtain rfl : w = v := same
      obtain ⟨y, pair, worth⟩ := exists_mem_zip worths there
      have pair' : (w, y) ∈ (ms.map (·.1)).reverse.zip ys.reverse := by
        rw [List.zip, ← List.reverse_zipWith (by simp [length])]
        exact List.mem_reverse.2 pair
      obtain ⟨r, own, value⟩ := set (w, y) pair'
      exact ⟨r, x, own, values _ there, by rw [worth, value]⟩
    · apply kept
      intro v mem
      obtain ⟨phi, isUsed⟩ := (used v).1 (List.mem_reverse.1 mem)
      exact other v phi isUsed
  · obtain ⟨g, run, -, -, leaves⟩ := exists_splitCriticalEdges linked
    exact ⟨g, run, leaves⟩

/-- Two phis of a loop are exchanged each time around. -/
def swapping : List Change :=
  [.addBlock, .addBlock, .addBlock, .setTerminator 0 (.goto 2), .setTerminator 2 (.branch .truthy [.reg 0 0] 3 4),
    .setTerminator 3 (.jump 2), .setTerminator 4 (.leave none),
    .appendNode 2 (.phi [⟨.const (.int 5), 0, .fallthrough⟩, ⟨.node 1, 3, .jump⟩]),
    .appendNode 2 (.phi [⟨.reg 1 0, 0, .fallthrough⟩, ⟨.node 0, 3, .jump⟩])]

/-- The end of the block behind the head of the loop is written, and no operand is a namespace. -/
def Swaps (f : Func) : Prop :=
  (Plan.ofFunc f).order = [0, 2, 4, 3] ∧ f.nodes.size ≤ wordBound ∧ Plan.onlyEdge? (f.terminator 3) = some (.jump, 2) ∧
    (f.allOperands.all fun x => !(x matches .const (.ns _))) = true ∧ f.incoming 0 3 .jump = some (.node 1) ∧
      f.incoming 1 3 .jump = some (.node 0) ∧
        (((Draft.behind? (Write.blocks (Plan.ofFunc f) [0, 2, 4]) (.start (Plan.ofFunc f) {})).bind fun d₀ =>
          Draft.behind? (Write.front (Plan.ofFunc f) 3) (Write.opened 3 d₀)).any fun d =>
            (Draft.behind? (Write.moves (Plan.ofFunc f) 3 .jump 2) d).isSome) = true

instance (f : Func) : Decidable (Swaps f) := inferInstanceAs (Decidable (_ ∧ _))

/-- Each of the two phis gets what the other one was. -/
theorem moves_parallel_swapping : ∃ f d d', build? swapping (.new 0 1 {} 2) = some f ∧ Linked (fun _ => False) f ∧
    f.Checked ∧ f.nodes.size ≤ wordBound ∧ Named f {} ∧ d.AtEnd f {} 3 ∧
      (Write.moves (Plan.ofFunc f) 3 .jump 2).run d = .ok () d' ∧
      f.incoming 0 3 .jump = some (.node 1) ∧ f.incoming 1 3 .jump = some (.node 0) ∧
        Draft.Copies f 3 .jump 2 d d' := by
  have facts : (build? swapping (.new 0 1 {} 2)).any
      (fun f => (f.block? entry).isSome && f.verify.isOk && decide (Swaps f)) = true := by decide +kernel
  obtain ⟨f, built, checked, placed, numbered, only, plain, first, second, written⟩ := exists_checked facts
  obtain ⟨linked, -⟩ := build?_keeps linked_new filed_new built
  obtain ⟨d, reached, moved⟩ := (Option.any_eq_true _ _).1 written
  obtain ⟨d₀, blocks, front⟩ := Option.bind_eq_some_iff.1 reached
  obtain ⟨d', moved⟩ := Option.isSome_iff_exists.1 moved
  have moves := Draft.behind?_eq_some.1 moved
  have named : Named f {} := by
    intro x mem n same
    have ordinary := List.all_eq_true.1 plain x mem
    rw [same] at ordinary
    cases ordinary
  have writing : d.AtEnd f {} 3 := by
    refine ⟨[0, 2, 4], [], 3, d₀, placed, Draft.behind?_eq_some.1 blocks, ?_, Draft.behind?_eq_some.1 front⟩
    rw [Write.label_eq_ok, placed]
    exact ⟨rfl, rfl⟩
  exact ⟨f, d, d', built, linked, checked, numbered, named, writing, moves, first, second,
    (moves_parallel linked checked).1 {} d d' 3 2 .jump numbered named writing only moves⟩

end Avm.Emit
