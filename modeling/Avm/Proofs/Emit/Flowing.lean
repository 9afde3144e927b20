import Avm.Proofs.Emit.Backing
import Avm.Proofs.Emit.Closing

/-!
# The control flow of written code

The instructions of a block hand control to the next one up to the end of the block, and the end leads to where blocks
start.  So control never gets behind the last instruction, and code that is written has a control flow graph.  Where the
end of a block leads to a block that does not come later in the order, an edge does too, and so the target starts with a
label.

The main statement is `flows_of_emit`.
-/

namespace Avm

/-- The operands suit the flow of an instruction that does not just hand control on. -/
def Instruction.Suits (i : Instruction Marker) : Prop :=
  match i.opcode.flow, i.operands with
  | .jump, .branch _ | .conditional, .branch _ | .switch, .switch .. | .leave, _ | .raise, _ => True
  | _, _ => False

namespace Code

variable {code : Code} {i : Instruction Marker} {q t : Nat} {kind : EdgeKind}

lemma defined_of_suits (suits : i.Suits) (targets : ∀ m ∈ i.targets, ∃ q, code.BranchesTo m q)
    (next : i.opcode.flow = .conditional → q + 1 < code.size) : code.Defined q i := by
  obtain ⟨o, operands⟩ := i
  rw [Instruction.Suits] at suits
  rw [Defined]
  cases flow : o.flow <;> cases operands <;> simp only [flow] at suits next ⊢
  all_goals simp_all [Instruction.targets, Operands.targets]

lemma Way.next_or_target (way : code.Way q i kind t) : t = q + 1 ∨ ∃ m ∈ i.targets, code.BranchesTo m t := by
  have targets {operands : Operands Marker} (same : i.operands = operands) : i.targets = operands.targets :=
    congrArg Operands.targets same
  cases way with
  | next | whenFalse => exact .inl rfl
  | jump flow same leads | whenTrue flow same leads | switchDefault flow same leads =>
    exact .inr ⟨_, by rw [targets same]; exact List.mem_cons_self, leads⟩
  | switchCase flow same found leads =>
    exact .inr ⟨_, by rw [targets same]; exact List.mem_cons_of_mem _ (List.mem_of_getElem? found), leads⟩

end Code

end Avm

namespace Avm.Emit

open Avm.Ir Avm.Ir.Func

variable {f : Func} {p : Plan} {d : Draft} {b : BlockId} {t : Terminator} {js ks : List (Instruction Marker)}
  {i : Instruction Marker} {id : InstrId} {pool : Pool} {j q : Nat} {m : Marker}

lemma flow_of_inverseBranch {kind : BranchKind} {o : Opcode} (h : kind.opcode.inverseBranch = some o) :
    o.flow = .conditional := by
  revert h
  cases kind <;> (rintro ⟨⟩; rfl)

lemma flow_of_branchKind (kind : BranchKind) : kind.opcode.flow = .conditional := by
  cases kind <;> rfl

lemma mem_targets_of_onlyEdge? {kind : EdgeKind} {target : BlockId} (only : Plan.onlyEdge? t = some (kind, target)) :
    (target, kind) ∈ t.targets := by
  cases t with
  | goto | jump =>
    obtain ⟨rfl, rfl⟩ := Prod.mk.inj (Option.some.inj only)
    exact List.mem_singleton_self _
  | _ => cases only

/-- The operands of an end suit its flow, and its targets are markers of blocks to which it leads. -/
lemma Closes.suits (h : Closes p b t ks) (mem : i ∈ ks) :
    i.Suits ∧ ∀ m ∈ i.targets, ∃ e ∈ t.targets, p.marker? e.1 = some m := by
  have branch {o : Opcode} {m : Marker} {c : BlockId} {kind : EdgeKind} (flow : o.flow = .jump ∨ o.flow = .conditional)
      (leads : (c, kind) ∈ t.targets) (known : p.marker? c = some m) :
      (Instruction.branch o m).Suits ∧ ∀ m' ∈ (Instruction.branch o m).targets, ∃ e ∈ t.targets,
        p.marker? e.1 = some m' := by
    refine ⟨?_, fun m' there => ⟨_, leads, List.mem_singleton.1 there ▸ known⟩⟩
    cases flow with
    | inl flow | inr flow =>
      rw [Instruction.Suits, Instruction.branch]
      dsimp only
      rw [flow]
      trivial
  cases h with
  | falls => cases mem
  | jumps only known =>
    obtain rfl := List.mem_singleton.1 mem
    exact branch (.inl rfl) (mem_targets_of_onlyEdge? only) known
  | inverts inverse next known =>
    obtain rfl := List.mem_singleton.1 mem
    exact branch (.inr (flow_of_inverseBranch inverse)) (List.mem_cons_of_mem _ List.mem_cons_self) known
  | branches known next =>
    obtain rfl := List.mem_singleton.1 mem
    exact branch (.inr (flow_of_branchKind _)) List.mem_cons_self known
  | parts known known' =>
    obtain rfl | mem := List.mem_cons.1 mem
    · exact branch (.inr (flow_of_branchKind _)) List.mem_cons_self known
    · obtain rfl := List.mem_singleton.1 mem
      exact branch (.inl rfl) (List.mem_cons_of_mem _ List.mem_cons_self) known'
  | @switches index default cases m ms known others =>
    obtain rfl := List.mem_singleton.1 mem
    refine ⟨trivial, fun m' there => ?_⟩
    obtain rfl | there := List.mem_cons.1 there
    · exact ⟨_, List.mem_cons_self, known⟩
    · obtain ⟨k, inside, rfl⟩ := List.mem_iff_getElem.1 there
      obtain ⟨length, all⟩ := List.forall₂_iff_get.1 others
      have inside' : k < cases.length := length ▸ inside
      refine ⟨(cases[k], .switchCase k), List.mem_cons_of_mem _ ?_, all k inside' inside⟩
      exact List.mem_mapIdx.2 ⟨k, inside', rfl⟩
  | leaves | returns | raises =>
    obtain rfl := List.mem_singleton.1 mem
    exact ⟨trivial, List.forall_mem_nil _⟩

lemma Draft.getElem?_written : d.written[q]? = some i ↔ ∃ id, d.code.at? q = some (id, i) := by
  rw [Draft.written, List.getElem?_map, Option.map_eq_some_iff]
  constructor
  · rintro ⟨⟨id, i⟩, here, rfl⟩
    exact ⟨id, here⟩
  · rintro ⟨id, here⟩
    exact ⟨_, here, rfl⟩

lemma Draft.Holds.mem {s t : Nat} (holds : d.Holds p j b js ks s t) (above : s ≤ q) (below : q < t)
    (here : d.written[q]? = some i) : i ∈ js ∨ i ∈ ks := by
  obtain ⟨before, after, parts, rfl, rfl⟩ := holds.within
  rw [parts, List.append_assoc, List.getElem?_append_right above, List.getElem?_append_left (by omega)] at here
  exact List.mem_append.1 (List.mem_of_getElem? here)

lemma Draft.Holds.head {s t : Nat} (holds : d.Holds p j b js ks s t) (first : js.head? = some i) :
    d.written[s]? = some i := by
  obtain ⟨before, after, parts, rfl, -⟩ := holds.within
  obtain ⟨js', rfl⟩ := List.head?_eq_some_iff.1 first
  rw [parts]
  simp

/-- A block to which the end of one that does not come before it leads is one to which control comes back. -/
lemma isBackwardTarget_of_mem_targets (backed : f.Backed) {order : List BlockId} (once : order.Nodup)
    (placed : order[j]? = some b) {e : BlockId × EdgeKind} (goes : e ∈ (f.terminator b).targets)
    (known : order.findIdx? (· == e.1) = some m) (early : m ≤ j) : isBackwardTarget f order e.1 = true := by
  simp only [isBackwardTarget, known]
  refine List.any_eq_true.2 ⟨_, backed.known b e (backed.mem_succs_of_mem_targets goes), ?_⟩
  simp only [(findIdx?_beq_eq_some once).2 placed, Option.any_some, decide_eq_true early, Bool.and_true, bne_iff_ne]
  exact Terminator.ne_raise_of_mem_targets goes

section All

variable {u : Unit} (once : p.order.Nodup) (nonempty : p.order ≠ []) (run : (Write.all p).run (.start p pool) = .ok u d)
include once nonempty run

lemma branchesTo_of_marker? (known : p.marker? b = some m) :
    ∃ s, d.bounds[m]? = some s ∧ d.code.BranchesTo m s := by
  obtain ⟨d₁, hs, written, ⟨instrs, bounds⟩, settled, -⟩ := entries_of_all once run
  obtain ⟨inside, -⟩ := List.findIdx?_eq_some_iff_getElem.1 known
  obtain ⟨s, starts⟩ := settled.getElem?_bounds inside.le
  refine ⟨s, starts, (settled.resolve?_bounds inside).trans starts, ?_⟩
  rw [bounds] at starts
  have less := bounds_lt_of_blocks once written nonempty inside starts
  rwa [Code.size, instrs]

/-- Wherever an instruction hands control to inside the method, there is an instruction. -/
lemma defined_of_all (straight : p.func.Straight) (here : d.code.at? q = some (id, i)) : d.code.Defined q i := by
  obtain ⟨d₁, hs, written, ⟨instrs, -⟩, -⟩ := entries_of_all once run
  have here₁ : d₁.written[q]? = some i := by
    rw [Draft.getElem?_written]
    refine ⟨id, ?_⟩
    rwa [Code.at?, ← instrs]
  -- The last instruction does not hand control on, so others have one behind them.
  have next : ¬departs i → q + 1 < d.code.size := by
    obtain ⟨s, is, k, -, -, ends, departs⟩ := exists_last once written nonempty
    intro goesOn
    have inside : q < d₁.written.length := (List.getElem?_eq_some_iff.1 here₁).1
    have size : d.code.size = d₁.written.length := by rw [d₁.length_written, Code.size, instrs, Code.size]
    rw [size]
    refine Nat.lt_of_le_of_ne inside fun last => goesOn ?_
    have position : q = is.length := by
      rw [ends, List.length_append, List.length_singleton] at last
      exact Nat.succ.inj last
    rw [ends, position, List.getElem?_concat_length] at here₁
    exact Option.some.inj here₁ ▸ departs
  obtain ⟨j, b, js, ks, s, t, holds, above, below⟩ :=
    exists_holds_of_lt once written (d₁.length_written ▸ (List.getElem?_eq_some_iff.1 here₁).1)
  obtain mem | mem := holds.mem above below here₁
  · have flow := (holds.meant i mem).flow straight
    rw [Code.Defined, flow]
    exact next fun departs => departs.1 flow
  · obtain ⟨suits, targets⟩ := holds.closes.suits mem
    refine Code.defined_of_suits suits (fun m there => ?_) fun flow => next fun departs => departs.2 flow
    obtain ⟨e, -, known⟩ := targets m there
    obtain ⟨s, -, leads⟩ := branchesTo_of_marker? once nonempty run known
    exact ⟨s, leads⟩

lemma handlers_of_all : ∃ handlers, d.code.resolvedHandlers = .ok handlers ∧
    ∀ h ∈ handlers, h.target < d.code.size := by
  obtain ⟨d₁, hs, written, -, settled, ordered, fits⟩ := entries_of_all once run
  have resolved : ∀ e ∈ d.code.handlers, ∃ h, d.code.resolveHandler e = .ok h ∧ h.target < d.code.size := by
    intro e mem
    obtain ⟨w, -, fit⟩ := exists_mem_of_mem_right fits mem
    obtain ⟨s, first⟩ := settled.getElem?_bounds (Nat.le_trans fit.inside.1.le fit.inside.2)
    obtain ⟨t, last⟩ := settled.getElem?_bounds fit.inside.2
    obtain ⟨c, -, known, -⟩ := fit.names
    obtain ⟨target, -, leads, inside⟩ := branchesTo_of_marker? once nonempty run known
    refine ⟨⟨s, t, target, e.excType, e.varName⟩, ?_, inside⟩
    simp only [Code.resolveHandler, Code.resolveHandlerMarker, fit.start.trans first, fit.stop.trans last, leads,
      ok_bind,
      pure_eq_ok]
  choose! h here inside using resolved
  refine ⟨d.code.handlers.map h, ?_, fun k mem => ?_⟩
  · rw [Code.resolvedHandlers, mapM_eq_ok, List.forall₂_map_right_iff, List.forall₂_same]
    exact here
  · obtain ⟨e, there, rfl⟩ := List.mem_map.1 mem
    exact inside e there

lemma label_of_all (straight : p.func.Straight) (backed : p.func.Backed) {t : Nat} {kind : EdgeKind}
    (here : d.code.at? q = some (id, i)) (way : d.code.Way q i kind t) (back : t ≤ q) :
    ∃ id', d.code.at? t = some (id', ⟨.label, .none⟩) := by
  obtain ⟨d₁, hs, written, ⟨instrs, bounds⟩, settled, -⟩ := entries_of_all once run
  have same : d₁.code.at? = d.code.at? := by
    funext position
    rw [Code.at?, Code.at?, instrs]
  have here₁ : d₁.written[q]? = some i := by
    rw [Draft.getElem?_written, same]
    exact ⟨id, here⟩
  obtain ⟨j, b, js, ks, s, s', holds, above, below⟩ :=
    exists_holds_of_lt once written (d₁.length_written ▸ (List.getElem?_eq_some_iff.1 here₁).1)
  obtain mem | mem := holds.mem above below here₁
  · obtain ⟨-, next⟩ := (Code.way_next ((holds.meant i mem).flow straight)).1 way
    exact absurd next (by omega)
  · obtain next | ⟨m, there, leads⟩ := way.next_or_target
    · exact absurd next (by omega)
    obtain ⟨e, goes, known⟩ := (holds.closes.suits mem).2 m there
    obtain ⟨inside, found, -⟩ := List.findIdx?_eq_some_iff_getElem.1 known
    obtain ⟨t', starts, leads'⟩ := branchesTo_of_marker? once nonempty run known
    obtain rfl : t = t' := leads'.iff_eq.1 leads
    -- The target does not come later in the order, as it would start behind the block otherwise.
    have early : m ≤ j := by
      by_contra later
      have stops := holds.stops
      rw [← bounds] at stops
      have rises := settled.bounds_mono stops starts (Nat.lt_of_not_le later)
      omega
    have target : p.order[m]? = some e.1 := by
      rw [List.getElem?_eq_getElem inside, beq_iff_eq.1 found]
    obtain ⟨js', ks', t', stop, held⟩ := exists_holds once written target
    obtain rfl := Option.some.inj (starts.symm.trans (bounds ▸ held.starts))
    have label := held.label (isBackwardTarget_of_mem_targets backed once holds.placed goes known early)
    rw [← same, ← Draft.getElem?_written]
    exact held.head label

end All

/-- Code that is written for a graph that passes the check, and whose nodes hand control on, has a control flow graph:
each instruction hands control to instructions only, and handlers start at instructions.  Where control goes back inside
the method, there is a label. -/
theorem flows_of_emit {code : Code} (verified : f.verify = .ok ()) (straight : f.Straight)
    (emitted : (emit f pool).1 = .ok code) :
    (∃ g, FlowGraph.build code = .ok g) ∧ (∀ q id i, code.at? q = some (id, i) → code.Defined q i) ∧
      (∃ handlers, code.resolvedHandlers = .ok handlers ∧ ∀ h ∈ handlers, h.target < code.size) ∧
      ∀ q id i kind t, code.at? q = some (id, i) → code.Way q i kind t → t ≤ q →
        ∃ id', code.at? t = some (id', ⟨.label, .none⟩) := by
  obtain ⟨g, d, -, backed, shapes, run, rfl⟩ := backed_of_emit verified emitted
  have once : (Plan.ofFunc g).order.Nodup := nodup_order g
  have nonempty : (Plan.ofFunc g).order ≠ [] := List.ne_nil_of_mem (entry_mem_order g)
  have straight' : (Plan.ofFunc g).func.Straight := straight.congr shapes
  have defined q id i (here : d.code.at? q = some (id, i)) : d.code.Defined q i :=
    defined_of_all once nonempty run straight' here
  obtain ⟨handlers, resolved, inside⟩ := handlers_of_all once nonempty run
  obtain ⟨d₁, hs, written, ⟨instrs, -⟩, -⟩ := entries_of_all once run
  obtain ⟨s, -, -, -, less, -⟩ := exists_last once written nonempty
  have some : d.code.instrs ≠ [] := by
    rw [instrs]
    exact List.ne_nil_of_length_pos (Nat.lt_of_le_of_lt (Nat.zero_le _) less)
  exact ⟨FlowGraph.exists_build some resolved inside fun q id i _ => defined q id i, defined,
    ⟨handlers, resolved, inside⟩, fun q id i kind t here way back =>
      label_of_all once nonempty run straight' backed here way back⟩

/-- A loop whose body sets a register, with a handler around it. -/
def guardedBody : List Change := guardedLoop ++ [.appendNode 3 (.store 0 (.const (.int 7)))]

/-- Of what is written for the graph, the last instruction of the loop goes back to where the code starts. -/
def goesBack (f : Func) : Bool :=
  match (emit f {}).1 with
  | .ok code => code.at? 6 == some (6, .branch .jump 1) && code.resolve? 1 == some 0 && code.size == 9
  | .error _ => false

/-- The loop starts with a label. -/
theorem flows_of_emit_guarded : ∃ f code g id, build? guardedBody (.new 0 0 {} 1) = some f ∧ f.verify = .ok () ∧
    f.Straight ∧ (emit f {}).1 = .ok code ∧ FlowGraph.build code = .ok g ∧ code.Way 6 (.branch .jump 1) .jump 0 ∧
      code.at? 0 = some (id, ⟨.label, .none⟩) := by
  have facts : (build? guardedBody (.new 0 0 {} 1)).any (fun f => (f.block? entry).isSome && f.verify.isOk &&
      decide (f.nodes = #[some ⟨.store 0 (.const (.int 7)), 3⟩] ∧ goesBack f = true)) = true := by decide +kernel
  obtain ⟨f, built, checked, nodes, back⟩ := exists_checked facts
  have straight : f.Straight := by
    intro v k i does here
    rw [kind?, node?, nodes] at does
    cases v with
    | zero =>
      obtain rfl := Option.some.inj does
      obtain rfl := Option.some.inj here
      rfl
    | succ v => cases does
  rw [goesBack] at back
  split at back
  case _ code emitted =>
    obtain ⟨both, size⟩ := Bool.and_eq_true_iff.1 back
    obtain ⟨here, leads⟩ := Bool.and_eq_true_iff.1 both
    rw [beq_iff_eq] at here leads size
    obtain ⟨⟨g, graph⟩, -, -, label⟩ := flows_of_emit checked.verified straight emitted
    have way : code.Way 6 (.branch .jump 1) .jump 0 := .jump rfl rfl ⟨leads, by rw [size]; decide⟩
    obtain ⟨id, found⟩ := label 6 6 _ .jump 0 here way (Nat.zero_le 6)
    exact ⟨f, code, g, id, built, checked.verified, straight, emitted, graph, way, found⟩
  case _ => cases back

end Avm.Emit
