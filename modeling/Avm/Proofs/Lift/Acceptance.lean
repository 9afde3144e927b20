import Avm.Proofs.Lift.Tracing

/-!
# Code that lifting accepts

The depths that code asks for, said on its positions: the method starts with empty stacks, a handler with
the exception on the operand stack, every instruction that control can come to finds what it takes, and
leaves its depths to whatever comes next.  Lifting accepts only code for which there are such depths, and
never complains about the depths of such code.

The main statement is `ofCode_levelled`.
-/

namespace Avm

/-- The depths of the stacks before the instructions agree with each other, and no instruction takes
more from a stack than there is. -/
structure Code.Levelled (code : Code) (pool : Pool) (depth : Nat → Ir.Level) : Prop where
  first : depth 0 = ⟨0, 0⟩
  handler : ∀ handlers, code.resolvedHandlers = .ok handlers → ∀ h ∈ handlers, depth h.target = ⟨1, 0⟩
  next : ∀ p id i, code.Reachable p → code.at? p = some (id, i) → ∃ e, i.effect pool = .ok e ∧
    (depth p).Affords e ∧ ∀ kind q, code.Way p i kind q → depth q = (depth p).after e

namespace Ir.Lift

open BlockGraph

variable {s : Source} {code : Code} {handlers : List (Handler Nat)} {g : FlowGraph} {pool : Pool}
  {n m : NodeId} {p : Nat} {depth : Nat → Level} {S : List (NodeId × Frame)}

lemma paired_of_build (pool : Pool) (spec : FlowGraph.Spec code handlers g) :
    Source.Paired ⟨code, g, pool⟩ code handlers :=
  ⟨spec, fun _ => rfl, Nat.le_of_eq (Code.length_resolvedHandlers spec.resolved)⟩

lemma instr?_of_stands (paired : s.Paired code handlers)
    (stands : FlowGraph.Stands code s.graph.graph n (some p)) :
    ∃ id i, code.at? p = some (id, i) ∧ s.instr? n = some i := by
  obtain ⟨⟨id, i⟩, here, node⟩ := stands
  refine ⟨id, i, here, ?_⟩
  rw [Source.instr?, FlowGraph.instr?, node]
  exact (paired.same id).trans (Code.get?_of_at? here)

lemma stands_handler (paired : s.Paired code handlers) {k : Nat}
    (target : s.graph.handlerTarget? k = some n) :
    ∃ h, handlers[k]? = some h ∧ FlowGraph.Stands code s.graph.graph n (some h.target) := by
  obtain ⟨lt, rfl⟩ := List.getElem?_eq_some_iff.1 target
  have targets := List.forall₂_iff_get.1 paired.spec.targets
  exact ⟨_, List.getElem?_eq_getElem (by rw [targets.1]; exact lt), targets.2 k _ lt⟩

lemma levels_of_levelled (spec : FlowGraph.Spec code handlers g) (levelled : code.Levelled pool depth) :
    Levels ⟨code, g, pool⟩ fun n => if n ∈ g.order then some (depth (positionOf g code n)) else none := by
  have paired := paired_of_build pool spec
  have there {n p} (stands : FlowGraph.Stands code g.graph n (some p)) :
      (if n ∈ g.order then some (depth (positionOf g code n)) else none) = some (depth p) := by
    rw [if_pos ((mem_order spec).2 ⟨p, stands⟩), positionOf_eq stands]
  refine ⟨fun m kind edge => ?_, fun k _ n target => ?_, fun n l found => ?_⟩
  · rw [there (paired.stands_first edge).1, levelled.first]
  · obtain ⟨h, listed, stands⟩ := stands_handler paired target
    rw [there stands, levelled.handler handlers spec.resolved h (List.mem_of_getElem? listed)]
  · split at found
    · rename_i ordered
      obtain ⟨p, stands⟩ := (mem_order spec).1 ordered
      rw [positionOf_eq stands] at found
      obtain rfl := Option.some.inj found
      obtain ⟨id, i, at_, here⟩ := instr?_of_stands paired stands
      obtain ⟨e, effect, affords, next⟩ := levelled.next p id i (stands.reachable spec.reached) at_
      refine ⟨i, e, here, effect, affords, fun m kind edge => ?_⟩
      obtain ⟨id', i', q, at', way, target⟩ := normal_edge spec stands edge
      obtain ⟨rfl, rfl⟩ := Prod.mk.inj (Option.some.inj (at_.symm.trans at'))
      rw [there target, next kind q way]
    · cases found

lemma Complete.exists_frame (complete : Complete ⟨code, g, pool⟩ S)
    (spec : FlowGraph.Spec code handlers g) (reach : code.Reachable p) :
    ∀ n, FlowGraph.Stands code g.graph n (some p) → ∃ frame, (n, frame) ∈ S := by
  have paired := paired_of_build pool spec
  induction reach with
  | first =>
    intro n stands
    have edge : (n, .fallthrough) ∈ g.edgesFrom FlowGraph.entry :=
      Digraph.mem_outgoing.2 ((spec.edges _).2 (.entry stands))
    obtain ⟨frame, mem, -⟩ := complete.first n _ edge
    exact ⟨frame, mem⟩
  | handler resolved mem =>
    intro n stands
    obtain rfl := Except.ok.inj (spec.resolved.symm.trans resolved)
    obtain ⟨m, listed, there⟩ := exists_mem_of_mem_left spec.targets mem
    obtain ⟨k, lt, target⟩ := List.getElem_of_mem listed
    obtain rfl := stands.vertex_inj spec.nodup there
    have below : k < code.handlers.length := by
      rw [Code.length_resolvedHandlers spec.resolved, spec.targets.length_eq]
      exact lt
    obtain ⟨frame, passed, -⟩ := complete.handler k below n (by
      rw [FlowGraph.handlerTarget?, List.getElem?_eq_getElem lt, target])
    exact ⟨frame, passed⟩
  | next reach here way ih =>
    intro n stands
    obtain ⟨m, source⟩ := spec.vertex _ reach
    obtain ⟨n', target, edge⟩ := exists_normal_edge spec reach source here way
    obtain rfl := stands.vertex_inj spec.nodup target
    obtain ⟨frame, mem⟩ := ih m source
    obtain ⟨i, settled⟩ := complete.settled _ mem
    obtain ⟨e, -, -, next⟩ := settled.effect
    obtain ⟨frame', passed, -⟩ | ⟨x, none, -⟩ := next n _ edge
    · exact ⟨frame', passed⟩
    · exact absurd none List.not_mem_nil

/-- The depth before the instruction at a position, where its vertex has one. -/
def depthOn (g : FlowGraph) (code : Code) (level : NodeId → Option Level) (p : Nat) : Level :=
  (((code.at? p).bind fun e => g.vertex? e.1).bind level).getD ⟨0, 0⟩

lemma depthOn_eq (spec : FlowGraph.Spec code handlers g) {level : NodeId → Option Level} {l : Level}
    (stands : FlowGraph.Stands code g.graph n (some p)) (found : level n = some l) :
    depthOn g code level p = l := by
  obtain ⟨e, here, node⟩ := stands
  have vertex : g.vertex? e.1 = some n := (findIdx?_beq_eq_some spec.nodup).2 node
  rw [depthOn, here, Option.bind_some, vertex, Option.bind_some, found]
  rfl

lemma levelled_of_complete (spec : FlowGraph.Spec code handlers g)
    (complete : Complete ⟨code, g, pool⟩ S) :
    code.Levelled pool (depthOn g code (levelOf S)) := by
  have paired := paired_of_build pool spec
  have levels := complete.levels
  refine ⟨?_, fun hs resolved h mem => ?_, fun p id i reach here => ?_⟩
  · obtain ⟨n, stands⟩ := spec.vertex 0 .first
    exact depthOn_eq spec stands
      (levels.first n _ (Digraph.mem_outgoing.2 ((spec.edges _).2 (.entry stands))))
  · obtain rfl := Except.ok.inj (spec.resolved.symm.trans resolved)
    obtain ⟨k, lt, rfl⟩ := List.getElem_of_mem mem
    have targets := List.forall₂_iff_get.1 spec.targets
    have below : k < g.handlerTargets.length := by
      rw [← targets.1]
      exact lt
    refine depthOn_eq spec (targets.2 k lt below) (levels.handler k ?_ _ ?_)
    · rw [Code.length_resolvedHandlers spec.resolved]
      exact lt
    · exact List.getElem?_eq_getElem below
  · obtain ⟨n, stands⟩ := spec.vertex p reach
    obtain ⟨frame, passed⟩ := complete.exists_frame spec reach n stands
    have level := complete.track.levelOf_eq ⟨frame, passed, rfl⟩
    obtain ⟨i', e, found, effect, affords, next⟩ := levels.next n _ level
    obtain ⟨id', j, here', found'⟩ := instr?_of_stands paired stands
    obtain ⟨rfl, rfl⟩ := Prod.mk.inj (Option.some.inj (here.symm.trans here'))
    obtain rfl := Option.some.inj (found.symm.trans found')
    rw [depthOn_eq spec stands level]
    refine ⟨e, effect, affords, fun kind q way => ?_⟩
    obtain ⟨m, target, edge⟩ := exists_normal_edge spec reach stands here way
    exact depthOn_eq spec target (next m kind edge)

end Ir.Lift

namespace Ir.Func

open Lift

variable {code : Code} {g : FlowGraph}

/-- Code that is lifted has depths that agree with each other, and if code has such depths, lifting does
not complain about a depth. -/
theorem ofCode_levelled (built : FlowGraph.build code = .ok g) (body : MethodBody) (pool : Pool) :
    (∀ f, ofCode body code g pool = .ok f → ∃ depth, code.Levelled pool depth) ∧
    ∀ depth, code.Levelled pool depth →
      ∀ fault, ofCode body code g pool = .error fault → fault.isDepth = false := by
  obtain ⟨handlers, spec⟩ := FlowGraph.build_sound built
  have paired := paired_of_build pool spec
  refine ⟨fun f lifted => ?_, fun depth levelled fault failed => ?_⟩
  · rw [ofCode] at lifted
    split at lifted
    · rename_i run
      obtain ⟨S, complete⟩ := exists_track_of_build paired run
      exact ⟨_, levelled_of_complete spec complete⟩
    · cases lifted
  · rw [ofCode] at failed
    split at failed
    · cases failed
    · rename_i fault' f' run
      obtain rfl := Except.error.inj failed
      exact (meets_build paired (levels_of_levelled spec levelled)).of_error run

/-- Code that comes to one place with one value on the stack and with none. -/
def unevenCode : Code where
  instrs := [(0, ⟨.getLocal1, .none⟩), (1, .branch .ifTrue 0), (2, ⟨.getLocal1, .none⟩),
    (3, ⟨.returnVoid, .none⟩)]
  markers := { bindings := [.bound (.instr 3)] }
  nextId := 4

/-- A loop is lifted, so it has depths that agree; uneven code has none. -/
theorem ofCode_levelled_looping :
    (∃ g f, FlowGraph.build Code.looping = .ok g ∧
      ofCode { params := 1, locals := 2, code := [] } Code.looping g {} = .ok f ∧
      ∃ depth, Code.looping.Levelled {} depth) ∧
    ∃ g, FlowGraph.build unevenCode = .ok g ∧ ∀ depth, ¬unevenCode.Levelled {} depth := by
  constructor
  · have run : (FlowGraph.build Code.looping >>= fun g =>
        ofCode { params := 1, locals := 2, code := [] } Code.looping g {}).isOk = true := by
      decide +kernel
    cases lifted : FlowGraph.build Code.looping >>= fun g =>
        ofCode { params := 1, locals := 2, code := [] } Code.looping g {} with
    | error e =>
      rw [lifted] at run
      cases run
    | ok f =>
      obtain ⟨g, built, lifted⟩ := bind_eq_ok.1 lifted
      exact ⟨g, f, built, lifted, (ofCode_levelled built _ {}).1 f lifted⟩
  · have run : (match FlowGraph.build unevenCode with
        | .error _ => false
        | .ok g => match ofCode { params := 1, locals := 2, code := [] } unevenCode g {} with
          | .ok _ => false
          | .error fault => fault.isDepth) = true := by
      decide +kernel
    split at run
    · cases run
    · rename_i g built
      split at run
      · cases run
      · rename_i fault failed
        refine ⟨g, built, fun depth levelled => ?_⟩
        have fine := (ofCode_levelled built _ {}).2 depth levelled fault failed
        rw [fine] at run
        cases run

end Ir.Func

end Avm
