import Avm.Flow.Depth
import Avm.Proofs.Code.Spelling

/-!
# Flow without constants

Control flow, stack depths and registers of code do not depend on the numbers of its constants: they are
the same for the code in which these are blank.  So two codes that differ in nothing else (`Code.Twin`)
have the same control flow graph, the same bounds for their stacks, the same registers and handlers.

The main statements are `FlowGraph.build_blank` and `StackBounds.analyze_blank`, and their consequences
for twins.
-/

namespace Avm

namespace Code

variable {c c' : Code} {P P' Q Q' : Pool}

/-- The code without the numbers of its constants. -/
def blank (c : Code) : Code :=
  { c with
    instrs := c.instrs.map fun e => (e.1, e.2.blank)
    lt_nextId := by
      rw [List.map_map]
      exact c.lt_nextId
    nodup := by
      rw [List.map_map]
      exact c.nodup }

@[simp] lemma size_blank : c.blank.size = c.size := List.length_map _

@[simp] lemma at?_blank (position : Nat) :
    c.blank.at? position = (c.at? position).map fun e => (e.1, e.2.blank) := List.getElem?_map

@[simp] lemma position?_blank (id : InstrId) : c.blank.position? id = c.position? id := by
  rw [position?, position?, blank, List.findIdx?_map]
  rfl

@[simp] lemma get?_blank (id : InstrId) : c.blank.get? id = (c.get? id).map Instruction.blank := by
  change (c.instrs.map fun e => (e.1, e.2.blank)).lookup id = (c.instrs.lookup id).map Instruction.blank
  induction c.instrs with
  | nil => rfl
  | cons e l ih =>
    rw [List.map_cons, List.lookup_cons, List.lookup_cons, ih]
    split
    · rfl
    · rfl

@[simp] lemma resolve?_blank (m : Marker) : c.blank.resolve? m = c.resolve? m := by
  rw [resolve?, resolve?, size_blank]
  simp only [position?_blank]
  rfl

@[simp] lemma resolvedHandlers_blank : c.blank.resolvedHandlers = c.resolvedHandlers := by
  have same : c.blank.resolveHandler = c.resolveHandler := by
    funext h
    simp only [resolveHandler, resolveHandlerMarker, resolve?_blank]
  rw [resolvedHandlers, same]
  rfl

@[simp] lemma localCount_blank (params : Nat) (flags : MethodFlags) :
    c.blank.localCount params flags = c.localCount params flags := by
  simp [localCount, blank, List.flatMap_map]

end Code

namespace FlowGraph.Builder

variable {c : Code} {hs : List (Handler Nat)} {b : Builder} {source : NodeId}

@[simp] lemma vertex_blank : vertex c.blank hs = vertex c hs := by
  funext b position
  rw [vertex, vertex, Code.at?_blank]
  cases c.at? position with
  | none => rfl
  | some e => rfl

@[simp] lemma follow_blank : follow c.blank hs = follow c hs := by
  funext b source position kind
  rw [follow, follow, vertex_blank]

@[simp] lemma targetPosition_blank : targetPosition c.blank = targetPosition c := by
  funext m
  rw [targetPosition, targetPosition]
  simp only [Code.position?_blank]
  rfl

@[simp] lemma branch_blank : branch c.blank hs = branch c hs := by
  funext b source m kind
  rw [branch, branch, targetPosition_blank, follow_blank]

@[simp] lemma cases_blank (k : Nat) (ms : List Marker) :
    cases c.blank hs source k ms b = cases c hs source k ms b := by
  induction ms generalizing k b with
  | nil => rfl
  | cons m ms ih =>
    rw [cases, cases, branch_blank]
    exact congrArg _ (funext fun b => ih (k + 1))

@[simp] lemma raises_blank (ks : List Nat) : raises c.blank hs source ks b = raises c hs source ks b := by
  induction ks generalizing b with
  | nil => rfl
  | cons k ks ih =>
    rw [raises, raises]
    cases hs[k]? with
    | none => exact ih
    | some h =>
      simp only [follow_blank]
      exact congrArg _ (funext fun b => ih)

@[simp] lemma flow_blank (n : NodeId) (position : Nat) (i : Instruction Marker) :
    flow c.blank hs b n position i.blank = flow c hs b n position i := by
  obtain same | ⟨o, k, literal, rfl, same⟩ := i.blank_cases
  · rw [same, flow, flow]
    simp only [follow_blank, branch_blank, cases_blank]
  · have next : o.flow = .next := by
      cases o
      all_goals first | rfl | cases literal
    rw [same, flow, flow]
    simp only [Instruction.withIndex, next, follow_blank]

@[simp] lemma visit_blank (position : Nat) : visit c.blank hs b position = visit c hs b position := by
  rw [visit, visit, Code.at?_blank]
  cases c.at? position with
  | none => rfl
  | some e =>
    simp only [Option.map_some, flow_blank, Instruction.opcode_blank, raises_blank]

@[simp] lemma run_blank (fuel : Nat) : run c.blank hs fuel b = run c hs fuel b := by
  induction fuel generalizing b with
  | zero => rfl
  | succ fuel ih =>
    rw [run, run]
    cases b.worklist with
    | nil => rfl
    | cons position rest =>
      simp only [visit_blank]
      exact congrArg _ (funext fun b => ih)

@[simp] lemma targets_blank (hs' : List (Handler Nat)) : targets c.blank hs hs' b = targets c hs hs' b := by
  induction hs' generalizing b with
  | nil => rfl
  | cons h hs' ih =>
    rw [targets, targets, vertex_blank]
    simp only [ih]

end FlowGraph.Builder

lemma FlowGraph.build_blank (c : Code) : FlowGraph.build c.blank = FlowGraph.build c := by
  have empty : c.blank.instrs.isEmpty = c.instrs.isEmpty := List.isEmpty_map
  have order (nodes : List Vertex) :
      (c.blank.instrs.filterMap fun e => nodes.findIdx? (· == .instr e.1)) =
        c.instrs.filterMap fun e => nodes.findIdx? (· == .instr e.1) := List.filterMap_map
  simp only [FlowGraph.build, empty, order, Code.resolvedHandlers_blank, Code.size_blank,
    Builder.follow_blank, Builder.targets_blank, Builder.run_blank]

namespace StackBounds

variable {P Q : Pool} {c c' : Code} {g : FlowGraph} {budget : Nat}

lemma analyze_congr (same : ∀ n, BlockGraph.vertexSummary g c P n = BlockGraph.vertexSummary g c' Q n) :
    analyze g c P budget = analyze g c' Q budget := by
  have blocks : BlockGraph.blockSummary g c P = BlockGraph.blockSummary g c' Q := by
    funext block
    rw [BlockGraph.blockSummary, BlockGraph.blockSummary, funext same]
  rw [analyze, analyze, BlockGraph.build, BlockGraph.build, blocks]

lemma analyze_blank : analyze g c.blank P budget = analyze g c P budget := by
  refine analyze_congr fun n => ?_
  rw [BlockGraph.vertexSummary, BlockGraph.vertexSummary]
  cases g.instr? n with
  | none => rfl
  | some id =>
    simp only [Option.bind_some, Code.get?_blank]
    cases c.get? id with
    | none => rfl
    | some i => simp only [Option.map_some, Instruction.effect_blank]

lemma analyze_names (names : P.multinames = Q.multinames) :
    analyze g c P budget = analyze g c Q budget := by
  refine analyze_congr fun n => ?_
  simp only [BlockGraph.vertexSummary, Instruction.effect_congr names]

end StackBounds

namespace Code

variable {c c' : Code} {P P' Q Q' : Pool}

/-- Two codes that differ only in the numbers by which their pools know the same constants. -/
structure Twin (P Q : Pool) (c c' : Code) : Prop where
  instrs : List.Forall₂ (fun e e' => e.1 = e'.1 ∧ Instruction.Alike P Q e.2 e'.2) c.instrs c'.instrs
  markers : c.markers = c'.markers
  handlers : c.handlers = c'.handlers
  next : c.nextId = c'.nextId

namespace Twin

lemma symm (h : Twin P Q c c') : Twin Q P c' c :=
  ⟨h.instrs.flip.imp fun _ _ same => ⟨same.1.symm, same.2.symm⟩, h.markers.symm, h.handlers.symm,
    h.next.symm⟩

lemma mono (h : Twin P Q c c') (longer : P.Extends P') (longer' : Q.Extends Q') : Twin P' Q' c c' :=
  ⟨h.instrs.imp fun _ _ same => ⟨same.1, same.2.mono longer longer'⟩, h.markers, h.handlers, h.next⟩

lemma blank_eq (h : Twin P Q c c') : c.blank = c'.blank := by
  have instrs : c.instrs.map (fun e => (e.1, e.2.blank)) = c'.instrs.map fun e => (e.1, e.2.blank) := by
    rw [← List.forall₂_eq_eq_eq, List.forall₂_map_left_iff, List.forall₂_map_right_iff]
    exact h.instrs.imp fun e e' same => Prod.ext same.1 same.2.blank_eq
  simp only [blank, Code.mk.injEq]
  exact ⟨instrs, h.markers, h.handlers, h.next⟩

lemma size (h : Twin P Q c c') : c.size = c'.size := h.instrs.length_eq

lemma resolve? (h : Twin P Q c c') (m : Marker) : c.resolve? m = c'.resolve? m := by
  rw [← resolve?_blank, h.blank_eq, resolve?_blank]

lemma resolvedHandlers (h : Twin P Q c c') : c.resolvedHandlers = c'.resolvedHandlers := by
  rw [← resolvedHandlers_blank, h.blank_eq, resolvedHandlers_blank]

lemma localCount (h : Twin P Q c c') (params : Nat) (flags : MethodFlags) :
    c.localCount params flags = c'.localCount params flags := by
  rw [← localCount_blank, h.blank_eq, localCount_blank]

lemma build (h : Twin P Q c c') : FlowGraph.build c = FlowGraph.build c' := by
  rw [← FlowGraph.build_blank, h.blank_eq, FlowGraph.build_blank]

lemma analyze (h : Twin P Q c c') (names : P'.multinames = Q'.multinames) (g : FlowGraph)
    (budget : Nat) : StackBounds.analyze g c P' budget = StackBounds.analyze g c' Q' budget := by
  rw [← StackBounds.analyze_blank, h.blank_eq, StackBounds.analyze_blank, StackBounds.analyze_names names]

end Twin

end Code

end Avm
