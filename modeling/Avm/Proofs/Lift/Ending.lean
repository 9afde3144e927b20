import Avm.Proofs.Depth.Soundness
import Avm.Proofs.Lift.Stepping

/-!
# The end of a block

What lifting does with an instruction that ends a block: it takes from the stacks what the effect of the
instruction says, ends the block, and wants to go on along every normal edge of the vertex, each time
with the same depths.

The main statement is `meets_terminate`.
-/

namespace Avm.Code

variable {code : Code} {p q q' : Nat} {i : Instruction Marker} {kind : EdgeKind}

lemma Way.unique (h : code.Way p i kind q) (h' : code.Way p i kind q') : q = q' := by
  have branch {m m' : Marker} (same : i.operands = .branch m) (same' : i.operands = .branch m')
      (goes : code.BranchesTo m q) (goes' : code.BranchesTo m' q') : q = q' := by
    obtain rfl := Operands.branch.inj (same.symm.trans same')
    exact goes'.iff_eq.1 goes
  cases h with
  | next => cases h'; rfl
  | whenFalse => cases h'; rfl
  | jump _ same goes =>
    cases h' with
    | jump _ same' goes' => exact branch same same' goes goes'
  | whenTrue _ same goes =>
    cases h' with
    | whenTrue _ same' goes' => exact branch same same' goes goes'
  | switchDefault _ same goes =>
    cases h' with
    | switchDefault _ same' goes' =>
      obtain ⟨rfl, -⟩ := Operands.switch.inj (same.symm.trans same')
      exact goes'.iff_eq.1 goes
  | switchCase _ same found goes =>
    cases h' with
    | switchCase _ same' found' goes' =>
      obtain ⟨-, rfl⟩ := Operands.switch.inj (same.symm.trans same')
      obtain rfl := Option.some.inj (found.symm.trans found')
      exact goes'.iff_eq.1 goes

end Avm.Code

namespace Avm.Ir.Lift

open Edit BlockGraph

variable {s : Source} {code : Code} {handlers : List (Handler Nat)} {n m m' : NodeId}
  {kind : EdgeKind} {i : Instruction Marker} {p : Partition} {b c c' : BlockId} {f f' : Func}
  {frame : Frame} {l : Level} {bad : Fault → Prop}

/-- The graph of a source belongs to code with the same instructions, and at least as many handlers. -/
structure Source.Paired (s : Source) (code : Code) (handlers : List (Handler Nat)) : Prop where
  spec : FlowGraph.Spec code handlers s.graph
  same : ∀ id, s.code.get? id = code.get? id
  fewer : s.code.handlers.length ≤ handlers.length

/-- The instruction of a vertex. -/
def Source.instr? (s : Source) (n : NodeId) : Option (Instruction Marker) :=
  (s.graph.instr? n).bind s.code.get?

namespace Source.Paired

lemma stands (paired : s.Paired code handlers) (here : s.instr? n = some i) :
    ∃ p id, FlowGraph.Stands code s.graph.graph n (some p) ∧ code.at? p = some (id, i) := by
  obtain ⟨id, vertex, found⟩ := Option.bind_eq_some_iff.1 here
  rw [FlowGraph.instr?] at vertex
  split at vertex
  · rename_i id' node
    obtain rfl := Option.some.inj vertex
    obtain ⟨p, j, there, -⟩ := paired.spec.reached n _ node
    rw [paired.same, Code.get?_of_at? there] at found
    obtain rfl := Option.some.inj found
    exact ⟨p, _, ⟨_, there, node⟩, there⟩
  · cases vertex

lemma exists_way (paired : s.Paired code handlers) (here : s.instr? n = some i)
    (edge : (m, kind) ∈ normalFrom s.graph n) : ∃ p q, code.Way p i kind q ∧
      FlowGraph.Stands code s.graph.graph n (some p) ∧
      FlowGraph.Stands code s.graph.graph m (some q) := by
  obtain ⟨p, id, stands, there⟩ := paired.stands here
  obtain ⟨id', i', q, there', way, target⟩ := normal_edge paired.spec stands edge
  obtain ⟨rfl, rfl⟩ := Prod.mk.inj (Option.some.inj (there.symm.trans there'))
  exact ⟨p, q, way, stands, target⟩

lemma normal_unique (paired : s.Paired code handlers) (here : s.instr? n = some i)
    (edge : (m, kind) ∈ normalFrom s.graph n) (edge' : (m', kind) ∈ normalFrom s.graph n) :
    m = m' := by
  obtain ⟨p, q, way, stands, target⟩ := paired.exists_way here edge
  obtain ⟨p', q', way', stands', target'⟩ := paired.exists_way here edge'
  obtain rfl := stands.position_inj stands'
  obtain rfl := way.unique way'
  exact target.vertex_inj paired.spec.nodup target'

end Source.Paired

/-- The depths with which something is entered. -/
def Pending.level (x : Pending) : Level := (x.entry.map fun e => e.1.level).getD ⟨1, 0⟩

/-- What is to be entered behind a vertex of a block: its normal edges, with frames of one depth. -/
structure Sends (g : FlowGraph) (b : BlockId) (n : NodeId) (l : Level) (es : List Pending) : Prop where
  frames : ∀ x ∈ es, ∃ frame kind, x.entry = some (frame, b, kind) ∧ frame.level = l ∧
    (x.leader, kind) ∈ normalFrom g n
  all : ∀ m kind, (m, kind) ∈ normalFrom g n → ∃ x ∈ es, x.leader = m ∧
    ∃ frame, x.entry = some (frame, b, kind) ∧ frame.level = l
  length : es.length ≤ (normalFrom g n).length

/-- Something to be entered by an edge. -/
def enterBy (frame : Frame) (b : BlockId) (e : NodeId × EdgeKind) : Pending :=
  { leader := e.1, entry := some (frame, b, e.2) }

lemma sends_of_edges (paired : s.Paired code handlers) (here : s.instr? n = some i)
    {edges : List (NodeId × EdgeKind)} (follows : ∀ e ∈ edges, e ∈ s.graph.edgesFrom n)
    (normal : ∀ e ∈ edges, isNormal e.2 = true) (nodup : (edges.map (·.2)).Nodup)
    (kinds : ∀ m kind, (m, kind) ∈ normalFrom s.graph n → kind ∈ edges.map (·.2)) :
    Sends s.graph b n frame.level (edges.map (enterBy frame b)) := by
  have inside : ∀ e ∈ edges, e ∈ normalFrom s.graph n :=
    fun e mem => List.mem_filter.2 ⟨follows e mem, normal e mem⟩
  refine ⟨fun x mem => ?_, fun m kind edge => ?_, ?_⟩
  · obtain ⟨e, listed, rfl⟩ := List.mem_map.1 mem
    exact ⟨frame, e.2, rfl, rfl, inside e listed⟩
  · obtain ⟨e, mem, same⟩ := List.mem_map.1 (kinds m kind edge)
    refine ⟨enterBy frame b e, List.mem_map_of_mem mem, ?_, frame, ?_, rfl⟩
    · obtain ⟨m', kind'⟩ := e
      obtain rfl : kind' = kind := same
      exact paired.normal_unique here (inside _ mem) edge
    · rw [← same]
      rfl
  · rw [List.length_map]
    exact (nodup.of_map.subperm inside).length_le

section Rules

variable {β : Type} {Q : β → Func → Prop}

lemma meets_successor {g : NodeId → Edit β} (missing : ∀ d, bad (.lift (.missingEdge d kind)))
    (next : ∀ m, (m, kind) ∈ s.graph.edgesFrom n → (g m).Meets f Q bad) :
    (successor s.graph n kind >>= g).Meets f Q bad := by
  rw [successor]
  split
  · rename_i e found
    have same : e.2 = kind := by simpa using List.find?_some found
    refine next e.1 ?_
    rw [← same]
    exact List.mem_of_find?_eq_some found
  · exact meets_throw_bind (missing n)

lemma meets_blockOf {g : BlockId → Edit β} (missing : bad (.lift (.notALeader n)))
    (next : ∀ c, p.blocks.lookup n = some c → (g c).Meets f Q bad) :
    (blockOf p n >>= g).Meets f Q bad := by
  rw [blockOf]
  split
  · rename_i c found
    exact next c found
  · exact meets_throw_bind missing

lemma meets_follow {g : BlockId × Pending → Edit β} (fine : ∀ e : Fault, e.isDepth = false → bad e)
    (next : ∀ m c, (m, kind) ∈ s.graph.edgesFrom n → p.blocks.lookup m = some c →
      (g (c, enterBy frame b (m, kind))).Meets f Q bad) :
    (follow s p b n kind frame >>= g).Meets f Q bad := by
  rw [follow, bind_assoc]
  refine meets_successor (fun _ => fine _ rfl) fun m edge => ?_
  rw [bind_assoc]
  refine meets_blockOf (fine _ rfl) fun c found => ?_
  rw [pure_bind]
  exact next m c edge found

lemma meets_followCases {k : Nat} {cases : List Marker} (fine : ∀ e : Fault, e.isDepth = false → bad e) :
    (followCases s p b n frame k cases).Meets f (fun rs f' => f' = f ∧
      ∃ edges : List (NodeId × EdgeKind), rs.map (·.2) = edges.map (enterBy frame b) ∧
        edges.map (·.2) = (List.range' k cases.length).map .switchCase ∧
        (∀ e ∈ edges, e ∈ s.graph.edgesFrom n) ∧
        ∀ r ∈ rs, p.blocks.lookup r.2.leader = some r.1) bad := by
  induction cases generalizing k with
  | nil => exact meets_pure ⟨rfl, [], rfl, rfl, by simp, by simp⟩
  | cons marker cases ih =>
    rw [followCases]
    refine meets_follow fine fun m c edge found => ?_
    refine ih.bind ?_
    rintro rs f₁ ⟨rfl, edges, same, kinds, follows, blocks⟩
    refine meets_pure ⟨rfl, (m, .switchCase k) :: edges, ?_, ?_, ?_, ?_⟩
    · rw [List.map_cons, List.map_cons, same]
    · rw [List.map_cons, kinds, List.length_cons, List.range'_succ, List.map_cons]
    · exact List.forall_mem_cons.2 ⟨edge, follows⟩
    · exact List.forall_mem_cons.2 ⟨found, blocks⟩

end Rules

/-- A block gets its end, at which the scope stack has the given depth. -/
def Closes (b : BlockId) (t : Terminator) (depth : Nat) (f f' : Func) : Prop :=
  (f.block? b).isSome ∧ (∀ e ∈ t.targets, (f.block? e.1).isSome) ∧
    f' = (f.modifyBlock b fun x => { x with scopeDepth := depth }).reend b t (f.handlersOf b)

lemma meets_close {t : Terminator} (fine : ∀ e : Fault, e.isDepth = false → bad e) :
    (close b t frame).Meets f (fun _ f' => Closes b t frame.scope.length f f') bad := by
  refine meets_of_forall (fun _ f' run => ?_) fun e f' run => fine e ?_
  · obtain ⟨_, f₁, first, run⟩ := Edit.bind_eq_ok.1 run
    obtain ⟨live, rfl⟩ := modifyBlock_eq_ok.1 first
    obtain ⟨targets, -, rfl⟩ := setTerminator_eq_ok.1 run
    refine ⟨live, fun e mem => ?_, ?_⟩
    · have there := targets e mem
      rwa [Func.isSome_block?_modifyBlock] at there
    · exact congrArg _ (Func.handlersOf_modifyBlock fun _ => rfl)
  · -- Whatever goes wrong, a block is missing.
    have missing : (close b t frame).Meets f (fun _ _ => True) (fun e => e.isDepth = false) := by
      rw [close, modifyBlock, bind_assoc]
      refine meets_block rfl fun x _ => ?_
      refine meets_modify (meets_get ?_)
      split
      · exact meets_throw rfl
      · rw [modifyBlock, bind_assoc]
        exact meets_block rfl fun y _ => meets_modify (meets_last trivial)
    exact missing.of_error run

/-- What ending a block comes to: the stacks are deep enough for the effect, the block is ended, its end
leads to the blocks of what is to be entered, and all that has the depths behind the effect. -/
structure Leaves (s : Source) (p : Partition) (b : BlockId) (n : NodeId) (i : Instruction Marker)
    (frame : Frame) (f : Func) (es : List Pending) (f' : Func) : Prop where
  effect : ∃ e, i.effect s.pool = .ok e ∧ frame.level.Affords e ∧
    Sends s.graph b n (frame.level.after e) es ∧ (frame.level.after e).scope = frame.scope.length
  ends : ∃ t : Terminator, Closes b t frame.scope.length f f' ∧ t.Writable ∧
    ∀ e ∈ t.targets, ∃ x ∈ es, p.blocks.lookup x.leader = some e.1

lemma excused (pool : Pool) (i : Instruction Marker) (frame : Frame) (fault : Fault)
    (h : fault.isDepth = false) : Excused pool i frame fault := excused_of_isDepth h

section Terminating

variable (paired : s.Paired code handlers) (here : s.instr? n = some i)

include paired here

lemma leaves_of_edges {pops : Nat} {fr : Frame} {t : Terminator} (edges : List (NodeId × EdgeKind))
    (effect : i.effect s.pool = .ok ⟨pops, 0, 0⟩) (enough : pops ≤ frame.stack.length)
    (stack : fr.stack.length = frame.stack.length - pops) (scope : fr.scope = frame.scope)
    (follows : ∀ e ∈ edges, e ∈ s.graph.edgesFrom n) (normal : ∀ e ∈ edges, isNormal e.2 = true)
    (nodup : (edges.map (·.2)).Nodup)
    (kinds : ∀ m kind, (m, kind) ∈ normalFrom s.graph n → kind ∈ edges.map (·.2))
    (closes : Closes b t fr.scope.length f f') (writable : t.Writable)
    (targets : ∀ e ∈ t.targets, ∃ d ∈ edges, p.blocks.lookup d.1 = some e.1) :
    Leaves s p b n i frame f (edges.map (enterBy fr b)) f' := by
  have level : fr.level = frame.level.after ⟨pops, 0, 0⟩ :=
    Frame.level_eq_after stack (by simp [scope])
  refine ⟨⟨_, effect, ⟨enough, ?_⟩, ?_, ?_⟩, t, ?_, writable, fun e mem => ?_⟩
  · change 0 ≤ (frame.scope.length : Int) + 0
    omega
  · rw [← level]
    exact sends_of_edges paired here follows normal nodup kinds
  · rw [← level]
    exact congrArg List.length scope
  · rw [← scope]
    exact closes
  · obtain ⟨d, listed, found⟩ := targets e mem
    exact ⟨_, List.mem_map_of_mem listed, found⟩

lemma kind_of_normal (edge : (m, kind) ∈ normalFrom s.graph n) :
    match i.opcode.flow with
    | .next => kind = .fallthrough
    | .jump => kind = .jump
    | .conditional => kind = .whenTrue ∨ kind = .whenFalse
    | .switch => ∀ default cases, i.operands = .switch default cases →
        kind = .switchDefault ∨ ∃ k < cases.length, kind = .switchCase k
    | .leave | .raise => False := by
  obtain ⟨p, q, way, -, -⟩ := paired.exists_way here edge
  cases way with
  | next flow => simp [flow]
  | jump flow => simp [flow]
  | whenTrue flow => simp [flow]
  | whenFalse flow => simp [flow]
  | switchDefault flow => simp [flow]
  | switchCase flow same found =>
    simp only [flow]
    intro default cases same'
    obtain ⟨-, rfl⟩ := Operands.switch.inj (same.symm.trans same')
    exact .inr ⟨_, (List.getElem?_eq_some_iff.1 found).1, rfl⟩

omit paired here in
lemma effect_of_branchKind {kind : BranchKind} (pool : Pool)
    (found : BranchKind.ofOpcode? i.opcode = some kind) : i.effect pool = .ok ⟨kind.arity, 0, 0⟩ := by
  have same : kind.opcode = i.opcode := by simpa using List.find?_some found
  cases kind <;> exact Instruction.effect_of_isFixed same.symm rfl

omit paired here in
lemma exists_branchKind {o : Opcode} (flow : o.flow = .conditional) : ∃ kind, BranchKind.ofOpcode? o = some kind := by
  have two : (BranchKind.ofOpcode? o).isSome = true := by
    cases o <;> first | rfl | cases flow
  exact Option.isSome_iff_exists.1 two

omit paired here in
lemma opcode_of_flow {o : Opcode} : (o.flow = .jump → o = .jump) ∧ (o.flow = .switch → o = .lookupSwitch) ∧
    (o.flow = .leave → o = .returnValue ∨ o = .returnVoid) ∧ (o.flow = .raise → o = .throw) := by
  cases o <;> decide

lemma leaves_jump (flow : i.opcode.flow = .jump) (edge : (m, .jump) ∈ s.graph.edgesFrom n)
    (found : p.blocks.lookup m = some c) (closes : Closes b (.jump c) frame.scope.length f f') :
    Leaves s p b n i frame f [enterBy frame b (m, .jump)] f' := by
  have effect : i.effect s.pool = .ok ⟨0, 0, 0⟩ :=
    Instruction.effect_of_isFixed (opcode_of_flow.1 flow) rfl
  refine leaves_of_edges paired here [(m, .jump)] effect (Nat.zero_le _) rfl rfl ?_ ?_ ?_
    ?_ closes trivial ?_
  · simpa using edge
  · simp [isNormal]
  · simp
  · intro m kind edge
    have only := kind_of_normal paired here edge
    simp only [flow] at only
    simp [only]
  · intro e mem
    rw [List.mem_singleton.1 mem]
    exact ⟨_, List.mem_singleton_self _, found⟩

lemma leaves_branch {kind : BranchKind} {operands : List Value} {fr : Frame}
    (flow : i.opcode.flow = .conditional) (isBranch : BranchKind.ofOpcode? i.opcode = some kind)
    (enough : kind.arity ≤ frame.stack.length)
    (stack : fr.stack.length = frame.stack.length - kind.arity) (scope : fr.scope = frame.scope)
    (edge : (m, .whenFalse) ∈ s.graph.edgesFrom n) (found : p.blocks.lookup m = some c)
    (edge' : (m', .whenTrue) ∈ s.graph.edgesFrom n) (found' : p.blocks.lookup m' = some c')
    (closes : Closes b (.branch kind operands c' c) fr.scope.length f f')
    (writable : (Terminator.branch kind operands c' c).Writable) :
    Leaves s p b n i frame f [enterBy fr b (m, .whenFalse), enterBy fr b (m', .whenTrue)] f' := by
  refine leaves_of_edges paired here [(m, .whenFalse), (m', .whenTrue)]
    (effect_of_branchKind s.pool isBranch) enough stack scope ?_ ?_ ?_ ?_ closes writable ?_
  · simpa using ⟨edge, edge'⟩
  · simp [isNormal]
  · simp
  · intro m kind edge
    have only := kind_of_normal paired here edge
    simp only [flow] at only
    obtain rfl | rfl := only
    · simp
    · simp
  · intro e mem
    simp only [Terminator.targets, List.mem_cons, List.not_mem_nil, or_false] at mem
    obtain rfl | rfl := mem
    · exact ⟨(m', .whenTrue), by simp, found'⟩
    · exact ⟨(m, .whenFalse), by simp, found⟩

lemma leaves_switch {default : Marker} {cases : List Marker} {v : Value} {fr : Frame}
    {edges : List (NodeId × EdgeKind)} {rs : List (BlockId × Pending)}
    (flow : i.opcode.flow = .switch) (operands : i.operands = .switch default cases)
    (stack : fr.stack.length + 1 = frame.stack.length) (scope : fr.scope = frame.scope)
    (edge : (m, .switchDefault) ∈ s.graph.edgesFrom n) (found : p.blocks.lookup m = some c)
    (same : rs.map (·.2) = edges.map (enterBy fr b))
    (numbers : edges.map (·.2) = (List.range' 0 cases.length).map .switchCase)
    (follows : ∀ e ∈ edges, e ∈ s.graph.edgesFrom n)
    (blocks : ∀ r ∈ rs, p.blocks.lookup r.2.leader = some r.1)
    (closes : Closes b (.switch v c (rs.map (·.1))) fr.scope.length f f') :
    Leaves s p b n i frame f (enterBy fr b (m, .switchDefault) :: rs.map (·.2)) f' := by
  have effect : i.effect s.pool = .ok ⟨1, 0, 0⟩ :=
    Instruction.effect_of_isFixed (opcode_of_flow.2.1 flow) rfl
  rw [same]
  refine leaves_of_edges paired here ((m, .switchDefault) :: edges) effect (by omega)
    (by omega) scope ?_ ?_ ?_ ?_ closes trivial ?_
  · exact List.forall_mem_cons.2 ⟨edge, follows⟩
  · refine List.forall_mem_cons.2 ⟨rfl, fun e mem => ?_⟩
    have listed : e.2 ∈ edges.map (·.2) := List.mem_map_of_mem mem
    rw [numbers] at listed
    obtain ⟨k, -, here⟩ := List.mem_map.1 listed
    rw [← here]
    rfl
  · rw [List.map_cons, numbers, List.nodup_cons]
    constructor
    · simp
    · exact List.Nodup.map (fun a b same => EdgeKind.switchCase.inj same) List.nodup_range'
  · intro m kind edge
    have only := kind_of_normal paired here edge
    simp only [flow] at only
    rw [List.map_cons, numbers]
    obtain rfl | ⟨k, below, rfl⟩ := only default cases operands
    · exact List.mem_cons_self
    · refine List.mem_cons_of_mem _ (List.mem_map_of_mem ?_)
      rw [List.mem_range'_1]
      omega
  · intro e mem
    obtain rfl | mem := List.mem_cons.1 mem
    · exact ⟨_, List.mem_cons_self, found⟩
    · obtain ⟨k, below, rfl⟩ := List.mem_mapIdx.1 mem
      obtain ⟨r, listed, block⟩ := List.mem_map.1 (List.getElem_mem below)
      have entered : r.2 ∈ rs.map (·.2) := List.mem_map_of_mem listed
      rw [same] at entered
      obtain ⟨d, mem, leader⟩ := List.mem_map.1 entered
      refine ⟨d, List.mem_cons_of_mem _ mem, ?_⟩
      rw [← block, ← blocks r listed, ← leader]
      rfl

lemma leaves_nowhere {pops : Nat} {fr : Frame} {t : Terminator}
    (flow : i.opcode.flow = .leave ∨ i.opcode.flow = .raise)
    (effect : i.effect s.pool = .ok ⟨pops, 0, 0⟩) (enough : pops ≤ frame.stack.length)
    (stack : fr.stack.length = frame.stack.length - pops) (scope : fr.scope = frame.scope)
    (closes : Closes b t fr.scope.length f f') (writable : t.Writable) (targets : t.targets = []) :
    Leaves s p b n i frame f [] f' := by
  refine leaves_of_edges paired here [] effect enough stack scope (by simp) (by simp) (by simp)
    (fun m kind edge => ?_) closes writable (by simp [targets])
  have never := kind_of_normal paired here edge
  obtain flow | flow := flow <;> simp only [flow] at never

/-- An instruction that ends a block ends it and leads on along all its normal edges, and there is a
fault about a depth only if a stack is not deep enough. -/
lemma meets_terminate : (terminate s p b n i frame).Meets f (Leaves s p b n i frame f)
    (Excused s.pool i frame) := by
  have fine := excused s.pool i frame
  rw [terminate]
  split
  · rename_i flow
    refine meets_follow fine fun m c edge found => ?_
    refine (meets_close fine).bind fun _ f₁ closes => meets_pure ?_
    exact leaves_jump paired here flow edge found closes
  · rename_i flow
    split
    · exact meets_throw (fine _ rfl)
    · rename_i cond isBranch
      have effect := effect_of_branchKind s.pool isBranch
      refine meets_popN (fun short => excused_underflow effect short)
        fun operands fr taken stack scope enough => ?_
      refine meets_follow fine fun m c edge found => ?_
      refine meets_follow fine fun m' c' edge' found' => ?_
      refine (meets_close fine).bind fun _ f₁ closes => meets_pure ?_
      exact leaves_branch paired here flow isBranch enough stack scope edge found edge' found'
        closes taken
  · rename_i flow
    have effect : i.effect s.pool = .ok ⟨1, 0, 0⟩ :=
      Instruction.effect_of_isFixed (opcode_of_flow.2.1 flow) rfl
    split
    · rename_i default cases operands
      refine meets_pop (fun empty => excused_underflow effect (by simp [empty])) fun v fr stack scope => ?_
      refine meets_follow fine fun m c edge found => ?_
      refine (meets_followCases fine).bind ?_
      rintro rs f₁ ⟨rfl, edges, same, numbers, follows, blocks⟩
      refine (meets_close fine).bind fun _ f₂ closes => meets_pure ?_
      exact leaves_switch paired here flow operands stack scope edge found same numbers follows
        blocks closes
    · exact meets_throw (fine _ rfl)
  · rename_i flow
    split
    · rename_i value
      have effect : i.effect s.pool = .ok ⟨1, 0, 0⟩ := Instruction.effect_of_isFixed value rfl
      refine meets_pop (fun empty => excused_underflow effect (by simp [empty])) fun v fr stack scope => ?_
      refine (meets_close fine).bind fun _ f₁ closes => meets_pure ?_
      exact leaves_nowhere paired here (.inl flow) effect (by omega) (by omega) scope closes trivial rfl
    · rename_i value
      have effect : i.effect s.pool = .ok ⟨0, 0, 0⟩ :=
        Instruction.effect_of_isFixed ((opcode_of_flow.2.2.1 flow).resolve_left value) rfl
      refine (meets_close fine).bind fun _ f₁ closes => meets_pure ?_
      exact leaves_nowhere paired here (.inl flow) effect (Nat.zero_le _) rfl rfl closes trivial rfl
  · rename_i flow
    have effect : i.effect s.pool = .ok ⟨1, 0, 0⟩ :=
      Instruction.effect_of_isFixed (opcode_of_flow.2.2.2 flow) rfl
    refine meets_pop (fun empty => excused_underflow effect (by simp [empty])) fun v fr stack scope => ?_
    refine (meets_close fine).bind fun _ f₁ closes => meets_pure ?_
    exact leaves_nowhere paired here (.inr flow) effect (by omega) (by omega) scope closes trivial rfl
  · exact meets_throw (fine _ rfl)

end Terminating

end Avm.Ir.Lift
