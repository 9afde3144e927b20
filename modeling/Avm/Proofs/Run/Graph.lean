import Avm.Proofs.Opt.Fixpoint
import Avm.Proofs.Run.Machine

/-!
# Running function graphs

A graph is run by one thread of control, which has a value for each node, the registers and the scope stack.
The phis of a block are evaluated together on the edge by which it is entered, and a register is read where
its content is used.  Operators are pure.  What other nodes do is left to the surroundings, which answer each
request with its results or with an exception; requests, stores and changes of the scope stack are logged.
Nodes that search or expose the scope stack show it in their requests.  A node without a result counts as
undefined, records for debuggers do nothing, and graphs are run without their handlers, so an exception ends
the run.

The main statements are `Agree.perform`: what a node does depends on the values of its operands only; and
`Func.Performs.unique`: what is noticed of a run, and how it ends, also where graphs run inside one another.
-/

namespace Avm

open Ir

/-- The instruction searches the scope stack, or hands it to something that does. -/
def Opcode.seesScopes : Opcode → Bool
  | .findProperty | .findPropStrict | .getLex | .findDef | .callPropLex | .getGlobalScope | .newFunction
  | .newClass => true
  | _ => false

namespace Ir

variable {V : Type}

/-- What a node asks of the surroundings. -/
structure Request (V : Type) where
  /-- The node without its operands. -/
  shape : NodeKind
  args : List V
  /-- The scope stack, if the node sees it. -/
  scope : List V := []
deriving DecidableEq

/-- Something that a thread does, apart from computing values. -/
inductive Occurrence (V : Type) where
  | request (r : Request V)
  | store (register : Nat) (value : V)
  | scope (op : ScopeOp) (value : Option V)
deriving DecidableEq

/-- What the surroundings notice. -/
def Occurrence.request? : Occurrence V → Option (Request V)
  | request r => some r
  | _ => none

/-- What operators make of values, and how the surroundings answer. -/
structure Semantics (V : Type) where
  const : Constant → V
  unary : UnaryOp → V → V
  type : TypeOp → Nat → V → V
  binary : BinaryOp → V → V → V
  /-- The branch on the values is taken. -/
  branch : BranchKind → List V → Bool
  /-- The case that a switch with so many cases takes. -/
  select : V → Nat → Option Nat
  /-- The result of a node without effect that is no operator. -/
  silent : Request V → V
  /-- The results of the last of a list of requests, or the exception that it raises. -/
  answer : List (Request V) → Except V (Nat → V)

/-- The node sees the scope stack. -/
def NodeKind.seesScopes : NodeKind → Bool
  | property opcode .. | call opcode .. => opcode.seesScopes
  | operation instruction _ => instruction.opcode.seesScopes
  | _ => false

/-- The scope stack behind a change, bottom first. -/
def ScopeOp.change (value : V) (scope : List V) : ScopeOp → List V
  | pop => scope.dropLast
  | push | pushWith => scope ++ [value]

namespace Terminator

/-- The edge that control takes, given the values of the operands. -/
def choose (S : Semantics V) (args : List V) : Terminator → Option (BlockId × EdgeKind)
  | goto target => some (target, .fallthrough)
  | jump target => some (target, .jump)
  | branch kind _ onTrue onFalse =>
    some (if S.branch kind args then (onTrue, .whenTrue) else (onFalse, .whenFalse))
  | switch _ default cases =>
    some (((args.head?.bind fun x => S.select x cases.length).bind fun i =>
      cases[i]?.map fun c => (c, .switchCase i)).getD (default, .switchDefault))
  | leave _ | raise _ | none => Option.none

/-- How the run ends, given the values of the operands. -/
def finish (args : List V) : Terminator → Option (Ending V)
  | leave _ => some (.returned args.head?)
  | raise _ => args.head?.map .thrown
  | goto _ | jump _ | branch .. | switch .. | none => Option.none

variable {S : Semantics V} {args : List V} {t : Terminator} {u : Value → Value}

lemma mem_targets_of_choose {e : BlockId × EdgeKind} (h : t.choose S args = some e) : e ∈ t.targets := by
  cases t with
  | goto | jump =>
    cases h
    exact List.mem_singleton_self _
  | branch kind ops b c =>
    obtain rfl := Option.some.inj h
    rw [targets]
    split <;> simp
  | switch x default cases =>
    obtain rfl := Option.some.inj h
    rw [targets]
    cases chosen : (args.head?.bind fun x => S.select x cases.length).bind fun i =>
        cases[i]?.map fun c => (c, EdgeKind.switchCase i) with
    | none => simp
    | some e =>
      obtain ⟨i, -, found⟩ := Option.bind_eq_some_iff.1 chosen
      obtain ⟨c, there, rfl⟩ := Option.map_eq_some_iff.1 found
      refine List.mem_cons_of_mem _ (List.mem_mapIdx.2 ?_)
      obtain ⟨inside, rfl⟩ := List.getElem?_eq_some_iff.1 there
      exact ⟨i, inside, rfl⟩
  | leave | raise | none => cases h

@[simp] lemma choose_mapOperands : (t.mapOperands u).choose S args = t.choose S args := by
  cases t <;> rfl

@[simp] lemma finish_mapOperands : (t.mapOperands u).finish args = t.finish args := by
  cases t <;> rfl

end Terminator

/-- A graph that is run. -/
structure Thread (V : Type) where
  /-- The block that control is in. -/
  block : BlockId
  /-- The nodes of the block that are still to come. -/
  rest : List ValueId
  values : ValueId → V
  registers : Nat → V
  /-- The scope stack, bottom first. -/
  scope : List V := []
  /-- What happened so far, the last thing last. -/
  log : List (Occurrence V) := []
  ending : Option (Ending V) := none

namespace Thread

variable (S : Semantics V) (t : Thread V)

/-- What an operand is worth here. -/
def value : Value → V
  | .const c => S.const c
  | .reg register _ => t.registers register
  | .node v => t.values v

/-- Gives a node its value. -/
def define (v : ValueId) (x : V) : Thread V := { t with values := Function.update t.values v x }

/-- Sets a register. -/
def assign (register : Nat) (x : V) : Thread V :=
  { t with registers := Function.update t.registers register x }

/-- Logs something. -/
def note (o : Occurrence V) : Thread V := { t with log := t.log ++ [o] }

/-- Asks the surroundings, and goes on with their results unless they raise an exception. -/
def ask (r : Request V) (andThen : (Nat → V) → Thread V → Thread V) : Thread V :=
  match S.answer ((t.log ++ [Occurrence.request r]).filterMap Occurrence.request?) with
  | .ok results => andThen results (t.note (.request r))
  | .error x => { t.note (.request r) with ending := some (.thrown x) }

/-- The request that a node makes. -/
def request (k : NodeKind) : Request V where
  shape := k.shape
  args := k.operands.map (t.value S)
  scope := if k.seesScopes then t.scope else []

/-- Does what a node of a block does. -/
def perform (v : ValueId) (k : NodeKind) : Thread V :=
  match k with
  | .unary op x => t.define v (S.unary op (t.value S x))
  | .type op name x => t.define v (S.type op name (t.value S x))
  | .binary op x y => t.define v (S.binary op (t.value S x) (t.value S y))
  | .copy x => t.define v (t.value S x)
  | .phi _ => t
  | .store register x =>
    ((t.note (.store register (t.value S x))).assign register (t.value S x)).define v (S.const .undefined)
  | .hasNext2 object index =>
    t.ask S ⟨.hasNext2 0 0, [t.registers object, t.registers index], []⟩ fun results t =>
      ((t.assign object (results 1)).assign index (results 2)).define v (results 0)
  | .scope op x =>
    ({ t.note (.scope op (x.map (t.value S))) with
      scope := op.change ((x.map (t.value S)).getD (S.const .undefined)) t.scope }).define v (S.const .undefined)
  | .debug _ => t.define v (S.const .undefined)
  | .operation .. =>
    if k.hasSideEffects then t.ask S (t.request S k) fun results t => t.define v (results 0)
    else t.define v (S.silent (t.request S k))
  | .caught | .property .. | .call .. => t.ask S (t.request S k) fun results t => t.define v (results 0)

variable {S t} {r : Nat} {v w : ValueId} {k : NodeKind} {P : Thread V → Prop}

lemma ask_cases {q : Request V} {andThen : (Nat → V) → Thread V → Thread V}
    (ok : ∀ results, P (andThen results (t.note (.request q))))
    (error : ∀ x, P { t.note (.request q) with ending := some (.thrown x) }) : P (t.ask S q andThen) := by
  rw [ask]
  split
  · exact ok _
  · exact error _

lemma place_perform : (t.perform S v k).block = t.block ∧ (t.perform S v k).rest = t.rest := by
  cases k with
  | operation i xs =>
    rw [perform]
    split
    · exact ask_cases (P := fun t' => t'.block = t.block ∧ t'.rest = t.rest) (fun _ => ⟨rfl, rfl⟩) fun _ => ⟨rfl, rfl⟩
    · exact ⟨rfl, rfl⟩
  | caught | property | call | hasNext2 =>
    exact ask_cases (P := fun t' => t'.block = t.block ∧ t'.rest = t.rest) (fun _ => ⟨rfl, rfl⟩) fun _ => ⟨rfl, rfl⟩
  | _ => exact ⟨rfl, rfl⟩

lemma values_perform (other : w ≠ v) : (t.perform S v k).values w = t.values w := by
  have defined {t' : Thread V} {x : V} (same : t'.values w = t.values w) : (t'.define v x).values w = t.values w := by
    show Function.update t'.values v x w = t.values w
    rw [Function.update_of_ne other, same]
  cases k with
  | operation i xs =>
    rw [perform]
    split
    · exact ask_cases (P := fun t' => t'.values w = t.values w) (fun _ => defined rfl) fun _ => rfl
    · exact defined rfl
  | caught | property | call | hasNext2 =>
    exact ask_cases (P := fun t' => t'.values w = t.values w) (fun _ => defined rfl) fun _ => rfl
  | phi => rfl
  | _ => exact defined rfl

lemma registers_perform (free : r ∉ k.written) : (t.perform S v k).registers r = t.registers r := by
  cases k with
  | store register x =>
    rw [NodeKind.written, List.mem_singleton] at free
    exact Function.update_of_ne free _ _
  | hasNext2 object index =>
    rw [NodeKind.written, List.mem_cons, List.mem_singleton, not_or] at free
    refine ask_cases (P := fun t' => t'.registers r = t.registers r) (fun results => ?_) fun _ => rfl
    exact (Function.update_of_ne free.2 _ _).trans (Function.update_of_ne free.1 _ _)
  | operation i xs =>
    rw [perform]
    split
    · exact ask_cases (P := fun t' => t'.registers r = t.registers r) (fun _ => rfl) fun _ => rfl
    · rfl
  | caught | property | call =>
    exact ask_cases (P := fun t' => t'.registers r = t.registers r) (fun _ => rfl) fun _ => rfl
  | _ => rfl

end Thread

namespace Func

variable (f : Func) (S : Semantics V)

/-- Goes to a block by an edge, and evaluates its phis. -/
def enter (t : Thread V) (b : BlockId) (kind : EdgeKind) : Thread V :=
  { t with
    block := b
    rest := f.body b
    values := fun v =>
      if v ∈ f.phis b then ((f.incoming v t.block kind).map (t.value S)).getD (t.values v) else t.values v }

/-- Does the next node, or goes on to the next block. -/
def step (t : Thread V) : Thread V :=
  if t.ending.isSome then t
  else match t.rest with
    | v :: rest => (f.kind? v).elim { t with rest := rest } fun k => { t with rest := rest }.perform S v k
    | [] =>
      let args := (f.terminator t.block).operands.map (t.value S)
      match (f.terminator t.block).choose S args with
      | some (b, kind) => f.enter S t b kind
      | none => { t with ending := (f.terminator t.block).finish args }

section Steps

variable {f S} {t : Thread V} {v : ValueId} {rest : List ValueId} {k : NodeKind} {b : BlockId} {kind : EdgeKind}

lemma step_ended (ended : t.ending ≠ none) : f.step S t = t := by
  rw [step, if_pos (Option.isSome_iff_ne_none.2 ended)]

variable (running : t.ending = none)
include running

lemma step_node (next : t.rest = v :: rest) (does : f.kind? v = some k) :
    f.step S t = { t with rest := rest }.perform S v k := by
  rw [step, if_neg (by rw [running]; nofun), next]
  dsimp only
  rw [does, Option.elim_some]

lemma step_skip (next : t.rest = v :: rest) (none : f.kind? v = none) : f.step S t = { t with rest := rest } := by
  rw [step, if_neg (by rw [running]; nofun), next]
  dsimp only
  rw [none, Option.elim_none]

lemma step_edge (next : t.rest = [])
    (chosen : (f.terminator t.block).choose S ((f.terminator t.block).operands.map (t.value S)) = some (b, kind)) :
    f.step S t = f.enter S t b kind := by
  rw [step, if_neg (by rw [running]; nofun), next]
  dsimp only
  rw [chosen]

lemma step_last (next : t.rest = [])
    (chosen : (f.terminator t.block).choose S ((f.terminator t.block).operands.map (t.value S)) = none) :
    f.step S t =
      { t with ending := (f.terminator t.block).finish ((f.terminator t.block).operands.map (t.value S)) } := by
  rw [step, if_neg (by rw [running]; nofun), next]
  dsimp only
  rw [chosen]

end Steps

/-- The thread at the start. -/
def start (registers : Nat → V) : Thread V where
  block := entry
  rest := f.body entry
  values _ := S.const .undefined
  registers := registers

/-- The thread after so many steps. -/
def run (registers : Nat → V) (n : Nat) : Thread V := (f.step S)^[n] (f.start S registers)

end Func

/-- What is seen of a thread: its log, and how it ended if it did. -/
def Thread.report (t : Thread V) : List (Occurrence V) × Option (Ending V) := (t.log, t.ending)

/-- Threads that are the same but for the values of nodes other than the given ones. -/
structure Agree (P : ValueId → Prop) (t t' : Thread V) : Prop where
  block : t'.block = t.block
  rest : t'.rest = t.rest
  registers : t'.registers = t.registers
  scope : t'.scope = t.scope
  log : t'.log = t.log
  ending : t'.ending = t.ending
  values : t.ending = none → ∀ v, P v → t'.values v = t.values v

namespace Agree

variable {S : Semantics V} {P Q : ValueId → Prop} {t t' : Thread V} {v : ValueId} {k : NodeKind} {x : V}
  {u : Value → Value}

lemma report (h : Agree P t t') : t'.report = t.report := by rw [Thread.report, h.log, h.ending, Thread.report]

lemma mono (h : Agree P t t') (weaker : ∀ v, Q v → P v) : Agree Q t t' :=
  { h with values := fun running v mem => h.values running v (weaker v mem) }

lemma next (h : Agree P t t') (rest : List ValueId) : Agree P { t with rest := rest } { t' with rest := rest } :=
  ⟨h.block, rfl, h.registers, h.scope, h.log, h.ending, h.values⟩

lemma define (h : Agree P t t') (v : ValueId) (x : V) :
    Agree (fun w => P w ∨ w = v) (t.define v x) (t'.define v x) := by
  refine ⟨h.block, h.rest, h.registers, h.scope, h.log, h.ending, fun running w mem => ?_⟩
  show Function.update t'.values v x w = Function.update t.values v x w
  by_cases here : w = v
  · rw [here, Function.update_self, Function.update_self]
  · rw [Function.update_of_ne here, Function.update_of_ne here]
    exact h.values running w (mem.resolve_right here)

lemma assign (h : Agree P t t') (register : Nat) (x : V) :
    Agree P (t.assign register x) (t'.assign register x) :=
  ⟨h.block, h.rest, by rw [Thread.assign, Thread.assign, h.registers], h.scope, h.log, h.ending, h.values⟩

lemma note (h : Agree P t t') (o : Occurrence V) : Agree P (t.note o) (t'.note o) :=
  ⟨h.block, h.rest, h.registers, h.scope, by rw [Thread.note, Thread.note, h.log], h.ending, h.values⟩

lemma rescope (h : Agree P t t') (scope : List V) :
    Agree P { t with scope := scope } { t' with scope := scope } :=
  ⟨h.block, h.rest, h.registers, rfl, h.log, h.ending, h.values⟩

lemma ask (h : Agree P t t') {r r' : Request V} (same : r' = r) {g : (Nat → V) → Thread V → Thread V}
    (next : ∀ results, Agree Q (g results (t.note (.request r))) (g results (t'.note (.request r)))) :
    Agree Q (t.ask S r g) (t'.ask S r' g) := by
  rw [same, Thread.ask, Thread.ask, h.log]
  cases S.answer ((t.log ++ [Occurrence.request r]).filterMap Occurrence.request?) with
  | ok results => exact next results
  | error x =>
    have noted := h.note (.request r)
    exact ⟨noted.block, noted.rest, noted.registers, noted.scope, noted.log, rfl, nofun⟩

lemma map_value {xs : List Value} (same : ∀ x ∈ xs, t'.value S (u x) = t.value S x) :
    (xs.map u).map (t'.value S) = xs.map (t.value S) := by
  rw [List.map_map]
  exact List.map_congr_left same

lemma request (h : Agree P t t') (same : ∀ x ∈ k.operands, t'.value S (u x) = t.value S x) :
    t'.request S (k.mapOperands u) = t.request S k := by
  have args : (k.mapOperands u).operands.map (t'.value S) = k.operands.map (t.value S) := by
    rw [NodeKind.operands_mapOperands]
    exact map_value same
  have sees : (k.mapOperands u).seesScopes = k.seesScopes := by cases k <;> rfl
  rw [Thread.request, Thread.request, args, sees, h.scope, NodeKind.shape_mapOperands]

lemma perform (h : Agree P t t') (plain : k.isPhi = false)
    (same : ∀ x ∈ k.operands, t'.value S (u x) = t.value S x) :
    Agree (fun w => P w ∨ w = v) (t.perform S v k) (t'.perform S v (k.mapOperands u)) := by
  have asks : Agree (fun w => P w ∨ w = v) (t.ask S (t.request S k) fun results t => t.define v (results 0))
      (t'.ask S (t'.request S (k.mapOperands u)) fun results t => t.define v (results 0)) :=
    h.ask (h.request same) fun results => (h.note _).define v _
  cases k with
  | unary op x =>
    have eq := same x (List.mem_singleton_self x)
    rw [NodeKind.mapOperands, Thread.perform, Thread.perform, eq]
    exact h.define v _
  | type op name x =>
    have eq := same x (List.mem_singleton_self x)
    rw [NodeKind.mapOperands, Thread.perform, Thread.perform, eq]
    exact h.define v _
  | binary op x y =>
    have eq := same x List.mem_cons_self
    have eq' := same y (List.mem_cons_of_mem x (List.mem_singleton_self y))
    rw [NodeKind.mapOperands, Thread.perform, Thread.perform, eq, eq']
    exact h.define v _
  | copy x =>
    have eq := same x (List.mem_singleton_self x)
    rw [NodeKind.mapOperands, Thread.perform, Thread.perform, eq]
    exact h.define v _
  | phi => cases plain
  | store register x =>
    have eq := same x (List.mem_singleton_self x)
    rw [NodeKind.mapOperands, Thread.perform, Thread.perform, eq]
    exact ((h.note _).assign register _).define v _
  | hasNext2 object index =>
    rw [NodeKind.mapOperands, Thread.perform, Thread.perform, h.registers]
    exact h.ask rfl fun results => (((h.note _).assign object _).assign index _).define v _
  | scope op x =>
    have eq : (x.map u).map (t'.value S) = x.map (t.value S) := by
      cases x with
      | none => rfl
      | some x => exact congrArg some (same x (List.mem_singleton_self x))
    rw [NodeKind.mapOperands, Thread.perform, Thread.perform, eq, h.scope]
    exact ((h.note _).rescope _).define v _
  | debug i => exact h.define v _
  | operation i xs =>
    have effect : (NodeKind.operation i (xs.map u)).hasSideEffects = (NodeKind.operation i xs).hasSideEffects := rfl
    have silent := h.request same
    rw [NodeKind.mapOperands] at asks silent ⊢
    rw [Thread.perform, Thread.perform, effect, silent]
    rw [silent] at asks
    split
    · exact asks
    · exact h.define v _
  | caught | property | call => exact asks

end Agree

end Ir

end Avm

/-!
## Graphs inside one another

Some calls of a graph may be run by running another graph in an activation of its own: with the operands of the
call in the registers from 0 on, nothing in the others, and no scope.  When the inner graph returns, the graph that
waits for it goes on with what is returned, and when it throws, so does the graph that waits.  There is one log.
-/

namespace Avm.Ir

variable {V : Type}

/-- A graph that runs, and those that wait for it to end, innermost first. -/
structure Tower (V : Type) where
  func : Func
  thread : Thread V
  /-- The graphs that wait, each with the call that it waits for. -/
  waiting : List (Func × ValueId × Thread V) := []

namespace Tower

variable (S : Semantics V) (host : Func → ValueId → Option Func)

/-- Starts a graph in place of a call. -/
def call (T : Tower V) (v : ValueId) (k : NodeKind) (rest : List ValueId) (g : Func) : Tower V :=
  let args := k.operands.map (T.thread.value S)
  { func := g
    thread := { g.start S (fun r => args[r]?.getD (S.const .undefined)) with log := T.thread.log }
    waiting := (T.func, v, { T.thread with rest := rest }) :: T.waiting }

/-- Goes back to the graph that waits. -/
def back (T : Tower V) : Tower V :=
  match T.waiting, T.thread.ending with
  | (f, v, t) :: waiting, some (.returned x) =>
    ⟨f, { t with log := T.thread.log }.define v (x.getD (S.const .undefined)), waiting⟩
  | (f, _, t) :: waiting, some (.thrown x) => ⟨f, { t with log := T.thread.log, ending := some (.thrown x) }, waiting⟩
  | _, _ => T

/-- Does what comes next: starts a graph or goes back from one, or goes on in the graph that runs. -/
def step (T : Tower V) : Tower V :=
  if T.thread.ending.isSome then T.back S
  else
    match T.thread.rest with
    | v :: rest =>
      match host T.func v, T.func.kind? v with
      | some g, some k => T.call S v k rest g
      | _, _ => { T with thread := T.func.step S T.thread }
    | [] => { T with thread := T.func.step S T.thread }

end Tower

namespace Func

variable (f : Func) (S : Semantics V) (host : Func → ValueId → Option Func)

/-- The tower after so many steps. -/
def tower (registers : Nat → V) (n : Nat) : Tower V := (Tower.step S host)^[n] ⟨f, f.start S registers, []⟩

/-- The run ends, and this is what the surroundings were asked. -/
def Performs (registers : Nat → V) (trace : List (Request V)) (ending : Ending V) : Prop :=
  ∃ n, (f.tower S host registers n).waiting = [] ∧ (f.tower S host registers n).thread.ending = some ending ∧
    (f.tower S host registers n).thread.log.filterMap Occurrence.request? = trace

variable {f S host} {T : Tower V} {registers : Nat → V} {trace trace' : List (Request V)} {ending ending' : Ending V}

lemma step_tower_ended (ended : T.thread.ending = some ending) (alone : T.waiting = []) : T.step S host = T := by
  rw [Tower.step, if_pos (by rw [ended]; rfl), Tower.back, alone]

lemma tower_of_le {n m : Nat} (alone : (f.tower S host registers n).waiting = [])
    (ended : (f.tower S host registers n).thread.ending = some ending) (le : n ≤ m) :
    f.tower S host registers m = f.tower S host registers n := by
  obtain ⟨k, rfl⟩ := Nat.exists_eq_add_of_le' le
  have stays := Function.iterate_fixed (step_tower_ended ended alone : Tower.step S host _ = _) k
  rw [tower, Function.iterate_add_apply]
  exact stays

/-- A run ends in one way. -/
theorem Performs.unique (h : f.Performs S host registers trace ending)
    (h' : f.Performs S host registers trace' ending') :
    trace = trace' ∧ ending = ending' := by
  obtain ⟨n, alone, ended, rfl⟩ := h
  obtain ⟨m, alone', ended', rfl⟩ := h'
  rcases Nat.le_total n m with le | le
  · rw [tower_of_le alone ended le] at ended' ⊢
    exact ⟨rfl, Option.some.inj (ended.symm.trans ended')⟩
  · rw [tower_of_le alone' ended' le] at ended ⊢
    exact ⟨rfl, Option.some.inj (ended.symm.trans ended')⟩

end Func

end Avm.Ir
