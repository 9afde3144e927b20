import Avm.Ir.Lift
import Avm.Opt.Eval
import Mathlib.Logic.Function.Basic

/-!
# Running code

The machine that instructions are meant for has an operand stack, a scope stack and registers.
Operators are pure.  What other instructions do is left to the surroundings: each of them is an event
in a trace, and the surroundings answer it with the results or with an exception.  Records for
debuggers do nothing.  Code is run without its handlers, so an exception ends the run.

Instructions that hand control from one to the next are followed one after another, up to the first that raises an
exception.  The machine that such an instruction finds is kept, since a handler goes on with its registers.

The main statements are `MethodBody.Runs.inj`: there is one trace and one outcome, and `Machine.follow_append`:
instructions behind others.
-/

/-! ## The machine -/

namespace Avm

open Ir

/-- Something that the surroundings of the code notice. -/
structure Event (V : Type) where
  opcode : Opcode
  operands : Operands Nat
  /-- The values that it is done to, the top of the stack last. -/
  args : List V
deriving DecidableEq, Repr

/-- How a run ends. -/
inductive Ending (V : Type) where
  | returned (value : Option V)
  | thrown (value : V)
deriving DecidableEq, Repr

/-- What operators make of values, and how the surroundings answer. -/
structure Interp (V : Type) where
  const : Constant → V
  unary : UnaryOp → V → V
  type : TypeOp → Nat → V → V
  binary : BinaryOp → V → V → V
  /-- The branch on the values is taken. -/
  branch : BranchKind → List V → Bool
  /-- The case that a switch with so many cases takes. -/
  select : V → Nat → Option Nat
  /-- The result of an instruction without effect that looks at the scope stack. -/
  silent : Instruction Nat → List V → V
  /-- The results of the last event of a trace, or the exception that it raises. -/
  answer : List (Event V) → Except V (Nat → V)

namespace Interp

variable {V : Type}

/-- Operators do to constants what is known of them beforehand. -/
structure Folds (I : Interp V) : Prop where
  unary : ∀ op c r, Eval.unary op c = some r → I.unary op (I.const c) = I.const r
  binary : ∀ op a b r, Eval.binary op a b = some r →
    I.binary op (I.const a) (I.const b) = I.const r
  branch : ∀ kind cs t, Eval.branch kind cs = some t → I.branch kind (cs.map I.const) = t
  select : ∀ c n k, Eval.switchCase c n = some k → I.select (I.const c) n = k

/-- The operators on constants, with nothing where the result is not known. -/
def ofConstants : Interp Constant where
  const c := c
  unary op c := (Eval.unary op c).getD .undefined
  type _ _ c := c
  binary op a b := (Eval.binary op a b).getD .undefined
  branch kind cs := (Eval.branch kind cs).getD false
  select c n := (Eval.switchCase c n).getD none
  silent _ _ := .undefined
  answer _ := .ok fun _ => .undefined

lemma folds_ofConstants : ofConstants.Folds where
  unary op c r known := by
    change (Eval.unary op c).getD .undefined = r
    rw [known, Option.getD_some]
  binary op a b r known := by
    change (Eval.binary op a b).getD .undefined = r
    rw [known, Option.getD_some]
  branch kind cs t known := by
    change (Eval.branch kind (cs.map id)).getD false = t
    rw [List.map_id, known, Option.getD_some]
  select c n k known := by
    change (Eval.switchCase c n).getD none = k
    rw [known, Option.getD_some]

end Interp

/-- The machine between two instructions. -/
structure Machine (V : Type) where
  /-- The position of the next instruction. -/
  position : Nat := 0
  /-- The operand stack, top first. -/
  stack : List V := []
  /-- The scope stack, bottom first. -/
  scope : List V := []
  registers : Nat → V
  /-- The events so far, the last one last. -/
  trace : List (Event V) := []

namespace Machine

variable {V : Type}

/-- What comes of an instruction. -/
inductive Next (V : Type) where
  | goes (m : Machine V)
  | ends (trace : List (Event V)) (ending : Ending V)

/-- Puts a value onto the operand stack. -/
def push (m : Machine V) (v : V) : Machine V := { m with stack := v :: m.stack }

/-- Sets a register. -/
def set (m : Machine V) (register : Nat) (v : V) : Machine V :=
  { m with registers := Function.update m.registers register v }

/-- Takes a value off the operand stack. -/
def pop? (m : Machine V) : Option (V × Machine V) :=
  match m.stack with
  | v :: rest => some (v, { m with stack := rest })
  | [] => none

/-- Takes several values off the operand stack, the top comes last. -/
def popN? (m : Machine V) (n : Nat) : Option (List V × Machine V) :=
  if m.stack.length < n then none
  else some ((m.stack.take n).reverse, { m with stack := m.stack.drop n })

/-- Adds an event to the trace, and goes on with its results unless it raises an exception. -/
def emit (I : Interp V) (m : Machine V) (e : Event V) (andThen : (Nat → V) → Machine V → Machine V) :
    Next V :=
  match I.answer (m.trace ++ [e]) with
  | .ok results => .goes (andThen results { m with trace := m.trace ++ [e] })
  | .error v => .ends (m.trace ++ [e]) (.thrown v)

/-- An instruction without rules of its own: takes what it needs from the stack and puts its results
there. -/
def perform (pool : Pool) (I : Interp V) (i : Instruction Nat) (m : Machine V) : Option (Next V) := do
  let effect ← (i.effect pool).toOption
  let (args, m) ← m.popN? effect.pops
  return m.emit I ⟨i.opcode, i.operands, args⟩ fun results m =>
    (List.range effect.pushes).foldl (fun m k => m.push (results k)) m

/-- An operator, or an instruction without rules of its own. -/
def operate (pool : Pool) (I : Interp V) (i : Instruction Nat) (m : Machine V) : Option (Next V) :=
  match TypeOp.ofOpcode? i.opcode, UnaryOp.ofOpcode? i.opcode, BinaryOp.ofOpcode? i.opcode with
  | some op, _, _ => do
    let name ← i.index?
    let (v, m) ← m.pop?
    return .goes (m.push (I.type op name v))
  | none, some op, _ => do
    let (v, m) ← m.pop?
    return .goes (m.push (I.unary op v))
  | none, none, some op => do
    let (rhs, m) ← m.pop?
    let (lhs, m) ← m.pop?
    return .goes (m.push (I.binary op lhs rhs))
  | none, none, none => perform pool I i m

/-- Applies an operator to a register. -/
def update (I : Interp V) (op : UnaryOp) (i : Instruction Nat) (m : Machine V) :
    Option (Next V) := do
  let register ← i.index?
  return .goes (m.set register (I.unary op (m.registers register)))

/-- An instruction that hands control to the next one. -/
def execute (pool : Pool) (I : Interp V) (i : Instruction Nat) (m : Machine V) : Option (Next V) :=
  match i.opcode with
  | .nop | .label | .bkpt | .bkptLine | .debug | .debugLine | .debugFile | .timestamp =>
    some (.goes m)
  | .pushNull | .pushUndefined | .pushTrue | .pushFalse | .pushNaN | .pushByte | .pushShort
  | .pushInt | .pushUInt | .pushDouble | .pushString | .pushNamespace => do
    let c ← (Lift.constant pool i).toOption
    return .goes (m.push (I.const c))
  | .pop => do
    let (_, m) ← m.pop?
    return .goes m
  | .dup => do
    let (v, _) ← m.pop?
    return .goes (m.push v)
  | .swap => do
    let (top, m) ← m.pop?
    let (below, m) ← m.pop?
    return .goes ((m.push top).push below)
  | .getLocal | .getLocal0 | .getLocal1 | .getLocal2 | .getLocal3 => do
    let register ← i.localRead?
    return .goes (m.push (m.registers register))
  | .setLocal | .setLocal0 | .setLocal1 | .setLocal2 | .setLocal3 => do
    let register ← i.localWrite?
    let (v, m) ← m.pop?
    return .goes (m.set register v)
  | .kill => do
    let register ← i.index?
    return .goes (m.set register (I.const .undefined))
  | .incLocal => update I .increment i m
  | .decLocal => update I .decrement i m
  | .incLocalI => update I .incrementI i m
  | .decLocalI => update I .decrementI i m
  | .hasNext2 =>
    match i.operands with
    | .pair object index =>
      some (m.emit I ⟨.hasNext2, .none, [m.registers object, m.registers index]⟩ fun results m =>
        ((m.set object (results 1)).set index (results 2)).push (results 0))
    | _ => none
  | .getScopeObject =>
    match i.operands with
    | .byte index => do
      let v ← m.scope[index.toNat]?
      return .goes (m.push v)
    | _ => none
  | .pushScope | .pushWith => do
    let (v, m) ← m.pop?
    return m.emit I ⟨i.opcode, .none, [v]⟩ fun _ m => { m with scope := m.scope ++ [v] }
  | .popScope =>
    if m.scope.isEmpty then none
    else some (m.emit I ⟨.popScope, .none, []⟩ fun _ m => { m with scope := m.scope.dropLast })
  | .getGlobalScope | .newFunction => some (.goes (m.push (I.silent i m.scope)))
  | _ => operate pool I i m

/-- The next instruction of a listing. -/
def step (listing : List (Instruction Nat)) (pool : Pool) (I : Interp V) (m : Machine V) :
    Option (Next V) := do
  let i ← listing[m.position]?
  match i.opcode.flow, i.operands with
  | .next, _ => execute pool I i { m with position := m.position + 1 }
  | .jump, .branch target => some (.goes { m with position := target })
  | .conditional, .branch target => do
    let kind ← BranchKind.ofOpcode? i.opcode
    let (args, rest) ← m.popN? kind.arity
    return .goes { rest with position := if I.branch kind args then target else m.position + 1 }
  | .switch, .switch default cases => do
    let (index, rest) ← m.pop?
    let target := ((I.select index cases.length).bind (cases[·]?)).getD default
    return .goes { rest with position := target }
  | .leave, _ =>
    if i.opcode = .returnValue then do
      let (v, _) ← m.pop?
      return .ends m.trace (.returned (some v))
    else some (.ends m.trace (.returned none))
  | .raise, _ => do
    let (v, _) ← m.pop?
    return .ends m.trace (.thrown v)
  | _, _ => none

/-- The trace and the ending of a run of at most `fuel` instructions. -/
def run (listing : List (Instruction Nat)) (pool : Pool) (I : Interp V) :
    Nat → Machine V → Option (List (Event V) × Ending V)
  | 0, _ => none
  | fuel + 1, m =>
    match step listing pool I m with
    | some (.goes m) => run listing pool I fuel m
    | some (.ends trace ending) => some (trace, ending)
    | none => none

variable {listing : List (Instruction Nat)} {pool : Pool} {I : Interp V}

lemma run_add {fuel : Nat} {m : Machine V} {result : List (Event V) × Ending V}
    (h : run listing pool I fuel m = some result) (more : Nat) :
    run listing pool I (fuel + more) m = some result := by
  induction fuel generalizing m with
  | zero => exact absurd h (Option.some_ne_none _ ∘ Eq.symm)
  | succ fuel ih =>
    rw [Nat.succ_add]
    rw [run] at h ⊢
    cases next : step listing pool I m with
    | none =>
      rw [next] at h
      exact absurd h (Option.some_ne_none _ ∘ Eq.symm)
    | some next' =>
      rw [next] at h
      cases next' with
      | goes m => exact ih h
      | ends trace ending => exact h

end Machine

namespace MethodBody

variable {V : Type} {body : MethodBody} {pool : Pool} {I : Interp V} {args : Nat → V}
  {trace trace' : List (Event V)} {ending ending' : Ending V}

/-- The machine when a method starts: the arguments in the first registers, nothing elsewhere. -/
def start (body : MethodBody) (I : Interp V) (args : Nat → V) : Machine V where
  registers r := if r < body.argumentRegisters then args r else I.const .undefined

/-- The code of a method runs to an end, with a trace of events. -/
def Runs (body : MethodBody) (pool : Pool) (I : Interp V) (args : Nat → V)
    (trace : List (Event V)) (ending : Ending V) : Prop :=
  ∃ code listing fuel, Code.decode body.code body.exceptions = .ok code ∧
    code.listing = .ok listing ∧
    Machine.run listing pool I fuel (body.start I args) = some (trace, ending)

/-- A method runs in one way. -/
theorem Runs.inj (h : body.Runs pool I args trace ending)
    (h' : body.Runs pool I args trace' ending') : trace = trace' ∧ ending = ending' := by
  obtain ⟨code, listing, fuel, decoded, listed, ran⟩ := h
  obtain ⟨code', listing', fuel', decoded', listed', ran'⟩ := h'
  obtain rfl := Except.ok.inj (decoded.symm.trans decoded')
  obtain rfl := Except.ok.inj (listed.symm.trans listed')
  have long := Machine.run_add ran fuel'
  have long' := Machine.run_add ran' fuel
  rw [Nat.add_comm fuel' fuel, long] at long'
  exact Prod.mk.inj (Option.some.inj long')

end MethodBody

end Avm

/-! ## Instructions in a row -/

namespace Avm

open Ir

namespace Machine

variable {V : Type}

/-- How far instructions in a row get. -/
inductive Course (V : Type) where
  /-- All of them are behind. -/
  | passes (m : Machine V)
  /-- One of them raises an exception, which found the machine as given. -/
  | stops (m : Machine V) (trace : List (Event V)) (exception : V)

/-- Follows instructions that hand control from one to the next. -/
def follow (pool : Pool) (I : Interp V) : List (Instruction Nat) → Machine V → Option (Course V)
  | [], m => some (.passes m)
  | i :: is, m =>
    if i.opcode.flow = .next then
      match execute pool I i m with
      | some (.goes m') => follow pool I is m'
      | some (.ends trace (.thrown x)) => some (.stops m trace x)
      | _ => none
    else none

variable {pool : Pool} {I : Interp V} {i : Instruction Nat} {is js : List (Instruction Nat)} {m m' : Machine V}
  {trace : List (Event V)} {x : V} {r : Nat}

lemma follow_cons (next : i.opcode.flow = .next) (executed : execute pool I i m = some (.goes m')) :
    follow pool I (i :: is) m = follow pool I is m' := by
  rw [follow, if_pos next, executed]

lemma follow_singleton (next : i.opcode.flow = .next) (executed : execute pool I i m = some (.goes m')) :
    follow pool I [i] m = some (.passes m') := follow_cons next executed

lemma follow_cons_stops (next : i.opcode.flow = .next)
    (executed : execute pool I i m = some (.ends trace (.thrown x))) :
    follow pool I (i :: is) m = some (.stops m trace x) := by
  rw [follow, if_pos next, executed]

/-- Instructions behind others are followed if the others pass. -/
theorem follow_append : follow pool I (is ++ js) m = (follow pool I is m).bind fun course =>
    match course with
    | .passes m' => follow pool I js m'
    | .stops m' trace x => some (.stops m' trace x) := by
  induction is generalizing m with
  | nil => rfl
  | cons i is ih =>
    rw [List.cons_append, follow, follow]
    split
    · split
      · exact ih
      · rfl
      · rfl
    · rfl

lemma follow_append_passes (first : follow pool I is m = some (.passes m')) :
    follow pool I (is ++ js) m = follow pool I js m' := by
  rw [follow_append, first]
  rfl

lemma follow_append_stops (first : follow pool I is m = some (.stops m' trace x)) :
    follow pool I (is ++ js) m = some (.stops m' trace x) := by
  rw [follow_append, first]
  rfl

lemma follow_getLocal : follow pool I [.getLocal r] m = some (.passes (m.push (m.registers r))) := by
  match r with
  | 0 | 1 | 2 | 3 => exact follow_singleton rfl rfl
  | r + 4 => exact follow_singleton rfl rfl

lemma follow_setLocal {rest : List V} (top : m.stack = x :: rest) :
    follow pool I [.setLocal r] m = some (.passes ({ m with stack := rest }.set r x)) := by
  have popped : m.pop? = some (x, { m with stack := rest }) := by rw [pop?, top]
  match r with
  | 0 | 1 | 2 | 3 =>
    exact follow_singleton rfl (by simp [execute, Instruction.setLocal, Instruction.localWrite?, popped])
  | r + 4 =>
    refine follow_singleton rfl ?_
    simp [execute, Instruction.setLocal, Instruction.withIndex, Instruction.localWrite?, Instruction.index?, popped]

end Machine

end Avm
