import Avm.Proofs.Emit.Moving
import Avm.Proofs.Run.Arriving

/-!
# The nodes of a block

The instructions for the nodes of a block do what the nodes do.  Between two nodes, all that is on
the operand stack is the result of the one before, if it stays there, and then the one behind takes
it first.  All other results that are used are in registers of their own.  So each node finds its
operands, the first one lowest, and its instruction takes them.

The main statement is `front_computes`.
-/

namespace Avm.Emit

open Avm.Ir Avm.Ir.Func

/-- The machine has what nodes have computed: their values, as far as they are used from registers of their own, besides
the scope stack, the trace and the registers of the method. -/
structure Held {V : Type} (p : Plan) (temps : List (ValueId × Nat)) (s : Scene V) (m : Machine V) : Prop where
  beside : s.Beside p.func.locals m
  temps : ∀ v r x, p.isUsed v = true → v ∉ p.onStack → temps.lookup v = some r → s.values v = some x →
    m.registers r = x

/-- The first of some values is on the operand stack if a node has left it there, and nothing else is. -/
def Awaits {V : Type} (I : Interp V) (p : Plan) (xs : List Value) (s : Scene V) (m : Machine V) : Prop :=
  m.stack.map some = (xs.head?.filter p.stays).toList.map (s.value? I)

/-- The registers that operands name and that nodes set are those of the method. -/
structure Ranged (f : Func) : Prop where
  operands : ∀ r version, .reg r version ∈ f.allOperands → r < f.locals
  written : ∀ v k, f.kind? v = some k → ∀ r ∈ k.written, r < f.locals

variable {f : Func} {p : Plan} {d d' d₁ e : Draft} {v w : ValueId} {k : NodeKind} {xs : List Value}

namespace Write

lemma values_singleton {x : Value} {u : Unit} (run : (value p x).run d = .ok u d') : (values p [x]).run d = .ok () d' :=
  bind_eq_ok.2 ⟨(), d', run, rfl⟩

lemma puts_pushChecked {i : Instruction Marker} {u : Unit} (run : (pushChecked i).run d = .ok u d') :
    Draft.Puts [i] d d' := by
  obtain ⟨_, d₁, checked, pushed⟩ := bind_eq_ok.1 run
  obtain ⟨-, rfl⟩ := ofExcept_eq_ok.1 checked
  exact puts_push pushed

lemma effect_eq_ok {u : Unit} (plain : k ≠ .caught) (run : (effect p v k).run d = .ok u d') :
    (∃ r, k = .store r (.const .undefined) ∧ Draft.Puts [.withIndex .kill r] d d') ∨
      ∃ d₁, (values p k.operands).run d = .ok () d₁ ∧ Draft.Puts k.instruction?.toList d₁ d' := by
  cases k with
  | phi inputs => exact absurd run throw_ne_ok
  | caught => exact absurd rfl plain
  | store register operand =>
    rw [effect.eq_def] at run
    split at run
    all_goals cases ‹NodeKind.store _ _ = _›
    · exact .inl ⟨register, rfl, puts_push run⟩
    · obtain ⟨_, d₁, first, last⟩ := bind_eq_ok.1 run
      exact .inr ⟨d₁, values_singleton first, puts_push last⟩
  | hasNext2 object index => exact .inr ⟨d, rfl, puts_push run⟩
  | unary op operand | type op name operand =>
    obtain ⟨_, d₁, first, last⟩ := bind_eq_ok.1 run
    exact .inr ⟨d₁, values_singleton first, puts_push last⟩
  | copy operand => exact .inr ⟨d', values_singleton run, .refl d'⟩
  | property opcode name operands | call opcode index argCount operands =>
    obtain ⟨_, d₁, first, last⟩ := bind_eq_ok.1 run
    exact .inr ⟨d₁, first, puts_pushChecked last⟩
  | binary op lhs rhs | operation instruction operands | scope op operand =>
    obtain ⟨_, d₁, first, last⟩ := bind_eq_ok.1 run
    exact .inr ⟨d₁, first, puts_push last⟩
  | debug instruction => exact .inr ⟨d, rfl, puts_push run⟩

/-- What becomes of the result of a node behind its instruction: it stays on the operand stack, goes to the register of
the node, or is dropped. -/
inductive Settles (p : Plan) (v : ValueId) (k : NodeKind) (temps : List (ValueId × Nat)) :
    List (Instruction Marker) → Prop
  | stays : (v ∈ p.onStack ↔ k.producesValue = true) → Settles p v k temps []
  | moves {r : Nat} : k.producesValue = true → v ∉ p.onStack → temps.lookup v = some r →
    Settles p v k temps [.setLocal r]
  | drops : k.producesValue = true → v ∉ p.onStack → p.isUsed v = false → Settles p v k temps [⟨.pop, .none⟩]

lemma producesValue_of_mem_onStack (on : v ∈ (Plan.ofFunc f).onStack) (does : f.kind? v = some k) :
    k.producesValue = true := by
  obtain ⟨b, -, before, rest, -, may, -⟩ := Plan.mem_onStack.1 on
  have does : (Plan.ofFunc f).func.kind? v = some k := does
  rw [Plan.mayStay, does] at may
  cases k with
  | caught | hasNext2 | store | scope | debug => cases may
  | _ => exact (Bool.and_eq_true_iff.1 may).1

lemma node_eq_ok {u : Unit} (run : (node (Plan.ofFunc f) v).run d = .ok u d') : ∃ k d₁ js, f.kind? v = some k ∧
    (effect (Plan.ofFunc f) v k).run d = .ok () d₁ ∧ Draft.Grows (Plan.ofFunc f) d₁ d' ∧ d'.written = d₁.written ++ js ∧
      Settles (Plan.ofFunc f) v k d'.temps js := by
  rw [node] at run
  split at run
  · exact absurd run throw_ne_ok
  · rename_i k does
    obtain ⟨_, d₁, first, last⟩ := bind_eq_ok.1 run
    refine ⟨k, d₁, ?_⟩
    split at last
    · rename_i keeps
      obtain ⟨result, off⟩ := Bool.and_eq_true_iff.1 keeps
      have off : v ∉ (Plan.ofFunc f).onStack := fun on => by simp [on] at off
      split at last
      · have made : IsMade (Plan.ofFunc f) (do push (.setLocal (← temp v))) :=
          (isMade_temp (by rw [does]; exact result)).bind fun r => isMade_push _
        have grows := made.isGrowth _ _ _ last
        obtain ⟨r, d₂, asked, pushed⟩ := bind_eq_ok.1 last
        have put := puts_push pushed
        refine ⟨_, does, first, grows, ?_, .moves (r := r) result off ?_⟩
        · rw [put.written, (written_of_temp asked).1]
        · rw [put.temps, lookup_of_temp asked]
      · rename_i unused
        have put := puts_push last
        exact ⟨_, does, first, put.grows, put.written, .drops result off (Bool.eq_false_of_not_eq_true unused)⟩
    · rename_i keeps
      obtain ⟨-, rfl⟩ := pure_eq_ok.1 last
      refine ⟨[], does, first, .refl _, (List.append_nil _).symm, .stays ⟨fun on => ?_, fun result => ?_⟩⟩
      · exact producesValue_of_mem_onStack on does
      · by_contra off
        exact keeps (by simp [result, off])

end Write

section Awaiting

variable {b : BlockId} {before rest : List ValueId}

/-- What is taken next is on the operand stack only where the node right before has left it there. -/
lemma filter_head?_takenBehind (listed : f.Listed) (split : f.body b = before ++ rest) :
    ((Plan.ofFunc f).takenBehind ((Plan.ofFunc f).endOperands b (f.terminator b)) rest).head?.filter
      (Plan.ofFunc f).stays =
      (before.getLast?.filter (Plan.ofFunc f).onStack.contains).map .node := by
  generalize first : ((Plan.ofFunc f).takenBehind ((Plan.ofFunc f).endOperands b (f.terminator b)) rest).head? = x
  by_cases on : ∃ v ∈ (Plan.ofFunc f).onStack, x = some (.node v)
  · obtain ⟨v, on, rfl⟩ := on
    obtain ⟨before', rfl⟩ := Listed.last_of_stays listed split on first
    have on : (Plan.ofFunc f).onStack.contains v = true := List.contains_iff_mem.2 on
    have stays : (Plan.ofFunc f).stays (.node v) = true := on
    rw [List.getLast?_concat, Option.filter_some, Option.filter_some, if_pos on, if_pos stays]
    rfl
  · have none : x.filter (Plan.ofFunc f).stays = none := by
      refine Option.filter_eq_none_iff.2 fun y here stays => on ?_
      cases y with
      | const c | reg r version => cases stays
      | node v => exact ⟨v, List.contains_iff_mem.1 stays, here⟩
    rw [none, eq_comm, Option.map_eq_none_iff, Option.filter_eq_none_iff]
    intro v last stays
    obtain ⟨before', rfl⟩ := List.getLast?_eq_some_iff.1 last
    rw [List.append_assoc, List.singleton_append] at split
    have on' := List.contains_iff_mem.1 stays
    have taken := Listed.taken_of_stays listed split on'
    exact on ⟨v, on', first.symm.trans taken⟩

end Awaiting

/-- A pool serves a draft: it has the constants of the draft and the namespaces that operands name, and all numbers that
are none are one value. -/
structure Serves {V : Type} (f : Func) (e : Draft) (I : Interp V) (P : Pool) : Prop where
  pool : e.pool.Extends P
  named : Named f P
  nan : I.OneNaN

section Running

variable {V : Type} {I : Interp V} {P : Pool} {s s' : Scene V} {m : Machine V} {x : Value} {y a : V} {args : List V}

lemma eq_of_reads (ranged : Ranged f) (grows : Draft.Grows (Plan.ofFunc f) d e)
    (held : Held (Plan.ofFunc f) e.temps s m)
    (awaits : Awaits I (Plan.ofFunc f) xs s m) (off : ∀ x ∈ xs.tail, (Plan.ofFunc f).stays x = false) (mem : x ∈ xs)
    (listed : x ∈ f.allOperands) (worth : s.value? I x = some a) (read : reads I (Plan.ofFunc f) d.temps m x = some y) :
    y = a := by
  cases x with
  | const c => exact Option.some.inj (read.symm.trans worth)
  | reg r version =>
    have same := held.beside.registers r (ranged.operands r version listed)
    exact Option.some.inj (read.symm.trans ((congrArg some same).trans worth))
  | node v =>
    rw [reads] at read
    split at read
    · rename_i on
      cases xs with
      | nil => cases mem
      | cons z zs =>
        -- What stays on the operand stack is the first one.
        obtain rfl : .node v = z := by
          refine (List.mem_cons.1 mem).resolve_right fun later => ?_
          exact Bool.noConfusion (on.symm.trans (off _ later))
        have stays : (Plan.ofFunc f).stays (.node v) = true := on
        rw [Awaits, List.head?_cons, Option.filter_some, if_pos stays, Option.toList_some, List.map_singleton, worth,
          ← List.map_singleton] at awaits
        rw [List.map_injective_iff.2 (Option.some_injective V) awaits] at read
        exact (Option.some.inj read).symm
    · rename_i not
      obtain ⟨r, known, rfl⟩ := Option.map_eq_some_iff.1 read
      have used : (Plan.ofFunc f).isUsed v = true :=
        List.contains_iff_mem.2 (List.mem_filterMap.2 ⟨_, listed, rfl⟩)
      exact held.temps v r a used (fun on => not (List.contains_iff_mem.2 on)) (grows.temps v r known) worth

lemma eq_of_map_eq {read worth : Value → Option V} {ys : List V}
    (same : ∀ x ∈ xs, ∀ y a, worth x = some a → read x = some y → y = a) (reads : xs.map read = ys.map some)
    (worths : xs.map worth = args.map some) : ys = args := by
  induction xs generalizing ys args with
  | nil => rw [List.eq_nil_of_map_eq_nil reads.symm, List.eq_nil_of_map_eq_nil worths.symm]
  | cons x xs ih =>
    obtain ⟨first, others⟩ := List.forall_mem_cons.1 same
    cases ys with
    | nil => cases reads
    | cons y ys =>
      cases args with
      | nil => cases worths
      | cons a args =>
        obtain ⟨read, reads⟩ := List.cons.inj reads
        obtain ⟨worth, worths⟩ := List.cons.inj worths
        rw [first y a worth read, ih others reads worths]

/-- Where the first operand of a node is on the operand stack if it stays there, the operands end
up on the stack with their values. -/
lemma follow_operands (ranged : Ranged f) (does : f.kind? v = some k) (plain : f.inputs? v = none)
    (run : (Write.values (Plan.ofFunc f) k.operands).run d = .ok () d') : ∃ is, Draft.Puts is d d' ∧
      ∀ {V : Type} {I : Interp V} {P : Pool} {e : Draft} {s : Scene V} {m : Machine V} {args : List V}, Serves f e I P →
        Draft.Grows (Plan.ofFunc f) d' e → Held (Plan.ofFunc f) e.temps s m → Awaits I (Plan.ofFunc f) k.operands s m →
          k.operands.map (s.value? I) = args.map some →
            Machine.follow P I is m = some (.passes { m with stack := args.reverse }) := by
  have off : ∀ x ∈ k.operands.tail, (Plan.ofFunc f).stays x = false := fun x mem => not_stays_of_mem_tail does plain mem
  obtain ⟨is, puts, fetched⟩ := Write.follow_values off run
  refine ⟨is, puts, fun {V I P e s m args} serves grows held awaits worth => ?_⟩
  have listed : ∀ x ∈ k.operands, x ∈ f.allOperands := fun x mem =>
    mem_allOperands_of_taken (t := .node v) (mem_taken_of_kind? does ▸ mem)
  have before : Draft.Grows (Plan.ofFunc f) d e := ((Write.isMade_values _).isGrowth _ _ _ run).trans grows
  have deep : m.stack.length = (Plan.ofFunc f).ahead k.operands := by
    have length := congrArg List.length awaits
    rw [List.length_map, List.length_map] at length
    rw [length, Plan.ahead]
    cases k.operands.head? with
    | none => rfl
    | some x => cases on : (Plan.ofFunc f).stays x <;> simp [on]
  obtain ⟨ys, reads, passes⟩ := fetched (grows.pool.trans serves.pool) serves.nan
    (fun x mem => serves.named x (listed x mem)) deep
  suffices same : ys = args by rw [passes, same]
  exact eq_of_map_eq (fun x mem y a => eq_of_reads ranged before held awaits off mem (listed x mem)) reads worth

lemma follow_effect (ranged : Ranged f) (does : f.kind? v = some k) (plain : f.inputs? v = none) (other : k ≠ .caught)
    (run : (Write.effect (Plan.ofFunc f) v k).run d = .ok () d') : ∃ is, Draft.Puts is d d' ∧
      ∀ {V : Type} {I : Interp V} {P : Pool} {e : Draft} {s : Scene V} {m : Machine V} {exception : Option V}
        {o : Scene.Outcome V}, Serves f e I P → Draft.Grows (Plan.ofFunc f) d' e → Held (Plan.ofFunc f) e.temps s m →
          Awaits I (Plan.ofFunc f) k.operands s m → s.acts P I exception v k = some o →
            ∃ stack js, Machine.follow P I is m = Machine.follow P I js { m with stack := stack } ∧
              Scene.Attains f.locals P I v k js { m with stack := stack } o := by
  obtain ⟨r, rfl, puts⟩ | ⟨d₁, read, puts⟩ := Write.effect_eq_ok other run
  · refine ⟨_, puts, fun {V I P e s m exception o} serves grows held awaits done => ⟨m.stack, _, rfl, ?_⟩⟩
    obtain rfl := Option.some.inj done
    have stack : m.stack = [] := List.map_eq_nil_iff.1 awaits
    refine ⟨m.set r (I.const .undefined), Machine.follow_singleton rfl rfl, held.beside.set r _, ?_, fun r' high => ?_⟩
    · exact congrArg (List.map some) stack
    · have := ranged.written v _ does r List.mem_cons_self
      exact Function.update_of_ne (by omega) _ _
  · obtain ⟨is, fetch, operands⟩ := follow_operands ranged does plain read
    refine ⟨_, fetch.trans puts, fun {V I P e s m exception o} serves grows held awaits done => ?_⟩
    obtain ⟨args, worth⟩ := Scene.exists_args fun y mem => Scene.isSome_value?_of_acts done mem
    have passes := operands serves (puts.grows.trans grows) held awaits worth
    refine ⟨_, _, Machine.follow_append_passes passes, ?_⟩
    exact Scene.attains_of_acts (held.beside.stacked _) other (ranged.written v k does) worth rfl done

lemma follow_settles {js : List (Instruction Marker)} (settles : Write.Settles (Plan.ofFunc f) v k d.temps js)
    (does : f.kind? v = some k) (grows : Draft.Grows (Plan.ofFunc f) d e) (apart : e.Owned (Plan.ofFunc f))
    (beside : s.Beside f.locals m) (stack : m.stack.map some = if k.producesValue then [s.values v] else [])
    (others : ∀ w r x, w ≠ v → (Plan.ofFunc f).isUsed w = true → w ∉ (Plan.ofFunc f).onStack →
      e.temps.lookup w = some r → s.values w = some x → m.registers r = x) :
    ∃ m', Machine.follow P I js m = some (.passes m') ∧ Held (Plan.ofFunc f) e.temps s m' ∧
      m'.stack.map some = if v ∈ (Plan.ofFunc f).onStack then [s.values v] else [] := by
  cases settles with
  | stays on =>
    refine ⟨m, rfl, ⟨beside, fun w r x used off known worth => ?_⟩, ?_⟩
    · refine others w r x (fun here => ?_) used off known worth
      -- A node with a register has a result, so it would stay on the stack.
      rw [here] at known off
      have has := apart.result v r known
      have does : (Plan.ofFunc f).func.kind? v = some k := does
      rw [does] at has
      exact off (on.2 has)
    · rw [stack]
      exact if_congr on.symm rfl rfl
  | @moves r result off mine =>
    rw [result, if_pos rfl] at stack
    obtain ⟨y, top, worth⟩ := List.map_eq_singleton_iff.1 stack
    have own := grows.temps v r mine
    have high : f.locals ≤ r := apart.above v r own
    refine ⟨Machine.set { m with stack := [] } r y, Machine.follow_setLocal top,
      ⟨?_, fun w r' x used off known worth' => ?_⟩, ?_⟩
    · refine ⟨beside.scope, beside.trace, fun r' (low : r' < f.locals) => ?_⟩
      exact (Function.update_of_ne (by omega) _ _).trans (beside.registers r' low)
    · by_cases here : w = v
      · rw [here] at known worth'
        obtain rfl := Option.some.inj (own.symm.trans known)
        obtain rfl := Option.some.inj (worth.trans worth')
        exact Function.update_self ..
      · refine (Function.update_of_ne ?_ _ _).trans (others w r' x here used off known worth')
        rintro rfl
        exact here (apart.inj w v r' known own)
    · rw [if_neg off]
      rfl
  | drops result off unused =>
    rw [result, if_pos rfl] at stack
    obtain ⟨y, top, -⟩ := List.map_eq_singleton_iff.1 stack
    refine ⟨{ m with stack := [] }, Machine.follow_singleton rfl ?_,
      ⟨beside.stacked [], fun w r x used off known worth => ?_⟩, ?_⟩
    · obtain ⟨q, st, sc, reg, tr⟩ := m
      obtain rfl : st = [y] := top
      rfl
    · refine others w r x (fun here => ?_) used off known worth
      rw [here, unused] at used
      cases used
    · rw [if_neg off]
      rfl

/-- Instructions get as far as nodes.  Where these pass, what they have computed is held, and the first of what is taken
next is on the operand stack if it stays there.  Otherwise both stop with the same exception. -/
def Reaches (f : Func) (e : Draft) (I : Interp V) (P : Pool) (is : List (Instruction Marker)) (m : Machine V)
    (next : List Value) : Scene.Course V → Prop
  | .passes s => ∃ m', Machine.follow P I is m = some (.passes m') ∧ Held (Plan.ofFunc f) e.temps s m' ∧
      Awaits I (Plan.ofFunc f) next s m'
  | .stops s trace exception => ∃ m', Machine.follow P I is m = some (.stops m' trace exception) ∧
      Held (Plan.ofFunc f) e.temps s m'

section Nodes

variable {b : BlockId} {before rest : List ValueId} {exception : Option V} {course : Scene.Course V}
  {is js : List (Instruction Marker)}

/-- The values that a block takes behind some of its nodes. -/
abbrev takenAt (f : Func) (b : BlockId) (rest : List ValueId) : List Value :=
  (Plan.ofFunc f).takenBehind ((Plan.ofFunc f).endOperands b (f.terminator b)) rest

lemma awaits_behind (filed : f.Filed) (split : f.body b = before ++ v :: rest)
    (stack : m.stack.map some = if v ∈ (Plan.ofFunc f).onStack then [s.values v] else []) :
    Awaits I (Plan.ofFunc f) (takenAt f b rest) s m := by
  rw [← List.singleton_append, ← List.append_assoc] at split
  rw [Awaits, stack, filter_head?_takenBehind filed.toListed split, List.getLast?_concat, Option.filter_some]
  by_cases on : v ∈ (Plan.ofFunc f).onStack
  · rw [if_pos on, if_pos (List.contains_iff_mem.2 on)]
    rfl
  · rw [if_neg on, if_neg (mt List.contains_iff_mem.1 on)]
    rfl

lemma awaits_front (filed : f.Filed) (stack : m.stack = []) :
    Awaits I (Plan.ofFunc f) (takenAt f b (f.body b)) s m := by
  rw [Awaits, stack, filter_head?_takenBehind filed.toListed (List.nil_append _).symm]
  rfl

lemma follow_node (filed : f.Filed) (ranged : Ranged f) (split : f.body b = before ++ v :: rest)
    (other : f.kind? v ≠ some .caught) (run : (Write.node (Plan.ofFunc f) v).run d = .ok () d') :
    ∃ is, d'.written = d.written ++ is ∧
      ∀ {V : Type} {I : Interp V} {P : Pool} {e : Draft} {s : Scene V} {m : Machine V} {exception : Option V}
        {o : Scene.Outcome V}, Serves f e I P → Draft.Grows (Plan.ofFunc f) d' e →
        e.Owned (Plan.ofFunc f) → Held (Plan.ofFunc f) e.temps s m →
          Awaits I (Plan.ofFunc f) (takenAt f b (v :: rest)) s m → (f.kind? v).bind (s.acts P I exception v) = some o →
            Reaches f e I P is m (takenAt f b rest) (o.course s) := by
  obtain ⟨k, d₁, js, does, first, more, written, settles⟩ := Write.node_eq_ok run
  have mem : v ∈ f.body b := by
    rw [split]
    exact List.mem_append_right _ List.mem_cons_self
  have plain := filed.plain b v mem
  have other : k ≠ .caught := by
    rintro rfl
    exact other does
  obtain ⟨is, puts, effect⟩ := follow_effect ranged does plain other first
  refine ⟨is ++ js, by rw [written, puts.written, List.append_assoc], ?_⟩
  intro V I P e s m exception o serves grows apart held awaits done
  rw [does, Option.bind_some] at done
  have awaits : Awaits I (Plan.ofFunc f) k.operands s m := by
    have same : takenAt f b (v :: rest) = k.operands := mem_taken_of_kind? does
    rwa [same] at awaits
  obtain ⟨st, is', same, attains⟩ := effect serves (more.trans grows) held awaits done
  cases o with
  | raises t x =>
    exact ⟨_, Machine.follow_append_stops (same.trans attains), held.beside.stacked st, held.temps⟩
  | goes s' =>
    obtain ⟨m₁, passes, beside, stack, kept⟩ := attains
    have advances := Scene.advances_of_acts done
    obtain ⟨m', settled, held', top⟩ := follow_settles (I := I) (P := P) settles does grows apart beside stack
      fun w r x here used off known worth => by
        have high : f.locals ≤ r := apart.above w r known
        rw [kept r high]
        exact held.temps w r x used off known (advances.others w here ▸ worth)
    exact ⟨m', by rw [Machine.follow_append_passes (same.trans passes), settled], held', awaits_behind filed split top⟩

lemma follow_caught (filed : f.Filed) (split : f.body b = v :: rest) (caught : f.kind? v = some .caught)
    (run : (Write.node (Plan.ofFunc f) v).run d = .ok () d') : ∃ is, d'.written = d.written ++ is ∧
      ∀ {V : Type} {I : Interp V} {P : Pool} {e : Draft} {s : Scene V} {m : Machine V} {x : V},
        Draft.Grows (Plan.ofFunc f) d' e → e.Owned (Plan.ofFunc f) → Held (Plan.ofFunc f) e.temps s m →
          m.stack = [x] → Reaches f e I P is m (takenAt f b rest) (.passes (s.define v x)) := by
  obtain ⟨k, d₁, js, does, first, more, written, settles⟩ := Write.node_eq_ok run
  obtain rfl := Option.some.inj (caught.symm.trans does)
  obtain ⟨-, rfl⟩ := Write.pure_eq_ok.1 first
  refine ⟨js, written, fun {V I P e s m x} grows apart held stack => ?_⟩
  obtain ⟨m', settled, held', top⟩ := follow_settles (I := I) (P := P) settles does grows apart (held.beside.define v x)
    (by rw [stack, Scene.values_define]; rfl) fun w r y here used off known worth => by
      refine held.temps w r y used off known ?_
      rw [← worth]
      exact (Function.update_of_ne here _ _).symm
  have split : f.body b = [] ++ v :: rest := split
  exact ⟨m', settled, held', awaits_behind filed split top⟩

lemma Reaches.behind {m₁ : Machine V} (passes : Machine.follow P I is m = some (.passes m₁))
    (reaches : Reaches f e I P js m₁ xs course) : Reaches f e I P (is ++ js) m xs course := by
  cases course with
  | passes s =>
    obtain ⟨m', passes', held⟩ := reaches
    exact ⟨m', by rw [Machine.follow_append_passes passes, passes'], held⟩
  | stops s t x =>
    obtain ⟨m', stops, held⟩ := reaches
    exact ⟨m', by rw [Machine.follow_append_passes passes, stops], held⟩

lemma Reaches.append {next : List Value} {vs : List ValueId} {o : Scene.Outcome V}
    (first : Reaches f e I P is m next (o.course s)) (done : (f.kind? v).bind (s.acts P I exception v) = some o)
    (followed : s.follow f P I exception (v :: vs) = some course)
    (others : ∀ s' m', Held (Plan.ofFunc f) e.temps s' m' → Awaits I (Plan.ofFunc f) next s' m' →
      s'.follow f P I exception vs = some course → Reaches f e I P js m' xs course) :
    Reaches f e I P (is ++ js) m xs course := by
  rw [Scene.follow, done] at followed
  cases o with
  | raises t x =>
    obtain rfl := Option.some.inj followed
    obtain ⟨m', stops, held⟩ := first
    exact ⟨m', Machine.follow_append_stops stops, held⟩
  | goes s' =>
    obtain ⟨m', passes, held, awaits⟩ := first
    exact .behind passes (others s' m' held awaits followed)

lemma follow_laterNodes (filed : f.Filed) (ranged : Ranged f) (split : f.body b = before ++ rest)
    (run : (Write.laterNodes (Plan.ofFunc f) b rest).run d = .ok () d') : ∃ is, d'.written = d.written ++ is ∧
      ∀ {V : Type} {I : Interp V} {P : Pool} {e : Draft} {s : Scene V} {m : Machine V} {exception : Option V}
        {course : Scene.Course V}, Serves f e I P → Draft.Grows (Plan.ofFunc f) d' e → e.Owned (Plan.ofFunc f) →
          Held (Plan.ofFunc f) e.temps s m → Awaits I (Plan.ofFunc f) (takenAt f b rest) s m →
            s.follow f P I exception rest = some course → Reaches f e I P is m (takenAt f b []) course := by
  induction rest generalizing before d with
  | nil =>
    obtain ⟨-, rfl⟩ := Write.pure_eq_ok.1 run
    refine ⟨[], (List.append_nil _).symm, fun {V I P e s m exception course} _ _ _ held awaits followed => ?_⟩
    obtain rfl := Option.some.inj followed
    exact ⟨m, rfl, held, awaits⟩
  | cons v rest ih =>
    obtain ⟨other, d₁, first, later⟩ := Write.laterNodes_cons_eq_ok run
    obtain ⟨is, written, one⟩ := follow_node filed ranged split other first
    rw [← List.singleton_append, ← List.append_assoc] at split
    obtain ⟨js, written', others⟩ := ih split later
    refine ⟨is ++ js, by rw [written', written, List.append_assoc], ?_⟩
    intro V I P e s m exception course serves grows apart held awaits followed
    have grows₁ := ((Write.isMade_laterNodes b rest).isGrowth _ _ _ later).trans grows
    cases done : (f.kind? v).bind (s.acts P I exception v) with
    | none =>
      rw [Scene.follow, done] at followed
      cases followed
    | some o =>
      exact (one serves grows₁ apart held awaits done).append done followed fun s' m' held' awaits' followed' =>
        others serves grows apart held' awaits' followed'

end Nodes

end Running

section Writing

variable {b : BlockId} {rest : List ValueId}

/-- What it takes to write a node: its operands are results, and its own result has a register if
it is used and does not stay on the operand stack. -/
structure Settled (f : Func) (d : Draft) (v : ValueId) : Prop where
  operands : ∀ k, f.kind? v = some k → ∀ u, .node u ∈ k.operands → (f.kind? u).any NodeKind.producesValue = true
  result : (f.kind? v).any NodeKind.producesValue = true → (Plan.ofFunc f).isUsed v = true →
    v ∉ (Plan.ofFunc f).onStack → ∃ r, d.temps.lookup v = some r

lemma Settled.mono (h : Settled f d v) (grows : Draft.Grows p d d') : Settled f d' v where
  operands := h.operands
  result has used off := by
    obtain ⟨r, known⟩ := h.result has used off
    exact ⟨r, grows.temps v r known⟩

lemma producesValue_of_values {u : Unit} (apart : d.Apart (Plan.ofFunc f))
    (run : (Write.values (Plan.ofFunc f) xs).run d = .ok u d') (mem : .node v ∈ xs) :
    (f.kind? v).any NodeKind.producesValue = true := by
  induction xs generalizing d with
  | nil => cases mem
  | cons x xs ih =>
    obtain ⟨_, d₁, first, others⟩ := Write.bind_eq_ok.1 run
    rcases List.mem_cons.1 mem with rfl | later
    · rw [Write.value] at first
      split at first
      · rename_i on
        obtain ⟨b, -, before, rest, -, may, -⟩ := Plan.mem_onStack.1 (List.contains_iff_mem.1 on)
        cases does : f.kind? v with
        | none => simp [Plan.mayStay, show (Plan.ofFunc f).func.kind? v = none from does] at may
        | some k => exact Write.producesValue_of_mem_onStack (List.contains_iff_mem.1 on) does
      · obtain ⟨d₂, _, got, rest⟩ := Write.bind_eq_ok.1 first
        obtain ⟨rfl, rfl⟩ := Write.get_eq_ok.1 got
        split at rest
        · rename_i r known
          exact apart.result v r known
        · exact absurd rest Write.throw_ne_ok
    · exact ih (((Write.isMade_value x).isGrowth _ _ _ first).apart apart) others later

lemma settled_of_node {u : Unit} (apart : d.Apart (Plan.ofFunc f))
    (run : (Write.node (Plan.ofFunc f) v).run d = .ok u d') :
    Settled f d' v := by
  obtain ⟨k, d₁, js, does, first, more, -, settles⟩ := Write.node_eq_ok run
  refine ⟨fun k' does' w mem => ?_, fun has used off => ?_⟩
  · obtain rfl := Option.some.inj (does.symm.trans does')
    by_cases caught : k = .caught
    · rw [caught] at mem
      cases mem
    · obtain ⟨r, rfl, -⟩ | ⟨d₂, read, -⟩ := Write.effect_eq_ok caught first
      · cases List.mem_singleton.1 mem
      · exact producesValue_of_values apart read mem
  · rw [does] at has
    cases settles with
    | stays on => exact absurd (on.2 has) off
    | moves _ _ known => exact ⟨_, known⟩
    | drops _ _ unused =>
      rw [unused] at used
      cases used

lemma puts_behind {c : Prop} [Decidable c] {i : Instruction Marker} {x : Write Unit} {u : Unit}
    (run : (if c then Write.push i >>= fun _ => x else x).run d = .ok u d') :
    ∃ d₁, Draft.Puts (if c then [i] else []) d d₁ ∧ x.run d₁ = .ok () d' := by
  by_cases h : c
  · rw [if_pos h] at run ⊢
    obtain ⟨_, d₁, first, rest⟩ := Write.bind_eq_ok.1 run
    exact ⟨d₁, Write.puts_push first, rest⟩
  · rw [if_neg h] at run ⊢
    exact ⟨d, .refl d, run⟩

/-- The first node of the block takes the exception that was caught. -/
def takesException (f : Func) (b : BlockId) : Bool := ((f.body b).head?.map (Write.catches f)).getD false

lemma follow_nodes (filed : f.Filed) (ranged : Ranged f)
    (run : (Write.nodes (Plan.ofFunc f) b (f.body b)).run d = .ok () d') : ∃ is, d'.written = d.written ++ is ∧
      ∀ {V : Type} {I : Interp V} {P : Pool} {e : Draft} {s : Scene V} {m : Machine V} {exception : Option V}
        {course : Scene.Course V}, Serves f e I P → Draft.Grows (Plan.ofFunc f) d' e →
        e.Owned (Plan.ofFunc f) → Held (Plan.ofFunc f) e.temps s m →
          m.stack = (if takesException f b then exception.toList else []) →
            s.follow f P I exception (f.body b) = some course → Reaches f e I P is m (takenAt f b []) course := by
  cases body : f.body b with
  | nil =>
    rw [body] at run
    obtain ⟨-, rfl⟩ := Write.pure_eq_ok.1 run
    refine ⟨[], (List.append_nil _).symm, fun {V I P e s m exception course} _ _ _ held stack followed => ?_⟩
    obtain rfl := Option.some.inj followed
    rw [takesException, body] at stack
    have awaits := awaits_front (I := I) (s := s) (b := b) filed stack
    rw [body] at awaits
    exact ⟨m, rfl, held, awaits⟩
  | cons v rest =>
    rw [body] at run
    obtain ⟨_, d₁, first, later⟩ := Write.bind_eq_ok.1 run
    have behind : f.body b = [v] ++ rest := body
    obtain ⟨js, written', others⟩ := follow_laterNodes filed ranged behind later
    have grows' {e : Draft} (grows : Draft.Grows (Plan.ofFunc f) d' e) : Draft.Grows (Plan.ofFunc f) d₁ e :=
      ((Write.isMade_laterNodes b rest).isGrowth _ _ _ later).trans grows
    by_cases caught : f.kind? v = some .caught
    · have takes : takesException f b = true := by
        rw [takesException, body]
        exact beq_iff_eq.2 caught
      obtain ⟨is, written, one⟩ := follow_caught filed body caught first
      refine ⟨is ++ js, by rw [written', written, List.append_assoc], ?_⟩
      intro V I P e s m exception course serves grows apart held stack followed
      rw [takes, if_pos rfl] at stack
      cases exception with
      | none =>
        rw [Scene.follow, caught] at followed
        cases followed
      | some x =>
        refine Reaches.append (o := .goes (s.define v x)) (one (grows' grows) apart held stack) ?_ followed
          fun s' m' held' awaits => others serves grows apart held' awaits
        rw [caught]
        rfl
    · have takes : takesException f b = false := by
        rw [takesException, body]
        exact beq_eq_false_iff_ne.2 caught
      have split : f.body b = [] ++ v :: rest := body
      obtain ⟨is, written, one⟩ := follow_node filed ranged split caught first
      refine ⟨is ++ js, by rw [written', written, List.append_assoc], ?_⟩
      intro V I P e s m exception course serves grows apart held stack followed
      rw [takes, if_neg Bool.false_ne_true] at stack
      have awaits := awaits_front (I := I) (s := s) (b := b) filed stack
      rw [body] at awaits
      cases done : (f.kind? v).bind (s.acts P I exception v) with
      | none =>
        rw [Scene.follow, done] at followed
        cases followed
      | some o =>
        exact (one serves (grows' grows) apart held awaits done).append done followed fun s' m' held' awaits' =>
          others serves grows apart held' awaits'

/-- What is written up to the end of a block gets as far as its nodes, from an empty operand stack,
or from one that holds just the exception where one comes to the block. -/
lemma follow_front (filed : f.Filed) (ranged : Ranged f) (run : (Write.front (Plan.ofFunc f) b).run d = .ok () d') :
    ∃ is, d'.written = d.written ++ is ∧
      ∀ {V : Type} {I : Interp V} {P : Pool} {e : Draft} {s : Scene V} {m : Machine V} {exception : Option V}
        {course : Scene.Course V}, Serves f e I P → Draft.Grows (Plan.ofFunc f) d' e →
        e.Owned (Plan.ofFunc f) → Held (Plan.ofFunc f) e.temps s m → m.stack = exception.toList →
          exception.isSome = f.handlers.any (·.target == b) → s.follow f P I exception (f.body b) = some course →
            Reaches f e I P is m (takenAt f b []) course := by
  obtain ⟨d₁, label, run⟩ := puts_behind run
  obtain ⟨d₂, pop, nodes⟩ := puts_behind run
  obtain ⟨is, written, through⟩ := follow_nodes filed ranged nodes
  refine ⟨_, by rw [written, pop.written, label.written, List.append_assoc, List.append_assoc], ?_⟩
  intro V I P e s m exception course serves grows apart held stack comes followed
  have labelled : Machine.follow P I (if isBackwardTarget f (Plan.ofFunc f).order b then [⟨.label, .none⟩] else []) m =
      some (.passes m) := by
    split <;> rfl
  -- The exception stays where the first node takes it.
  have popped : Machine.follow P I (if f.handlers.any (·.target == b) &&
    !takesException f b then [⟨.pop, .none⟩] else [])
      m = some (.passes { m with stack := if takesException f b then exception.toList else [] }) := by
    rw [← comes]
    obtain ⟨q, st, sc, reg, tr⟩ := m
    obtain rfl : st = exception.toList := stack
    cases exception <;> cases takesException f b <;> rfl
  have held' : Held (Plan.ofFunc f) e.temps s { m with stack := if takesException f b then exception.toList else [] } :=
    ⟨held.beside.stacked _, held.temps⟩
  exact .behind labelled (.behind popped (through serves grows apart held' rfl followed))

lemma settled_of_front {u : Unit} (apart : d.Apart (Plan.ofFunc f))
    (run : (Write.front (Plan.ofFunc f) b).run d = .ok u d') : ∀ v ∈ f.body b, Settled f d' v := by
  obtain ⟨d₁, label, run⟩ := puts_behind run
  obtain ⟨d₂, pop, nodes⟩ := puts_behind run
  have apart := (label.grows.trans pop.grows).apart apart
  intro v mem
  obtain ⟨d₃, d₄, grows, node, grows'⟩ := Write.exists_node_of_nodes nodes mem
  exact (settled_of_node (grows.apart apart) node).mono grows'

end Writing

/-- Writing has come to the start of a block: the blocks before it are written. -/
def Draft.AtStart (f : Func) (pool : Pool) (b : BlockId) (d : Draft) : Prop :=
  ∃ before after m d₀, (Plan.ofFunc f).order = before ++ b :: after ∧
    (Write.blocks (Plan.ofFunc f) before).run (.start (Plan.ofFunc f) pool) = .ok () d₀ ∧
      (Write.label (Plan.ofFunc f) b).run d₀ = .ok m d₀ ∧ d = Write.opened m d₀

/-- Instructions compute the nodes of a block, where the values of nodes are in the registers that
a draft gives them.  From an operand stack that is empty, or holds just the exception where one
comes to the block, they get as far as the nodes. The nodes get to their end, or to an exception,
if uses are preceded by nodes with a value.  Used results of the block are in registers behind it,
apart from those that are used once, as the first of what is taken next. -/
structure Computes (f : Func) (b : BlockId) (e : Draft) (is : List (Instruction Marker)) : Prop where
  reaches : ∀ (V : Type) (I : Interp V) (P : Pool) (s : Scene V) (m : Machine V) (exception : Option V)
    (course : Scene.Course V), Serves f e I P → Held (Plan.ofFunc f) e.temps s m → m.stack = exception.toList →
      exception.isSome = f.handlers.any (·.target == b) → s.follow f P I exception (f.body b) = some course →
        Reaches f e I P is m ((Plan.ofFunc f).endOperands b (f.terminator b)) course
  total : f.Preceded → ∀ (V : Type) (I : Interp V) (P : Pool) (s : Scene V) (exception : Option V), s.Knows f b →
    s.Fits f P exception b → ∃ course, s.follow f P I exception (f.body b) = some course
  results : ∀ v ∈ f.body b, (f.kind? v).any NodeKind.producesValue = true → (Plan.ofFunc f).isUsed v = true →
    v ∉ (Plan.ofFunc f).onStack ∧ (∃ r, e.temps.lookup v = some r) ∨
      (f.allOperands.filterMap Value.node?).count v = 1 ∧ ∃ before rest, f.body b = before ++ v :: rest ∧
        ((Plan.ofFunc f).takenBehind ((Plan.ofFunc f).endOperands b (f.terminator b)) rest).head? = some (.node v)

/-- A sum that is used three times, and two results that stay on the operand stack.  A handler
covers the block, and takes the exception. -/
def deferring : List Change :=
  [.addBlock, .addBlock, .setTerminator 0 (.goto 2), .setTerminator 2 (.leave (some (.node 0))),
    .setTerminator 3 (.leave (some (.node 4))), .addHandler ⟨3, 0, 0⟩, .setHandlers 2 [0],
    .appendNode 2 (.binary .add (.reg 0 0) (.const (.int 1))), .appendNode 2 (.unary .negate (.node 0)),
    .appendNode 2 (.binary .multiply (.node 1) (.node 0)), .appendNode 2 (.store 1 (.node 2)), .appendNode 3 .caught]

/-- Operands and nodes name registers of the method only. -/
def isRanged (f : Func) : Bool :=
  (f.allOperands.all fun x => x.register?.all (decide <| · < f.locals)) &&
    (List.range f.nodes.size).all fun v => (f.kind? v).all fun k => k.written.all (decide <| · < f.locals)

lemma ranged_of_isRanged (ranged : isRanged f = true) : Ranged f where
  operands r version mem := of_decide_eq_true (List.all_eq_true.1 (Bool.and_eq_true_iff.1 ranged).1 _ mem)
  written v k does r mem := by
    have written := (Bool.and_eq_true_iff.1 ranged).2
    obtain ⟨n, here, -⟩ := Option.map_eq_some_iff.1 does
    have low := List.all_eq_true.1 written v (List.mem_range.2 (lt_size_of_node? (by rw [here]; rfl)))
    rw [does, Option.all_some, List.all_eq_true] at low
    exact of_decide_eq_true (low r mem)

/-- The block behind the entry is written with two nodes on the operand stack. -/
def Defers (f : Func) : Prop :=
  (Plan.ofFunc f).order = [0, 2, 3] ∧ (Plan.ofFunc f).onStack = [1, 2] ∧ f.Local ∧ isRanged f = true ∧
    ((Draft.behind? (Write.blocks (Plan.ofFunc f) [0]) (.start (Plan.ofFunc f) {})).any fun d₀ =>
      (Draft.behind? (Write.front (Plan.ofFunc f) 2) (Write.opened 1 d₀)).any fun d' =>
        decide (d'.Room (Plan.ofFunc f))) = true

instance (f : Func) : Decidable (Defers f) := inferInstanceAs (Decidable (_ ∧ _))

/-- The method has all registers but one, and two results need one each. -/
def exhausting : List Change :=
  [.addBlock, .setTerminator 0 (.goto 2), .setTerminator 2 (.leave (some (.reg 0 0))),
    .appendNode 2 (.unary .negate (.reg 0 0)), .appendNode 2 (.unary .negate (.reg 0 0)),
    .appendNode 2 (.binary .add (.node 0) (.node 1)), .appendNode 2 (.store 1 (.node 2))]

/-- The second result goes to the first register of the method. -/
def exhausted : List (Instruction Marker) :=
  [⟨.getLocal0, .none⟩, ⟨.negate, .none⟩, .withIndex .setLocal (wordBound - 1),
    ⟨.getLocal0, .none⟩, ⟨.negate, .none⟩, ⟨.setLocal0, .none⟩,
    .withIndex .getLocal (wordBound - 1), ⟨.getLocal0, .none⟩, ⟨.add, .none⟩, ⟨.setLocal1, .none⟩]

/-- The block behind the entry is written with a register that the method has for itself. -/
def Exhausts (f : Func) : Prop :=
  f.locals = wordBound - 1 ∧ (Plan.ofFunc f).order = [0, 2] ∧ f.Local ∧ isRanged f = true ∧ f.handlers = [] ∧
    f.allOperands = [.reg 0 0, .reg 0 0, .node 0, .node 1, .node 2, .reg 0 0] ∧ f.body 2 = [0, 1, 2, 3] ∧
    (f.body 2).map f.kind? = [some (.unary .negate (.reg 0 0)), some (.unary .negate (.reg 0 0)),
      some (.binary .add (.node 0) (.node 1)), some (.store 1 (.node 2))] ∧
    ((Draft.behind? (Write.blocks (Plan.ofFunc f) [0]) (.start (Plan.ofFunc f) {})).any fun d₀ =>
      (Draft.behind? (Write.front (Plan.ofFunc f) 2) (Write.opened 1 d₀)).any fun d' =>
        d'.written == d₀.written ++ exhausted) = true

instance (f : Func) : Decidable (Exhausts f) := inferInstanceAs (Decidable (_ ∧ _))

/-- Truth values, of which all operators give the other one than the first. -/
def flipping : Interp Bool where
  const _ := false
  unary _ x := !x
  type _ _ x := !x
  binary _ x _ := !x
  branch _ _ := false
  select _ _ := none
  silent _ _ := false
  answer _ := .ok fun _ => false

/-- Nothing has a value yet, and all registers hold the same. -/
def blank : Scene Bool := ⟨fun _ => none, fun _ => false, [], []⟩

/-- The nodes leave the first register alone. -/
lemma follow_exhausts {f : Func} (exhausts : Exhausts f) (P : Pool) : ∃ s', s'.registers 0 = false ∧
    blank.follow f P flipping none (f.body 2) = some (.passes s') := by
  obtain ⟨-, -, -, -, -, -, body, kinds, -⟩ := exhausts
  rw [body] at kinds ⊢
  simp only [List.map_cons, List.map_nil, List.cons.injEq, and_true] at kinds
  obtain ⟨first, second, sum, store⟩ := kinds
  refine ⟨(((blank.define 0 true).define 1 true).define 2 false).assign 1 false, rfl, ?_⟩
  simp only [Scene.follow, first, second, sum, store]
  rfl

/-- The code that is written for them does not. -/
lemma follow_exhausted (P : Pool) : ∃ m', m'.registers 0 = true ∧
    Machine.follow P flipping exhausted { registers := fun _ => false } = some (.passes m') := ⟨_, rfl, rfl⟩

end Avm.Emit
