import Avm.Proofs.Opt.Restarting
import Avm.Proofs.Run.Advancing

/-!
# Nodes that stand for a call

The nodes that stand for a call of a method by itself ask the surroundings for nothing.  Behind them the registers
are as an activation of the method finds them and there are no scopes, also where an argument reads a register that
another argument is written to.  The depth that a block has recorded is right if control has as many scopes at
its end, whatever the way.

The main definition is `Func.Gauged`: recorded depths are right.  The main statement is `Hands.passes`.
-/

namespace Avm.Ir

variable {V : Type} {S : Semantics V}

/-- The node asks the surroundings for nothing: it copies a value, sets a register, or changes the scope stack. -/
def NodeKind.isQuiet : NodeKind → Bool
  | copy _ | store .. | scope .. => true
  | _ => false

namespace Thread

variable {t t' u : Thread V} {v w : ValueId} {k : NodeKind} {id : ValueId}

lemma quiet_perform (quiet : k.isQuiet = true) : (t.perform S v k).ending = t.ending ∧
    (t.perform S v k).asked = t.asked := by
  cases k with
  | copy => exact ⟨rfl, rfl⟩
  | store r x =>
    refine ⟨rfl, ?_⟩
    show (t.log ++ [Occurrence.store r _]).filterMap Occurrence.request? = _
    rw [List.filterMap_append]
    exact List.append_nil _
  | scope op x =>
    refine ⟨rfl, ?_⟩
    show (t.log ++ [Occurrence.scope op _]).filterMap Occurrence.request? = _
    rw [List.filterMap_append]
    exact List.append_nil _
  | _ => cases quiet

/-- What a node does depends on what was asked before, and on nothing else that happened. -/
lemma perform_relog {log : List (Occurrence V)} (same : log.filterMap Occurrence.request? = t.asked) :
    ∃ log', log'.filterMap Occurrence.request? = (t.perform S v k).asked ∧
      { t with log := log }.perform S v k = { t.perform S v k with log := log' } := by
  have noted (o : Occurrence V) : (log ++ [o]).filterMap Occurrence.request? = (t.note o).asked := by
    show _ = (t.log ++ [o]).filterMap Occurrence.request?
    rw [List.filterMap_append, same, List.filterMap_append, asked]
  have asks (r : Request V) (next : (Nat → V) → Thread V → Thread V)
      (free : ∀ results (u : Thread V) log, next results { u with log := log } = { next results u with log := log })
      (keeps : ∀ results (u : Thread V), (next results u).log = u.log) :
      ∃ log', log'.filterMap Occurrence.request? = (t.ask S r next).asked ∧
        { t with log := log }.ask S r next = { t.ask S r next with log := log' } := by
    refine ⟨log ++ [.request r], ?_, ?_⟩
    · rw [noted]
      exact ask_cases (P := fun u => (t.note (.request r)).asked = u.asked)
        (fun results => congrArg (List.filterMap Occurrence.request?) (keeps results _).symm) fun _ => rfl
    · have before : (t.log ++ [Occurrence.request r]).filterMap Occurrence.request? =
          (log ++ [Occurrence.request r]).filterMap Occurrence.request? := (noted _).symm
      rw [ask, ask, before]
      cases S.answer ((log ++ [Occurrence.request r]).filterMap Occurrence.request?) with
      | ok results => exact free results (t.note (.request r)) (log ++ [.request r])
      | error => rfl
  have defines := asks (t.request S k) (fun results t => t.define v (results 0)) (fun _ _ _ => rfl) fun _ _ => rfl
  cases k with
  | store r x => exact ⟨_, noted (.store r (t.value S x)), rfl⟩
  | scope op x => exact ⟨_, noted (.scope op (x.map (t.value S))), rfl⟩
  | hasNext2 object index =>
    exact asks _ (fun results t => ((t.assign object (results 1)).assign index (results 2)).define v (results 0))
      (fun _ _ _ => rfl) fun _ _ => rfl
  | operation i xs =>
    rw [perform, perform]
    split
    · exact defines
    · exact ⟨log, same, rfl⟩
  | caught | property | call => exact defines
  | _ => exact ⟨log, same, rfl⟩

/-- A thread goes on in a block without asking for anything, and gives values to new nodes only. -/
structure Passes (g : Func) (S : Semantics V) (id : ValueId) (t t' : Thread V) : Prop where
  steps : ∃ n, (g.step S)^[n] t = t' ∧ ∀ i ≤ n, ((g.step S)^[i] t).asked = t.asked
  running : t'.ending = none
  block : t'.block = t.block
  values : ∀ w < id, t'.values w = t.values w

namespace Passes

variable {g : Func} {rest : List ValueId}

lemma refl (running : t.ending = none) : Passes g S id t t :=
  ⟨⟨0, rfl, fun i le => by rw [Nat.le_zero.1 le]; rfl⟩, running, rfl, fun _ _ => rfl⟩

lemma trans {id' : ValueId} (first : Passes g S id t t') (second : Passes g S id' t' u) (le : id ≤ id') :
    Passes g S id t u := by
  obtain ⟨n, reach, quiet⟩ := first.steps
  obtain ⟨m, reach', quiet'⟩ := second.steps
  refine ⟨⟨m + n, by rw [Function.iterate_add_apply, reach, reach'], fun i inside => ?_⟩, second.running,
    second.block.trans first.block, fun w less => (second.values w (less.trans_le le)).trans (first.values w less)⟩
  rcases Nat.le_total i n with before | after
  · exact quiet i before
  · have split : i = i - n + n := by omega
    rw [split, Function.iterate_add_apply, reach, quiet' (i - n) (by omega), ← reach, quiet n (Nat.le_refl n)]

lemma node (running : t.ending = none) (next : t.rest = id :: rest) (does : g.kind? id = some k)
    (quiet : k.isQuiet = true) : Passes g S id t ({ t with rest := rest }.perform S id k) := by
  obtain ⟨ended, asked⟩ := quiet_perform (S := S) (t := { t with rest := rest }) (v := id) quiet
  have step := Func.step_node (S := S) running next does
  refine ⟨⟨1, step, fun i le => ?_⟩, ended.trans running, place_perform.1, fun w less => values_perform less.ne⟩
  rcases Nat.le_one_iff_eq_zero_or_eq_one.1 le with rfl | rfl
  · rfl
  · exact (congrArg Thread.asked step).trans asked

end Passes

end Thread

/-- The number of scopes behind a node. -/
def NodeKind.scopes (n : Nat) : NodeKind → Nat
  | scope .pop _ => n - 1
  | scope .. => n + 1
  | _ => n

lemma Thread.length_scope_perform_eq {t : Thread V} {v : ValueId} {k : NodeKind} :
    (t.perform S v k).scope.length = k.scopes t.scope.length := by
  have asks {r : Request V} {next : (Nat → V) → Thread V → Thread V}
      (keeps : ∀ results u, (next results u).scope = u.scope) :
      (t.ask S r next).scope.length = t.scope.length :=
    ask_cases (P := fun u => u.scope.length = t.scope.length) (fun results => congrArg _ (keeps results _)) fun _ => rfl
  cases k with
  | scope op x =>
    cases op with
    | pop => exact List.length_dropLast
    | push | pushWith => exact List.length_append
  | operation i xs =>
    rw [perform]
    split
    · exact asks fun _ _ => rfl
    · rfl
  | caught | property | call | hasNext2 => exact asks fun _ _ => rfl
  | _ => rfl

namespace Func

variable {f g : Func} {b u : BlockId} {v w : ValueId} {n : Nat} {rest : List ValueId} {kind kind' : EdgeKind}
  {x : Value}

/-- Control can come to a place with so many scopes. -/
inductive Nests (f : Func) : Nat → BlockId → List ValueId → Prop
  | start : Nests f 0 entry (f.body entry)
  | node {n : Nat} {b : BlockId} {v : ValueId} {rest : List ValueId} :
    Nests f n b (v :: rest) → Nests f ((f.kind? v).elim n (NodeKind.scopes n)) b rest
  | edge {n : Nat} {b u : BlockId} {kind : EdgeKind} :
    Nests f n b [] → (u, kind) ∈ (f.terminator b).targets → Nests f n u (f.body u)

/-- The depth that a block has recorded is the number of scopes that control has at its end. -/
def Gauged (f : Func) : Prop := ∀ n b, f.Nests n b [] → n = f.scopeDepth b

lemma Nests.reached (nests : f.Nests n b rest) : f.Reached b rest := by
  induction nests with
  | start => exact .start
  | node _ ih => exact .node ih id
  | edge _ out ih => exact .edge ih out fun _ _ => id

lemma Nests.live (nests : f.Nests n b rest) (checked : f.Checked) : (f.block? b).isSome := by
  induction nests with
  | start => exact checked.start
  | node _ ih => exact ih
  | edge _ out => exact checked.live (checked.mem_succs_of_mem_targets out)

lemma exists_mem_nodesOf (reached : f.Reached b rest) (passed : ¬f.Avoids w b rest) : ∃ u, w ∈ f.nodesOf u := by
  rcases Comes.exists_behind reached w with avoids | ⟨c, rest', behind, -⟩
  · exact absurd (avoids.mono fun v same => .inr same) passed
  · cases behind with
    | phi mem => exact ⟨c, List.mem_append_left _ mem⟩
    | node split =>
      refine ⟨c, List.mem_append_right _ ?_⟩
      rw [split]
      exact List.mem_append_right _ List.mem_cons_self

/-- A thread has asked what another one has, and is as that one is, but for what is to come, for what else was
noticed, and for the values of nodes that control has not come to. -/
structure Tracks (f : Func) (t t' : Thread V) : Prop where
  asked : t'.asked = t.asked
  agree : Agree (fun v => ¬f.Avoids v t.block t.rest) t { t' with rest := t.rest, log := t.log }

namespace Tracks

variable {t t' : Thread V} {k : NodeKind} (tracks : Tracks f t t') (dominated : f.Dominated) (running : t.ending = none)
include tracks dominated running

lemma value (use : f.UsesAt x t.block t.rest) : t'.value S x = t.value S x := by
  cases x with
  | const => rfl
  | reg r => exact congrFun tracks.agree.registers r
  | node w => exact tracks.agree.values running w (dominated w _ _ use)

lemma map_value {xs : List Value} (use : ∀ x ∈ xs, f.UsesAt x t.block t.rest) :
    xs.map (t'.value S) = xs.map (t.value S) :=
  List.map_congr_left fun x mem => tracks.value dominated running (use x mem)

lemma enter (keyed : f.Keyed) (next : t.rest = []) (out : (u, kind) ∈ (f.terminator t.block).targets)
    (edge : (u, kind) ∈ f.succs t.block) (l : List ValueId) :
    Tracks f (f.enter S t u kind) { f.enter S t' u kind with rest := l } := by
  have agree := tracks.agree
  refine ⟨tracks.asked, rfl, rfl, agree.registers, agree.scope, rfl, agree.ending, fun _ v passed => ?_⟩
  have block : t'.block = t.block := agree.block
  show (if v ∈ f.phis u then ((f.incoming v t'.block kind).map (t'.value S)).getD (t'.values v) else t'.values v) =
    if v ∈ f.phis u then ((f.incoming v t.block kind).map (t.value S)).getD (t.values v) else t.values v
  rw [block]
  split
  · rename_i mem
    obtain ⟨x, worth⟩ := Option.isSome_iff_exists.1 ((keyed.known u v mem t.block kind).2 edge)
    rw [worth]
    exact tracks.value dominated running (by rw [next]; exact .edge out mem worth)
  · rename_i other
    refine agree.values running v fun avoids => passed ?_
    rw [next] at avoids
    exact .edge avoids out fun p phi same => other (same ▸ phi)

lemma perform (next : t.rest = v :: rest) (does : f.kind? v = some k) (plain : k.isPhi = false) (l : List ValueId) :
    Tracks f ({ t with rest := rest }.perform S v k) ({ t' with rest := l }.perform S v k) := by
  have same (x) (mem : x ∈ k.operands) : t'.value S x = t.value S x :=
    tracks.value dominated running (by rw [next]; exact .node does mem)
  obtain ⟨log, asked, relogged⟩ := Thread.perform_relog (S := S) (t := { t' with rest := rest })
    (v := v) (k := k) tracks.asked.symm
  have agree := (tracks.agree.next rest).perform (S := S) (v := v) (u := fun x => x) plain same
  rw [NodeKind.mapOperands_id] at agree
  have step := relogged ▸ agree
  rw [Thread.perform_rest rest (t := { t' with rest := l })] at step asked
  obtain ⟨block, stays⟩ := Thread.place_perform (S := S) (t := { t with rest := rest }) (v := v) (k := k)
  refine ⟨?_, step.block, rfl, step.registers, step.scope, rfl, step.ending, fun going w passed => ?_⟩
  · exact asked.symm.trans (congrArg _ step.log)
  · refine step.values going w ?_
    rw [block, stays] at passed
    by_cases here : w = v
    · exact .inr here
    · refine .inl fun avoids => passed ?_
      rw [next] at avoids
      exact .node avoids (Ne.symm here)

end Tracks

end Func

namespace Tower

variable {T : Tower V} {host : Func → ValueId → Option Func} {v : ValueId} {rest : List ValueId} {k : NodeKind}
  {g : Func}

/-- The graph that runs goes on, unless another one is to run in place of the next node. -/
lemma step_alone (running : T.thread.ending = none) (own : ∀ v rest, T.thread.rest = v :: rest → host T.func v = none) :
    T.step S host = { T with thread := T.func.step S T.thread } := by
  rw [step, if_neg (by rw [running]; rintro ⟨⟩)]
  cases next : T.thread.rest with
  | nil => rfl
  | cons v rest =>
    dsimp only
    rw [own v rest next]

lemma step_call (running : T.thread.ending = none) (next : T.thread.rest = v :: rest) (hosted : host T.func v = some g)
    (does : T.func.kind? v = some k) : T.step S host = T.call S v k rest g := by
  rw [step, if_neg (by rw [running]; rintro ⟨⟩), next]
  dsimp only
  rw [hosted, does]

lemma step_back {ending : Ending V} (ended : T.thread.ending = some ending) : T.step S host = T.back S := by
  rw [step, if_pos (by rw [ended]; rfl)]

end Tower

end Avm.Ir

namespace Avm.Opt.TailCall

open Avm.Ir Avm.Ir.Func Avm.Ir.Thread

variable {V : Type} {S : Semantics V} {f g : Func} {t : Thread V} {id : ValueId} {args args' : List Value}
  {ks : List NodeKind}
  {rest : List ValueId} {targets : List Nat} {x : Value}

/-- Successive nodes do what is said of them. -/
def Does (g : Func) (id : ValueId) (ks : List NodeKind) : Prop := ∀ i k, ks[i]? = some k → g.kind? (id + i) = some k

lemma Does.head {k : NodeKind} (does : Does g id (k :: ks)) : g.kind? id = some k := does 0 k rfl

lemma Does.tail {k : NodeKind} (does : Does g id (k :: ks)) : Does g (id + 1) ks := by
  intro i k' here
  have there := does (i + 1) k' here
  rwa [Nat.add_comm i 1, ← Nat.add_assoc] at there

lemma Does.append {ls : List NodeKind} (does : Does g id (ks ++ ls)) : Does g id ks ∧ Does g (id + ks.length) ls := by
  refine ⟨fun i k here => does i k ?_, fun i k here => ?_⟩
  · rw [List.getElem?_append_left (List.getElem?_eq_some_iff.1 here).1, here]
  · rw [Nat.add_assoc]
    refine does _ k ?_
    rw [List.getElem?_append_right (Nat.le_add_right _ _), Nat.add_sub_cancel_left, here]

/-- The operand is not the result of a node from a number on. -/
def Before (id : ValueId) (x : Value) : Prop := ∀ w, x = .node w → w < id

lemma value_eq {t' : Thread V} (before : Before id x) (values : ∀ w < id, t'.values w = t.values w)
    (registers : ∀ r version, x = .reg r version → t'.registers r = t.registers r) : t'.value S x = t.value S x := by
  cases x with
  | const => rfl
  | reg r version => exact registers r version rfl
  | node w => exact values w (before w rfl)

/-- What arguments are worth when they are saved, what has been saved in their place is worth behind the copies. -/
lemma Saved.passes (saved : Saved targets id args ks args') (does : Does g id ks) (running : t.ending = none)
    (next : t.rest = List.range' id ks.length ++ rest) (before : ∀ x ∈ args, Before id x) :
    ∃ t', Passes g S id t t' ∧ t'.rest = rest ∧ t'.registers = t.registers ∧ t'.scope = t.scope ∧
      args'.map (t'.value S) = args.map (t.value S) ∧
        ∀ x ∈ args', Before (id + ks.length) x ∧ ∀ r ∈ targets, ∀ version, x ≠ .reg r version := by
  induction saved generalizing t with
  | nil => exact ⟨t, .refl running, next, rfl, rfl, rfl, nofun⟩
  | @copy id x args args' ks saved ih =>
    rw [List.length_cons, List.range'_succ, List.cons_append] at next
    have first := Passes.node (S := S) running next does.head rfl
    have later (y) (mem : y ∈ args) : Before (id + 1) y := fun w same =>
      (before y (List.mem_cons_of_mem x mem) w same).trans (Nat.lt_succ_self id)
    obtain ⟨t', passes, rest', registers, scope, values, after⟩ := ih does.tail first.running rfl later
    refine ⟨t', first.trans passes (Nat.le_succ id), rest', registers, scope, ?_, fun y mem => ?_⟩
    · have copied : t'.values id = t.value S x := by
        rw [passes.values id (Nat.lt_succ_self id)]
        exact Function.update_self ..
      have others : args.map (Thread.value S
          ({ t with rest := List.range' (id + 1) ks.length ++ rest }.perform S id (.copy x))) = args.map (t.value S) :=
        List.map_congr_left fun y mem => value_eq (before y (List.mem_cons_of_mem x mem)) first.values fun _ _ _ => rfl
      rw [List.map_cons, List.map_cons, values, others]
      exact congrArg (· :: _) copied
    · rw [List.length_cons, Nat.add_comm ks.length 1, ← Nat.add_assoc]
      rcases List.mem_cons.1 mem with rfl | mem
      · refine ⟨fun w same => ?_, nofun⟩
        obtain rfl := Value.node.inj same
        exact Nat.lt_add_right _ (Nat.lt_succ_self id)
      · exact after y mem
  | @keep id x args args' ks free saved ih =>
    obtain ⟨t', passes, rest', registers, scope, values, after⟩ := ih does running next fun y mem =>
      before y (List.mem_cons_of_mem x mem)
    refine ⟨t', passes, rest', registers, scope, ?_, fun y mem => ?_⟩
    · have kept : t'.value S x = t.value S x :=
        value_eq (before x List.mem_cons_self) passes.values fun r _ _ => congrFun registers r
      rw [List.map_cons, List.map_cons, values, kept]
    · rcases List.mem_cons.1 mem with rfl | mem
      · exact ⟨fun w same => Nat.lt_add_right _ (before y List.mem_cons_self w same), free⟩
      · exact after y mem

lemma passes_stores {l : List (Nat × Value)} (does : Does g id (l.map fun e => .store e.1 e.2))
    (running : t.ending = none)
    (next : t.rest = List.range' id l.length ++ rest) (sets : ∀ e ∈ l, e.1 ∈ targets)
    (steady : ∀ e ∈ l, Before id e.2 ∧ ∀ r ∈ targets, ∀ version, e.2 ≠ .reg r version) :
    ∃ t', Passes g S id t t' ∧ t'.rest = rest ∧ t'.scope = t.scope ∧
      ∀ w : Nat → V, (∀ e ∈ l, t.value S e.2 = w e.1) →
        ∀ r, t'.registers r = if r ∈ l.map (·.1) then w r else t.registers r := by
  induction l generalizing t id with
  | nil => exact ⟨t, .refl running, next, rfl, fun _ _ _ => rfl⟩
  | cons e l ih =>
    rw [List.length_cons, List.range'_succ, List.cons_append] at next
    have first := Passes.node (S := S) running next does.head rfl
    have others (q) (mem : q ∈ l) : Before (id + 1) q.2 ∧ ∀ r ∈ targets, ∀ version, q.2 ≠ .reg r version := by
      obtain ⟨before, free⟩ := steady q (List.mem_cons_of_mem e mem)
      exact ⟨fun w same => (before w same).trans (Nat.lt_succ_self id), free⟩
    obtain ⟨t', passes, rest', scope, registers⟩ := ih does.tail first.running rfl
      (fun q mem => sets q (List.mem_cons_of_mem e mem)) others
    refine ⟨t', first.trans passes (Nat.le_succ id), rest', scope, fun w worth r => ?_⟩
    have register (q : Nat) : Thread.registers (({ t with rest := List.range' (id + 1) l.length ++ rest }).perform S id
        (.store e.1 e.2)) q = if q = e.1 then w e.1 else t.registers q := by
      rw [← worth e List.mem_cons_self]
      exact Function.update_apply ..
    have same (q) (mem : q ∈ l) :
      Thread.value S (({ t with rest := List.range' (id + 1) l.length ++ rest }).perform S id
        (.store e.1 e.2)) q.2 = w q.1 := by
      obtain ⟨before, free⟩ := steady q (List.mem_cons_of_mem e mem)
      rw [← worth q (List.mem_cons_of_mem e mem)]
      refine value_eq before first.values fun q' version named => ?_
      rw [register, if_neg]
      rintro rfl
      exact free _ (sets e List.mem_cons_self) version named
    rw [registers w same, register, List.map_cons]
    by_cases here : r = e.1
    · subst here
      rw [if_pos rfl, if_pos List.mem_cons_self, ite_self]
    · rw [if_neg here]
      exact if_congr (by rw [List.mem_cons, or_iff_right here]) rfl rfl

lemma passes_pops {n : Nat} (does : Does g id (List.replicate n (.scope .pop none))) (running : t.ending = none)
    (next : t.rest = List.range' id n ++ rest) (depth : t.scope.length ≤ n) :
    ∃ t', Passes g S id t t' ∧ t'.rest = rest ∧ t'.registers = t.registers ∧ t'.scope = [] := by
  induction n generalizing t id with
  | zero => exact ⟨t, .refl running, next, rfl, List.length_eq_zero_iff.1 (Nat.le_zero.1 depth)⟩
  | succ n ih =>
    rw [List.range'_succ, List.cons_append] at next
    have first := Passes.node (S := S) running next does.head rfl
    obtain ⟨t', passes, rest', registers, scope⟩ := ih does.tail first.running rfl (by
      show t.scope.dropLast.length ≤ n
      rw [List.length_dropLast]
      omega)
    exact ⟨t', first.trans passes (Nat.le_succ id), rest', registers, scope⟩

lemma mem_parameters {r : Nat} : r ∈ parameters f ↔ 0 < r ∧ r ≤ f.params := by
  rw [parameters, List.mem_map]
  constructor
  · rintro ⟨i, inside, rfl⟩
    have below := List.mem_range.1 inside
    omega
  · rintro ⟨pos, le⟩
    exact ⟨r - 1, List.mem_range.2 (by omega), by omega⟩

lemma worth_of_mem_settings {xs : List V} {receiver : V} {resets : List Nat} {e : Nat × Value}
    (length : xs.length = f.params) (above : ∀ r ∈ resets, f.params < r) (worth : args'.map (t.value S) = xs)
    (mem : e ∈ settings f args' resets) : t.value S e.2 = (receiver :: xs)[e.1]?.getD (S.const .undefined) := by
  rcases List.mem_append.1 mem with mem | mem
  · obtain ⟨i, here⟩ := List.mem_iff_getElem?.1 mem
    obtain ⟨left, right⟩ := List.getElem?_zip_eq_some.1 here
    rw [parameters, List.getElem?_map] at left
    obtain ⟨j, inside, same⟩ := Option.map_eq_some_iff.1 left
    obtain ⟨below, rfl⟩ := List.getElem?_eq_some_iff.1 inside
    rw [List.getElem_range] at same
    rw [← same, List.getElem?_cons_succ, ← worth, List.getElem?_map, right, Option.map_some, Option.getD_some]
  · obtain ⟨r, reset, rfl⟩ := List.mem_map.1 mem
    have beyond : (receiver :: xs).length ≤ r := by
      rw [List.length_cons, length]
      exact above r reset
    rw [List.getElem?_eq_none beyond, Option.getD_none]
    rfl

lemma mem_settings {resets : List Nat} {r : Nat} (length : args'.length = f.params) :
    r ∈ (settings f args' resets).map (·.1) ↔ r ∈ parameters f ∨ r ∈ resets := by
  have count : (parameters f).length ≤ args'.length := by rw [length, parameters, List.length_map, List.length_range]
  rw [settings, List.map_append, List.map_fst_zip count, List.mem_append, List.map_map]
  refine or_congr_right ?_
  show r ∈ resets.map id ↔ r ∈ resets
  rw [List.map_id]

lemma Hands.passes {depth : Nat} (hands : Hands f id args depth ks) (fits : args.length = f.params)
    (does : Does g id ks)
    (running : t.ending = none) (next : t.rest = List.range' id ks.length) (before : ∀ x ∈ args, Before id x)
    (unset : ∀ r, f.params < r → r ∉ f.registerWrites → t.registers r = S.const .undefined) (deep : t.scope.length ≤
      depth) :
    ∃ t', Passes g S id t t' ∧ t'.rest = [] ∧ t'.scope = [] ∧
      ∀ r, t'.registers r = (t.registers 0 :: args.map (t.value S))[r]?.getD (S.const .undefined) := by
  obtain ⟨copies, args', resets, mem_resets, saved, rfl⟩ := hands
  obtain ⟨first, others⟩ := does.append
  obtain ⟨second, third⟩ := others.append
  rw [List.length_append, List.length_append, List.length_map, List.length_replicate, ← List.range'_append_1,
    ← List.range'_append_1] at next
  rw [List.length_map] at third
  obtain ⟨t₁, passes₁, rest₁, registers₁, scope₁, values₁, after₁⟩ := saved.passes first running next before
  have length : args'.length = f.params := by
    rw [← List.length_map, values₁, List.length_map, fits]
  have steady : ∀ e ∈ settings f args' resets, Before (id + copies.length) e.2 ∧
      ∀ r ∈ parameters f ++ resets, ∀ version, e.2 ≠ .reg r version := by
    intro e mem
    rcases List.mem_append.1 mem with mem | mem
    · exact after₁ e.2 (List.of_mem_zip mem).2
    · obtain ⟨r, -, rfl⟩ := List.mem_map.1 mem
      exact ⟨nofun, nofun⟩
  have sets : ∀ e ∈ settings f args' resets, e.1 ∈ parameters f ++ resets := fun e mem =>
    List.mem_append.2 ((mem_settings length).1 (List.mem_map_of_mem mem))
  obtain ⟨t₂, passes₂, rest₂, scope₂, registers₂⟩ := passes_stores second passes₁.running rest₁ sets steady
  obtain ⟨t₃, passes₃, rest₃, registers₃, scope₃⟩ := passes_pops third passes₂.running
    (by rw [rest₂, List.append_nil]) (by rw [scope₂, scope₁]; exact deep)
  refine ⟨t₃, passes₁.trans (passes₂.trans passes₃ (Nat.le_add_right _ _)) (Nat.le_add_right _ _), rest₃, scope₃,
    fun r => ?_⟩
  have count : (args.map (t.value S)).length = f.params := by rw [List.length_map, fits]
  have worth : ∀ e ∈ settings f args' resets,
      t₁.value S e.2 = (t.registers 0 :: args.map (t.value S))[e.1]?.getD (S.const .undefined) := fun e mem =>
    worth_of_mem_settings count (fun r reset => ((mem_resets r).1 reset).1) values₁ mem
  rw [registers₃, registers₂ (fun r => (t.registers 0 :: args.map (t.value S))[r]?.getD (S.const .undefined)) worth,
    registers₁]
  split
  · rfl
  · rename_i free
    rw [mem_settings length] at free
    rcases Nat.eq_zero_or_pos r with rfl | pos
    · rfl
    · have above : f.params < r := by
        by_contra within
        exact free (.inl (mem_parameters.2 ⟨pos, Nat.le_of_not_lt within⟩))
      have beyond : (t.registers 0 :: args.map (t.value S)).length ≤ r := by
        rw [List.length_cons, count]
        exact above
      rw [unset r above fun written => free (.inr ((mem_resets r).2 ⟨above, written⟩)), List.getElem?_eq_none beyond,
        Option.getD_none]

end Avm.Opt.TailCall
