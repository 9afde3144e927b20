import Avm.Proofs.Run.Recurring

/-!
# Methods that run again

A method in which calls of itself were turned into jumps does what the method does if it is run again in place of
each of these calls.  Both ask the surroundings for the same, also if they never end, and both have the same result.
A method that returns nothing counts as one that returns undefined, which is what its callers get.

While an activation runs, one thread does what the activation does (`Follows`): an activation that starts in place of
a call finds the registers as the thread leaves them behind the nodes that stand for the call.  When the innermost
activation ends, the thread has ended, and all activations that wait return the same one after another (`Unwinds`).
What a method does at its entry is not repeated by a jump, so the entry has to have no nodes.

The main definition is `recalled`: the graph that runs in place of a call.  The main statements are `pass_recalls` and
`not_pass_recalls`.
-/

namespace Avm.Opt.TailCall

open Avm.Ir Avm.Ir.Func Avm.Ir.Thread

variable {V : Type} {S : Semantics V} {f g : Func} {first s x : BlockId} {t u : Thread V} {T : Tower V} {v : ValueId}
  {rest rest' : List ValueId} {k : NodeKind} {kind kind' : EdgeKind} {waiting : List (Func × ValueId × Thread V)}
  {result : Except V V}

/-- The graph that runs in place of a call: the one that makes it, if the call was eliminated. -/
def recalled (f f' g : Func) (v : ValueId) : Option Func := if g = f ∧ f'.node? v = none then some f else none

/-- A thread waits for a call, the result of which it is about to return. -/
def Returns (f : Func) (t : Thread V) (v : ValueId) : Prop :=
  t.ending = none ∧ t.rest = [] ∧ f.terminator t.block = .leave (some (.node v))

/-- All that wait are activations of one graph, and are about to return what they wait for. -/
def Awaits (f : Func) (waiting : List (Func × ValueId × Thread V)) : Prop :=
  ∀ e ∈ waiting, e.1 = f ∧ Returns f e.2.2 e.2.1

section Unwinding

/-- The thread has ended with a result, or is about to return it. -/
def Due (f : Func) (S : Semantics V) (t : Thread V) (result : Except V V) : Prop :=
  (∃ ending, t.ending = some ending ∧ ending.result (S.const .undefined) = result) ∨
    ∃ v, Returns f t v ∧ result = .ok (t.values v)

/-- One activation after another returns the same. -/
structure Unwinds (f : Func) (S : Semantics V) (T : Tower V) (result : Except V V) : Prop where
  func : T.func = f
  awaits : Awaits f T.waiting
  due : Due f S T.thread result

lemma Returns.step (returns : Returns f t v) :
    f.step S t = { t with ending := some (.returned (some (t.values v))) } := by
  obtain ⟨running, next, ends⟩ := returns
  have chosen : (f.terminator t.block).choose S ((f.terminator t.block).operands.map (t.value S)) = none := by
    rw [ends]
    rfl
  rw [step_last running next chosen, ends]
  rfl

lemma Unwinds.step (unwinds : Unwinds f S T result) (host : Func → ValueId → Option Func) :
    Unwinds f S (T.step S host) result ∧ (T.step S host).thread.asked = T.thread.asked := by
  obtain ⟨func, awaits, ⟨ending, ended, same⟩ | ⟨v, returns, same⟩⟩ := unwinds
  · rw [Tower.step_back ended, Tower.back]
    obtain ⟨h, t, waiting⟩ := T
    dsimp only at ended
    rw [ended]
    cases waiting with
    | nil => exact ⟨⟨func, awaits, .inl ⟨ending, ended, same⟩⟩, rfl⟩
    | cons e waiting =>
      obtain ⟨h', v, u⟩ := e
      obtain ⟨rfl, returns⟩ := awaits _ List.mem_cons_self
      have others : Awaits h' waiting := fun e mem => awaits e (List.mem_cons_of_mem _ mem)
      cases ending with
      | returned x =>
        refine ⟨⟨rfl, others, .inr ⟨v, returns, ?_⟩⟩, rfl⟩
        rw [← same]
        exact congrArg Except.ok (Function.update_self v (x.getD (S.const .undefined)) u.values).symm
      | thrown x => exact ⟨⟨rfl, others, .inl ⟨_, rfl, same⟩⟩, rfl⟩
  · rw [Tower.step_alone returns.1 (by rw [returns.2.1]; rintro _ _ ⟨⟩), func, returns.step]
    exact ⟨⟨rfl, awaits, .inl ⟨_, rfl, same.symm⟩⟩, rfl⟩

/-- The tower ends with a result, and asks for nothing more. -/
def Settles (S : Semantics V) (host : Func → ValueId → Option Func) (result : Except V V) (T : Tower V) : Prop :=
  ∃ n, ((Tower.step S host)^[n] T).waiting = [] ∧
    (∃ ending, ((Tower.step S host)^[n] T).thread.ending = some ending ∧ ending.result (S.const .undefined) = result) ∧
      ((Tower.step S host)^[n] T).thread.asked = T.thread.asked

lemma Unwinds.later {host : Func → ValueId → Option Func} (unwinds : Unwinds f S T result)
    (settles : Settles S host result (T.step S host)) :
    Settles S host result T := by
  obtain ⟨n, alone, ended, asked⟩ := settles
  exact ⟨n + 1, alone, ended, asked.trans (unwinds.step host).2⟩

lemma Unwinds.settles (unwinds : Unwinds f S T result) (host : Func → ValueId → Option Func) :
    Settles S host result T := by
  -- It is enough to look at activations that have ended, as those that return end next.
  have returning (T : Tower V) (unwinds : Unwinds f S T result)
      (all : ∀ T', T'.waiting = T.waiting → T'.thread.ending.isSome → Unwinds f S T' result →
        Settles S host result T') :
      Settles S host result T := by
    rcases unwinds.due with ⟨ending, ended, -⟩ | ⟨v, returns, -⟩
    · exact all T rfl (by rw [ended]; rfl) unwinds
    · have step : T.step S host = { T with thread := f.step S T.thread } := by
        rw [Tower.step_alone returns.1 (by rw [returns.2.1]; nofun), unwinds.func]
      refine unwinds.later (all _ ?_ ?_ (unwinds.step host).1)
      · rw [step]
      · rw [step, returns.step]
        rfl
  refine returning T unwinds fun T' same ended unwinds' => ?_
  generalize T.waiting = waiting at same
  clear unwinds
  induction waiting generalizing T' with
  | nil =>
    rcases unwinds'.due with due | ⟨v, ⟨running, -⟩, -⟩
    · exact ⟨0, same, due, rfl⟩
    · rw [running] at ended
      cases ended
  | cons e waiting ih =>
    obtain ⟨ending, there⟩ := Option.isSome_iff_exists.1 ended
    have step : (T'.step S host).waiting = waiting := by
      rw [Tower.step_back there, Tower.back, same, there]
      cases ending <;> rfl
    refine unwinds'.later (returning _ (unwinds'.step host).1 fun T'' same' ended' unwinds'' => ?_)
    exact ih T'' ended' unwinds'' (same'.trans step)

end Unwinding

section Following

/-- The activation that runs, and a thread that runs one activation after another. -/
structure Follows (f g : Func) (S : Semantics V) (T : Tower V) (t : Thread V) : Prop where
  func : T.func = f
  awaits : Awaits f T.waiting
  nests : f.Nests T.thread.scope.length T.thread.block T.thread.rest
  unset : ∀ r, f.params < r → r ∉ f.registerWrites → T.thread.registers r = S.const .undefined
  place : ∃ before, f.body T.thread.block = before ++ T.thread.rest ∧ g.body T.thread.block = before ++ t.rest
  /-- A call that has made way is still to come. -/
  ahead : ∀ s c args, Turned f g s T.thread.block c args → T.thread.rest ≠ []
  tracks : Tracks f T.thread t

lemma enter_eq {c : BlockId} (phis : g.phis x = f.phis x)
    (brings : ∀ v ∈ f.phis x, g.incoming v t.block kind' = f.incoming v c kind) :
    g.enter S t x kind' = { f.enter S { t with block := c } x kind with rest := g.body x } := by
  have same : ({ t with block := c } : Thread V).value S = t.value S := by
    funext y
    cases y <;> rfl
  have values : (g.enter S t x kind').values = (f.enter S { t with block := c } x kind).values := by
    funext v
    show (if v ∈ g.phis x then ((g.incoming v t.block kind').map (t.value S)).getD (t.values v) else t.values v) =
      if v ∈ f.phis x then ((f.incoming v c kind).map (({ t with block := c } : Thread V).value S)).getD (t.values v)
      else t.values v
    rw [phis, same]
    split
    · rename_i mem
      rw [brings v mem]
    · rfl
  exact congrArg (fun values => ({ t with block := x, rest := g.body x, values := values } : Thread V)) values

lemma enter_blank (blank : g.phis x = []) : g.enter S t x kind = { t with block := x, rest := g.body x } := by
  rw [enter, blank]
  rfl

lemma step_leads (running : t.ending = none) (next : t.rest = [])
    (leads : g.terminator t.block = .goto x ∧ kind = .fallthrough ∨ g.terminator t.block = .jump x ∧ kind = .jump) :
    g.step S t = g.enter S t x kind := by
  rcases leads with ⟨leads, rfl⟩ | ⟨leads, rfl⟩
  · exact step_edge running next (by rw [leads]; rfl)
  · exact step_edge running next (by rw [leads]; rfl)

/-- From the entry, and from where a call has made way, control comes to the first block as from the entry. -/
lemma Loops.arrives (loops : Loops f first s g) (running : t.ending = none) (next : t.rest = [])
    (leads : t.block = entry ∨ g.terminator t.block = .jump s ∧ f.phis s = []) : ∃ j, 0 < j ∧
      (g.step S)^[j] t = { f.enter S { t with block := entry } first .fallthrough with rest := g.body first } ∧
        ∀ n < j, ((g.step S)^[n] t).asked = t.asked := by
  have once {u : Thread V} (step : g.step S t = u) : ∃ j, 0 < j ∧ (g.step S)^[j] t = u ∧
      ∀ n < j, ((g.step S)^[n] t).asked = t.asked := by
    refine ⟨1, Nat.one_pos, step, fun n less => ?_⟩
    rw [Nat.lt_one_iff.1 less, Function.iterate_zero_apply]
  obtain ⟨kind, goes, blank⟩ : ∃ kind, (∀ entrance : g.terminator entry = .goto s, g.step S t = g.enter S t s kind) ∧
      (t.block = entry ∧ kind = .fallthrough ∨ f.phis s = []) := by
    rcases leads with here | ⟨leads, blank⟩
    · exact ⟨.fallthrough, fun goes => step_leads running next (.inl ⟨here ▸ goes, rfl⟩), .inl ⟨here, rfl⟩⟩
    · exact ⟨.jump, fun _ => step_leads running next (.inr ⟨leads, rfl⟩), .inr blank⟩
  cases loops.entrance with
  | straight enters brings =>
    refine once ((goes enters).trans (enter_eq (loops.phis _) fun v mem => ?_))
    rcases blank with ⟨here, rfl⟩ | blank
    · rw [here, brings v mem]
    · rw [blank] at mem
      cases mem
  | around new body enters on brings =>
    have blank : g.phis s = [] := (loops.phis s).trans (parts_of_isNone new).1
    have through : g.step S t = { t with block := s } := by
      rw [goes enters, enter_blank blank, body, ← next]
    refine ⟨2, Nat.two_pos, ?_, fun n less => ?_⟩
    · rw [Function.iterate_succ_apply, Function.iterate_one, through,
        step_leads (t := { t with block := s }) running next (.inl ⟨on, rfl⟩)]
      exact enter_eq (loops.phis _) brings
    · obtain rfl | rfl : n = 0 ∨ n = 1 := by omega
      · rfl
      · rw [Function.iterate_one, through]
        rfl

variable (loopable : Loopable f first) (dominated : f.Dominated)
include loopable dominated

lemma Follows.enter (awaits : Awaits f waiting) (nests : f.Nests u.scope.length u.block u.rest)
    (unset : ∀ r, f.params < r → r ∉ f.registerWrites → u.registers r = S.const .undefined) (tracks : Tracks f u t)
    (running : u.ending = none) (next : u.rest = []) (out : (x, kind) ∈ (f.terminator u.block).targets) :
    Follows f g S ⟨f, f.enter S u x kind, waiting⟩ { f.enter S t x kind with rest := g.body x } where
  func := rfl
  awaits := awaits
  nests := by
    rw [next] at nests
    exact .edge nests out
  unset := unset
  place := ⟨[], rfl, rfl⟩
  ahead s c args turned := by
    obtain ⟨before, last⟩ := turned.last
    exact last.trans_ne (List.append_ne_nil_of_right_ne_nil _ (List.cons_ne_nil _ _))
  tracks := tracks.enter dominated running loopable.checked.keyed next out
    (loopable.checked.mem_succs_of_mem_targets out) _

omit loopable dominated in
lemma Follows.alone (follows : Follows f g S T t) (running : T.thread.ending = none)
    (own : ∀ v rest, T.thread.rest = v :: rest → g.node? v ≠ none) :
    T.step S (recalled f g) = ⟨f, f.step S T.thread, T.waiting⟩ := by
  rw [Tower.step_alone running fun v rest next => if_neg fun gone => own v rest next gone.2, follows.func]

/-- What both sides do at the same time. -/
def Catches (f g : Func) (S : Semantics V) (T : Tower V) (t : Thread V) : Prop :=
  Rejoin (Tower.step S (recalled f g)) (g.step S) (fun T => T.thread.asked) Thread.asked (Follows f g S) T t

omit loopable dominated in
lemma Follows.rest_eq (follows : Follows f g S T t) (same : g.body T.thread.block = f.body T.thread.block) :
    t.rest = T.thread.rest := by
  obtain ⟨before, was, is⟩ := follows.place
  exact List.append_cancel_left (is.symm.trans (same.trans was))

variable (loops : Loops f first s g)
include loops

lemma Follows.edge (follows : Follows f g S T t) (running : T.thread.ending = none) (next : T.thread.rest = []) :
    Catches f g S T t := by
  have alone := follows.alone running fun v rest here => by
    rw [next] at here
    cases here
  have agree := follows.tracks.agree
  have block : t.block = T.thread.block := agree.block
  have running' : t.ending = none := agree.ending.trans running
  by_cases here : T.thread.block = entry
  · have next' : t.rest = [] := (follows.rest_eq (by rw [here, loops.empty])).trans next
    obtain ⟨j, pos, reach, quiet⟩ := loops.arrives (S := S) running' next' (.inl (block.trans here))
    refine ⟨1, j, Nat.one_pos, pos, ?_, fun n less => by rw [Nat.lt_one_iff.1 less]; rfl, quiet⟩
    have goes : f.terminator T.thread.block = .goto first := by rw [here, loopable.goes]
    have same : ({ t with block := entry } : Thread V) = t := by rw [← here, ← block]
    rw [reach, Function.iterate_one, alone, step_leads running next (.inl ⟨goes, rfl⟩), same]
    exact Follows.enter loopable dominated follows.awaits follows.nests follows.unset follows.tracks running next
      (by rw [goes]; exact List.mem_singleton_self _)
  · obtain stays | ⟨c, args, turned⟩ := loops.blocks _ (follows.nests.live loopable.checked) here
    · have next' : t.rest = [] := (follows.rest_eq stays.body).trans next
      have ends : g.terminator t.block = f.terminator T.thread.block := by rw [block, stays.terminator]
      have args : (g.terminator t.block).operands.map (t.value S) =
        (f.terminator T.thread.block).operands.map (T.thread.value S) := by
        rw [ends]
        exact follows.tracks.map_value dominated running fun x mem => by rw [next]; exact .last mem
      refine .once ?_
      cases chosen : (f.terminator T.thread.block).choose S
        ((f.terminator T.thread.block).operands.map (T.thread.value S)) with
      | none =>
        rw [alone, step_last running next chosen, step_last running' next' (by rw [args, ends, chosen]), args, ends]
        exact { follows with
          func := rfl
          tracks := ⟨follows.tracks.asked, agree.block, rfl, agree.registers, agree.scope, rfl, rfl, fun _ =>
            agree.values running⟩ }
      | some e =>
        obtain ⟨x, kind⟩ := e
        have out := Terminator.mem_targets_of_choose chosen
        rw [alone, step_edge running next chosen, step_edge running' next' (by rw [args, ends, chosen]),
          enter_eq (c := t.block) (loops.phis x) fun v mem => by rw [block, stays.incoming x v mem]]
        exact Follows.enter loopable dominated follows.awaits follows.nests follows.unset follows.tracks running next
          out
    · exact absurd next (follows.ahead _ _ _ turned)

omit loops in
lemma Follows.node (follows : Follows f g S T t) (running : T.thread.ending = none) (next : T.thread.rest = v :: rest)
    (next' : t.rest = v :: rest') (same : g.node? v = f.node? v)
    (ahead : ∀ s c args, Turned f g s T.thread.block c args → rest ≠ []) : Catches f g S T t := by
  have listed := loopable.checked.toListed
  have mem : v ∈ f.body T.thread.block := follows.nests.reached.suffix.mem (by rw [next]; exact List.mem_cons_self)
  obtain ⟨n, there⟩ := Option.isSome_iff_exists.1 (listed.isSome_node? (List.mem_append_right _ mem))
  have does : f.kind? v = some n.kind := by rw [kind?, there]; rfl
  have does' : g.kind? v = some n.kind := by rw [kind?, same, ← kind?, does]
  have agree := follows.tracks.agree
  have running' : t.ending = none := agree.ending.trans running
  have alone := follows.alone running fun w l here => by
    obtain ⟨rfl, -⟩ := List.cons_eq_cons.1 (here.symm.trans next)
    rw [same, there]
    rintro ⟨⟩
  have plain : n.kind.isPhi = false := ((loopable.checked.mem_iff there _).2.1 mem).2
  obtain ⟨block, stays⟩ := place_perform (S := S) (t := { T.thread with rest := rest }) (v := v) (k := n.kind)
  have nests : f.Nests (n.kind.scopes T.thread.scope.length) T.thread.block rest := by
    have step := (next ▸ follows.nests).node
    rwa [does] at step
  refine .once ?_
  rw [alone, step_node running next does, step_node running' next' does']
  refine ⟨rfl, follows.awaits, ?_, fun r above free => ?_, ?_, ?_,
    follows.tracks.perform dominated running next does plain rest'⟩
  · dsimp only
    rw [block, stays, length_scope_perform_eq]
    exact nests
  · refine (registers_perform fun sets => free ?_).trans (follows.unset r above free)
    exact mem_registerWrites.2 ⟨v, n.kind, does, sets⟩
  · obtain ⟨before, was, is⟩ := follows.place
    dsimp only
    rw [block, stays, place_perform.2]
    refine ⟨before ++ [v], ?_, ?_⟩
    · rw [was, next, List.append_assoc]
      rfl
    · rw [is, next', List.append_assoc]
      rfl
  · dsimp only
    rw [block, stays]
    exact ahead

omit dominated in
/-- A node of the old graph comes next: it is the next one of the new graph as well, or has made way. -/
lemma Follows.ahead_cases (follows : Follows f g S T t) (next : T.thread.rest = v :: rest) :
    (∃ rest', t.rest = v :: rest' ∧ g.node? v = f.node? v ∧ ∀ s c args, Turned f g s T.thread.block c args →
      rest ≠ []) ∨
      ∃ args id ks, Turned f g s T.thread.block v args ∧ rest = [] ∧ t.rest = List.range' id ks.length ∧
        f.nodes.size ≤ id ∧ Does g id ks ∧ Hands f id args (f.scopeDepth T.thread.block) ks := by
  have mem : v ∈ f.body T.thread.block := follows.nests.reached.suffix.mem (by rw [next]; exact List.mem_cons_self)
  have inner : T.thread.block ≠ entry := by
    intro here
    rw [here, loopable.empty] at mem
    cases mem
  obtain ⟨before, was, is⟩ := follows.place
  rw [next] at was
  rcases loops.blocks _ (follows.nests.live loopable.checked) inner with stays | ⟨c, args, turned⟩
  · refine .inl ⟨rest, (follows.rest_eq stays.body).trans next, stays.nodes v mem, fun s c args turned => ?_⟩
    have leads := turned.jump
    rw [stays.terminator, turned.result] at leads
    cases leads
  · obtain ⟨before', id, ks, was', is', nodes, beyond, does, hands⟩ := turned.tail
    rcases List.eq_nil_or_concat rest with rfl | ⟨rest, w, rfl⟩
    · obtain ⟨rfl, same⟩ := List.append_inj' (was.symm.trans was') rfl
      obtain rfl := List.singleton_inj.1 same
      exact .inr ⟨args, id, ks, turned, rfl, List.append_cancel_left (is.symm.trans is'), beyond, does, hands⟩
    · rw [List.concat_eq_append, ← List.cons_append, ← List.append_assoc] at was
      obtain ⟨rfl, -⟩ := List.append_inj' (was.symm.trans was') rfl
      rw [is, List.append_assoc] at is'
      refine .inl ⟨_, List.append_cancel_left is', nodes v ?_, fun _ _ _ _ => ?_⟩
      · exact List.mem_append_right _ List.mem_cons_self
      · rw [List.concat_eq_append]
        exact List.append_ne_nil_of_right_ne_nil _ (List.cons_ne_nil _ _)

omit dominated loops in
/-- In place of a call that has made way an activation starts, and goes on to the first block. -/
lemma Follows.starts (follows : Follows f g S T t) (running : T.thread.ending = none) (next : T.thread.rest = [v])
    (gone : g.node? v = none) {opcode : Opcode} {index count : Nat} {ys : List Value}
    (calls : f.kind? v = some (.call opcode index count ys)) :
    T.step S (recalled f g) = T.call S v (.call opcode index count ys) [] f ∧
      (T.call S v (.call opcode index count ys) [] f).step S (recalled f g) =
        ⟨f, f.enter S (T.call S v (.call opcode index count ys) [] f).thread first .fallthrough,
          (T.call S v (.call opcode index count ys) [] f).waiting⟩ := by
  constructor
  · exact Tower.step_call running next (if_pos ⟨follows.func, gone⟩) (follows.func.symm ▸ calls)
  · set u := T.call S v (.call opcode index count ys) [] f
    have empty : u.thread.rest = [] := loopable.empty
    have own (v rest) (here : u.thread.rest = v :: rest) : recalled f g f v = none :=
      absurd (here.symm.trans empty) (List.cons_ne_nil v rest)
    have goes : f.step S u.thread = f.enter S u.thread first .fallthrough :=
      step_leads rfl empty (.inl ⟨loopable.goes, rfl⟩)
    rw [Tower.step_alone rfl own, ← goes]
    rfl

/-- A call that has made way: the old graph starts an activation, and the new one does the nodes that stand for it. -/
lemma Follows.call (gauged : f.Gauged) (follows : Follows f g S T t) (running : T.thread.ending = none)
    (next : T.thread.rest = [v]) {args : List Value} {id : ValueId} {ks : List NodeKind}
    (turned : Turned f g s T.thread.block v args) (next' : t.rest = List.range' id ks.length) (beyond : f.nodes.size ≤
      id)
    (does : Does g id ks) (hands : Hands f id args (f.scopeDepth T.thread.block) ks) : Catches f g S T t := by
  obtain ⟨opcode, index, count, version, calls⟩ := turned.calls
  have agree := follows.tracks.agree
  have block : t.block = T.thread.block := agree.block
  have running' : t.ending = none := agree.ending.trans running
  have used (x) (mem : x ∈ args) : f.UsesAt x T.thread.block T.thread.rest := by
    rw [next]
    exact .node calls (List.mem_cons_of_mem _ mem)
  have old (x) (mem : x ∈ args) : Before id x := by
    rintro w rfl
    have passed := dominated w _ _ (used _ mem)
    obtain ⟨c, listed⟩ := exists_mem_nodesOf follows.nests.reached passed
    exact (lt_size_of_node? (loopable.checked.toListed.isSome_node? listed)).trans_le beyond
  have deep : t.scope.length ≤ f.scopeDepth T.thread.block := by
    have nests := (next ▸ follows.nests).node
    rw [calls] at nests
    rw [show t.scope = T.thread.scope from agree.scope]
    exact (gauged _ _ nests).le
  have unset (r) (above : f.params < r) (free : r ∉ f.registerWrites) : t.registers r = S.const .undefined :=
    (congrFun agree.registers r).trans (follows.unset r above free)
  obtain ⟨t', passes, rest', scope, registers⟩ := hands.passes turned.fits does running' next' old unset deep
  obtain ⟨n, reach, quiet⟩ := passes.steps
  obtain ⟨j, pos, arrives, quiet'⟩ := loops.arrives (S := S) passes.running rest'
    (.inr ⟨by rw [passes.block, block, turned.jump], turned.blank⟩)
  have asked : t'.asked = T.thread.asked := by
    rw [← reach, quiet n (Nat.le_refl n), follows.tracks.asked]
  obtain ⟨first_, second⟩ := follows.starts loopable running next turned.gone calls
  set k := NodeKind.call opcode index count (.reg 0 version :: args) with calls_eq
  have awaits : Awaits f (T.call S v k [] f).waiting :=
    List.forall_mem_cons.2 ⟨⟨follows.func, running, rfl, turned.result⟩, follows.awaits⟩
  have worth : (t.registers 0 :: args.map (t.value S)) = k.operands.map (T.thread.value S) := by
    rw [follows.tracks.map_value dominated running used, show t.registers = T.thread.registers from agree.registers]
    rfl
  have tracks : Tracks f (T.call S v k [] f).thread { t' with block := entry } := by
    refine ⟨asked, rfl, rfl, funext fun r => ?_, scope, rfl, passes.running, fun _ w passed => absurd .start passed⟩
    show t'.registers r = _
    rw [registers, worth]
    rfl
  have fresh (r) (above : f.params < r) (_ : r ∉ f.registerWrites) :
      (T.call S v k [] f).thread.registers r = S.const .undefined := by
    show (k.operands.map (T.thread.value S))[r]?.getD (S.const .undefined) = _
    rw [List.getElem?_eq_none, Option.getD_none]
    rw [List.length_map]
    show args.length + 1 ≤ r
    rw [turned.fits]
    exact above
  refine ⟨2, j + n, Nat.two_pos, Nat.add_pos_left pos n, ?_, fun i less => ?_, fun i less => ?_⟩
  · rw [Function.iterate_add_apply, reach, arrives, Function.iterate_succ_apply, Function.iterate_one, first_, second]
    exact Follows.enter loopable dominated awaits .start fresh tracks rfl loopable.empty loopable.mem_targets
  · obtain rfl | rfl : i = 0 ∨ i = 1 := by omega
    · rfl
    · rw [Function.iterate_one, first_]
      rfl
  · rcases Nat.le_total i n with before | after
    · exact quiet i before
    · obtain ⟨i, rfl⟩ := Nat.exists_eq_add_of_le' after
      rw [Function.iterate_add_apply, reach, quiet' i (by omega), asked, follows.tracks.asked]

end Following

section Sides

variable (loopable : Loopable f first) (dominated : f.Dominated) (gauged : f.Gauged) (loops : Loops f first s g)

/-- The two sides belong together: one activation follows the other, or all of them return the same. -/
def Together (f g : Func) (S : Semantics V) (T : Tower V) (t : Thread V) : Prop :=
  Follows f g S T t ∧ T.thread.ending = none ∨
    t.asked = T.thread.asked ∧ ∃ ending, t.ending = some ending ∧ Unwinds f S T (ending.result (S.const .undefined))

lemma Follows.together (follows : Follows f g S T t) : Together f g S T t := by
  cases ended : T.thread.ending with
  | none => exact .inl ⟨follows, ended⟩
  | some ending =>
    exact .inr ⟨follows.tracks.asked, ending, follows.tracks.agree.ending.trans ended, follows.func, follows.awaits,
      .inl ⟨ending, ended, rfl⟩⟩

include loopable dominated gauged loops

lemma paced : Paced (Tower.step S (recalled f g)) (g.step S) (fun T => T.thread.asked) Thread.asked
    (Together f g S) where
  same T t together := together.elim (fun both => both.1.tracks.asked) fun both => both.1
  next T t together := by
    rcases together with ⟨follows, running⟩ | ⟨asked, ending, ended, unwinds⟩
    · have catches : Catches f g S T t := by
        cases next : T.thread.rest with
        | nil => exact follows.edge loopable dominated loops running next
        | cons v rest =>
          rcases follows.ahead_cases loopable loops next with ⟨rest', next', same, ahead⟩ |
            ⟨args, id, ks, turned, rfl, next', beyond, does, hands⟩
          · exact follows.node loopable dominated running next next' same ahead
          · exact follows.call loopable dominated loops gauged running next turned next' beyond does hands
      exact catches.mono fun T t follows => follows.together
    · obtain ⟨unwinds', quiet⟩ := unwinds.step (recalled f g)
      have stays : g.step S t = t := step_ended (by rw [ended]; nofun)
      refine .once (.inr ⟨?_, ending, ?_, unwinds'⟩)
      · rw [stays, asked, quiet]
      · rw [stays, ended]

variable {registers : Nat → V} (fresh : ∀ r, f.params < r → registers r = S.const .undefined)
include fresh

omit gauged dominated loops in
lemma together_start : Together f g S ⟨f, f.start S registers, []⟩ (g.start S registers) := by
  refine Follows.together ⟨rfl, nofun, .start, fun r above _ => fresh r above, ⟨[], rfl, rfl⟩, fun s c args turned =>
    ?_,
    rfl, rfl, rfl, rfl, rfl, rfl, rfl, fun _ _ _ => rfl⟩
  have ends := loopable.goes.symm.trans turned.result
  cases ends

lemma asked_eq : f.asked S (recalled f g) registers = g.asked S (fun _ _ => none) registers := by
  have all := (paced loopable dominated gauged loops).range_eq (together_start loopable fresh)
  rw [Func.asked, Func.asked]
  simp only [tower_alone]
  exact all

lemma gives_iff {trace : List (Request V)} : f.Gives S (recalled f g) registers trace result ↔
    g.Gives S (fun _ _ => none) registers trace result := by
  have paced := paced (S := S) loopable dominated gauged loops
  have start : Together f g S _ _ := together_start loopable fresh
  constructor
  · rintro ⟨ending, ⟨n, alone, ended, rfl⟩, same⟩
    obtain ⟨i, j, le, together⟩ := paced.exists_later start n
    rw [← tower, tower_of_le alone ended le] at together
    rcases together with ⟨-, running⟩ | ⟨asked, ending', ended', -, -, ⟨ending'', there, same'⟩ | ⟨v, ⟨running, -⟩, -⟩⟩
    · rw [running] at ended
      cases ended
    · refine ⟨ending', ⟨j, ?_, ?_, ?_⟩, ?_⟩
      · rw [tower_alone]
      · rw [tower_alone]
        exact ended'
      · rw [tower_alone]
        exact asked
      · rw [← same, ← same', Option.some.inj (ended.symm.trans there)]
    · rw [running] at ended
      cases ended
  · rintro ⟨ending, ⟨n, -, ended, rfl⟩, rfl⟩
    obtain ⟨j, i, le, together⟩ := paced.symm.exists_later start n
    rw [tower_alone] at ended ⊢
    have stays : (g.step S)^[j] (g.start S registers) = g.run S registers n := by
      obtain ⟨k, rfl⟩ := Nat.exists_eq_add_of_le' le
      rw [Function.iterate_add_apply]
      have last : (g.run S registers n).ending = some ending := ended
      exact Function.iterate_fixed (step_ended (by rw [← run, last]; rintro ⟨⟩)) k
    rw [stays] at together
    rcases together with ⟨follows, running⟩ | ⟨asked, ending', ended', unwinds⟩
    · have running' := follows.tracks.agree.ending.trans running
      rw [show (g.run S registers n).ending = none from running'] at ended
      cases ended
    · obtain ⟨m, alone, ⟨last, ended'', same⟩, quiet⟩ := unwinds.settles (recalled f g)
      rw [← Function.iterate_add_apply] at alone ended'' quiet
      refine ⟨last, ⟨m + i, alone, ended'', quiet.trans asked.symm⟩, ?_⟩
      rw [same, Option.some.inj (ended.symm.trans ended')]

end Sides

/-- Where calls of a method by itself are turned into jumps, the surroundings are asked for the same as if the method
were run again in place of each of them, and the result is the same. -/
theorem pass_recalls (checked : f.Checked) (bare : f.Bare) (dominated : f.Dominated) (gauged : f.Gauged)
    (goes : f.terminator entry = .goto first) (empty : f.body entry = [])
    (plain : f.flags.needArguments = false ∧ f.flags.needRest = false) (ctx : Context) :
    ∃ report g, (pass.run ctx).run f = .ok report g ∧
      ∀ (V : Type) (S : Semantics V) (registers : Nat → V), (∀ r, f.params < r → registers r = S.const .undefined) →
        f.asked S (recalled f g) registers = g.asked S (fun _ _ => none) registers ∧
          ∀ trace result, f.Gives S (recalled f g) registers trace result ↔
            g.Gives S (fun _ _ => none) registers trace result := by
  have loopable : Loopable f first := ⟨checked, bare, goes, empty, plain⟩
  obtain ⟨report, g, s, run, loops⟩ := loopable.pass_loops ctx
  exact ⟨report, g, run, fun V S registers fresh => ⟨asked_eq loopable dominated gauged loops fresh,
    fun trace result => gives_iff loopable dominated gauged loops fresh⟩⟩

/-- The graph has no handlers and no scopes, and uses nodes only at the ends of their blocks. -/
def Plain (f : Func) : Prop :=
  f.handlers = [] ∧ (∀ b < f.blocks.size, f.handlersOf b = [] ∧ f.scopeDepth b = 0) ∧
    (∀ v < f.nodes.size, (f.kind? v).all (fun k => k.operands.all (·.node?.isNone) && k.scopes 0 == 0) = true) ∧
      ∀ b < f.blocks.size, ((f.terminator b).operands.all fun x => x.node?.all (f.body b).contains) = true

instance (f : Func) : Decidable (Plain f) := inferInstanceAs (Decidable (_ ∧ _))

lemma Plain.sound (plain : Plain f) : f.Bare ∧ f.Dominated ∧ f.Gauged := by
  obtain ⟨catches, blocks, nodes, ends⟩ := plain
  have absent {b : BlockId} (outside : ¬b < f.blocks.size) : f.block? b = none :=
    Option.not_isSome_iff_eq_none.1 fun live => outside (lt_size_of_block? live)
  have node {v : ValueId} {k : NodeKind} (does : f.kind? v = some k) :
      (∀ x ∈ k.operands, x.node? = none) ∧ k.scopes 0 = 0 := by
    have ok := nodes v (lt_size_of_node? (isSome_node?_of_kind? does))
    rw [does, Option.all_some, Bool.and_eq_true, List.all_eq_true, beq_iff_eq] at ok
    exact ⟨fun x mem => Option.isNone_iff_eq_none.1 (ok.1 x mem), ok.2⟩
  have flat (b : BlockId) : f.scopeDepth b = 0 := by
    by_cases inside : b < f.blocks.size
    · exact (blocks b inside).2
    · rw [scopeDepth, absent inside]
      rfl
  refine ⟨⟨catches, fun b => ?_⟩, dominated_of_last (fun v k does w mem => ?_) fun b v mem => ?_, fun n b nests => ?_⟩
  · by_cases inside : b < f.blocks.size
    · exact (blocks b inside).1
    · exact (parts_of_isNone (absent inside)).2.2.1
  · cases (node does).1 _ mem
  · by_cases inside : b < f.blocks.size
    · have used := List.all_eq_true.1 (ends b inside) _ mem
      exact List.contains_iff_mem.1 used
    · rw [(parts_of_isNone (absent inside)).2.2.2.1] at mem
      cases mem
  · rw [flat]
    have none {n b rest} (nests : f.Nests n b rest) : n = 0 := by
      induction nests with
      | start => rfl
      | @node n b v rest _ ih =>
        rw [ih]
        cases does : f.kind? v with
        | none => rfl
        | some k => exact (node does).2
      | edge _ _ ih => exact ih
    exact none nests

/-- A method that exchanges its parameters until the first one does not hold. -/
def exchanging : List Change :=
  [.addBlock, .addBlock, .addBlock, .setTerminator 0 (.goto 2), .setTerminator 2 (.branch .truthy [.reg 1 0] 3 4),
    .appendNode 3 (.call .callStatic 0 2 [.reg 0 0, .reg 2 0, .reg 1 0]), .setTerminator 3 (.leave (some (.node 0))),
    .setTerminator 4 (.leave (some (.reg 2 0)))]

/-- The call has made way for a jump. -/
def exchanges (f : Func) : Bool :=
  match (pass.run ⟨0, {}, .unknown, {}⟩).run f with
  | .ok _ g => decide (g.node? 0 = none ∧ g.terminator 3 = .jump 2)
  | .error .. => false

/-- The parameters are exchanged in a loop. -/
theorem pass_recalls_exchanging : ∃ f report g, build? exchanging (.new 0 2 {} 3) = some f ∧ f.Checked ∧ f.Bare ∧
    f.Dominated ∧ f.Gauged ∧ f.terminator entry = .goto 2 ∧ f.body entry = [] ∧
    (f.flags.needArguments = false ∧ f.flags.needRest = false) ∧ (pass.run ⟨0, {}, .unknown, {}⟩).run f = .ok report g ∧
    (recalled f g f 0 = some f ∧ g.terminator 3 = .jump 2) ∧
      ∀ (V : Type) (S : Semantics V) (registers : Nat → V), (∀ r, f.params < r → registers r = S.const .undefined) →
        f.asked S (recalled f g) registers = g.asked S (fun _ _ => none) registers ∧
          ∀ trace result, f.Gives S (recalled f g) registers trace result ↔
            g.Gives S (fun _ _ => none) registers trace result := by
  have facts : (build? exchanging (.new 0 2 {} 3)).any (fun f => (f.block? entry).isSome && f.verify.isOk &&
      decide (Plain f ∧ f.terminator entry = .goto 2 ∧ f.body entry = [] ∧
        (f.flags.needArguments = false ∧ f.flags.needRest = false) ∧ exchanges f = true)) = true := by
    decide +kernel
  obtain ⟨f, built, checked, plain, goes, empty, flags, turned⟩ := exists_checked facts
  obtain ⟨bare, dominated, gauged⟩ := plain.sound
  obtain ⟨report, g, run, same⟩ := pass_recalls checked bare dominated gauged goes empty flags ⟨0, {}, .unknown, {}⟩
  rw [exchanges, run] at turned
  obtain ⟨gone, jump⟩ := of_decide_eq_true turned
  exact ⟨f, report, g, built, checked, bare, dominated, gauged, goes, empty, flags, run, ⟨if_pos ⟨rfl, gone⟩, jump⟩,
    same⟩

/-- Truth values; a branch is taken if its operand holds, and all answers are false. -/
def truth : Semantics Bool where
  const c := c == .bool true
  unary _ _ := false
  type _ _ _ := false
  binary _ _ _ := false
  branch _ args := args.head?.getD false
  select _ _ := none
  silent _ := false
  answer _ := .ok fun _ => false

/-- A method that searches the scope stack at its entry, and calls itself once. -/
def searchingFirst : List Change :=
  [.addBlock, .addBlock, .addBlock, .appendNode 0 (.property .findDef 1 []), .setTerminator 0 (.goto 2),
    .setTerminator 2 (.branch .truthy [.reg 1 0] 3 4),
    .appendNode 3 (.call .callStatic 0 1 [.reg 0 0, .const (.bool false)]), .setTerminator 3 (.leave (some (.node 1))),
    .setTerminator 4 (.leave none)]

/-- What the method searches for. -/
def searched : Request Bool := ⟨.property .findDef 1 [], [], []⟩

/-- The method searches in each activation, but only once if the call is turned into a jump. -/
def searchesOnce (f : Func) : Bool :=
  match (pass.run ⟨0, {}, .unknown, {}⟩).run f with
  | .ok _ g =>
    let recalls := f.tower truth (recalled f g) (· == 1) 12
    let loops := g.tower truth (fun _ _ => none) (· == 1) 12
    decide (recalls.waiting.length = 0 ∧ recalls.thread.ending = some (.returned (some false)) ∧
      recalls.thread.asked = [searched, searched] ∧ loops.waiting.length = 0 ∧
        loops.thread.ending = some (.returned none) ∧ loops.thread.asked = [searched])
  | .error .. => false

/-- What a method does at its entry is done in each activation, but a jump does not repeat it. -/
theorem not_pass_recalls : ¬∀ (f : Func) (first : BlockId) (ctx : Context), f.Checked → f.Bare → f.Dominated →
    f.Gauged →
    f.terminator entry = .goto first → (f.flags.needArguments = false ∧ f.flags.needRest = false) →
      ∃ report g, (pass.run ctx).run f = .ok report g ∧
        ∀ (V : Type) (S : Semantics V) (registers : Nat → V), (∀ r, f.params < r → registers r = S.const .undefined) →
          f.asked S (recalled f g) registers = g.asked S (fun _ _ => none) registers ∧
            ∀ trace result, f.Gives S (recalled f g) registers trace result ↔
              g.Gives S (fun _ _ => none) registers trace result := by
  intro all
  have facts : (build? searchingFirst (.new 0 1 {} 2)).any (fun f => (f.block? entry).isSome &&
      f.verify.isOk && decide (Plain f ∧ f.terminator entry = .goto 2 ∧
        (f.flags.needArguments = false ∧ f.flags.needRest = false) ∧ f.params = 1 ∧ searchesOnce f = true)) = true := by
    decide +kernel
  obtain ⟨f, -, checked, plain, goes, flags, one, once⟩ := exists_checked facts
  obtain ⟨bare, dominated, gauged⟩ := plain.sound
  obtain ⟨report, g, run, same⟩ := all f 2 ⟨0, {}, .unknown, {}⟩ checked bare dominated gauged goes flags
  rw [searchesOnce, run] at once
  obtain ⟨alone, ended, asked, alone', ended', asked'⟩ := of_decide_eq_true once
  have fresh (r) (above : f.params < r) : (r == 1) = truth.const .undefined := by
    rw [one] at above
    exact beq_false_of_ne above.ne'
  obtain ⟨-, gives⟩ := same Bool truth (· == 1) fresh
  obtain ⟨ending, performs, -⟩ := (gives [searched, searched] (.ok false)).1
    ⟨_, ⟨12, List.length_eq_zero_iff.1 alone, ended, asked⟩, rfl⟩
  have trace := performs.unique ⟨12, List.length_eq_zero_iff.1 alone', ended', asked'⟩
  exact absurd trace.1 (by decide)

end Avm.Opt.TailCall
