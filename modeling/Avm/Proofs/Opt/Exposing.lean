import Avm.Proofs.Opt.Restarting
import Avm.Proofs.Opt.Subdividing

/-!
# Tail calls that are left

A call of a method by itself makes way for a jump only if nothing but the end of its block uses what it gives.  When one
call makes way, what it used is used by the nodes that stand for it, and so no other call gets a
single use that had more, but for one: a phi of the exit no longer takes what it took from the
block of the call.  If it takes nothing there that another block returns (`Discerns`), the calls
that are found behind are among those that were there, and each of those was looked at in its turn.

The main statement is `pass_rests`.
-/

namespace Avm.Ir.Func

variable {f g h : Func} {b t s : BlockId} {c v : ValueId} {x : Value} {kind : EdgeKind} {depth : Nat}

section Uses

/-- Something other than the end of the given block uses the result of a node. -/
def UsedBeside (f : Func) (v : ValueId) (b : BlockId) : Prop :=
  (∃ w k, f.kind? w = some k ∧ Value.node v ∈ k.operands) ∨ ∃ t ≠ b, Value.node v ∈ (f.terminator t).operands

/-- The end of a block is the only use of the node whose result it returns if there is no other. -/
lemma useCount_eq_one_iff (ends : f.terminator b = .leave (some (.node v))) : f.useCount v = 1 ↔ ¬f.UsedBeside v b := by
  have own : Value.node v ∈ (f.terminator b).operands := by
    rw [ends]
    exact List.mem_singleton_self _
  have split : (f.blockIds.flatMap fun t => (f.terminator t).operands).count (.node v) =
      1 + ((f.blockIds.erase b).flatMap fun t => (f.terminator t).operands).count (.node v) := by
    have live : b ∈ f.blockIds := mem_blockIds.2 (isSome_of_operand own)
    rw [((List.perm_cons_erase live).flatMap_right _).count_eq, List.flatMap_cons, List.count_append, ends]
    congr 1
    exact List.count_singleton_self
  have nodes : f.nodeOperands.count (.node v) = 0 ↔ ¬∃ w k, f.kind? w = some k ∧ Value.node v ∈ k.operands := by
    rw [List.count_eq_zero, nodeOperands, List.mem_flatMap]
    refine not_congr ⟨?_, ?_⟩
    · rintro ⟨n, mem, uses⟩
      obtain ⟨w, there⟩ := mem_allNodes_iff.1 mem
      exact ⟨w, n.kind, by rw [kind?, there]; rfl, uses⟩
    · rintro ⟨w, k, does, uses⟩
      obtain ⟨n, there, rfl⟩ := Option.map_eq_some_iff.1 does
      exact ⟨n, mem_allNodes_iff.2 ⟨w, there⟩, uses⟩
  have others : ((f.blockIds.erase b).flatMap fun t => (f.terminator t).operands).count (.node v) = 0 ↔
      ¬∃ t ≠ b, Value.node v ∈ (f.terminator t).operands := by
    rw [List.count_eq_zero, List.mem_flatMap]
    refine not_congr ⟨?_, ?_⟩
    · rintro ⟨t, mem, uses⟩
      exact ⟨t, (nodup_blockIds.mem_erase_iff.1 mem).1, uses⟩
    · rintro ⟨t, other, uses⟩
      exact ⟨t, nodup_blockIds.mem_erase_iff.2 ⟨other, mem_blockIds.2 (isSome_of_operand uses)⟩, uses⟩
  rw [useCount, allOperands, endOperands, List.count_append, split, UsedBeside, not_or, ← nodes, ← others]
  omega

lemma usedBeside_iff : f.UsedBeside v b ↔ (∃ w k, f.inputs? w = none ∧ f.kind? w = some k ∧ Value.node v ∈ k.operands) ∨
    (∃ w is, f.inputs? w = some is ∧ ∃ i ∈ is, i.value = .node v) ∨
      ∃ t ≠ b, Value.node v ∈ (f.terminator t).operands := by
  rw [UsedBeside, ← or_assoc]
  refine or_congr_left ⟨?_, ?_⟩
  · rintro ⟨w, k, does, uses⟩
    cases k with
    | phi is => exact .inr ⟨w, is, by rw [inputs?, does]; rfl, List.mem_map.1 uses⟩
    | _ => exact .inl ⟨w, _, by rw [inputs?, does]; rfl, does, uses⟩
  · rintro (⟨w, k, -, does, uses⟩ | ⟨w, is, inputs, takes⟩)
    · exact ⟨w, k, does, uses⟩
    · obtain ⟨k, does, inputs⟩ := Option.bind_eq_some_iff.1 inputs
      cases k with
      | phi js =>
        obtain rfl : js = is := Option.some.inj inputs
        exact ⟨w, _, does, List.mem_map.2 takes⟩
      | _ => cases inputs

/-- A node is a call. -/
def Calls (f : Func) (v : ValueId) : Prop :=
  ∃ opcode index count operands, f.kind? v = some (.call opcode index count operands)

/-- What a phi of the exit takes from a block is not the result of a call that another block returns. -/
def Discerns (f : Func) : Prop := ∀ w ∈ f.phis exit, ∀ s kind c, f.incoming w s kind = some (.node c) → f.Calls c →
  ∀ t ≠ s, f.terminator t ≠ .leave (some (.node c))

end Uses

section Ends

lemma Workable.reend {term : Terminator} {hs : List Nat} (work : Workable f) (live : (f.block? b).isSome)
    (inner : b ≠ exit)
    (covers : ∀ k ∈ hs, k < f.handlers.length) (targets : ∀ e ∈ edgesFrom f.handlers term hs, (f.block? e.1).isSome) :
    Workable (f.reend b term hs) where
  toLawful := work.toLawful.reend live covers
  wired := (work.wired.reend live targets).mono fun _ old => old.1
  sparse := by
    have known {t v} (mem : v ∈ f.phis t) (k) (some_ : (f.incoming v b k).isSome = true) :
        ∃ k', (t, k') ∈ f.succs b ∨ (t, k') ∈ edgesFrom f.handlers term hs :=
      ⟨k, .inl (work.sparse.known t v mem b k some_)⟩
    refine ⟨fun t v mem s kind some_ => ?_, fun t v mem => ?_⟩
    · rw [sameNodes_reend.phis] at mem
      rw [incoming_reend_eq work.toListed mem live (known mem)] at some_
      rw [succs_reend live]
      split at some_
      · rename_i same
        rw [if_pos same]
        split at some_
        · assumption
        · cases some_
      · rename_i other
        rw [if_neg other]
        exact work.sparse.known t v mem s kind some_
    · rw [sameNodes_reend.phis] at mem
      exact once_reend work.toListed mem live (work.sparse.once t v mem)
  leaves := by rw [sameNodes_reend.isSome, work.leaves]
  ended := by rw [terminator_reend live, if_neg inner.symm, work.ended]

lemma retargeted_ne_leave {m : BlockId} {y : Option Value} (goes : (t, kind) ∈ (f.terminator s).targets) :
    f.retargeted s kind m ≠ .leave y := by
  intro ends
  have none : (f.retargeted s kind m).leaving [] = [] := by
    rw [retargeted, Terminator.leaving_retarget, leaving_eq_nil goes]
  rw [ends] at none
  cases none

end Ends

end Avm.Ir.Func

namespace Avm.Opt.TailCall

open Avm.Ir Avm.Ir.Func Avm.Ir.Edit

variable {f g h : Func} {b s t : BlockId} {c v : ValueId} {x : Value} {args args' : List Value}
  {copies rest : List NodeKind}
  {before : List ValueId} {targets hs : List Nat} {kind : EdgeKind} {depth : Nat} {ctx : Context} {call : ReceiverCall}

/-! ## Finding a call -/

section Finding

lemma ofNode?_congr {pool : Pool} (nodes : g.node? v = f.node? v)
    (bodies : ∀ n, f.node? v = some n → (g.block? n.block).map (·.body) = (f.block? n.block).map (·.body))
    (written : 0 ∈ g.registerWrites ↔ 0 ∈ f.registerWrites) :
    ReceiverCall.ofNode? g pool v = ReceiverCall.ofNode? f pool v := by
  have receiver (x : Value) : ReceiverCall.isOwnReceiver g x = ReceiverCall.isOwnReceiver f x := by
    rw [ReceiverCall.isOwnReceiver, ReceiverCall.isOwnReceiver, List.contains_eq_mem, List.contains_eq_mem,
      decide_eq_decide.2 written]
  simp only [ReceiverCall.ofNode?, nodes, receiver]
  cases there : f.node? v with
  | none => rfl
  | some n =>
    have same := bodies n there
    cases here : f.block? n.block with
    | none =>
      rw [here, Option.map_none, Option.map_eq_none_iff] at same
      simp only [Option.bind_eq_bind, Option.bind_some, same, here]
    | some x =>
      rw [here] at same
      obtain ⟨y, here', same⟩ := Option.map_eq_some_iff.1 same
      simp only [Option.bind_eq_bind, Option.bind_some, here, here', same]

/-- What is asked of a block that ends with a call is so behind only if it was so before. -/
structure Remains (f g : Func) (b : BlockId) : Prop where
  title : g.title = f.title
  handlers : g.handlersOf b = f.handlersOf b
  terminator : g.terminator b = f.terminator b
  body : g.body b = f.body b
  nodes : ∀ v ∈ f.body b, g.node? v = f.node? v
  /-- If no node sets the register of the receiver behind, none did before. -/
  written : 0 ∈ f.registerWrites → 0 ∈ g.registerWrites
  used : ∀ v ∈ f.body b, f.terminator b = .leave (some (.node v)) → f.Calls v → f.UsedBeside v b → g.UsedBeside v b

namespace Remains

lemma refl (f : Func) (b : BlockId) : Remains f f b :=
  ⟨rfl, rfl, rfl, rfl, fun _ _ => rfl, fun sets => sets, fun _ _ _ _ used => used⟩

lemma trans (first : Remains f g b) (second : Remains g h b) : Remains f h b where
  title := second.title.trans first.title
  handlers := second.handlers.trans first.handlers
  terminator := second.terminator.trans first.terminator
  body := second.body.trans first.body
  nodes v mem := (second.nodes v (by rwa [first.body])).trans (first.nodes v mem)
  written sets := second.written (first.written sets)
  used v mem ends calls used := by
    apply second.used v (by rwa [first.body]) (by rwa [first.terminator]) _ (first.used v mem ends calls used)
    obtain ⟨opcode, index, count, operands, does⟩ := calls
    exact ⟨opcode, index, count, operands, by rw [kind?, first.nodes v mem, ← kind?, does]⟩

lemma selfCall? (remains : Remains f g b) (listed : f.Listed) (found : selfCall? g ctx b = some call) :
    TailCall.selfCall? f ctx b = some call := by
  obtain ⟨v, bare, ends, last, once, node, own, target⟩ := selfCall?_eq_some_iff.1 found
  have params : g.params = f.params := congrArg (·.2.1) remains.title
  have method : g.method = f.method := congrArg (·.1) remains.title
  rw [useCount_eq_one_iff ends] at once
  rw [remains.handlers] at bare
  rw [remains.terminator] at ends
  rw [remains.body] at last
  rw [params] at own
  rw [method] at target
  have mem : v ∈ f.body b := List.mem_of_getLast? last
  have same := remains.nodes v mem
  obtain ⟨opcode, index, count, receiver, does, receives⟩ := kind?_of_ofNode? node
  have calls : f.Calls v := ⟨opcode, index, count, _, by rw [kind?, ← same, ← kind?, does]⟩
  refine selfCall?_eq_some_iff.2 ⟨v, bare, ends, last, ?_, ?_, own, target⟩
  · exact (useCount_eq_one_iff ends).2 fun used => once (remains.used v mem ends calls used)
  · rw [← node]
    refine (ofNode?_congr same (fun n there => ?_) ?_).symm
    · have owner := listed.owned b v (List.mem_append_right _ mem)
      rw [there] at owner
      obtain rfl : n.block = b := Option.some.inj owner
      obtain ⟨x, here⟩ := Option.isSome_iff_exists.1
        (isSome_of_mem_nodesOf (List.mem_append_right (f.phis n.block) mem))
      have mem' : v ∈ g.body n.block := by rwa [remains.body]
      obtain ⟨y, here'⟩ := Option.isSome_iff_exists.1
        (isSome_of_mem_nodesOf (List.mem_append_right (g.phis n.block) mem'))
      have bodies := remains.body
      rw [body_of_block? here, body_of_block? here'] at bodies
      rw [here, here', Option.map_some, Option.map_some, bodies]
    · have unset : 0 ∉ g.registerWrites := by
        rw [receives, ReceiverCall.isOwnReceiver, Bool.and_eq_true, Bool.not_eq_true'] at own
        rw [← List.contains_iff_mem, own.1.2]
        exact Bool.false_ne_true
      exact iff_of_false unset fun sets => unset (remains.written sets)

end Remains

end Finding

/-! ## How a call makes way -/

section Handing

lemma Saved.length {id : ValueId} (saved : Saved targets id args copies args') : args'.length = args.length := by
  induction saved with
  | nil => rfl
  | copy _ ih | keep _ _ ih => rw [List.length_cons, List.length_cons, ih]

lemma Saved.eq_copy {id : ValueId} {k : NodeKind} (saved : Saved targets id args copies args') (mem : k ∈ copies) :
    ∃ x, k = .copy x := by
  induction saved with
  | nil => cases mem
  | copy _ ih => exact (List.mem_cons.1 mem).elim (fun same => ⟨_, same⟩) ih
  | keep _ _ ih => exact ih mem

lemma Saved.uncalled {id : ValueId} (saved : Saved targets id args copies args') :
    ∀ k ∈ copies ++ handing f args' depth,
    ∀ opcode index count operands, k ≠ .call opcode index count operands := by
  rintro k mem opcode index count operands rfl
  rcases List.mem_append.1 mem with mem | mem
  · obtain ⟨x, none⟩ := saved.eq_copy mem
    cases none
  · rcases List.mem_append.1 mem with mem | mem
    · obtain ⟨e, -, none⟩ := List.mem_map.1 mem
      cases none
    · cases List.eq_of_mem_replicate mem

lemma Saved.uses {id : ValueId} (saved : Saved targets id args copies args') (mem : x ∈ args) :
    .copy x ∈ copies ∨ x ∈ args' := by
  induction saved with
  | nil => cases mem
  | copy _ ih =>
    rcases List.mem_cons.1 mem with rfl | mem
    · exact .inl List.mem_cons_self
    · exact (ih mem).imp (List.mem_cons_of_mem _) (List.mem_cons_of_mem _)
  | keep _ _ ih =>
    rcases List.mem_cons.1 mem with rfl | mem
    · exact .inr List.mem_cons_self
    · exact (ih mem).imp_right (List.mem_cons_of_mem _)

lemma Saved.exists_use {id : ValueId} (saved : Saved targets id args copies args') (fits : args.length = f.params)
    (mem : x ∈ args) : ∃ k ∈ copies ++ handing f args' depth, x ∈ k.operands := by
  rcases saved.uses mem with copied | kept
  · exact ⟨_, List.mem_append_left _ copied, List.mem_singleton_self x⟩
  · have all : ((parameters f).zip args').map (·.2) = args' := by
      refine List.map_snd_zip (Nat.le_of_eq ?_)
      rw [saved.length, fits, parameters, List.length_map, List.length_range]
    rw [← all] at kept
    obtain ⟨e, listed, rfl⟩ := List.mem_map.1 kept
    refine ⟨.store e.1 e.2, List.mem_append_right _ (List.mem_append_left _ ?_), List.mem_singleton_self _⟩
    exact List.mem_map.2 ⟨e, List.mem_append_left _ listed, rfl⟩

end Handing

section Rewriting

variable {opcode : Opcode} {index count version : Nat} (here : f.body t = before ++ [c])
  (plain : ∀ k ∈ copies ++ rest, k.isPhi = false)
include here plain

lemma workable_rewritten (work : Workable f) : Workable (f.rewritten t c before.length copies rest) := by
  have listed := work.toListed
  have nodes {u w} (mem : w ∈ f.phis u) : (f.rewritten t c before.length copies rest).node? w = f.node? w := by
    refine node?_rewritten_old listed here (listed.isSome_node? (List.mem_append_left _ mem)) ?_
    rintro rfl
    exact (notMem_of_last listed here).1 u mem
  have inputs {u w} (mem : w ∈ f.phis u) : (f.rewritten t c before.length copies rest).inputs? w = f.inputs? w := by
    rw [inputs?_eq, nodes mem, ← inputs?_eq]
  refine ⟨?_, work.wired.sameFlow sameFlow_rewritten, ⟨fun u w mem s kind some_ => ?_, fun u w mem is found => ?_⟩,
    ?_, ?_⟩
  · refine keeps_rewritten listed here plain (fun g i k _ lawful live fits => lawful.putNode live fits)
      (fun g lawful => lawful.dropNode c) (fun g lawful => ?_) work.toLawful
    have alike := alike_scopeDepth (f := g) (b := t) fun _ => 0
    exact lawful.sameFlow alike.toSameFlow
      (lawful.toListed.sameNodes (sameNodes_modifyBlock (fun _ => rfl) fun _ => rfl))
  · rw [(lists_rewritten listed here plain).1] at mem
    rw [incoming, inputs mem, ← incoming] at some_
    rw [sameFlow_rewritten.succs]
    exact work.sparse.known u w mem s kind some_
  · rw [(lists_rewritten listed here plain).1] at mem
    rw [inputs mem] at found
    exact work.sparse.once u w mem is found
  · rw [sameFlow_rewritten.isSome, work.leaves]
  · rw [terminator_rewritten, work.ended]

variable (listed : f.Listed)
include listed

lemma remains_rewritten (does : f.kind? c = some (.call opcode index count (.reg 0 version :: args)))
    (handed : ∀ x ∈ args, ∃ k ∈ copies ++ rest, x ∈ k.operands) (other : b ≠ t) :
    Remains f (f.rewritten t c before.length copies rest) b where
  title := title_rewritten
  handlers := sameFlow_rewritten.handlersOf b
  terminator := terminator_rewritten
  body := (lists_rewritten listed here plain).2 b other
  nodes v mem := by
    refine node?_rewritten_old listed here (listed.isSome_node? (List.mem_append_right _ mem)) ?_
    rintro rfl
    exact (notMem_of_last listed here).2 b other mem
  written sets := by
    refine (mem_registerWrites_rewritten listed here fun k there => ?_).2 (.inr sets)
    rw [Option.some.inj (there.symm.trans does)]
    rfl
  used v _ _ _ used := by
    rcases used with ⟨w, k, there, uses⟩ | ⟨u, apart, uses⟩
    · by_cases same : w = c
      · subst same
        obtain rfl := Option.some.inj (there.symm.trans does)
        rcases List.mem_cons.1 uses with none | mem
        · cases none
        · obtain ⟨k, new, uses⟩ := handed _ mem
          obtain ⟨i, inside, rfl⟩ := List.mem_iff_getElem.1 new
          refine .inl ⟨f.nodes.size + i, _, ?_, uses⟩
          rw [kind?, node?_rewritten_new listed here (List.getElem?_eq_getElem inside), Option.map_some]
      · obtain ⟨n, found, rfl⟩ := Option.map_eq_some_iff.1 there
        refine .inl ⟨w, n.kind, ?_, uses⟩
        rw [kind?, node?_rewritten_old listed here (by rw [found]; rfl) same, found, Option.map_some]
    · exact .inr ⟨u, apart, by rwa [terminator_rewritten]⟩

lemma discerns_rewritten
    (uncalled : ∀ k ∈ copies ++ rest, ∀ opcode index count operands, k ≠ .call opcode index count operands)
    (discerns : f.Discerns) : (f.rewritten t c before.length copies rest).Discerns := by
  intro w mem s kind v comes calls u other ends
  rw [(lists_rewritten listed here plain).1] at mem
  rw [terminator_rewritten] at ends
  have same : (f.rewritten t c before.length copies rest).node? w = f.node? w := by
    refine node?_rewritten_old listed here (listed.isSome_node? (List.mem_append_left _ mem)) ?_
    rintro rfl
    exact (notMem_of_last listed here).1 _ mem
  rw [incoming, inputs?_eq, same, ← inputs?_eq, ← incoming] at comes
  refine discerns w mem s kind v comes ?_ u other ends
  obtain ⟨opcode, index, count, operands, does⟩ := calls
  obtain ⟨n, there, kind⟩ := Option.map_eq_some_iff.1 does
  rw [node?_rewritten listed here] at there
  split at there
  · cases there
  · split at there
    · exact ⟨opcode, index, count, operands, by rw [kind?, there, Option.map_some, kind]⟩
    · obtain ⟨k, new, rfl⟩ := Option.map_eq_some_iff.1 there
      exact absurd kind (uncalled k (List.mem_of_getElem? new) opcode index count operands)

end Rewriting

section Entering

variable {target : BlockId} (work : Workable f) (edge : (target, kind) ∈ f.succs s) (normal : kind ≠ .raise)
  (on : kind ≠ .leave)
include work edge normal on

lemma terminator_of_leave_onEdge {y : Option Value} (ends : (f.onEdge s target kind depth).terminator b = .leave y) :
    b ≠ s ∧ b ≠ f.blocks.size ∧ f.terminator b = .leave y := by
  rw [terminator_onEdge (isSome_of_mem_succs edge)] at ends
  split at ends
  · exact absurd ends (retargeted_ne_leave (work.wired.goes edge normal on))
  · split at ends
    · cases ends
    · exact ⟨‹_›, ‹_›, ends⟩

lemma remains_onEdge {y : Option Value} (ends : (f.onEdge s target kind depth).terminator b = .leave y) :
    Remains f (f.onEdge s target kind depth) b := by
  obtain ⟨first, new, ends'⟩ := terminator_of_leave_onEdge work edge normal on ends
  have live : (f.block? s).isSome := isSome_of_mem_succs edge
  refine ⟨Apart.title_onEdge, ?_, ends.trans ends'.symm, body_onEdge, fun v mem => ?_, fun sets =>
    ?_, fun v _ _ _ used => ?_⟩
  · rw [handlersOf_onEdge live, if_neg new]
  · exact node?_eq_of_kind? (kind?_onEdge (work.plain b v mem)) frame_onEdge.1
  · rwa [mem_registerWrites_congr fun v => shape?_onEdge]
  · rw [usedBeside_iff] at used ⊢
    rcases used with ⟨w, k, plain, does, uses⟩ | ⟨w, is, inputs, i, mem, same⟩ | ⟨u, apart, uses⟩
    · refine .inl ⟨w, k, ?_, by rw [kind?_onEdge plain, does], uses⟩
      rw [inputs?, kind?_onEdge plain, ← inputs?, plain]
    · have taken : ∃ is', (f.onEdge s target kind depth).inputs? w = some is' ∧ ∃ i' ∈ is', i'.value = i.value :=
        work.exists_input_onEdge edge normal on inputs mem
      obtain ⟨is', inputs', i', mem', same'⟩ := taken
      exact .inr (.inl ⟨w, is', inputs', i', mem', same'.trans same⟩)
    · refine .inr (.inr ⟨u, apart, ?_⟩)
      rw [terminator_onEdge live]
      split
      · rename_i same
        rw [retargeted, Terminator.operands_retarget, ← same]
        exact uses
      · rw [if_neg (size_ne_of_isSome (isSome_of_operand uses))]
        exact uses

omit work edge normal on in
lemma calls_of_onEdge (calls : (f.onEdge s target kind depth).Calls v) : f.Calls v := by
  obtain ⟨opcode, index, count, operands, does⟩ := calls
  refine ⟨opcode, index, count, operands, ?_⟩
  have plain : ((f.onEdge s target kind depth).inputs? v).isSome = (f.inputs? v).isSome := frame_onEdge.2
  rw [inputs?, does] at plain
  rw [← kind?_onEdge (Option.isSome_eq_false_iff.1 plain.symm |> Option.isNone_iff_eq_none.1), does]

lemma discerns_onEdge (discerns : f.Discerns) : (f.onEdge s target kind depth).Discerns := by
  intro w mem u k v comes calls b other ends
  obtain ⟨first, -, ends'⟩ := terminator_of_leave_onEdge work edge normal on ends
  rw [phis_onEdge] at mem
  obtain ⟨u', k', comes', from_⟩ := work.sparse.exists_of_incoming_onEdge work.toLawful mem edge comes
  refine discerns w mem u' k' v comes' (calls_of_onEdge calls) b ?_ ends'
  rcases from_ with rfl | ⟨-, rfl⟩
  · exact other
  · exact first

end Entering

lemma eq_of_mem_edgesFrom_jump {catches : List Catch} {u : BlockId}
    (edge : (u, kind) ∈ edgesFrom catches (.jump s) []) : u = s := by
  rcases mem_edgesFrom.1 edge with goes | none | ⟨_, none, _⟩
  · exact (Prod.mk.inj (List.mem_singleton.1 goes)).1
  · cases none
  · cases none

lemma eq_exit_of_mem_succs {u : BlockId} {y : Option Value} (work : Workable f) (bare : f.handlersOf t = [])
    (ends : f.terminator t = .leave y) (edge : (u, kind) ∈ f.succs t) : u = exit := by
  rw [work.wired.wired t id, edgesOf_eq, bare, ends] at edge
  rcases mem_edgesFrom.1 edge with none | leaves | ⟨_, none, _⟩
  · cases none
  · exact Terminator.eq_exit_of_mem_leaving leaves
  · cases none

section Ending

variable (work : Workable f) (live : (f.block? t).isSome)
include work live

variable (blank : f.phis s = [])
include blank

lemma incoming_of_reend {u w : Nat} (mem : w ∈ f.phis u) (comes : (f.reend t (.jump s) []).incoming w b kind = some x) :
    b ≠ t ∧ f.incoming w b kind = some x := by
  rw [incoming_reend_eq work.toListed mem live fun k some_ => ⟨k, .inl (work.sparse.known u w mem t k some_)⟩] at comes
  split at comes
  · split at comes
    · rename_i edge
      rw [eq_of_mem_edgesFrom_jump edge, blank] at mem
      cases mem
    · cases comes
  · exact ⟨‹_›, comes⟩

lemma discerns_reend (discerns : f.Discerns) : (f.reend t (.jump s) []).Discerns := by
  intro w mem u k v comes calls b other returns
  rw [sameNodes_reend.phis] at mem
  obtain ⟨-, comes⟩ := incoming_of_reend work live blank mem comes
  rw [terminator_reend live] at returns
  split at returns
  · cases returns
  · refine discerns w mem u k v comes ?_ b other returns
    obtain ⟨opcode, index, count, operands, does⟩ := calls
    have plain : ((f.reend t (.jump s) []).inputs? v).isSome = (f.inputs? v).isSome := sameNodes_reend.isPhi v
    rw [inputs?, does] at plain
    have gone := Option.isNone_iff_eq_none.1 (Option.isSome_eq_false_iff.1 plain.symm)
    exact ⟨opcode, index, count, operands, by rw [← kind?_reend gone, does]⟩

omit blank in
lemma remains_reend (bare : f.handlersOf t = []) (ends : f.terminator t = .leave (some (.node c)))
    (discerns : f.Discerns)
    (gone : f.node? c = none) (other : b ≠ t) :
    Remains f (f.reend t (.jump s) []) b where
  title := Apart.title_reend
  handlers := by rw [handlersOf_reend live, if_neg other]
  terminator := by rw [terminator_reend live, if_neg other]
  body := sameNodes_reend.body b
  nodes v mem := node?_reend (work.plain b v mem)
  written sets := by rwa [mem_registerWrites_congr fun v => shape?_reend]
  used v mem returns calls used := by
    rw [usedBeside_iff] at used ⊢
    rcases used with ⟨w, k, plain, does, uses⟩ | ⟨w, is, inputs, i, takes, same⟩ | ⟨u, apart, uses⟩
    · refine .inl ⟨w, k, ?_, by rw [kind?_reend plain, does], uses⟩
      rw [inputs?, kind?_reend plain, ← inputs?, plain]
    · by_cases listed : ∃ u, w ∈ f.phis u
      · obtain ⟨u, there⟩ := listed
        have comes : f.incoming w i.source i.kind = some (.node v) := by
          rw [incoming, inputs, ← same]
          exact incoming?_of_mem (work.sparse.once u w there is inputs) takes
        have from_ : i.source ≠ t := by
          intro own
          rw [own] at comes
          have edge := work.sparse.known u w there t i.kind (by rw [comes]; rfl)
          rw [eq_exit_of_mem_succs work bare ends edge] at there
          exact discerns w there t i.kind v comes calls b other returns
        have kept : (f.reend t (.jump s) []).incoming w i.source i.kind = f.incoming w i.source i.kind :=
          incoming_reend_of_ne work.toListed there from_
        rw [← kept] at comes
        obtain ⟨is', inputs', found⟩ := Option.bind_eq_some_iff.1 comes
        obtain ⟨i', takes', -, -, same'⟩ := exists_of_incoming? found
        exact .inr (.inl ⟨w, is', inputs', i', takes', same'⟩)
      · rw [not_exists] at listed
        refine .inr (.inl ⟨w, is, ?_, i, takes, same⟩)
        rw [inputs?_eq, node?_reend_of_notMem listed, ← inputs?_eq, inputs]
    · refine .inr (.inr ⟨u, apart, ?_⟩)
      rw [terminator_reend live, if_neg]
      · exact uses
      · rintro rfl
        rw [ends, Terminator.operands, Option.toList_some, List.mem_singleton, Value.node.injEq] at uses
        subst uses
        have there := work.toListed.isSome_node? (List.mem_append_right (f.phis b) mem)
        rw [gone] at there
        cases there

end Ending

/-! ## All calls -/

/-- The block to jump to has no phis, and is there or is put on the edge from the entry. -/
lemma start_eq_ok (work : Workable f) (run : start.run f = .ok s g) : f.phis s = [] ∧ (g = f ∨ ∃ first,
    (first, .fallthrough) ∈ f.succs entry ∧ g = f.onEdge entry first .fallthrough (f.scopeDepth entry)) := by
  rw [start, run_get_bind] at run
  split at run
  · exact absurd run Edit.throw_ne_ok
  · rename_i first kind rest leads
    split at run
    · rename_i blank
      obtain ⟨rfl, rfl⟩ := Edit.pure_eq_ok.1 run
      exact ⟨List.isEmpty_iff.1 blank, .inl rfl⟩
    · obtain ⟨edge, normal⟩ := edge_of_splitEdge run
      rw [work.run_splitEdge edge normal] at run
      obtain ⟨rfl, rfl⟩ := EStateM.Result.ok.inj run
      exact ⟨(parts_of_isNone block?_size).1, .inr ⟨first, edge, rfl⟩⟩

/-- The start of a method is found, and blocks that return stay as they are. -/
structure Opens (f : Func) (s : BlockId) (g : Func) : Prop where
  work : Workable g
  blank : g.phis s = []
  discerns : f.Discerns → g.Discerns
  leaves : ∀ b y, f.terminator b = .leave y → g.terminator b = .leave y
  remains : ∀ b y, g.terminator b = .leave y → Remains f g b
  gone : ∀ v, f.node? v = none → g.node? v = none

lemma opens_of_start (work : Workable f) (run : start.run f = .ok s g) : Opens f s g := by
  obtain ⟨blank, rfl | ⟨first, edge, rfl⟩⟩ := start_eq_ok work run
  · exact ⟨work, blank, id, fun _ _ ends => ends, fun b _ _ => .refl g b, fun _ gone => gone⟩
  · refine ⟨work.onEdge edge (by decide) (by decide) _, phis_onEdge.trans blank,
      discerns_onEdge work edge (by decide) (by decide), fun b y ends => ?_,
      fun b y ends => remains_onEdge work edge (by decide) (by decide) ends, fun v => gone_of_owner frame_onEdge.1⟩
    have goes := work.wired.goes edge (by decide) (by decide)
    rw [terminator_onEdge (isSome_of_mem_succs edge), if_neg, if_neg, ends]
    · rintro rfl
      rw [(parts_of_isNone block?_size).2.2.2.1] at ends
      cases ends
    · rintro rfl
      rw [ends] at goes
      cases goes

lemma exposes_none (work : Workable f) (discerns : f.Discerns) (found : selfCall? f ctx t = some call)
    (run : (eliminate call).run f = .ok s g) : Workable g ∧ g.Discerns ∧
      ∀ b call', selfCall? g ctx b = some call' → b ≠ t ∧ selfCall? f ctx b = some call' := by
  have listed := work.toListed
  obtain ⟨recurs, block, position⟩ := recurs_of_selfCall? listed found
  obtain ⟨before, here⟩ := recurs.last
  obtain ⟨opcode, index, count, version, does⟩ := recurs.calls
  obtain ⟨v, bare, -⟩ := selfCall?_eq_some_iff.1 found
  obtain ⟨copies, args', saved, same⟩ := run_eliminate listed here block position
  have plain : ∀ k ∈ copies ++ handing f args' (f.scopeDepth t), k.isPhi = false := fun k mem =>
    (List.mem_append.1 mem).elim (fun mem => (saved.plain k mem).1) plain_of_mem_handing
  rw [same] at run
  obtain ⟨_, f₂, started, run⟩ := Edit.bind_eq_ok.1 run
  obtain ⟨_, _, ended, last⟩ := Edit.bind_eq_ok.1 run
  obtain ⟨rfl, rfl⟩ := Edit.pure_eq_ok.1 last
  obtain ⟨there, live, rfl⟩ := setTerminator_eq_ok.1 ended
  have opens := opens_of_start (workable_rewritten here plain work) started
  have ends : f₂.terminator t = .leave (some (.node call.id)) :=
    opens.leaves t _ (terminator_rewritten.trans recurs.result)
  have bare₂ : f₂.handlersOf t = [] :=
    ((opens.remains t _ ends).handlers.trans (sameFlow_rewritten.handlersOf t)).trans bare
  have discerns₂ := opens.discerns (discerns_rewritten here plain listed saved.uncalled discerns)
  have gone := opens.gone call.id (by rw [node?_rewritten listed here, if_pos rfl])
  have inner : t ≠ exit := by
    rintro rfl
    cases recurs.result.symm.trans work.ended
  rw [bare₂]
  refine ⟨opens.work.reend live inner (List.forall_mem_nil _) fun e mem =>
    ?_, discerns_reend opens.work live opens.blank discerns₂,
    fun b call' found' => ?_⟩
  · rw [eq_of_mem_edgesFrom_jump mem]
    exact there _ (List.mem_singleton_self _)
  · obtain ⟨v', -, ends', -⟩ := selfCall?_eq_some_iff.1 found'
    rw [terminator_reend live] at ends'
    split at ends'
    · cases ends'
    · rename_i other
      have first : Remains f _ b :=
        remains_rewritten here plain listed does (fun x mem => saved.exists_use recurs.fits mem) other
      have last := remains_reend opens.work live (s := s) bare₂ ends discerns₂ gone other
      exact ⟨other, ((first.trans (opens.remains b _ ends')).trans last).selfCall? listed found'⟩

/-- The calls that are found behind are among those that were there and were not looked at. -/
lemma eliminateAll_exposes_none {bs : List BlockId} {report r : Report} (work : Workable f) (discerns : f.Discerns)
    (run : (eliminateAll ctx bs report).run f = .ok r g) :
    ∀ b call, selfCall? g ctx b = some call → b ∉ bs ∧ selfCall? f ctx b = some call := by
  induction bs generalizing f report with
  | nil =>
    obtain ⟨-, rfl⟩ := Edit.pure_eq_ok.1 run
    exact fun b call found => ⟨List.not_mem_nil, found⟩
  | cons t bs ih =>
    rw [eliminateAll, run_get_bind] at run
    intro b call found
    cases here : selfCall? f ctx t with
    | none =>
      rw [here] at run
      obtain ⟨later, found⟩ := ih work discerns run b call found
      refine ⟨List.not_mem_cons_of_ne_of_not_mem ?_ later, found⟩
      rintro rfl
      rw [here] at found
      cases found
    | some call₁ =>
      rw [here] at run
      obtain ⟨s, f₁, first, rest⟩ := Edit.bind_eq_ok.1 run
      obtain ⟨work₁, discerns₁, back⟩ := exposes_none work discerns here first
      obtain ⟨later, found⟩ := ih work₁ discerns₁ rest b call found
      obtain ⟨other, found⟩ := back b call found
      exact ⟨List.not_mem_cons_of_ne_of_not_mem other later, found⟩

lemma run_eliminateAll_of_none {bs : List BlockId} {report : Report} (none : ∀ b ∈ bs, selfCall? f ctx b = none) :
    (eliminateAll ctx bs report).run f = .ok report f := by
  induction bs with
  | nil => rfl
  | cons b bs ih =>
    rw [eliminateAll, run_get_bind, none b List.mem_cons_self]
    exact ih fun b mem => none b (List.mem_cons_of_mem _ mem)

lemma run_pass (ctx : Context) : (pass.run ctx).run f = (eliminateAll ctx f.blockIds {}).run f := rfl

lemma pass_rests {r : Report} (work : Workable f) (discerns : f.Discerns) (run : (pass.run ctx).run f = .ok r g) :
    (pass.run ctx).run g = .ok {} g := by
  rw [run_pass] at run ⊢
  have none := eliminateAll_exposes_none work discerns run
  refine run_eliminateAll_of_none fun b _ => ?_
  by_contra some_
  obtain ⟨call, found⟩ := Option.ne_none_iff_exists'.1 some_
  obtain ⟨absent, found⟩ := none b call found
  obtain ⟨v, -, ends, -⟩ := selfCall?_eq_some_iff.1 found
  have operand : Value.node v ∈ (f.terminator b).operands := by
    rw [ends]
    exact List.mem_singleton_self _
  exact absent (mem_blockIds.2 (isSome_of_operand operand))

end Avm.Opt.TailCall
