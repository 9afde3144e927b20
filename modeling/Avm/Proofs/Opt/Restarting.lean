import Avm.Proofs.Ir.Padding
import Avm.Proofs.Opt.Unwinding

/-!
# Methods that start over

A call of a method by itself, the result of which the method returns, makes way for nodes that set the registers
to what the call would find in them and leave the scopes, and for a jump to the block that the entry leads to.  The
first block may have phis: then a block is put on the edge from the entry for the jumps to lead to.  However many
calls make way, one after another, each block is as it was or has lost its call.

The main definition is `Loops`: how a graph and the one made of it are related.  The main statement is
`Loopable.pass_loops`.
-/

namespace Avm.Opt.TailCall

open Avm.Ir Avm.Ir.Func Avm.Ir.Edit

variable {f g h : Func} {b s t first : BlockId} {c v : ValueId} {args args' : List Value} {ks : List NodeKind}
  {targets : List Nat} {ctx : Context} {call : ReceiverCall}

/-- A block ends with a call of the method by itself, on its own receiver, and returns what the call gives. -/
structure Recurs (f : Func) (b : BlockId) (c : ValueId) (args : List Value) : Prop where
  last : ∃ before, f.body b = before ++ [c]
  calls : ∃ opcode index count version, f.kind? c = some (.call opcode index count (.reg 0 version :: args))
  result : f.terminator b = .leave (some (.node c))
  fits : args.length = f.params
  /-- No node sets the register of the receiver. -/
  own : 0 ∉ f.registerWrites

lemma kind?_of_ofNode? {pool : Pool} (found : ReceiverCall.ofNode? f pool v = some call) :
    ∃ opcode index count receiver, f.kind? v = some (.call opcode index count (receiver :: call.args)) ∧
      call.onReceiver = ReceiverCall.isOwnReceiver f receiver := by
  obtain ⟨-, opcode, index, _, there, -, -, -, own⟩ := exists_of_ofNode? found
  exact ⟨opcode, index, _, _, by rw [kind?, there]; rfl, own⟩

lemma recurs_of_selfCall? (listed : f.Listed) (found : selfCall? f ctx b = some call) :
    Recurs f b call.id call.args ∧ call.block = b ∧ (f.body b).length = call.position + 1 := by
  obtain ⟨v, -, ends, last, -, node, ⟨receiver, fits⟩, -⟩ := selfCall?_eq_some_iff.1 found
  obtain ⟨rfl, -, -, at_⟩ := call_node node
  obtain ⟨before, split⟩ := List.getLast?_eq_some_iff.1 last
  have same : b = call.block := listed.eq_of_mem_body (List.mem_of_getLast? last) (List.mem_of_getElem? at_)
  rw [← same, split] at at_
  have once : (before ++ [call.id]).Nodup := by
    rw [← split]
    exact (List.nodup_append.1 (listed.nodup b)).2.1
  have position : call.position = before.length := by
    have last : (before ++ [call.id])[before.length]? = some call.id := List.getElem?_concat_length
    exact (List.getElem?_inj (List.getElem?_eq_some_iff.1 at_).1 once).1 (at_.trans last.symm)
  obtain ⟨opcode, index, count, x, kind, own⟩ := kind?_of_ofNode? node
  rw [own, ReceiverCall.isOwnReceiver, Bool.and_eq_true, beq_iff_eq, Bool.not_eq_true'] at receiver
  refine ⟨⟨⟨before, split⟩, ?_, ends, fits, ?_⟩, same.symm, by rw [split, position]; simp⟩
  · cases x with
    | reg r version =>
      obtain rfl : r = 0 := Option.some.inj receiver.1
      exact ⟨opcode, index, count, version, kind⟩
    | const | node => cases receiver.1
  · rw [← List.contains_iff_mem, receiver.2]
    exact Bool.false_ne_true

section Filling

/-- Arguments that read a register that is going to be set are copied before; the copies have successive numbers. -/
inductive Saved (targets : List Nat) : ValueId → List Value → List NodeKind → List Value → Prop
  | nil {id : ValueId} : Saved targets id [] [] []
  | copy {id : ValueId} {x : Value} {args args' : List Value} {ks : List NodeKind} :
    Saved targets (id + 1) args ks args' → Saved targets id (x :: args) (.copy x :: ks) (.node id :: args')
  | keep {id : ValueId} {x : Value} {args args' : List Value} {ks : List NodeKind} :
    (∀ r ∈ targets, ∀ version, x ≠ .reg r version) → Saved targets id args ks args' →
      Saved targets id (x :: args) ks (x :: args')

lemma Saved.plain {id : ValueId} (saved : Saved targets id args ks args') :
    ∀ k ∈ ks, k.isPhi = false ∧ k.written = [] := by
  induction saved with
  | nil => exact List.forall_mem_nil _
  | copy _ ih => exact List.forall_mem_cons.2 ⟨⟨rfl, rfl⟩, ih⟩
  | keep _ _ ih => exact ih

lemma saveArgs_puts {before after : List ValueId} (live : (f.block? b).isSome) (here : f.body b = before ++ after) :
    (saveArgs b targets before.length args).Yields f fun args' f' =>
      ∃ ks, Saved targets f.nodes.size args ks args' ∧ f' = f.putNodes b before.length ks := by
  induction args generalizing f before with
  | nil => exact yields_pure ⟨[], .nil, rfl⟩
  | cons x args ih =>
    rw [saveArgs]
    refine yields_get ?_
    split
    · have one := body_putNode_between (k := .copy x) live here rfl
      rw [List.append_cons] at one
      have there : ((f.putNode b before.length (.copy x)).block? b).isSome := by rw [sameFlow_putNode.isSome, live]
      have fits : f.Fits b before.length (.copy x) := by
        show before.length ≤ (f.body b).length
        rw [here, List.length_append]
        exact Nat.le_add_right _ _
      have rest := ih there one
      rw [List.length_append, List.length_singleton] at rest
      refine yields_bind (insertNode_eq_ok.2 ⟨live, fits, rfl, rfl⟩) (rest.bind ?_)
      rintro args' f' ⟨ks, saved, rfl⟩
      rw [size_putNode] at saved
      exact yields_pure ⟨.copy x :: ks, .copy saved, rfl⟩
    · rename_i stays
      refine (ih live here).bind ?_
      rintro args' f' ⟨ks, saved, rfl⟩
      refine yields_pure ⟨ks, .keep (fun r mem version same => stays ?_) saved, rfl⟩
      rw [same, registersRead]
      simpa using mem

lemma appendNode_puts {β : Type} {k : NodeKind} {l : List NodeKind} {next : ValueId → Edit β} {Q : β → Func → Prop}
    (live : (f.block? b).isSome) (plain : k.isPhi = false)
    (rest : ∀ v f', (f'.block? b).isSome →
      f'.putNodes b (f'.body b).length l = f.putNodes b (f.body b).length (k :: l) →
      (next v).Yields f' Q) : (appendNode b k >>= next).Yields f Q := by
  have place : f.place b k = (f.body b).length := by
    rw [Func.place, plain]
    rfl
  refine yields_bind (appendNode_eq_ok.2 ⟨live, rfl, rfl⟩) (rest _ _ ?_ ?_)
  · rw [sameFlow_putNode.isSome, live]
  · have one := body_putNode_between live (List.append_nil _).symm plain
    rw [place, one, putNodes, List.length_append]
    rfl

lemma storeAll_puts {l : List (Nat × Value)} (live : (f.block? b).isSome) : (storeAll b l).Yields f fun _ f' =>
    f' = f.putNodes b (f.body b).length (l.map fun e => .store e.1 e.2) := by
  induction l generalizing f with
  | nil => exact yields_pure rfl
  | cons e l ih => exact appendNode_puts live rfl fun _ f' there same => (ih there).imp fun _ _ done => done.trans same

lemma popScopes_puts {n : Nat} (live : (f.block? b).isSome) : (popScopes b n).Yields f fun _ f' =>
    f' = f.putNodes b (f.body b).length (List.replicate n (.scope .pop none)) := by
  induction n generalizing f with
  | zero => exact yields_pure rfl
  | succ n ih => exact appendNode_puts live rfl fun _ f' there same => (ih there).imp fun _ _ done => done.trans same

end Filling

/-- The registers that hold the arguments. -/
def parameters (f : Func) : List Nat := (List.range f.params).map (· + 1)

/-- What registers are set to: the parameters to arguments, and others to undefined. -/
def settings (f : Func) (args : List Value) (resets : List Nat) : List (Nat × Value) :=
  (parameters f).zip args ++ resets.map fun r => (r, .const .undefined)

/-- Nodes that set the registers as a call of the method finds them, and leave scopes. -/
def Hands (f : Func) (id : ValueId) (args : List Value) (depth : Nat) (ks : List NodeKind) : Prop :=
  ∃ copies args' resets, (∀ r, r ∈ resets ↔ f.params < r ∧ r ∈ f.registerWrites) ∧
    Saved (parameters f ++ resets) id args copies args' ∧
      ks = copies ++ ((settings f args' resets).map (fun e => .store e.1 e.2) ++
        List.replicate depth (.scope .pop none))

lemma mem_resets {r : Nat} (flags : f.flags.needArguments = false ∧ f.flags.needRest = false) :
    r ∈ resets f ↔ f.params < r ∧ r ∈ f.registerWrites := by
  rw [resets, Ascending.mem_ofList, List.mem_filter, writtenRegisters, List.mem_eraseDups, decide_eq_true_iff,
    argumentRegisters, flags.1, flags.2, and_comm]
  rfl

/-- Stores to the registers of a call, and to those that are set back. -/
def handing (f : Func) (args : List Value) (depth : Nat) : List NodeKind :=
  (settings f args (resets f)).map (fun e => .store e.1 e.2) ++ List.replicate depth (.scope .pop none)

lemma plain_of_mem_handing {depth : Nat} {k : NodeKind} (mem : k ∈ handing f args depth) : k.isPhi = false := by
  rcases List.mem_append.1 mem with mem | mem
  · obtain ⟨e, -, rfl⟩ := List.mem_map.1 mem
    rfl
  · rw [List.eq_of_mem_replicate mem]
    rfl

/-- The node that calls makes way for those that set the registers, before the block is led to the start. -/
lemma run_eliminate {before : List ValueId} (listed : f.Listed) (here : f.body b = before ++ [call.id])
    (block : call.block = b)
    (position : (f.body b).length = call.position + 1) : ∃ copies args',
      Saved (parameters f ++ resets f) f.nodes.size call.args copies args' ∧ (eliminate call).run f =
        (start >>= fun target => do
          Edit.setTerminator b (.jump target)
          return target : Edit BlockId).run
          (f.rewritten b call.id before.length copies (handing f args' (f.scopeDepth b))) := by
  have at_ : call.position = before.length := by
    rw [here, List.length_append, List.length_singleton] at position
    omega
  have live := isSome_of_last here
  have stores (l : List (Nat × Value)) : ∀ k ∈ l.map (fun e => NodeKind.store e.1 e.2), k.isPhi = false := by
    intro k mem
    obtain ⟨e, -, rfl⟩ := List.mem_map.1 mem
    rfl
  rw [eliminate, block, at_, run_get_bind]
  obtain ⟨args', _, ⟨copies, saved, rfl⟩, first⟩ := (saveArgs_puts live here).run_bind
  refine ⟨copies, args', saved, (first _).trans ?_⟩
  rw [run_ok_bind (removeNode_eq_ok.2 ⟨rfl, rfl⟩)]
  have live₁ : (((f.putNodes b before.length copies).dropNode call.id).block? b).isSome := by
    rw [sameFlow_dropNode.isSome, sameFlow_putNodes.isSome, live]
  obtain ⟨_, f₂, same₂, second⟩ := (storeAll_puts (l := (parameters f).zip args') live₁).run_bind
  have live₂ : (f₂.block? b).isSome := by rw [same₂, sameFlow_putNodes.isSome, live₁]
  obtain ⟨_, f₃, same₃, third⟩ :=
    (storeAll_puts (l := (resets f).map fun r => (r, Value.const .undefined)) live₂).run_bind
  rw [same₂, putNodes_putNodes (stores _) live₁, ← List.map_append, ← settings] at same₃
  have live₃ : (f₃.block? b).isSome := by rw [same₃, sameFlow_putNodes.isSome, live₁]
  have depth : f₃.scopeDepth b = f.scopeDepth b := by
    rw [same₃, scopeDepth, map_putNodes fun _ _ _ => rfl, map_dropNode fun _ _ _ => rfl, map_putNodes fun _ _ _ => rfl,
      scopeDepth]
  obtain ⟨_, f₄, same₄, fourth⟩ := (popScopes_puts (n := f.scopeDepth b) live₃).run_bind
  have length : (((f.putNodes b before.length copies).dropNode call.id).body b).length =
    before.length + copies.length := by
    rw [body_dropNode_putNodes listed here (fun k mem => (saved.plain k mem).1) live, List.length_append,
      List.length_range']
  rw [same₃, putNodes_putNodes (stores _) live₁, ← handing, length] at same₄
  have live₄ : (f₄.block? b).isSome := by rw [same₄, sameFlow_putNodes.isSome, live₁]
  refine ((second _).trans (third _)).trans ?_
  rw [run_get_bind, depth]
  refine ((fourth _).trans (run_ok_bind (a := ()) (modifyBlock_eq_ok.2 ⟨live₄, rfl⟩))).trans ?_
  rw [same₄]
  rfl

lemma eliminate_of_start {Q : BlockId → Func → Prop} (filed : f.Filed)
    (flags : f.flags.needArguments = false ∧ f.flags.needRest = false) (recurs : Recurs f b call.id call.args)
    (block : call.block = b) (position : (f.body b).length = call.position + 1)
    (next : ∀ ks g, Rewrites b call.id ks f g → Hands f f.nodes.size call.args (f.scopeDepth b) ks →
      (start >>= fun target => do
        Edit.setTerminator b (.jump target)
        return target : Edit BlockId).Yields g Q) : (eliminate call).Yields f Q := by
  obtain ⟨before, here⟩ := recurs.last
  obtain ⟨opcode, index, count, version, does⟩ := recurs.calls
  obtain ⟨copies, args', saved, run⟩ := run_eliminate filed.toListed here block position
  rw [Yields, run]
  refine next _ _ (rewrites_rewritten here (fun k mem => ?_) filed fun k here => ?_)
    ⟨copies, args', resets f, fun r => mem_resets flags, saved, rfl⟩
  · exact (List.mem_append.1 mem).elim (fun mem => (saved.plain k mem).1) plain_of_mem_handing
  · rw [Option.some.inj (here.symm.trans does)]
    rfl

/-- A block is as it was: its nodes, its end, and what it brings to phis. -/
structure Stays (f g : Func) (t : BlockId) : Prop where
  body : g.body t = f.body t
  nodes : ∀ v ∈ f.body t, g.node? v = f.node? v
  depth : g.scopeDepth t = f.scopeDepth t
  terminator : g.terminator t = f.terminator t
  incoming : ∀ u, ∀ v ∈ f.phis u, ∀ kind, g.incoming v t kind = f.incoming v t kind

/-- A call at the end of a block has made way for nodes that do what it does to the registers and the scopes, and
for a jump to a block without phis. -/
structure Turned (f g : Func) (s t : BlockId) (c : ValueId) (args : List Value) : Prop extends Recurs f t c args where
  gone : g.node? c = none
  jump : g.terminator t = .jump s
  blank : f.phis s = []
  tail : ∃ before id ks, f.body t = before ++ [c] ∧ g.body t = before ++ List.range' id ks.length ∧
    (∀ v ∈ before, g.node? v = f.node? v) ∧ f.nodes.size ≤ id ∧ (∀ i k, ks[i]? = some k → g.kind? (id + i) = some k) ∧
      Hands f id args (f.scopeDepth t) ks

/-- The entry leads to a block as before, or by way of another one. -/
inductive Entrance (f g : Func) (first : BlockId) : BlockId → Prop
  | straight : g.terminator entry = .goto first →
    (∀ v ∈ f.phis first, g.incoming v entry .fallthrough = f.incoming v entry .fallthrough) → Entrance f g first first
  | around {s : BlockId} : f.block? s = none → g.body s = [] → g.terminator entry = .goto s →
    g.terminator s = .goto first →
    (∀ v ∈ f.phis first, g.incoming v s .fallthrough = f.incoming v entry .fallthrough) → Entrance f g first s

/-- In place of some calls of a method by itself, control goes back to the block that the entry leads to. -/
structure Loops (f : Func) (first s : BlockId) (g : Func) : Prop where
  title : g.title = f.title
  size : f.nodes.size ≤ g.nodes.size
  filed : g.Filed
  live : ∀ t, (f.block? t).isSome → (g.block? t).isSome
  phis : ∀ t, g.phis t = f.phis t
  blocks : ∀ t, (f.block? t).isSome → t ≠ entry → Stays f g t ∨ ∃ c args, Turned f g s t c args
  empty : g.body entry = f.body entry
  entrance : Entrance f g first s
  succs : g.succs entry = [(s, .fallthrough)]
  there : (g.block? s).isSome
  written : ∀ r, r = 0 ∨ f.params < r → (r ∈ g.registerWrites ↔ r ∈ f.registerWrites)
  whole : f.phis s ≠ [] → g = f

section Keeping

variable {P : BlockId → Prop}

lemma Stays.trans (stays : Stays f g t) (apart : Apart P g h) (away : ¬P t) (phis : ∀ u, g.phis u = f.phis u) :
    Stays f h t where
  body := (apart.body t away).trans stays.body
  nodes v mem := (apart.nodes t away v (by rwa [stays.body])).trans (stays.nodes v mem)
  depth := (apart.depth t away).trans stays.depth
  terminator := (apart.terminator t away).trans stays.terminator
  incoming u v mem kind := (apart.incoming t away u v (by rwa [phis]) kind).trans (stays.incoming u v mem kind)

lemma Turned.trans (turned : Turned f g s t c args) (apart : Apart P g h) (away : ¬P t) (filed : f.Filed)
    (size : f.nodes.size ≤ g.nodes.size) : Turned f h s t c args := by
  obtain ⟨before, id, ks, here, new, nodes, beyond, kinds, hands⟩ := turned.tail
  have old {v} (mem : v ∈ g.body t) : h.node? v = g.node? v := apart.nodes t away v mem
  refine { turned with
    gone := apart.gone c ((lt_size_of_last filed.toListed here).trans_le size) turned.gone
    jump := (apart.terminator t away).trans turned.jump
    tail := ⟨before, id, ks, here, (apart.body t away).trans new, fun v mem => ?_, beyond, fun i k there => ?_, hands⟩ }
  · rw [old (by rw [new]; exact List.mem_append_left _ mem), nodes v mem]
  · obtain ⟨inside, -⟩ := List.getElem?_eq_some_iff.1 there
    have listed : id + i ∈ g.body t := by
      rw [new]
      exact List.mem_append_right _ (List.mem_range'_1.2 ⟨Nat.le_add_right _ _, Nat.add_lt_add_left inside _⟩)
    rw [kind?, old listed, ← kind?, kinds i k there]

lemma Entrance.trans (entrance : Entrance f g first s) (apart : Apart P g h) (away : ¬P entry)
    (beyond : f.block? s = none → ¬P s) (phis : ∀ u, g.phis u = f.phis u) : Entrance f h first s := by
  cases entrance with
  | straight goes brings =>
    refine .straight ((apart.terminator _ away).trans goes) fun v mem => ?_
    rw [apart.incoming _ away s v (by rwa [phis]), brings v mem]
  | around new body goes on brings =>
    refine .around new ((apart.body s (beyond new)).trans body) ((apart.terminator _ away).trans goes)
      ((apart.terminator s (beyond new)).trans on) fun v mem => ?_
    rw [apart.incoming s (beyond new) first v (by rwa [phis]), brings v mem]

/-- The nodes set the registers of the arguments, and others that are set elsewhere. -/
lemma Hands.written {id : ValueId} {depth r : Nat} (hands : Hands f id args depth ks) (apart : r = 0 ∨ f.params < r)
    (sets : ∃ k ∈ ks, r ∈ k.written) : r ∈ f.registerWrites := by
  obtain ⟨copies, args', resets, mem_resets, saved, rfl⟩ := hands
  obtain ⟨k, mem, sets⟩ := sets
  rcases List.mem_append.1 mem with mem | mem
  · rw [(saved.plain k mem).2] at sets
    cases sets
  · rcases List.mem_append.1 mem with mem | mem
    · obtain ⟨e, listed, rfl⟩ := List.mem_map.1 mem
      obtain rfl : r = e.1 := List.mem_singleton.1 sets
      rcases List.mem_append.1 listed with listed | listed
      · obtain ⟨i, inside, here⟩ := List.mem_map.1 (List.of_mem_zip listed).1
        have below := List.mem_range.1 inside
        omega
      · obtain ⟨q, reset, rfl⟩ := List.mem_map.1 listed
        exact ((mem_resets q).1 reset).2
    · rw [List.eq_of_mem_replicate mem] at sets
      cases sets

/-- The registers that nodes set are the same by now, but for those that hold arguments. -/
lemma Hands.congr {id : ValueId} {depth : Nat} (hands : Hands g id args depth ks) (loops : Loops f first s g) :
    Hands f id args depth ks := by
  obtain ⟨copies, args', resets, mem_resets, saved, same⟩ := hands
  have params : g.params = f.params := congrArg (·.2.1) loops.title
  rw [settings, parameters, params] at same
  rw [parameters, params] at saved
  refine ⟨copies, args', resets, fun r => ?_, saved, same⟩
  rw [mem_resets, params]
  exact and_congr_right fun above => loops.written r (.inr above)

lemma Loops.turn {h' : Func} {s' : BlockId} {hs : List Nat} (loops : Loops f first s g) (filed : f.Filed)
    (recurs : Recurs f b c args) (stays : Stays f g b) (inner : b ≠ entry) (live : (f.block? b).isSome)
    (rewrites : Rewrites b c ks g h) (hands : Hands f g.nodes.size args (f.scopeDepth b) ks)
    (apart : Apart (fun t => t = entry ∨ h.block? t = none) h h') (filed' : h'.Filed)
    (shapes : ∀ v, h'.shape? v = h.shape? v) (empty : h'.body entry = h.body entry) (entrance : Entrance f h' first s')
    (succs : h'.succs entry = [(s', .fallthrough)]) (there : (h'.block? s').isSome) (blank : f.phis s' = [])
    (same : s' = s ∨ f.phis s ≠ []) : Loops f first s' (h'.reend b (.jump s') hs) := by
  have phis (t) : h.phis t = f.phis t := (rewrites.apart.phis t).trans (loops.phis t)
  have phis' (t) : h'.phis t = f.phis t := (apart.phis t).trans (phis t)
  have live₁ (t) (live : (f.block? t).isSome) : (h.block? t).isSome := rewrites.apart.live t (loops.live t live)
  have live' (t) (live : (f.block? t).isSome) : (h'.block? t).isSome := apart.live t (live₁ t live)
  have ended : Apart (· = b) h' (h'.reend b (.jump s') hs) := Apart.reend filed'.toListed (live' b live)
  have all : Apart (fun t => t = b ∨ t = entry ∨ h.block? t = none) g (h'.reend b (.jump s') hs) :=
    ((rewrites.apart.mono fun _ => .inl).trans (apart.mono fun _ => .inr)).trans (ended.mono fun _ => .inl)
  have away {t} (live : (f.block? t).isSome) (inner : t ≠ entry) : ¬(t = entry ∨ h.block? t = none) := by
    rintro (same | none)
    · exact inner same
    · have there := live₁ t live
      rw [none] at there
      cases there
  refine {
    title := all.title.trans loops.title
    size := loops.size.trans all.size
    filed := filed'.sameNodes sameNodes_reend
    live := fun t there => ended.live t (live' t there)
    phis := fun t => (ended.phis t).trans (phis' t)
    blocks := fun t there other => ?_
    empty := ?_
    entrance := entrance.trans ended inner.symm (fun none here => ?_) phis'
    succs := by rw [succs_reend (live' b live), if_neg inner.symm, succs]
    there := ended.live s' there
    written := fun r apart => ?_
    whole := fun phis => absurd blank phis }
  · by_cases here : t = b
    · subst here
      obtain ⟨before, was, is, nodes⟩ := rewrites.body
      have old {v} (mem : v ∈ h.body t) : (h'.reend t (.jump s') hs).node? v = h.node? v := by
        rw [node?_reend, apart.nodes t (away there other) v mem]
        exact filed'.plain t v (by rwa [apart.body t (away there other)])
      refine .inr ⟨c, args, { recurs with
        gone := ?_
        jump := by rw [terminator_reend (live' t there), if_pos rfl]
        blank := blank
        tail := ⟨before, g.nodes.size, ks, by rw [← was, stays.body], ?_, fun v mem => ?_, loops.size,
          fun i k new => ?_, hands⟩ }⟩
      · have below := (lt_size_of_last loops.filed.toListed was).trans_le rewrites.apart.size
        refine ended.gone c (below.trans_le apart.size) (apart.gone c below rewrites.gone)
      · rw [sameNodes_reend.body, apart.body t (away there other), is]
      · rw [old (by rw [is]; exact List.mem_append_left _ mem), nodes v mem]
        exact stays.nodes v (by rw [← stays.body, was]; exact List.mem_append_left _ mem)
      · obtain ⟨inside, -⟩ := List.getElem?_eq_some_iff.1 new
        have listed : g.nodes.size + i ∈ h.body t := by
          rw [is]
          exact List.mem_append_right _ (List.mem_range'_1.2 ⟨Nat.le_add_right _ _, Nat.add_lt_add_left inside _⟩)
        rw [kind?, old listed, ← kind?, rewrites.kinds i k new]
    · have out : ¬(t = b ∨ t = entry ∨ h.block? t = none) := by
        rintro (same | same)
        · exact here same
        · exact away there other same
      rcases loops.blocks t there other with stays | ⟨c', args', turned⟩
      · exact .inl (stays.trans all out loops.phis)
      · rcases same with rfl | phis
        · exact .inr ⟨c', args', turned.trans all out filed loops.size⟩
        · exact absurd turned.blank phis
  · rw [sameNodes_reend.body, empty, rewrites.apart.body entry inner.symm, loops.empty]
  · rw [← here, none] at live
    cases live
  · rw [mem_registerWrites_congr fun v => shape?_reend, mem_registerWrites_congr shapes, rewrites.written,
      loops.written r apart, or_iff_right_of_imp (hands.written apart)]

lemma Loops.recurs (loops : Loops f first s g) (live : (f.block? b).isSome) (recurs : Recurs g b c args) :
    b ≠ entry ∧ Stays f g b ∧ Recurs f b c args := by
  have inner : b ≠ entry := by
    rintro rfl
    have ends := recurs.result
    cases loops.entrance with
    | straight goes =>
      rw [goes] at ends
      cases ends
    | around _ _ goes =>
      rw [goes] at ends
      cases ends
  rcases loops.blocks b live inner with stays | ⟨c', args', turned⟩
  · obtain ⟨before, last⟩ := recurs.last
    rw [stays.body] at last
    obtain ⟨opcode, index, count, version, calls⟩ := recurs.calls
    have mem : c ∈ f.body b := by
      rw [last]
      exact List.mem_append_right _ (List.mem_singleton_self c)
    refine ⟨inner, stays, ⟨before, last⟩, ⟨opcode, index, count, version, ?_⟩, ?_, ?_, ?_⟩
    · rw [kind?, ← stays.nodes c mem, ← kind?, calls]
    · rw [← stays.terminator, recurs.result]
    · rw [recurs.fits]
      exact congrArg (·.2.1) loops.title
    · rw [← loops.written 0 (.inl rfl)]
      exact recurs.own
  · have ends := recurs.result
    rw [turned.jump] at ends
    cases ends

end Keeping

/-- What is turned into a loop: a graph without handlers that passes the check, whose entry has no nodes and leads to
one block. -/
structure Loopable (f : Func) (first : BlockId) : Prop where
  checked : f.Checked
  bare : f.Bare
  goes : f.terminator entry = .goto first
  empty : f.body entry = []
  plain : f.flags.needArguments = false ∧ f.flags.needRest = false

namespace Loopable

variable (loopable : Loopable f first)
include loopable

lemma mem_targets : (first, .fallthrough) ∈ (f.terminator entry).targets := by
  rw [loopable.goes]
  exact List.mem_singleton_self _

lemma loops : Loops f first first f where
  title := rfl
  size := Nat.le_refl _
  filed := loopable.checked.toFiled
  live _ live := live
  phis _ := rfl
  blocks _ _ _ := .inl ⟨rfl, fun _ _ => rfl, rfl, rfl, fun _ _ _ _ => rfl⟩
  empty := rfl
  entrance := .straight loopable.goes fun _ _ => rfl
  succs := by
    rw [loopable.checked.wired, edgesOf_eq, loopable.goes, loopable.bare.uncovered]
    rfl
  there := loopable.checked.live (loopable.checked.mem_succs_of_mem_targets loopable.mem_targets)
  written _ _ := Iff.rfl
  whole _ := rfl

/-- A graph that differs in one block only, and is linked as before, can be split at the entry. -/
lemma rewrites_checked (rewrites : Rewrites b c ks f h) : h.Checked ∧ h.Bare := by
  refine ⟨loopable.checked.sameFlow rewrites.flow rewrites.filed fun t v mem => ?_, ?_, fun t => ?_⟩
  · rw [rewrites.apart.phis] at mem
    rw [keys, inputs?_eq, rewrites.phis t v mem, ← inputs?_eq, keys]
    exact ⟨mem, rfl⟩
  · rw [rewrites.flow.catches, loopable.bare.catches]
  · rw [rewrites.flow.handlersOf, loopable.bare.uncovered]

omit loopable in
lemma lead_yields {g : Func} {s : BlockId} (loops : ∀ hs, Loops f first s (g.reend b (.jump s) hs))
    (there : (g.block? s).isSome) (live : (g.block? b).isSome) :
    (do
      Edit.setTerminator b (.jump s)
      return s : Edit BlockId).Yields g fun s' g' => Loops f first s' g' := by
  refine yields_bind (a := ()) (setTerminator_eq_ok.2 ⟨fun e mem => ?_, live, rfl⟩) (yields_pure (loops _))
  rw [List.mem_singleton.1 mem]
  exact there

variable {s : BlockId} (loops : Loops f first s g) (recurs : Recurs f b c args) (stays : Stays f g b)
  (inner : b ≠ entry)
  (live : (f.block? b).isSome) (rewrites : Rewrites b c ks g h) (hands : Hands f g.nodes.size args (f.scopeDepth b) ks)
include loops recurs stays inner live rewrites hands

lemma loops_straight (blank : f.phis s = []) (hs : List Nat) : Loops f first s (h.reend b (.jump s) hs) := by
  have succs : h.succs entry = [(s, .fallthrough)] := (rewrites.flow.succs entry).trans loops.succs
  have there : (h.block? s).isSome := rewrites.apart.live s loops.there
  refine loops.turn loopable.checked.toFiled recurs stays inner live rewrites hands (.refl h) rewrites.filed
    (fun _ => rfl) rfl ?_ succs there blank (.inl rfl)
  refine loops.entrance.trans rewrites.apart inner.symm (fun none here => ?_) loops.phis
  rw [here] at none
  rw [none] at live
  cases live

/-- If the first block has phis, a new block is put on the edge from the entry. -/
lemma loops_around (phis : f.phis first ≠ []) (goes : h.terminator entry = .goto first) (hs : List Nat)
    (same : s = first) : Loops f first h.blocks.size
      ((h.onEdge entry first .fallthrough (h.scopeDepth entry)).reend b (.jump h.blocks.size) hs) := by
  subst same
  obtain rfl := loops.whole phis
  obtain ⟨checked', bare'⟩ := loopable.rewrites_checked rewrites
  have mem : (s, .fallthrough) ∈ (h.terminator entry).targets := by
    rw [goes]
    exact List.mem_singleton_self _
  have source := isSome_of_mem_succs (checked'.mem_succs_of_mem_targets mem)
  have size : h.blocks.size = g.blocks.size := rewrites.flow.size
  have absent : g.block? h.blocks.size = none := by rw [size, block?_size]
  have middle : h.blocks.size ≠ entry := (size_ne_of_isSome source).symm
  refine loops.turn loopable.checked.toFiled recurs stays inner live rewrites hands
    (Apart.onEdge _ checked' bare' mem) rewrites.filed.onEdge (fun _ => shape?_onEdge) body_onEdge ?_ ?_ ?_
    (parts_of_isNone absent).1 (.inr phis)
  · refine .around absent ?_ ?_ ?_ fun v phi => ?_
    · rw [body_onEdge, (parts_of_isNone block?_size).2.1]
    · rw [terminator_onEdge source, if_pos rfl, retargeted, goes]
      rfl
    · rw [terminator_onEdge source, if_neg middle, if_pos rfl]
    · have phi' : v ∈ h.phis s := by
        rw [rewrites.apart.phis, loops.phis]
        exact phi
      rw [incoming_onEdge checked' bare' mem phi', if_pos rfl, if_pos rfl, if_pos rfl, incoming, inputs?_eq,
        rewrites.phis s v phi, ← inputs?_eq, ← incoming]
  · rw [succs_onEdge source, if_pos rfl, retargeted, goes, bare'.uncovered]
    rfl
  · rw [isSome_onEdge, decide_eq_true rfl, Bool.true_or]

/-- The block is led to the start, which is put on the edge from the entry if the first block has phis. -/
lemma restart_yields : (start >>= fun target => do
      Edit.setTerminator b (.jump target)
      return target : Edit BlockId).Yields h fun s' g' => Loops f first s' g' := by
  have phis : h.phis s = f.phis s := (rewrites.apart.phis s).trans (loops.phis s)
  have live₁ : (h.block? b).isSome := rewrites.apart.live b (loops.live b live)
  have there : (h.block? s).isSome := rewrites.apart.live s loops.there
  rw [start, bind_assoc]
  refine yields_get ?_
  rw [(rewrites.flow.succs entry).trans loops.succs]
  dsimp only
  by_cases blank : f.phis s = []
  · rw [phis, blank, List.isEmpty_nil, if_pos rfl, pure_bind]
    exact lead_yields (loopable.loops_straight loops recurs stays inner live rewrites hands blank) there live₁
  · obtain rfl := loops.whole blank
    obtain rfl : s = first := by
      cases loops.entrance with
      | straight => rfl
      | around none => exact absurd (parts_of_isNone none).1 blank
    obtain ⟨checked', bare'⟩ := loopable.rewrites_checked rewrites
    have goes : h.terminator entry = .goto s := (rewrites.apart.terminator entry inner.symm).trans loopable.goes
    have mem : (s, .fallthrough) ∈ (h.terminator entry).targets := by
      rw [goes]
      exact List.mem_singleton_self _
    have edge := checked'.mem_succs_of_mem_targets mem
    have covered : ∀ k ∈ h.handlersOf entry, k < h.handlers.length := by
      rw [bare'.uncovered]
      exact List.forall_mem_nil _
    have split := run_splitEdge edge (by decide) covered there fun e out =>
      checked'.live (checked'.mem_succs_of_mem_targets out)
    have new : ¬List.isEmpty (h.phis s) = true := by
      rw [phis, List.isEmpty_iff]
      exact blank
    rw [if_neg new]
    refine yields_bind split (lead_yields (fun hs =>
      loopable.loops_around loops recurs stays inner live rewrites hands blank goes hs rfl) ?_ ?_)
    · rw [isSome_onEdge, decide_eq_true rfl, Bool.true_or]
    · rw [isSome_onEdge, live₁, Bool.or_true]

omit recurs stays inner live rewrites hands in
lemma eliminateAll_loops (ctx : Context) (bs : List BlockId) (report : Report) (live : ∀ b ∈ bs, (f.block? b).isSome) :
    (eliminateAll ctx bs report).Yields g fun _ g' => ∃ s', Loops f first s' g' := by
  induction bs generalizing g s report with
  | nil => exact yields_pure ⟨s, loops⟩
  | cons b bs ih =>
    have later (b') (mem : b' ∈ bs) : (f.block? b').isSome := live b' (List.mem_cons_of_mem b mem)
    rw [eliminateAll]
    refine yields_get ?_
    cases found : selfCall? g ctx b with
    | none => exact ih loops report later
    | some call =>
      obtain ⟨recurs, block, position⟩ := recurs_of_selfCall? loops.filed.toListed found
      have here := live b List.mem_cons_self
      obtain ⟨inner, stays, recurs'⟩ := loops.recurs here recurs
      have flags : g.flags.needArguments = false ∧ g.flags.needRest = false := by
        have same : g.flags = f.flags := congrArg (·.2.2) loops.title
        rw [same]
        exact loopable.plain
      have one : (eliminate call).Yields g fun s' g' => Loops f first s' g' := by
        refine eliminate_of_start loops.filed flags recurs block position fun ks h rewrites hands => ?_
        refine loopable.restart_yields loops recurs' stays inner here rewrites ?_
        rw [stays.depth] at hands
        exact hands.congr loops
      exact one.bind fun s' g' loops' => ih loops' _ later

omit loops recurs stays inner live rewrites hands in
lemma pass_loops (ctx : Context) : ∃ report g s, (pass.run ctx).run f = .ok report g ∧ Loops f first s g := by
  obtain ⟨report, g, run, s, loops⟩ := loopable.eliminateAll_loops loopable.loops ctx f.blockIds {}
    fun b mem => mem_blockIds.1 mem
  exact ⟨report, g, s, run, loops⟩

end Loopable

end Avm.Opt.TailCall
