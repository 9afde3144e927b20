import Avm.Proofs.Opt.Guarding
import Avm.Proofs.Run.Advancing
import Avm.Proofs.Run.Detours

/-!
# Hoisting keeps what graphs do

The nodes that hoisting finds are operators, each of which uses constants, registers that the loop does not set, nodes
outside of the loop, and nodes found before it.  So they may be moved one after another to the block before the loop,
and when it is the turn of one, what it uses is out of the loop.  The edge by which the loop is entered is the only one,
and the blocks of the loop lead to each other, in whatever graph the moves before have left.

The main statement is `seen_of_pass`.  `not_dominated_of_pass` is that control must not come back to the entry: it
enters a loop through the entry by no edge.
-/

namespace Avm.Ir.Func

variable {V : Type} {f g h : Func} {L : BlockId → Prop} {b c t source target p first : BlockId} {v w : ValueId}
  {k : NodeKind}
  {kind : EdgeKind} {depth : Nat} {x : Value} {vs : List ValueId}

lemma moves_moveTo (listed : Listed f) (mem : v ∈ f.body c) (live : (f.block? p).isSome) (other : p ≠ c) :
    Moves f (f.moveTo v c p (f.body p).length) v p where
  kinds w := by
    rw [kind?, node?_moveTo, kind?]
    split
    · rw [Option.map_map]
      rfl
    · rfl
  terminator b := by
    rw [terminator, map_moveTo (p := Block.terminator) fun _ _ => rfl, terminator]
  phis b := phis_moveTo
  body b := by
    have away {b : BlockId} (ne : b ≠ c) : (f.body b).filter (· != v) = f.body b := by
      refine List.filter_eq_self.2 fun w there => bne_iff_ne.2 ?_
      rintro rfl
      exact ne (listed.eq_of_mem_body there mem)
    rw [moveTo, body, block?_modifyNode, block?_modifyBlock, block?_modifyBlock]
    by_cases here : b = p
    · subst here
      obtain ⟨y, there⟩ := Option.isSome_iff_exists.1 live
      rw [if_pos rfl, if_pos rfl, if_neg other.symm, there, away other, body_of_block? there]
      simp [List.insertIdx_length_self]
    · rw [if_neg (Ne.symm here), if_neg here, List.append_nil]
      by_cases own : b = c
      · subst own
        rw [if_pos rfl]
        cases there : f.block? b with
        | none => rw [(parts_of_isNone there).2.1]; rfl
        | some y => rw [body_of_block? there]; rfl
      · rw [if_neg (Ne.symm own), away own]
        rfl

/-- Operators of some blocks, which use what is fixed there and operators that are before them. -/
structure Ordered (f : Func) (L : BlockId → Prop) (vs : List ValueId) : Prop where
  once : vs.Nodup
  each : ∀ before v after, vs = before ++ v :: after → ∃ c k, L c ∧ v ∈ f.body c ∧ f.kind? v = some k ∧
    k.isOperator = true ∧ ∀ x ∈ k.operands, Fixed f L x ∨ ∃ w ∈ before, x = .node w

lemma Fixed.congr (is : Fixed f L x) (kinds : ∀ b, L b → ∀ w ∈ f.body b, g.kind? w = f.kind? w)
    (body : ∀ b, L b → ∀ w ∈ g.body b, w ∈ f.body b) (phis : ∀ b, g.phis b = f.phis b) : Fixed g L x := by
  cases x with
  | const => trivial
  | reg r e =>
    intro b inner w mem
    have there := body b inner w mem
    rw [sets, kinds b inner w there, ← sets]
    exact is b inner w there
  | node u =>
    intro b inner mem
    refine is b inner ?_
    rw [nodesOf, phis] at mem
    exact (List.mem_append.1 mem).elim (List.mem_append_left _) fun mem => List.mem_append_right _ (body b inner u mem)

section Moving

variable (gate : Gate f L p first) (listed : Listed f) (mem : v ∈ f.body c) (inside : L c) (moves : Moves f g v p)
include gate moves

lemma Moves.mem_body (inner : L b) : w ∈ g.body b ↔ w ∈ f.body b ∧ w ≠ v := by
  have away : b ≠ p := by
    rintro rfl
    exact gate.outside inner
  rw [moves.body, if_neg away, List.append_nil, List.mem_filter, bne_iff_ne]

lemma Moves.fixed (is : Fixed f L x) : Fixed g L x :=
  is.congr (fun _ _ w _ => moves.kinds w) (fun _ inner _ mem => ((moves.mem_body gate inner).1 mem).1) moves.phis

include listed mem in
lemma Moves.fixed_self : Fixed g L (.node v) := by
  intro b inner there
  rw [nodesOf, moves.phis] at there
  rcases List.mem_append.1 there with phi | body
  · exact notMem_phis_of_mem_body listed mem phi
  · exact ((moves.mem_body gate inner).1 body).2 rfl

include listed mem in
lemma Ordered.tail (ordered : Ordered f L (v :: vs)) : Ordered g L vs where
  once := (List.nodup_cons.1 ordered.once).2
  each before w after split := by
    obtain ⟨c', k, inside, there, does, operator, fixed⟩ := ordered.each (v :: before) w after (by rw [split]; rfl)
    have other : w ≠ v := by
      rintro rfl
      refine (List.nodup_cons.1 ordered.once).1 ?_
      rw [split]
      exact List.mem_append_right _ List.mem_cons_self
    refine ⟨c', k, inside, (moves.mem_body gate inside).2 ⟨there, other⟩, (moves.kinds w).trans does, operator,
      fun x used => ?_⟩
    obtain is | ⟨u, earlier, rfl⟩ := fixed x used
    · exact .inl (moves.fixed gate is)
    · rcases List.mem_cons.1 earlier with rfl | earlier
      · exact .inl (moves.fixed_self gate listed mem)
      · exact .inr ⟨u, earlier, rfl⟩

end Moving

/-- A graph that passes the check and handles no exceptions, in which uses are dominated. -/
structure Tame (f : Func) : Prop extends Checked f where
  bare : Bare f
  exit : (f.block? Func.exit).isSome
  dominated : Dominated f

/-- A graph is changed to one that is seen to do the same, and in which control gets where it got before. -/
structure Carries (f g : Func) : Prop where
  tame : Tame g
  size : f.blocks.size ≤ g.blocks.size
  leads : ∀ b t, f.Leads b t → g.Leads b t
  seen : ∀ (V : Type) (S : Semantics V) registers, g.seen S registers = f.seen S registers

namespace Carries

lemma refl (tame : Tame f) : Carries f f := ⟨tame, Nat.le_refl _, fun _ _ path => path, fun _ _ _ => rfl⟩

lemma trans (first : Carries f g) (second : Carries g h) : Carries f h where
  tame := second.tame
  size := first.size.trans second.size
  leads b t path := second.leads b t (first.leads b t path)
  seen V S registers := (second.seen V S registers).trans (first.seen V S registers)

end Carries

lemma mem_targets_of_mem_succs (checked : Checked f) (bare : Bare f) (mem : (t, kind) ∈ f.succs b) (inner : t ≠ exit) :
    (t, kind) ∈ (f.terminator b).targets := by
  refine ((mem_succs_iff checked bare).1 mem).resolve_right fun leaves => inner ?_
  exact Terminator.eq_exit_of_mem_leaving leaves

section Moving

variable (tame : Tame f) (gate : Gate f L p first)
include tame gate

lemma Tame.carries_moveTo (mem : v ∈ f.body c) (inside : L c) (does : f.kind? v = some k)
    (operator : k.isOperator = true)
    (fixed : ∀ x ∈ k.operands, Fixed f L x) :
    Carries f (f.moveTo v c p (f.body p).length) ∧ Gate (f.moveTo v c p (f.body p).length) L p first ∧
      Moves f (f.moveTo v c p (f.body p).length) v p := by
  have listed := tame.toListed
  have live : (f.block? p).isSome := by
    obtain ⟨kind, edge⟩ := gate.edge
    exact isSome_of_mem_succs (tame.toChecked.mem_succs_of_mem_targets edge)
  have other : p ≠ c := by
    rintro rfl
    exact gate.outside inside
  have moves := moves_moveTo listed mem live other
  obtain ⟨n, found, home⟩ := Option.map_eq_some_iff.1 (listed.owned c v (List.mem_append_right _ mem))
  subst home
  have plain : n.kind.isPhi = false := by
    have plain := listed.plain _ v mem
    rw [inputs?_eq, found, Option.bind_some] at plain
    cases kind : n.kind with
    | phi => simp [kind, NodeKind.inputs?] at plain
    | _ => rfl
  have flow : SameFlow f (f.moveTo v n.block p (f.body p).length) := sameFlow_moveTo
  have succs (b) : (f.moveTo v n.block p (f.body p).length).succs b = f.succs b := flow.succs b
  have leads (b t) (path : f.Leads b t) : (f.moveTo v n.block p (f.body p).length).Leads b t := by
    refine Relation.ReflTransGen.mono (fun s t step => ?_) _ _ path
    rwa [succIds, succs]
  refine ⟨⟨⟨?_, ⟨?_, fun b => ?_⟩, ?_, ?_⟩, ?_, leads, fun V S registers => ?_⟩, ?_, moves⟩
  · refine tame.toChecked.sameFlow flow (tame.toFiled.moveTo found plain live) fun t w phi => ?_
    rw [moves.phis] at phi
    exact ⟨phi, by rw [keys, keys, inputs?_moveTo]⟩
  · exact flow.catches.trans tame.bare.catches
  · rw [flow.handlersOf, tame.bare.uncovered]
  · rw [flow.isSome]
    exact tame.exit
  · exact moves.dominates gate listed tame.dominated mem inside does fixed
  · exact flow.size.ge
  · exact moves.seen_eq gate listed tame.dominated mem inside does operator fixed
  · refine ⟨gate.outside, gate.inside, gate.start, ?_, ?_, ?_, ?_, fun c inner => leads first c (gate.around c inner)⟩
    · simpa only [moves.terminator] using gate.only
    · simpa only [moves.terminator] using gate.ahead
    · simpa only [moves.terminator] using gate.edge
    · simpa only [moves.terminator, succs] using gate.goes

end Moving

lemma Tame.carries_onEdge (tame : Tame f) (depth : Nat) (goes : (target, kind) ∈ (f.terminator source).targets) :
    Carries f (f.onEdge source target kind depth) := by
  obtain ⟨checked, bare⟩ := tame.toChecked.onEdge tame.bare goes depth
  have live : (f.block? source).isSome := isSome_of_mem_succs (tame.toChecked.mem_succs_of_mem_targets goes)
  refine ⟨⟨checked, bare, ?_, tame.dominated.onEdge tame.toChecked tame.bare goes⟩, ?_, fun b t path => ?_,
    fun V S registers => seen_onEdge tame.toChecked tame.bare goes⟩
  · rw [isSome_onEdge, tame.exit, Bool.or_true]
  · rw [size_onEdge]
    exact Nat.le_succ _
  · induction path with
    | refl => exact .refl
    | @tail s t _ step ih =>
      refine ih.trans ?_
      obtain ⟨⟨t, k⟩, mem, rfl⟩ := List.mem_map.1 step
      have old : t ≠ f.blocks.size := size_ne_of_isSome (tame.toChecked.live mem)
      have on {s : BlockId} {e : BlockId × EdgeKind}
        (out : e ∈ ((f.onEdge source target kind depth).terminator s).targets) :
          (f.onEdge source target kind depth).Leads s e.1 := leads_of_mem_succs (checked.mem_succs_of_mem_targets out)
      by_cases here : s = source
      · subst here
        rw [mem_succs_iff_of_goes tame.toChecked tame.bare goes] at mem
        by_cases same : k = kind
        · subst same
          obtain rfl := Terminator.eq_of_mem_targets goes mem
          refine (on (e := (f.blocks.size, k)) ?_).trans (on (e := (target, .fallthrough)) ?_)
          · rw [terminator_onEdge live, if_pos rfl, retargeted, Terminator.targets_retarget]
            exact List.mem_map.2 ⟨_, goes, if_pos rfl⟩
          · rw [terminator_onEdge live, if_neg (size_ne_of_isSome live).symm, if_pos rfl]
            exact List.mem_singleton_self _
        · refine on (e := (t, k)) ?_
          rw [terminator_onEdge live, if_pos rfl, retargeted, Terminator.mem_targets_retarget_iff old]
          exact ⟨mem, same⟩
      · refine leads_of_mem_succs (e := (t, k)) ?_
        rwa [succs_onEdge live, if_neg here, if_neg (size_ne_of_isSome (isSome_of_mem_succs mem))]

end Avm.Ir.Func

namespace Avm.Opt.Hoisting

open Avm.Graph Avm.Ir Avm.Ir.Func Avm.Ir.Edit

variable {f g : Func} {L : BlockId → Prop} {m : MethodId} {members l : List BlockId} {cut : Option BlockId}
  {b c t p first : BlockId}
  {v w : ValueId} {vs known written candidates : List ValueId} {e : Entrance} {kind : EdgeKind} {depth : Nat}

/-- Operators are moved one after another, each once what it uses is out of the blocks. -/
lemma moveAll_carries {header : BlockId} (report : Report) (tame : Tame f) (gate : Gate f L p first)
    (ordered : Ordered f L vs) :
    (moveAll m header p vs report).Yields f fun _ g => Carries f g := by
  induction vs generalizing f report with
  | nil => exact yields_pure (.refl tame)
  | cons v vs ih =>
    obtain ⟨c, k, inside, mem, does, operator, uses⟩ := ordered.each [] v vs rfl
    have fixed (x) (used : x ∈ k.operands) : Fixed f L x := (uses x used).resolve_right (by rintro ⟨w, ⟨⟩, -⟩)
    obtain ⟨carries, gate', moves⟩ := tame.carries_moveTo gate mem inside does operator fixed
    obtain ⟨n, found, rfl⟩ := Option.map_eq_some_iff.1 (tame.owned c v (List.mem_append_right _ mem))
    have plain : n.kind.isPhi = false := by
      have same : f.kind? v = some n.kind := by rw [kind?, found]; rfl
      obtain rfl := Option.some.inj (does.symm.trans same)
      cases kind : n.kind with
      | phi =>
        rw [kind] at operator
        cases operator
      | _ => rfl
    rw [moveAll]
    refine yields_get (yields_bind (a := ()) (moveNode_eq_ok.2 ⟨n, found, plain, ?_, ?_, rfl⟩) ?_)
    · exact isSome_of_mem_nodesOf (List.mem_append_right _ mem)
    · obtain ⟨kind, edge⟩ := gate.edge
      exact isSome_of_mem_succs (tame.toChecked.mem_succs_of_mem_targets edge)
    · exact (ih _ carries.tame gate' (ordered.tail gate tame.toListed mem moves)).imp fun _ _ next => carries.trans next

section Invariants

/-- Invariant nodes use what is the same in every round, and invariant nodes before them. -/
structure Listing (f : Func) (l : List BlockId) (written : List Nat) (known : List ValueId) : Prop where
  once : known.Nodup
  among : ∀ v ∈ known, v ∈ operators f l
  each : ∀ before v after, known = before ++ v :: after →
    (((f.kind? v).map NodeKind.operands).getD []).all (isInvariant f l written before) = true

lemma Listing.step (listing : Listing f l written known) : Listing f l written
    (invariantStep f l written (operators f l) known) := by
  rw [invariantStep]
  refine List.foldlRecOn (motive := Listing f l written) (operators f l) _ listing fun known listing v there => ?_
  dsimp only
  split
  · rename_i new
    rw [Bool.and_eq_true, Bool.not_eq_true', ← Bool.not_eq_true, List.contains_iff_mem] at new
    refine ⟨?_, fun w mem => ?_, fun before w after split => ?_⟩
    · refine List.nodup_append.2 ⟨listing.once, List.nodup_singleton v, fun w mem u mem' => ?_⟩
      rw [List.mem_singleton.1 mem']
      rintro rfl
      exact new.1 mem
    · rcases List.mem_append.1 mem with old | here
      · exact listing.among w old
      · rwa [List.mem_singleton.1 here]
    · rcases List.append_eq_append_iff.1 split with ⟨more, rfl, eq⟩ | ⟨more, rfl, eq⟩
      · cases more with
        | nil =>
          obtain ⟨rfl, -⟩ := List.cons_eq_cons.1 eq
          rw [List.append_nil]
          exact new.2
        | cons u more =>
          have empty := (List.cons_eq_cons.1 eq).2
          simp at empty
      · cases more with
        | nil =>
          obtain ⟨rfl, -⟩ := List.cons_eq_cons.1 eq
          rw [List.append_nil] at new
          exact new.2
        | cons u more =>
          obtain ⟨rfl, -⟩ := List.cons_eq_cons.1 eq
          exact listing.each before w more rfl
  · exact listing

lemma listing_invariants : Listing f l (writtenIn f l) (invariants f l) := by
  have loop (fuel : Nat) {known : List ValueId} (listing : Listing f l (writtenIn f l) known) :
      Listing f l (writtenIn f l) (invariantLoop f l (writtenIn f l) (operators f l) fuel known) := by
    induction fuel generalizing known with
    | zero => exact listing
    | succ fuel ih =>
      rw [invariantLoop]
      split
      · exact listing
      · exact ih listing.step
  exact loop _ ⟨List.nodup_nil, fun _ none => (List.not_mem_nil none).elim,
    fun before v after split => by simp at split⟩

lemma ordered_invariants (listed : Listed f) : Ordered f (· ∈ l) (invariants f l) where
  once := listing_invariants.once
  each before v after split := by
    have mem : v ∈ invariants f l := by
      rw [split]
      exact List.mem_append_right _ List.mem_cons_self
    have uses := listing_invariants.each before v after split
    have candidate := listing_invariants.among v mem
    rw [operators, List.mem_filter] at candidate
    obtain ⟨b, inside, here⟩ := List.mem_flatMap.1 candidate.1
    obtain ⟨k, does, operator⟩ : ∃ k, f.kind? v = some k ∧ k.isOperator = true := by
      have chosen := candidate.2
      split at chosen
      · rename_i does
        exact ⟨_, does, rfl⟩
      · rename_i does
        exact ⟨_, does, rfl⟩
      · cases chosen
    refine ⟨b, k, inside, here, does, operator, fun x used => ?_⟩
    rw [does, Option.map_some, Option.getD_some, List.all_eq_true] at uses
    have invariant := uses x used
    cases x with
    | const => exact .inl trivial
    | reg r e =>
      refine .inl fun c inner w there => ?_
      rw [isInvariant, Bool.not_eq_true', ← Bool.not_eq_true, List.contains_iff_mem] at invariant
      rw [sets, Option.any_eq_false]
      intro k does
      rw [← Bool.not_eq_true, List.contains_iff_mem]
      intro sets
      refine invariant (List.mem_flatMap.2 ⟨w, List.mem_flatMap.2 ⟨c, inner, there⟩, ?_⟩)
      rw [does, Option.map_some, Option.getD_some]
      exact sets
    | node w =>
      rw [isInvariant, Bool.or_eq_true, List.contains_iff_mem] at invariant
      obtain earlier | outside := invariant
      · exact .inr ⟨w, earlier, rfl⟩
      · refine .inl fun c inner there => ?_
        have home := listed.owned c w there
        obtain ⟨n, found, rfl⟩ := Option.map_eq_some_iff.1 home
        rw [Bool.and_eq_true, found, Option.map_some, Option.getD_some, Bool.not_eq_true', ← Bool.not_eq_true,
          List.contains_iff_mem] at outside
        exact outside.1 inner

end Invariants

section Hoist

lemma eq_of_entrance? (checked : Checked f) (found : entrance? f l = some e) (outside : b ∉ l) (inside : t ∈ l)
    (mem : (t, kind) ∈ f.succs b) : b = e.source ∧ t = e.header ∧ kind = e.kind := by
  have enters : (b, kind) ∈ f.preds t := by
    rw [← List.count_pos_iff, checked.linked t (checked.live mem), List.count_pos_iff]
    exact mem
  have listed : (⟨b, t, kind⟩ : Entrance) ∈ entrances f l := by
    refine mem_entrances.2 ⟨inside, enters, ?_⟩
    rw [← Bool.not_eq_true, Marks.has_ofList]
    exact fun both => outside both.1
  rw [(entrance?_eq_some_iff.1 found).1, List.mem_singleton] at listed
  subst listed
  exact ⟨rfl, rfl, rfl⟩

lemma entrance?_goes (checked : Checked f) (small : ∀ b ∈ l, b < f.blocks.size) (found : entrance? f l = some e) :
    e.header ∈ l ∧ e.source ∉ l ∧ (e.header, e.kind) ∈ f.succs e.source := by
  obtain ⟨here, enters, outside⟩ := mem_entrances.1 (mem_entrances_of_entrance? found)
  refine ⟨here, fun inside => ?_, ?_⟩
  · rw [Marks.has_ofList.2 ⟨inside, small _ inside⟩] at outside
    cases outside
  · rw [← List.count_pos_iff, ← checked.linked e.header (isSome_of_mem_preds enters), List.count_pos_iff]
    exact enters

variable (tame : Tame f) (small : ∀ b ∈ l, b < f.blocks.size) (start : entry ∉ l) (inner : exit ∉ l)
  (around : ∀ b ∈ l, ∀ t ∈ l, f.Leads b t) (found : entrance? f l = some e)
include tame small start inner around found

lemma gate_of_alone (alone : (f.succs e.source).length = 1) : Gate f (· ∈ l) e.source e.header := by
  obtain ⟨first, outside, edge⟩ := entrance?_goes tame.toChecked small found
  have goes {b t kind} (mem : (t, kind) ∈ f.succs b) (inside : t ∈ l) : (t, kind) ∈ (f.terminator b).targets :=
    mem_targets_of_mem_succs tame.toChecked tame.bare mem fun same => inner (same ▸ inside)
  obtain ⟨d, only⟩ := List.length_eq_one_iff.1 alone
  refine ⟨outside, first, start, fun b t kind out inside away => ?_, fun t kind out => ?_, ⟨e.kind, goes edge first⟩,
    fun _ _ _ => goes, fun c inside => around _ first c inside⟩
  · obtain ⟨rfl, rfl, -⟩ :=
      eq_of_entrance? tame.toChecked found away inside (tame.toChecked.mem_succs_of_mem_targets out)
    exact ⟨rfl, rfl⟩
  · have mem := tame.toChecked.mem_succs_of_mem_targets out
    rw [only, List.mem_singleton] at mem edge
    exact (Prod.mk.inj (mem.trans edge.symm)).1

lemma gate_onEdge : Gate (f.onEdge e.source e.header e.kind depth) (· ∈ l) f.blocks.size e.header := by
  obtain ⟨first, outside, edge⟩ := entrance?_goes tame.toChecked small found
  have goes : (e.header, e.kind) ∈ (f.terminator e.source).targets :=
    mem_targets_of_mem_succs tame.toChecked tame.bare edge fun same => inner (same ▸ first)
  have live : (f.block? e.source).isSome := isSome_of_mem_succs edge
  have other := size_ne_of_isSome live
  have carries := tame.carries_onEdge depth goes
  have last : (f.onEdge e.source e.header e.kind depth).terminator f.blocks.size = .goto e.header := by
    rw [terminator_onEdge live, if_neg other.symm, if_pos rfl]
  refine ⟨fun inside => Nat.lt_irrefl _ (small _ inside), first, start, fun b t kind out inside away => ?_,
    fun t kind out => ?_, ⟨.fallthrough, ?_⟩, fun b t kind mem inside => ?_,
    fun c inside => carries.leads _ _ (around _ first c inside)⟩
  · have only {kind} (out : (t, kind) ∈ (f.terminator b).targets) :=
      eq_of_entrance? tame.toChecked found away inside (tame.toChecked.mem_succs_of_mem_targets out)
    rw [terminator_onEdge live] at out
    split at out
    · rw [retargeted, Terminator.mem_targets_retarget_iff (Nat.ne_of_lt (small t inside))] at out
      rename_i here
      exact absurd (only (here ▸ out.1)).2.2 out.2
    · split at out
      · rename_i here
        exact ⟨here, (Prod.mk.inj (List.mem_singleton.1 out)).1⟩
      · rename_i away' _
        exact absurd (only out).1 away'
  · rw [last] at out
    exact (Prod.mk.inj (List.mem_singleton.1 out)).1
  · rw [last]
    exact List.mem_singleton_self _
  · exact mem_targets_of_mem_succs carries.tame.toChecked carries.tame.bare mem fun same => inner (same ▸ inside)

end Hoist

lemma ordered_onEdge {source target : BlockId} (listed : Listed f) (ordered : Ordered f L vs) :
    Ordered (f.onEdge source target kind depth) L vs := by
  have body (b) : (f.onEdge source target kind depth).body b = f.body b := body_onEdge
  have phis (b) : (f.onEdge source target kind depth).phis b = f.phis b := phis_onEdge
  have kinds (b w) (there : w ∈ f.body b) : (f.onEdge source target kind depth).kind? w = f.kind? w :=
    kind?_onEdge (listed.plain b w there)
  generalize f.onEdge source target kind depth = g at body phis kinds
  refine ⟨ordered.once, fun before v after split => ?_⟩
  obtain ⟨c, k, inside, mem, does, operator, uses⟩ := ordered.each before v after split
  refine ⟨c, k, inside, (body c).symm ▸ mem, (kinds c v mem).trans does, operator, fun x used => ?_⟩
  exact (uses x used).imp_left fun is => is.congr (fun b _ => kinds b) (fun b _ w there => body b ▸ there) phis

/-- What hoisting out of a loop takes for granted: it is in the graph, apart from entry and exit, and its blocks lead to
each other. -/
structure Round (f : Func) (l : List BlockId) : Prop where
  small : ∀ b ∈ l, b < f.blocks.size
  start : entry ∉ l
  inner : exit ∉ l
  around : ∀ b ∈ l, ∀ t ∈ l, f.Leads b t

lemma Round.carries (round : Round f l) (carries : Carries f g) : Round g l where
  small b mem := (round.small b mem).trans_le carries.size
  start := round.start
  inner := round.inner
  around b mem t mem' := carries.leads b t (round.around b mem t mem')

lemma hoist_carries (tame : Tame f) (round : Round f l) : (hoist m l).Yields f fun _ g => Carries f g := by
  obtain ⟨small, start, inner, around⟩ := round
  refine yields_iff_meets.2 (meets_hoist (fun _ => .refl tame) fun e found _ _ => ?_)
  obtain ⟨first, -, edge⟩ := entrance?_goes tame.toChecked small found
  have goes : (e.header, e.kind) ∈ (f.terminator e.source).targets :=
    mem_targets_of_mem_succs tame.toChecked tame.bare edge fun same => inner (same ▸ first)
  have ordered := ordered_invariants (l := l) tame.toListed
  refine meets_preheader_bind (fun _ alone => yields_iff_meets.1 ?_) ?_
  · exact moveAll_carries {} tame (gate_of_alone tame small start inner around found alone) ordered
  · have carries := tame.carries_onEdge (f.scopeDepth e.source) goes
    refine meets_ok_bind (run_splitEdge edge (entrance?_eq_some_iff.1 found).2 ?_ (tame.toChecked.live edge) ?_) ?_
    · rw [tame.bare.uncovered]
      exact List.forall_mem_nil _
    · exact fun e mem => tame.toChecked.live (tame.toChecked.mem_succs_of_mem_targets mem)
    · exact yields_iff_meets.1 ((moveAll_carries {} carries.tame (gate_onEdge tame small start inner around found)
        (ordered_onEdge tame.toListed ordered)).imp fun _ _ next => carries.trans next)

lemma round_of_mem_loops (small : ∀ b ∈ members, b < f.blocks.size) (mem : l ∈ loops f members cut) (start : entry ∉ l)
    (inner : exit ∉ l) : Round f l where
  small b here := small b (mem_of_mem_loops small mem here)
  start := start
  inner := inner
  around _ here _ there := leads_of_mem_loops (.refl f) small mem here there

lemma hoistAll_carries (fuel : Nat) (tame : Tame f) (small : ∀ b ∈ members, b < f.blocks.size)
    (apart : ∀ l ∈ loops f members cut, entry ∉ l ∧ exit ∉ l) :
    (hoistAll m fuel members cut).Yields f fun _ g => Carries f g := by
  induction fuel generalizing f members cut with
  | zero => exact yields_pure (.refl tame)
  | succ fuel ih =>
    rw [hoistAll]
    refine yields_get (foldlM_yields (P := Carries f) _ (fun report l mem g carries => ?_) _ (.refl tame))
    have round := (round_of_mem_loops small mem (apart l mem).1 (apart l mem).2).carries carries
    refine (hoist_carries carries.tame round).bind fun outer g₁ first => yields_get ?_
    have so_far := carries.trans first
    split
    · exact yields_pure so_far
    · have room := (round.carries first).small
      refine (ih so_far.tame room fun l' mem' => ⟨fun here => ?_, fun here => ?_⟩).bind fun inner g₂ second =>
        yields_pure (so_far.trans second)
      · exact round.start (mem_of_mem_loops room mem' here)
      · exact round.inner (mem_of_mem_loops room mem' here)

/-- A graph that hoisting is done with has its uses dominated still and is seen to do what it did, from whatever
registers, if control that leaves the entry does not come back to it. -/
theorem seen_of_pass (f : Func) (ctx : Context) (checked : Checked f) (bare : Bare f) (dominated : Dominated f)
    (last : (f.block? exit).isSome ∧ f.succs exit = []) (once : ∀ b ∈ f.succIds entry, ¬f.Leads b entry) :
    ∃ report g, (pass.run ctx).run f = .ok report g ∧ Dominated g ∧
      ∀ (V : Type) (S : Semantics V) registers, g.seen S registers = f.seen S registers := by
  have small : ∀ b ∈ f.blockIds, b < f.blocks.size := fun b mem => lt_size_of_block? (mem_blockIds.1 mem)
  have tame : Tame f := { checked with bare := bare, exit := last.1, dominated := dominated }
  have apart (l) (mem : l ∈ loops f f.blockIds none) : entry ∉ l ∧ exit ∉ l := by
    refine ⟨fun here => ?_, fun here => ?_⟩
    · obtain ⟨t, there, next⟩ := exists_succ_of_mem_loops small mem here
      exact once t next (leads_of_mem_loops (.refl f) small mem there here)
    · obtain ⟨t, -, next⟩ := exists_succ_of_mem_loops small mem here
      rw [succIds, last.2] at next
      cases next
  have yields : (pass.run ctx).Yields f fun _ g => Carries f g :=
    yields_get (hoistAll_carries (f.blockIds.length + 1) tame small apart)
  obtain ⟨report, g, run, carries⟩ := yields
  exact ⟨report, g, run, carries.tame.dominated, carries.seen⟩

/-- The graph has one node, which negates a register and is used at the end of its block, and handles no exceptions. -/
def Negates (f : Func) : Prop :=
  f.nodes.size = 1 ∧ f.kind? 0 = some (.unary .negate (.reg 1 0)) ∧ f.body 2 = [0] ∧
    (f.terminator 2).operands = [.node 0] ∧ (∀ b < f.blocks.size, b ≠ 2 → (f.terminator b).operands = []) ∧
    f.handlers = [] ∧ (∀ b < f.blocks.size, f.handlersOf b = []) ∧ (f.block? exit).isSome = true ∧ f.succs exit = []

instance (f : Func) : Decidable (Negates f) := inferInstanceAs (Decidable (_ ∧ _))

lemma Negates.sound (negates : Negates f) : Bare f ∧ Dominated f ∧ (f.block? exit).isSome ∧ f.succs exit = [] := by
  obtain ⟨one, does, body, used, unused, catches, uncovered, last⟩ := negates
  refine ⟨⟨catches, fun b => ?_⟩, dominated_of_last (fun v k here w mem => ?_) fun b v mem => ?_, last⟩
  · by_cases inside : b < f.blocks.size
    · exact uncovered b inside
    · exact (parts_of_isNone (Option.not_isSome_iff_eq_none.1 fun live => inside (lt_size_of_block? live))).2.2.1
  · have first : v = 0 := by
      have inside : v < f.nodes.size := lt_size_of_node? (isSome_node?_of_kind? here)
      rw [one] at inside
      exact Nat.lt_one_iff.1 inside
    rw [first, does] at here
    obtain rfl := Option.some.inj here
    cases List.mem_singleton.1 mem
  · by_cases here : b = 2
    · subst here
      rw [used, List.mem_singleton] at mem
      obtain rfl := Value.node.inj mem
      rw [body]
      exact List.mem_singleton_self _
    · by_cases inside : b < f.blocks.size
      · rw [unused b inside here] at mem
        cases mem
      · rw [(parts_of_isNone (Option.not_isSome_iff_eq_none.1 fun live =>
          inside (lt_size_of_block? live))).2.2.2.1] at mem
        cases mem

/-- A loop that negates a register in every round. -/
def negating : List Change :=
  [.addBlock, .addBlock, .setTerminator 0 (.goto 2), .appendNode 2 (.unary .negate (.reg 1 0)),
    .setTerminator 2 (.branch .truthy [.node 0] 2 3), .setTerminator 3 (.leave none)]

/-- The register may be negated before the loop, in a block that is made on the edge from the entry. -/
theorem seen_of_pass_negating : ∃ f report g, build? negating (.new 0 1 {} 2) = some f ∧ Checked f ∧ Bare f ∧
    Dominated f ∧
    ((f.block? exit).isSome ∧ f.succs exit = []) ∧ (∀ b ∈ f.succIds entry, ¬f.Leads b entry) ∧
    (pass.run ⟨0, {}, .unknown, {}⟩).run f = .ok report g ∧ Dominated g ∧
      ∀ (V : Type) (S : Semantics V) registers, g.seen S registers = f.seen S registers := by
  have facts : (build? negating (.new 0 1 {} 2)).any (fun f => (f.block? entry).isSome && f.verify.isOk &&
      decide (Negates f ∧ ∀ b < f.blocks.size, entry ∉ f.succIds b)) = true := by decide +kernel
  obtain ⟨f, built, checked, negates, first⟩ := exists_checked facts
  obtain ⟨bare, dominated, last⟩ := negates.sound
  have once (b) (mem : b ∈ f.succIds entry) : ¬f.Leads b entry := by
    intro path
    obtain rfl | ⟨t, -, next⟩ := Relation.ReflTransGen.cases_tail path
    · exact first _ (lt_size_of_block? checked.start) mem
    · obtain ⟨e, edge, -⟩ := List.mem_map.1 next
      exact first t (lt_size_of_block? (isSome_of_mem_succs edge)) next
  obtain ⟨report, g, run, kept⟩ := seen_of_pass f ⟨0, {}, .unknown, {}⟩ checked bare dominated last once
  exact ⟨f, report, g, built, checked, bare, dominated, last, once, run, kept⟩

/-- A loop through the entry, with an edge into it from a block that control cannot reach. -/
def stranding : List Change :=
  [.addBlock, .addBlock, .addBlock, .setTerminator 0 (.goto 2), .appendNode 2 (.unary .negate (.reg 1 0)),
    .setTerminator 2 (.branch .truthy [.node 0] 0 4), .setTerminator 3 (.goto 2), .setTerminator 4 (.leave none)]

/-- Hoisting leaves a use behind that control comes to at once, without the node. -/
def strands (f : Func) : Bool :=
  match (pass.run ⟨0, {}, .unknown, {}⟩).run f with
  | .ok _ g => decide (g.terminator entry = .goto 2 ∧ (g.terminator 2).operands = [.node 0] ∧
      g.body entry = [] ∧ g.phis 2 = [] ∧ g.body 2 = [])
  | .error .. => false

/-- If control comes back to the entry, an operator may be hoisted to a block that control cannot reach. -/
theorem not_dominated_of_pass : ¬∀ (f : Func) (ctx : Context), Checked f → Bare f → Dominated f →
    ((f.block? exit).isSome ∧ f.succs exit = []) → ∃ report g, (pass.run ctx).run f = .ok report g ∧ Dominated g ∧
      ∀ (V : Type) (S : Semantics V) registers, g.seen S registers = f.seen S registers := by
  intro all
  have facts : (build? stranding (.new 0 1 {} 2)).any (fun f => (f.block? entry).isSome && f.verify.isOk &&
      decide (Negates f ∧ strands f = true)) = true := by decide +kernel
  obtain ⟨f, -, checked, negates, stranded⟩ := exists_checked facts
  obtain ⟨bare, dominated, last⟩ := negates.sound
  obtain ⟨report, g, run, dominated', -⟩ := all f ⟨0, {}, .unknown, {}⟩ checked bare dominated last
  rw [strands, run] at stranded
  obtain ⟨goes, used, start, phis, body⟩ := of_decide_eq_true stranded
  have way : g.Avoids 0 2 [] := by
    rw [← body]
    have out : (2, EdgeKind.fallthrough) ∈ (g.terminator entry).targets := by
      rw [goes]
      exact List.mem_singleton_self _
    refine .edge (start ▸ .start) out ?_
    rw [phis]
    exact List.forall_mem_nil _
  refine dominated' 0 2 [] (.last ?_) way
  rw [used]
  exact List.mem_singleton_self _

end Avm.Opt.Hoisting
