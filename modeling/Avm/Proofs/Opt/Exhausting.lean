import Avm.Proofs.Opt.Invariance
import Avm.Proofs.Opt.Subdividing

/-!
# What is left in loops

The search for invariant operators ends when a look at all of them finds no more, so none is left of those that use what
is the same in every round and what was found (`mem_invariants_of_all`).  Behind, the loop has no operator all of whose
operands are known to be the same in every round (`Ready`): the nodes that were found are outside of it and read no
registers.  Nor does it get one when operators are hoisted out of another loop that is inside of it, or apart from it:
nodes come to stay in it or out of it as they were (`Mirrors`).

The main statements are `Step.ready` and `Step.done`.
-/

namespace Avm.Opt.Hoisting

open Avm.Graph Avm.Ir Avm.Ir.Func Avm.Ir.Edit

variable {f g h : Func} {m : MethodId} {l l' : List BlockId} {b c t p : BlockId} {v w : ValueId}
  {vs ws known known' written candidates : List ValueId} {e : Entrance} {kind : EdgeKind} {depth : Nat} {x : Value}

section Search

/-- The operands of a node are the same in every round of a loop. -/
def Holds (f : Func) (l : List BlockId) (written : List Nat) (known : List ValueId) (v : ValueId) : Prop :=
  (((f.kind? v).map NodeKind.operands).getD []).all (isInvariant f l written known) = true

lemma invariantStep_cons : invariantStep f l written (v :: candidates) known = invariantStep f l written candidates
    (if !known.contains v && (((f.kind? v).map NodeKind.operands).getD []).all (isInvariant f l written known) then
      known ++ [v] else known) := rfl

lemma prefix_invariantStep : known <+: invariantStep f l written candidates known := by
  induction candidates generalizing known with
  | nil => exact List.prefix_rfl
  | cons v candidates ih =>
    rw [invariantStep_cons]
    split
    · exact (List.prefix_append known [v]).trans ih
    · exact ih

lemma mem_of_length_eq (none : (invariantStep f l written candidates known).length = known.length)
    (mem : v ∈ candidates) (holds : Holds f l written known v) : v ∈ known := by
  induction candidates with
  | nil => cases mem
  | cons w candidates ih =>
    rw [invariantStep_cons] at none
    split at none
    · have longer : known ++ [w] <+: invariantStep f l written candidates (known ++ [w]) := prefix_invariantStep
      have more := longer.length_le
      rw [none, List.length_append, List.length_singleton] at more
      exact absurd more (Nat.not_succ_le_self _)
    · rename_i passed
      rcases List.mem_cons.1 mem with rfl | mem
      · rw [Bool.and_eq_true, not_and', Bool.not_eq_true', Bool.not_eq_false, List.contains_iff_mem] at passed
        exact passed holds
      · exact ih none mem

lemma Listing.nil : Listing f l written [] :=
  ⟨List.nodup_nil, List.forall_mem_nil _, fun before v after split => by simp at split⟩

lemma Listing.length_le (listing : Listing f l written known) : known.length ≤ (operators f l).length :=
  (List.subperm_of_subset listing.once listing.among).length_le

lemma length_lt_of_ne (more : (invariantStep f l written candidates known).length ≠ known.length) :
    known.length < (invariantStep f l written candidates known).length := by
  have longer : known <+: invariantStep f l written candidates known := prefix_invariantStep
  have := longer.length_le
  omega

lemma length_invariantLoop {fuel : Nat} (listing : Listing f l written known)
    (enough : (operators f l).length < fuel + known.length) :
    (invariantStep f l written (operators f l) (invariantLoop f l written (operators f l) fuel known)).length =
      (invariantLoop f l written (operators f l) fuel known).length := by
  induction fuel generalizing known with
  | zero =>
    have fewer := listing.length_le
    omega
  | succ fuel ih =>
    rw [invariantLoop]
    split
    · assumption
    · rename_i more
      have longer := length_lt_of_ne more
      exact ih listing.step (by omega)

lemma invariantLoop_fuel {fuel : Nat} (listing : Listing f l written known)
    (enough : (operators f l).length < fuel + known.length) :
    invariantLoop f l written (operators f l) (fuel + 1) known =
      invariantLoop f l written (operators f l) fuel known := by
  induction fuel generalizing known with
  | zero =>
    have fewer := listing.length_le
    omega
  | succ fuel ih =>
    rw [invariantLoop.eq_2 f l written _ known (fuel + 1), invariantLoop.eq_2 f l written _ known fuel]
    split
    · rfl
    · rename_i more
      have longer := length_lt_of_ne more
      exact ih listing.step (by omega)

/-- The search for invariant operators ends by itself, and more fuel makes no difference. -/
lemma invariants_fuel {fuel : Nat} (enough : (operators f l).length < fuel) :
    invariantLoop f l (writtenIn f l) (operators f l) fuel [] = invariants f l := by
  induction fuel, enough using Nat.le_induction with
  | base => rfl
  | succ fuel more ih =>
    rw [← ih]
    exact invariantLoop_fuel .nil more

lemma mem_invariants_of_all (mem : v ∈ operators f l) (holds : Holds f l (writtenIn f l) (invariants f l) v) :
    v ∈ invariants f l :=
  mem_of_length_eq (length_invariantLoop .nil (Nat.lt_succ_self _)) mem holds

/-- An operator of a loop all of whose operands are known to be the same in every round. -/
def Ready (f : Func) (l : List BlockId) (v : ValueId) : Prop := v ∈ operators f l ∧ Holds f l (writtenIn f l) [] v

lemma exists_ready (some_ : invariants f l ≠ []) : ∃ v, Ready f l v := by
  obtain ⟨v, rest, found⟩ := List.exists_cons_of_ne_nil some_
  refine ⟨v, listing_invariants.among v ?_, listing_invariants.each [] v rest found⟩
  rw [found]
  exact List.mem_cons_self

end Search

section Mirrors

/-- What is in some blocks of a graph is in those of another one, but for nodes that are known to be the same in every
round. -/
structure Mirrors (f : Func) (l : List BlockId) (known : List ValueId) (g : Func) (l' : List BlockId) : Prop where
  listed : ∀ b ∈ l', ∀ v ∈ g.body b, g.kind? v = f.kind? v ∧ ∃ c ∈ l, v ∈ f.body c
  written : ∀ r ∈ writtenIn f l, r ∈ writtenIn g l'
  outside : ∀ v b, g.home v = some b → b ∉ l' → v ∈ known ∨ ∃ c, f.home v = some c ∧ c ∉ l
  reads : ∀ x r, f.Reads x r → g.Reads x r

lemma mem_writtenIn {r : Nat} : r ∈ writtenIn f l ↔ ∃ b ∈ l, ∃ v ∈ f.body b, ∃ k, f.kind? v = some k ∧
    r ∈ k.written := by
  rw [writtenIn, List.mem_flatMap]
  constructor
  · rintro ⟨v, mem, sets⟩
    obtain ⟨b, here, mem⟩ := List.mem_flatMap.1 mem
    cases does : f.kind? v with
    | none => simp [does] at sets
    | some k =>
      rw [does] at sets
      exact ⟨b, here, v, mem, k, does, sets⟩
  · rintro ⟨b, here, v, mem, k, does, sets⟩
    refine ⟨v, List.mem_flatMap.2 ⟨b, here, mem⟩, ?_⟩
    rw [does]
    exact sets

lemma isInvariant_node : isInvariant f l written known (.node v) = true ↔
    v ∈ known ∨ (∃ b, f.home v = some b ∧ b ∉ l) ∧ ∀ r ∈ written, ¬f.Reads (.node v) r := by
  rw [isInvariant, Bool.or_eq_true, List.contains_iff_mem, Bool.and_eq_true]
  refine or_congr_right (and_congr ?_ ?_)
  · rw [home]
    cases f.node? v with
    | none => simp
    | some n => simp
  · rw [Bool.not_eq_true', ← Bool.not_eq_true, List.any_eq_true, not_exists]
    refine ⟨fun none r sets reads => none r ⟨mem_registersRead_of_reads reads, List.contains_iff_mem.2 sets⟩, ?_⟩
    rintro none r ⟨mem, sets⟩
    exact none r (List.contains_iff_mem.1 sets) (readsRegister_iff.1 (List.contains_iff_mem.2 mem))

namespace Mirrors

lemma refl (f : Func) (l : List BlockId) : Mirrors f l [] f l :=
  ⟨fun b here _ mem => ⟨rfl, b, here, mem⟩, fun _ sets => sets, fun _ b home away => .inr ⟨b, home, away⟩,
    fun _ _ reads => reads⟩

/-- What is seen to be the same in every round is so before, if what is known to be is. -/
lemma isInvariant (mirrors : Mirrors f l known g l') (sub : ∀ v ∈ known', v ∈ known)
    (holds : isInvariant g l' (writtenIn g l') known' x = true) : isInvariant f l (writtenIn f l) known x = true := by
  cases x with
  | const => rfl
  | reg r version =>
    rw [Hoisting.isInvariant, Bool.not_eq_true', ← Bool.not_eq_true, List.contains_iff_mem] at holds ⊢
    exact fun sets => holds (mirrors.written r sets)
  | node v =>
    rw [isInvariant_node] at holds ⊢
    rcases holds with there | ⟨⟨b, home, away⟩, none⟩
    · exact .inl (sub v there)
    · rcases mirrors.outside v b home away with there | outside
      · exact .inl there
      · exact .inr ⟨outside, fun r sets reads => none r (mirrors.written r sets) (mirrors.reads _ r reads)⟩

lemma holds (mirrors : Mirrors f l known g l') (sub : ∀ v ∈ known', v ∈ known) (mem : v ∈ operators g l')
    (holds : Holds g l' (writtenIn g l') known' v) : v ∈ operators f l ∧ Holds f l (writtenIn f l) known v := by
  obtain ⟨mem, operator⟩ := List.mem_filter.1 mem
  obtain ⟨b, here, mem⟩ := List.mem_flatMap.1 mem
  obtain ⟨kind, c, there, mem'⟩ := mirrors.listed b here v mem
  rw [kind] at operator
  refine ⟨List.mem_filter.2 ⟨List.mem_flatMap.2 ⟨c, there, mem'⟩, operator⟩, ?_⟩
  rw [Holds, kind, List.all_eq_true] at holds
  rw [Holds, List.all_eq_true]
  exact fun x mem => mirrors.isInvariant sub (holds x mem)

lemma ready (mirrors : Mirrors f l [] g l') (ready : Ready g l' v) : Ready f l v :=
  mirrors.holds (fun _ mem => mem) ready.1 ready.2

lemma mono (mirrors : Mirrors f l known' g l') (sub : ∀ v ∈ known', v ∈ known) : Mirrors f l known g l' :=
  { mirrors with outside := fun v b home away => (mirrors.outside v b home away).imp_left (sub v) }

end Mirrors

lemma mirrors_onEdge {s t : BlockId} (work : Workable f) (edge : (t, kind) ∈ f.succs s) (normal : kind ≠ .raise)
    (on : kind ≠ .leave) (depth : Nat) : Mirrors f l [] (f.onEdge s t kind depth) (grown f.blocks.size s t l) := by
  have kinds {b v} (mem : v ∈ f.body b) : (f.onEdge s t kind depth).kind? v = f.kind? v :=
    kind?_onEdge (work.plain b v mem)
  constructor
  · intro b here v mem
    rw [body_onEdge] at mem
    refine ⟨kinds mem, b, ?_, mem⟩
    have old : b ≠ f.blocks.size := size_ne_of_isSome (isSome_of_mem_nodesOf (List.mem_append_right _ mem))
    exact (mem_grown_of_ne old).1 here
  · intro r sets
    obtain ⟨b, here, v, mem, k, does, sets⟩ := mem_writtenIn.1 sets
    exact mem_writtenIn.2 ⟨b, mem_grown.2 (.inl here), v, by rwa [body_onEdge], k, by rwa [kinds mem], sets⟩
  · intro v b home away
    rw [home_onEdge] at home
    exact .inr ⟨b, home, fun here => away (mem_grown.2 (.inl here))⟩
  · exact fun x r reads => work.reads_onEdge edge normal on reads

end Mirrors

section Moved

/-- Nodes were moved to a block, and all else is as it was. -/
structure Moved (f : Func) (vs : List ValueId) (t : BlockId) (g : Func) : Prop where
  flow : SameFlow f g
  kinds : ∀ v, g.kind? v = f.kind? v
  phis : ∀ b, g.phis b = f.phis b
  ends : ∀ b, g.terminator b = f.terminator b
  body : ∀ b v, v ∈ g.body b ↔ if v ∈ vs then b = t else v ∈ f.body b
  home : ∀ v, g.home v = if v ∈ vs then some t else f.home v

namespace Moved

lemma refl (f : Func) (t : BlockId) : Moved f [] t f :=
  ⟨.refl f, fun _ => rfl, fun _ => rfl, fun _ => rfl, fun _ _ => by simp, fun _ => by simp⟩

lemma work (moved : Moved f vs t g) (work : Workable f) (lawful : Lawful g) : Workable g where
  toLawful := lawful
  wired := work.wired.sameFlow moved.flow
  sparse := by
    have inputs (v) : g.inputs? v = f.inputs? v := by rw [inputs?, moved.kinds, ← inputs?]
    refine ⟨fun b v mem s kind some_ => ?_, fun b v mem is found => ?_⟩
    · rw [moved.phis] at mem
      rw [incoming, inputs, ← incoming] at some_
      rw [moved.flow.succs]
      exact work.sparse.known b v mem s kind some_
    · rw [moved.phis] at mem
      rw [inputs] at found
      exact work.sparse.once b v mem is found
  leaves := by
    rw [moved.flow.isSome]
    exact work.leaves
  ended := by rw [moved.ends, work.ended]

lemma reads (moved : Moved f vs t g) {r : Nat} (reads : f.Reads x r) : g.Reads x r := by
  refine reads.mono fun v is inputs i mem => ⟨is, ?_, i, mem, rfl⟩
  rw [inputs?, moved.kinds, ← inputs?]
  exact inputs

variable (moved : Moved f vs t g)
include moved

/-- Nodes are moved from blocks that are apart from the given ones to one that is apart too. -/
lemma mirrors_apart (from_ : ∀ v ∈ vs, ∃ c, f.home v = some c ∧ c ∉ l) (listed : ∀ b ∈ l, ∀ v ∈ f.body b, v ∉ vs)
    (away : t ∉ l) : Mirrors f l [] g l where
  listed b here v mem := by
    refine ⟨moved.kinds v, b, here, ?_⟩
    rw [moved.body] at mem
    split at mem
    · exact absurd (mem ▸ here) away
    · exact mem
  written r sets := by
    obtain ⟨b, here, v, mem, k, does, sets⟩ := mem_writtenIn.1 sets
    refine mem_writtenIn.2 ⟨b, here, v, ?_, k, by rwa [moved.kinds], sets⟩
    rw [moved.body, if_neg (listed b here v mem)]
    exact mem
  outside v b home away := by
    rw [moved.home] at home
    split at home
    · exact .inr (from_ v ‹_›)
    · exact .inr ⟨b, home, away⟩
  reads _ _ := moved.reads

lemma mirrors_within (from_ : ∀ v ∈ vs, ∃ c ∈ l, v ∈ f.body c) (here : t ∈ l) : Mirrors f l [] g l where
  listed b inside v mem := by
    refine ⟨moved.kinds v, ?_⟩
    rw [moved.body] at mem
    split at mem
    · exact from_ v ‹_›
    · exact ⟨b, inside, mem⟩
  written r sets := by
    obtain ⟨b, inside, v, mem, k, does, sets⟩ := mem_writtenIn.1 sets
    by_cases goes : v ∈ vs
    · refine mem_writtenIn.2 ⟨t, here, v, ?_, k, by rwa [moved.kinds], sets⟩
      rw [moved.body, if_pos goes]
    · refine mem_writtenIn.2 ⟨b, inside, v, ?_, k, by rwa [moved.kinds], sets⟩
      rw [moved.body, if_neg goes]
      exact mem
  outside v b home away := by
    rw [moved.home] at home
    split at home
    · exact absurd (Option.some.inj home ▸ here) away
    · exact .inr ⟨b, home, away⟩
  reads _ _ := moved.reads

lemma mirrors_left (plain : ∀ v ∈ vs, ∀ k, f.kind? v = some k → k.written = []) (away : t ∉ l) :
    Mirrors f l vs g l where
  listed b here v mem := by
    refine ⟨moved.kinds v, b, here, ?_⟩
    rw [moved.body] at mem
    split at mem
    · exact absurd (mem ▸ here) away
    · exact mem
  written r sets := by
    obtain ⟨b, here, v, mem, k, does, sets⟩ := mem_writtenIn.1 sets
    have stays : v ∉ vs := by
      intro goes
      rw [plain v goes k does] at sets
      cases sets
    refine mem_writtenIn.2 ⟨b, here, v, ?_, k, by rwa [moved.kinds], sets⟩
    rw [moved.body, if_neg stays]
    exact mem
  outside v b home away := by
    rw [moved.home] at home
    split at home
    · exact .inl ‹_›
    · exact .inr ⟨b, home, away⟩
  reads _ _ := moved.reads

lemma notMem (mem : v ∈ operators g l) (away : t ∉ l) : v ∉ vs := by
  intro goes
  obtain ⟨b, here, mem⟩ := List.mem_flatMap.1 (List.mem_filter.1 mem).1
  rw [moved.body, if_pos goes] at mem
  exact away (mem ▸ here)

end Moved

lemma Moved.trans (first : Moved f vs t g) (second : Moved g ws t h) : Moved f (vs ++ ws) t h where
  flow := first.flow.trans second.flow
  kinds v := (second.kinds v).trans (first.kinds v)
  phis b := (second.phis b).trans (first.phis b)
  ends b := (second.ends b).trans (first.ends b)
  body b v := by
    rw [second.body, first.body]
    by_cases goes : v ∈ ws <;> simp [goes]
  home v := by
    rw [second.home, first.home]
    by_cases goes : v ∈ ws <;> simp [goes]

lemma moved_moveTo {c : BlockId} (work : Workable f) (live : (f.block? t).isSome) (other : t ≠ c) (mem : v ∈ f.body c) :
    Moved f [v] t (f.moveTo v c t (f.body t).length) := by
  have moves := moves_moveTo work.toListed mem live other
  obtain ⟨n, found, -⟩ := Option.map_eq_some_iff.1 (work.owned c v (List.mem_append_right _ mem))
  refine ⟨sameFlow_moveTo, moves.kinds, moves.phis, moves.terminator, fun b w => ?_, fun w => ?_⟩
  · rw [moves.body, List.mem_append, List.mem_filter, bne_iff_ne]
    by_cases here : w = v
    · subst here
      by_cases there : b = t <;> simp [there]
    · by_cases there : b = t <;> simp [there, here]
  · rw [home_moveTo (by rw [found]; rfl)]
    simp

lemma moveAll_moved {header : BlockId} {report : Report} (work : Workable f) (live : (f.block? t).isSome)
    (once : vs.Nodup)
    (from_ : ∀ v ∈ vs, ∃ c ≠ t, v ∈ f.body c) : (moveAll m header t vs report).Meets f
      (fun _ g => Moved f vs t g ∧ Workable g) fun _ => True := by
  induction vs generalizing f report with
  | nil => exact meets_pure ⟨.refl f t, work⟩
  | cons v vs ih =>
    obtain ⟨new, once⟩ := List.nodup_cons.1 once
    refine meets_get (Meets.bind (P := fun _ g => Moved f [v] t g ∧ Workable g) ?_ ?_)
    · refine meets_of_forall (fun _ g run => ?_) fun _ _ _ => trivial
      obtain ⟨n, found, plain, -, -, rfl⟩ := moveNode_eq_ok.1 run
      obtain ⟨c, other, mem⟩ := from_ v List.mem_cons_self
      have home := work.owned c v (List.mem_append_right _ mem)
      rw [found] at home
      have block : n.block = c := Option.some.inj home
      have moved : Moved f [v] t (f.moveTo v n.block t (f.body t).length) := by
        rw [block]
        exact moved_moveTo work live (Ne.symm other) mem
      exact ⟨moved, moved.work work (work.toLawful.moveTo found plain live)⟩
    · rintro _ f₁ ⟨first, work₁⟩
      refine (ih work₁ (by rw [first.flow.isSome]; exact live) once fun w mem => ?_).imp (fun r g rest => ?_)
        fun _ _ => trivial
      · obtain ⟨c, other, there⟩ := from_ w (List.mem_cons_of_mem v mem)
        refine ⟨c, other, ?_⟩
        rw [first.body, if_neg]
        · exact there
        · rw [List.mem_singleton]
          rintro rfl
          exact new mem
      · exact ⟨first.trans rest.1, rest.2⟩

end Moved

section Steps

variable {S L members : List BlockId} {cut : Option BlockId} {φ : List BlockId → List BlockId} {e' : Entrance}

/-- Blocks lead on among themselves. -/
def Knit (f : Func) (l : List BlockId) : Prop := ∀ b ∈ l, ∃ t ∈ l, t ∈ f.succIds b

/-- Nodes are hoisted out of some blocks that are entered by a single edge, to the start of the edge if it leads nowhere
else, or to a new block.  Other blocks get the new one where they have both ends of the edge. -/
inductive Step (S : List BlockId) (f : Func) : (List BlockId → List BlockId) → Func → Prop
  | reuse {e : Entrance} {vs : List ValueId} {g : Func} (sole : Sole f S e)
    (alone : ∀ t ∈ f.succIds e.source, t = e.header)
      (from_ : ∀ v ∈ vs, ∃ c ∈ S, v ∈ f.body c) (moved : Moved f vs e.source g) (work : Workable g) : Step S f id g
  | split {e : Entrance} {vs : List ValueId} {g : Func} (sole : Sole f S e) (on : e.kind ≠ .leave)
      (covered : f.handlersOf e.header = f.handlersOf e.source) (from_ : ∀ v ∈ vs, ∃ c ∈ S, v ∈ f.body c)
      (moved : Moved (f.onEdge e.source e.header e.kind (f.scopeDepth e.source)) vs f.blocks.size g)
        (work : Workable g) :
      Step S f (grown f.blocks.size e.source e.header) g

lemma loops_congr (flow : SameFlow f g) : loops g members cut = loops f members cut := by
  have inner : innerSuccs g (.ofList g.blocks.size members) cut = innerSuccs f (.ofList f.blocks.size members) cut := by
    funext b
    rw [innerSuccs, innerSuccs, flow.size, succIds, flow.succs, ← succIds]
  rw [loops, loops, inner, flow.size]

lemma Sole.congr (flow : SameFlow f g) (sole : Sole g l e) : Sole f l e where
  inside := sole.inside
  outside := sole.outside
  edge := by
    rw [← flow.succs]
    exact sole.edge
  normal := sole.normal
  only b away t here k edge := by
    rw [← flow.succs] at edge
    exact sole.only b away t here k edge

namespace Step

lemma work (step : Step S f φ g) : Workable g := by
  cases step with
  | reuse _ _ _ _ work => exact work
  | split _ _ _ _ _ work => exact work

lemma size (step : Step S f φ g) : f.blocks.size ≤ g.blocks.size := by
  cases step with
  | reuse _ _ _ moved => exact moved.flow.size.ge
  | split _ _ _ _ moved =>
    rw [moved.flow.size, size_onEdge]
    exact Nat.le_succ _

lemma mem_iff (step : Step S f φ g) (old : b < f.blocks.size) : b ∈ φ l ↔ b ∈ l := by
  cases step with
  | reuse => exact Iff.rfl
  | split => exact mem_grown_of_ne old.ne

lemma small (step : Step S f φ g) (small : ∀ b ∈ l, b < f.blocks.size) : ∀ b ∈ φ l, b < g.blocks.size := by
  intro b mem
  cases step with
  | reuse _ _ _ moved =>
    rw [moved.flow.size]
    exact small b mem
  | split _ _ _ _ moved =>
    rw [moved.flow.size, size_onEdge]
    rcases mem_grown.1 mem with old | ⟨rfl, -⟩
    · exact (small b old).trans (Nat.lt_succ_self _)
    · exact Nat.lt_succ_self _

lemma eq_of_apart (step : Step S f φ g) (apart : ∀ b ∈ S, b ∉ l) : φ l = l := by
  cases step with
  | reuse => rfl
  | split sole => exact if_neg fun both => apart _ sole.inside both.2

variable (step : Step S f φ g) (work : Workable f)
include step work

lemma exists_of_mem_loops (small : ∀ b ∈ members, b < f.blocks.size) (clear : ∀ b ∈ S, b ∈ members → some b ≠ cut)
    (young : ∀ c, cut = some c → c < f.blocks.size) (mem : l' ∈ loops g (φ members) cut) :
    ∃ l ∈ loops f members cut, l' = φ l := by
  cases step with
  | reuse _ _ _ moved =>
    rw [loops_congr moved.flow] at mem
    exact ⟨l', mem, rfl⟩
  | split sole on covered _ moved =>
    rw [loops_congr moved.flow] at mem
    apply Hoisting.exists_of_mem_loops (work.splits sole.edge sole.normal on covered) small _ _ mem
    · exact fun _ here => clear _ sole.inside here
    · exact fun same => (young _ same).false

lemma exists_sole (small : ∀ b ∈ l, b < f.blocks.size) (sole' : Sole g (φ l) e') : ∃ e, Sole f l e ∧
    e.header = e'.header ∧ g.handlersOf e'.source = f.handlersOf e.source ∧
      g.handlersOf e'.header = f.handlersOf e.header := by
  cases step with
  | reuse _ _ _ moved =>
    exact ⟨e', sole'.congr moved.flow, rfl, moved.flow.handlersOf _, moved.flow.handlersOf _⟩
  | @split e vs g sole on covered _ moved =>
    have splits : Splits f e.source e.header e.kind (f.onEdge e.source e.header e.kind (f.scopeDepth e.source)) :=
      work.splits sole.edge sole.normal on covered
    obtain ⟨e, before, header, source, own⟩ := sole_of_grown splits small (sole'.congr moved.flow)
    refine ⟨e, before, header, ?_, ?_⟩
    · rw [moved.flow.handlersOf, source]
    · rw [moved.flow.handlersOf, own]

lemma knit (knit : Knit f l) : Knit g (φ l) := by
  cases step with
  | reuse _ _ _ moved =>
    intro b here
    obtain ⟨t, there, next⟩ := knit b here
    refine ⟨t, there, ?_⟩
    rwa [succIds, moved.flow.succs]
  | @split e vs g sole on covered _ moved =>
    have splits : Splits f e.source e.header e.kind (f.onEdge e.source e.header e.kind (f.scopeDepth e.source)) :=
      work.splits sole.edge sole.normal on covered
    intro b here
    rw [succIds, moved.flow.succs, ← succIds]
    rcases mem_grown.1 here with old | ⟨rfl, -, last⟩
    · obtain ⟨t, there, next⟩ := knit b old
      by_cases split : b = e.source ∧ t = e.header
      · obtain ⟨rfl, rfl⟩ := split
        exact ⟨_, mem_grown.2 (.inr ⟨rfl, old, there⟩), splits.mem_new.2 rfl⟩
      · exact ⟨t, mem_grown.2 (.inl there), splits.mem_succIds_kept next split⟩
    · exact ⟨_, mem_grown.2 (.inl last), splits.onward_mem⟩

/-- An operator that is ready behind was so before, in blocks that are apart from those that nodes
are hoisted out of, or that have these inside and are entered elsewhere. -/
lemma ready (small : ∀ b ∈ l, b < f.blocks.size) (knit : Knit f l)
    (clear : (∀ b ∈ S, b ∉ l) ∨ ∀ b ∈ S, b ∈ l ∧ b ≠ e'.header) (sole' : Sole g (φ l) e') (ready : Ready g (φ l) v) :
    Ready f l v := by
  have listed {vs : List ValueId} (from_ : ∀ v ∈ vs, ∃ c ∈ S, v ∈ f.body c) (apart : ∀ b ∈ S, b ∉ l) :
      (∀ v ∈ vs, ∃ c, f.home v = some c ∧ c ∈ S) ∧ ∀ b ∈ l, ∀ v ∈ f.body b, v ∉ vs := by
    refine ⟨fun v mem => ?_, fun b here v mem goes => ?_⟩
    · obtain ⟨c, there, mem⟩ := from_ v mem
      exact ⟨c, work.owned c v (List.mem_append_right _ mem), there⟩
    · obtain ⟨c, there, mem'⟩ := from_ v goes
      exact apart c there (work.toListed.eq_of_mem_body mem mem' ▸ here)
  -- The start of an edge into blocks inside is inside, as these are entered elsewhere.
  have start {e : Entrance} (sole : Sole f S e) (within : ∀ b ∈ S, b ∈ l ∧ b ≠ e'.header) : e.source ∈ l := by
    obtain ⟨e₀, before, header, -, -⟩ := step.exists_sole work small sole'
    by_contra away
    obtain ⟨-, same, -⟩ := before.only _ away _ (within _ sole.inside).1 _ sole.edge
    exact (within _ sole.inside).2 (same.trans header)
  cases step with
  | @reuse e vs g sole alone from_ moved =>
    rcases clear with apart | within
    · obtain ⟨homes, stay⟩ := listed from_ apart
      have away : e.source ∉ l := by
        intro here
        obtain ⟨t, there, next⟩ := knit _ here
        exact apart _ sole.inside (alone t next ▸ there)
      refine (moved.mirrors_apart (fun v mem => ?_) stay away).ready ready
      obtain ⟨c, home, there⟩ := homes v mem
      exact ⟨c, home, apart c there⟩
    · refine (moved.mirrors_within (fun v mem => ?_) (start sole within)).ready ready
      obtain ⟨c, there, mem⟩ := from_ v mem
      exact ⟨c, (within c there).1, mem⟩
  | @split e vs g sole on covered from_ moved =>
    apply (mirrors_onEdge work sole.edge sole.normal on (f.scopeDepth e.source)).ready
    rcases clear with apart | within
    · obtain ⟨homes, stay⟩ := listed from_ apart
      have same : grown f.blocks.size e.source e.header l = l := if_neg fun both => apart _ sole.inside both.2
      rw [same] at ready ⊢
      refine (moved.mirrors_apart (fun v mem => ?_) (fun b here v mem => ?_) fun here =>
        (small _ here).false).ready ready
      · obtain ⟨c, home, there⟩ := homes v mem
        exact ⟨c, home_onEdge.trans home, apart c there⟩
      · rw [body_onEdge] at mem
        exact stay b here v mem
    · refine (moved.mirrors_within (fun v mem => ?_) ?_).ready ready
      · obtain ⟨c, there, mem⟩ := from_ v mem
        refine ⟨c, mem_grown.2 (.inl (within c there).1), ?_⟩
        rwa [body_onEdge]
      · exact mem_grown.2 (.inr ⟨rfl, start sole within, (within _ sole.inside).1⟩)

end Step

/-- If a loop is entered by a single edge, with the same handlers at both ends, none of its operators is ready. -/
def Done (f : Func) (l : List BlockId) : Prop :=
  ∀ e, Sole f l e → f.handlersOf e.header = f.handlersOf e.source → ∀ v, ¬Ready f l v

lemma Step.done (step : Step S f φ g) (work : Workable f) (small : ∀ b ∈ l, b < f.blocks.size) (knit : Knit f l)
    (clear : (∀ b ∈ S, b ∉ l) ∨ ∀ e, Sole f l e → ∀ b ∈ S, b ∈ l ∧ b ≠ e.header) (done : Done f l) : Done g (φ l) := by
  intro e' sole' covered v ready
  obtain ⟨e, sole, header, source, own⟩ := step.exists_sole work small sole'
  refine done e sole ?_ v (step.ready work small knit (clear.imp_right fun within => ?_) sole' ready)
  · rw [← own, ← source, covered]
  · rw [← header]
    exact within e sole

end Steps

end Avm.Opt.Hoisting
