import Avm.Proofs.Ir.Outlines

/-!
# Graphs with scopes in order

The scopes of a graph are in order if every block can be entered with some depth of the scope stack, if
the blocks at which it goes on can be entered with the depth that it leaves behind, and if handlers can
be entered with no scope at all.  An exception is taken by the first node of a handler only, and control
comes to a handler only by an exception.  Edits that give some blocks new outlines and leave the others
alone are followed through a list of these blocks, each with the block that it is a copy of (`Reshapes`).

The main statements are `Steady.scoped`, `Scoped.onEdge`, `Scoped.cut` and `Scoped.putNode`, and
`reshapes_putNode`, `reshapes_reend` and `reshapes_setDepth`.
-/

/-! ## Scopes in order -/

namespace Avm.Ir

namespace Func

variable {f f' : Func} {b t source target : BlockId} {v : ValueId} {k : NodeKind} {d : Nat} {o : Outline}

/-- Control may come to the block with a depth of the scope stack. -/
def Enters (f : Func) (b : BlockId) (d : Nat) : Prop := ∃ o, f.outline b = some o ∧ o.Starts d

/-- The block handles exceptions. -/
def Handles (f : Func) (b : BlockId) : Prop := ∃ c ∈ f.handlers, c.target = b

/-- The outline of a block agrees with the others. -/
structure Agrees (f : Func) (b : BlockId) (o : Outline) : Prop where
  /-- The block can be entered. -/
  starts : ∃ d, o.Starts d
  /-- Only its first node may take an exception. -/
  late : .catches ∉ o.turns.tail
  /-- The exception was raised to get to the block. -/
  caught : .catches ∈ o.turns → f.Handles b
  /-- Where control goes on, it may come with the depth at the end of the block. -/
  next : ∀ t ∈ o.targets, t ≠ Func.exit → f.Enters t o.depth ∧ ¬f.Handles t

/-- The scopes are in order. -/
structure Scoped (f : Func) : Prop where
  /-- The entry enters no scope. -/
  start : f.scopeDepth Func.entry = 0
  /-- The blocks agree with each other. -/
  blocks : ∀ b o, f.outline b = some o → f.Agrees b o
  /-- A handler starts without a scope, and has the number of a block that exists or did exist. -/
  handler : ∀ c ∈ f.handlers, c.target ≠ Func.entry ∧ c.target < f.blocks.size ∧
    ∀ o, f.outline c.target = some o → o.Starts 0

/-- Handlers are blocks that are there. -/
def Manned (f : Func) : Prop := ∀ c ∈ f.handlers, (f.block? c.target).isSome ∧ c.target ≠ Func.exit

lemma handles_congr (catches : f'.handlers = f.handlers) : f'.Handles t ↔ f.Handles t := by
  rw [Handles, catches, Handles]

lemma Enters.isSome (h : f.Enters b d) : (f.block? b).isSome := by
  obtain ⟨o, here, -⟩ := h
  exact (outline_eq_some.1 here).1

lemma enters_iff (here : f.outline b = some o) : f.Enters b d ↔ o.Starts d := by
  constructor
  · rintro ⟨o', there, start⟩
    obtain rfl := Option.some.inj (here.symm.trans there)
    exact start
  · exact fun start => ⟨o, here, start⟩

lemma scopeDepth_eq : f.scopeDepth b = ((f.outline b).map (·.depth)).getD 0 := by
  rw [outline, Option.map_map]
  rfl

lemma scopeDepth_of_outline (here : f.outline b = some o) : f.scopeDepth b = o.depth := by
  rw [scopeDepth_eq, here]
  rfl

lemma Agrees.within {o' : Outline} (h : f.Agrees b o) (within : o'.Within o) : f.Agrees b o' where
  starts := by
    obtain ⟨d, starts⟩ := h.starts
    exact ⟨d, within.starts starts⟩
  late mem := h.late (within.late mem)
  caught mem := h.caught (within.catches mem)
  next t mem inside := by
    rw [within.depth]
    exact h.next t (within.targets mem) inside

lemma Agrees.mono (h : f.Agrees b o) (catches : f'.handlers = f.handlers)
    (enters : ∀ t d, f.Enters t d → f'.Enters t d) : f'.Agrees b o where
  starts := h.starts
  late := h.late
  caught mem := (handles_congr catches).2 (h.caught mem)
  next t mem inside := by
    obtain ⟨entered, apart⟩ := h.next t mem inside
    exact ⟨enters t _ entered, (handles_congr catches).not.2 apart⟩

namespace Scoped

lemma not_handles_size (h : f.Scoped) : ¬f.Handles f.blocks.size := by
  rintro ⟨c, listed, same⟩
  exact (h.handler c listed).2.1.ne same

/-- Blocks that were there can be entered as before, and those that are changed or new agree. -/
lemma grow (h : f.Scoped) (catches : f'.handlers = f.handlers)
    (size : f.blocks.size ≤ f'.blocks.size) (start : f'.scopeDepth Func.entry = 0)
    (enters : ∀ t d, f.Enters t d → f'.Enters t d)
    (old : ∀ t < f.blocks.size, (f'.block? t).isSome → (f.block? t).isSome)
    (blocks : ∀ b o, f'.outline b = some o → f.outline b = some o ∨ f'.Agrees b o) : f'.Scoped where
  start := start
  blocks b o here := by
    obtain same | agrees := blocks b o here
    · exact (h.blocks b o same).mono catches enters
    · exact agrees
  handler c listed := by
    rw [catches] at listed
    obtain ⟨inside, below, zero⟩ := h.handler c listed
    refine ⟨inside, below.trans_le size, fun o here => ?_⟩
    obtain ⟨o', there⟩ := exists_outline (old _ below (outline_eq_some.1 here).1)
    exact (enters_iff here).1 (enters _ 0 ⟨o', there, zero o' there⟩)

lemma congr (h : f.Scoped) (catches : f'.handlers = f.handlers) (size : f'.blocks.size = f.blocks.size)
    (same : ∀ t, f'.outline t = f.outline t) : f'.Scoped := by
  refine h.grow catches size.ge ?_ (fun t d entered => ?_) (fun t _ live => ?_) fun t o here => .inl ?_
  · rw [scopeDepth_eq, same, ← scopeDepth_eq, h.start]
  · rwa [Enters, same]
  · rwa [← isSome_outline, same, isSome_outline] at live
  · rwa [same] at here

lemma update {o' : Outline} (h : f.Scoped) (catches : f'.handlers = f.handlers)
    (size : f'.blocks.size = f.blocks.size) (here : f.outline b = some o)
    (outline : ∀ t, f'.outline t = if t = b then some o' else f.outline t)
    (start : b = Func.entry → o'.depth = 0) (starts : ∀ d, o.Starts d → o'.Starts d)
    (agrees : (∀ t d, f.Enters t d → f'.Enters t d) → f'.Agrees b o') : f'.Scoped := by
  have enters : ∀ t d, f.Enters t d → f'.Enters t d := by
    rintro t d ⟨o₁, found, begins⟩
    rw [Enters, outline]
    split
    · rename_i same
      subst same
      obtain rfl := Option.some.inj (here.symm.trans found)
      exact ⟨o', rfl, starts d begins⟩
    · exact ⟨o₁, found, begins⟩
  refine h.grow catches size.ge ?_ enters (fun t _ live => ?_) fun t o₁ found => ?_
  · rw [scopeDepth_eq, outline]
    split
    · rename_i same
      exact start same.symm
    · rw [← scopeDepth_eq, h.start]
  · rw [← isSome_outline, outline] at live
    split at live
    · rename_i same
      rw [same, ← isSome_outline, here]
      rfl
    · rwa [isSome_outline] at live
  · rw [outline] at found
    split at found
    · rename_i same
      obtain rfl := Option.some.inj found
      rw [same]
      exact .inr (agrees enters)
    · exact .inl found

lemma reend {term : Terminator} {hs : List Nat} (h : f.Scoped) (here : f.outline b = some o)
    (next : ∀ e ∈ term.targets, e.1 ≠ Func.exit → f.Enters e.1 o.depth ∧ ¬f.Handles e.1) :
    (f.reend b term hs).Scoped := by
  have agrees := h.blocks b o here
  have catches : (f.reend b term hs).handlers = f.handlers := sameNodes_reend.catches
  refine @update _ _ _ _ { o with targets := term.targets.map (·.1) } h catches sameNodes_reend.size here
    (fun t => ?_) (fun same => ?_) (fun _ starts => starts) fun enters =>
      ⟨agrees.starts, agrees.late, fun mem => (handles_congr catches).2 (agrees.caught mem), ?_⟩
  · rw [outline_reend]
    split
    · rename_i same
      rw [same, here]
      rfl
    · rfl
  · rw [← h.start, ← same, scopeDepth_of_outline here]
  · intro t mem inside
    obtain ⟨e, goes, rfl⟩ := List.mem_map.1 mem
    obtain ⟨entered, apart⟩ := next e goes inside
    exact ⟨enters _ _ entered, (handles_congr catches).not.2 apart⟩

/-- A node that leaves the scope stack alone is put behind the one that takes the exception. -/
lemma putNode {index : Nat} (h : f.Scoped) (listed : f.Listed) (here : f.outline b = some o)
    (still : k.turn = .still) (behind : o.turns.head? = some .catches → k.isPhi = false → index ≠ 0) :
    (f.putNode b index k).Scoped := by
  cases phi : k.isPhi with
  | true =>
    refine h.congr rfl sameFlow_putNode.size fun t => ?_
    rw [outline_putNode listed, if_neg fun both => by simp [phi] at both]
  | false =>
    have agrees := h.blocks b o here
    have within : Outline.Within { o with turns := o.turns.insertIdx index .still } o :=
      Outline.within_insertIdx agrees.late fun head => behind head phi
    refine h.update rfl sameFlow_putNode.size here (fun t => ?_) (fun same => ?_)
      (fun d starts => within.starts starts) fun enters => ?_
    · rw [outline_putNode listed, still]
      by_cases same : t = b
      · rw [if_pos ⟨same, phi⟩, if_pos same, same, here]
        rfl
      · rw [if_neg fun both => same both.1, if_neg same]
    · rw [← h.start, ← same, scopeDepth_of_outline here]
    · have kept : (f.putNode b index k).Agrees b o := agrees.mono rfl enters
      exact kept.within within

lemma append (h : f.Scoped) (listed : f.Listed) (live : (f.block? b).isSome) (still : k.turn = .still) :
    (f.putNode b (f.place b k) k).Scoped := by
  obtain ⟨o, here⟩ := exists_outline live
  refine h.putNode listed here still fun head plain none => ?_
  obtain ⟨-, rfl⟩ := outline_eq_some.1 here
  rw [place, if_neg (by simp [plain]), List.length_eq_zero_iff] at none
  simp [none] at head

lemma onEdge {kind : EdgeKind} (h : f.Scoped) (intact : f.Intact)
    (edge : (target, kind) ∈ f.succs source) (normal : kind ≠ .raise) :
    (f.onEdge source target kind (f.scopeDepth source)).Scoped := by
  have live : (f.block? source).isSome := isSome_of_mem_succs edge
  have other : source ≠ f.blocks.size := size_ne_of_isSome live
  obtain ⟨o, here⟩ := exists_outline live
  have agrees := h.blocks source o here
  rw [scopeDepth_of_outline here]
  set f' := f.onEdge source target kind o.depth with made
  set o' : Outline := { o with
    targets := (f.retargeted source kind f.blocks.size).targets.map (·.1) } with changed
  have outline (t) : f'.outline t = if t = f.blocks.size then
      some { depth := o.depth, targets := [target] } else if t = source then some o' else f.outline t := by
    rw [made, outline_onEdge live]
    split
    · rfl
    · split
      · rename_i same
        rw [same, here]
        rfl
      · rfl
  have catches : f'.handlers = f.handlers := by
    rw [made, catches_onEdge]
  have enters (t d) (entered : f.Enters t d) : f'.Enters t d := by
    have new : t ≠ f.blocks.size := size_ne_of_isSome entered.isSome
    rw [Enters, outline, if_neg new]
    split
    · rename_i same
      rw [same] at entered
      exact ⟨o', rfl, (enters_iff here).1 entered⟩
    · exact entered
  have middle : f'.Enters f.blocks.size o.depth := by
    rw [Enters, outline, if_pos rfl]
    exact ⟨_, rfl, rfl⟩
  have apart {t} (old : ¬f.Handles t) : ¬f'.Handles t := (handles_congr catches).not.2 old
  refine h.grow catches ?_ ?_ enters (fun t below live => ?_) fun t o₁ found => ?_
  · rw [made, size_onEdge]
    exact Nat.le_succ _
  · rw [← h.start, scopeDepth_eq, outline, if_neg intact.size_ne.1.symm, scopeDepth_eq]
    split
    · rename_i same
      rw [same, here]
      rfl
    · rfl
  · rwa [made, isSome_onEdge, decide_eq_false (Nat.ne_of_lt below), Bool.false_or] at live
  · rw [outline] at found
    split at found
    · obtain rfl := Option.some.inj found
      refine .inr ⟨⟨o.depth, rfl⟩, List.not_mem_nil, by rintro ⟨⟩, fun t mem inside => ?_⟩
      obtain rfl := List.mem_singleton.1 mem
      obtain goes | leaves := intact.mem_targets_or_exit edge normal
      · obtain ⟨entered, free⟩ := agrees.next t (by
          obtain ⟨-, rfl⟩ := outline_eq_some.1 here
          exact List.mem_map.2 ⟨_, goes, rfl⟩) inside
        exact ⟨enters _ _ entered, apart free⟩
      · exact absurd leaves inside
    · split at found
      · rename_i same
        obtain rfl := Option.some.inj found
        rw [same]
        refine .inr ⟨agrees.starts, agrees.late, fun mem => (handles_congr catches).2 (agrees.caught mem),
          fun t mem inside => ?_⟩
        obtain ⟨e, goes, rfl⟩ := List.mem_map.1 mem
        obtain rfl | ⟨old, -⟩ := Terminator.mem_targets_retarget goes
        · exact ⟨middle, apart h.not_handles_size⟩
        · obtain ⟨entered, free⟩ := agrees.next e.1 (by
            obtain ⟨-, rfl⟩ := outline_eq_some.1 here
            exact List.mem_map.2 ⟨_, old, rfl⟩) inside
          exact ⟨enters _ _ entered, apart free⟩
      · exact .inl found

lemma cut {index depth' : Nat} (h : f.Scoped) (intact : f.Intact) (here : f.outline b = some o)
    (inner : b ≠ Func.entry) (plain : .catches ∉ o.turns.drop index)
    (depth : depth' = ((o.depth : Int) - ((o.turns.drop index).map Turn.change).sum).toNat) :
    (f.cut b index o.depth depth').Scoped := by
  obtain ⟨live, -⟩ := outline_eq_some.1 here
  have other : b ≠ f.blocks.size := size_ne_of_isSome live
  have agrees := h.blocks b o here
  set f' := f.cut b index o.depth depth' with made
  have outline (t) : f'.outline t = _ := outline_cut here
  have catches : f'.handlers = f.handlers := catches_cut
  -- The depth between the halves is the one at which every walk through the block comes by there.
  have halves (d) (starts : o.Starts d) : Turn.walk d (o.turns.take index) = some depth' ∧
      Turn.walk depth' (o.turns.drop index) = some o.depth := by
    rw [Outline.Starts, ← List.take_append_drop index o.turns, Turn.walk_append] at starts
    obtain ⟨m, first, second⟩ := Option.bind_eq_some_iff.1 starts
    obtain rfl : m = depth' := by
      have sum := Turn.eq_add_of_walk second
      omega
    exact ⟨first, second⟩
  have enters (t d) (entered : f.Enters t d) : f'.Enters t d := by
    have new : t ≠ f.blocks.size := size_ne_of_isSome entered.isSome
    rw [Enters, outline, if_neg new]
    split
    · rename_i same
      rw [same] at entered
      exact ⟨_, rfl, (halves d ((enters_iff here).1 entered)).1⟩
    · exact entered
  have apart {t} (old : ¬f.Handles t) : ¬f'.Handles t := (handles_congr catches).not.2 old
  obtain ⟨d, starts⟩ := agrees.starts
  obtain ⟨first, second⟩ := halves d starts
  refine h.grow catches ?_ ?_ enters (fun t below live => ?_) fun t o₁ found => ?_
  · rw [made, size_cut]
    exact Nat.le_succ _
  · rw [← h.start, scopeDepth_eq, outline, if_neg intact.size_ne.1.symm, if_neg inner.symm, scopeDepth_eq]
  · rwa [made, isSome_cut, decide_eq_false (Nat.ne_of_lt below), Bool.false_or] at live
  · rw [outline] at found
    split at found
    · obtain rfl := Option.some.inj found
      refine .inr ⟨⟨depth', second⟩, fun mem => plain (List.mem_of_mem_tail mem), fun mem => absurd mem plain,
        fun t mem inside => ?_⟩
      obtain ⟨entered, free⟩ := agrees.next t mem inside
      exact ⟨enters _ _ entered, apart free⟩
    · split at found
      · rename_i same
        obtain rfl := Option.some.inj found
        rw [same]
        refine .inr ⟨⟨d, first⟩, fun mem => ?_, fun mem => ?_, fun t mem _ => ?_⟩
        · exact agrees.late ((List.take_sublist _ _).tail.subset mem)
        · exact (handles_congr catches).2 (agrees.caught (List.mem_of_mem_take mem))
        · obtain rfl := List.mem_singleton.1 mem
          refine ⟨?_, apart h.not_handles_size⟩
          rw [Enters, outline, if_pos rfl]
          exact ⟨_, rfl, second⟩
      · exact .inl found

end Scoped

/-- A block that says less than before agrees with the others, if they are still there. -/
lemma Steady.scoped (steady : Steady f f') (h : f.Scoped) (intact : f'.Intact) : f'.Scoped := by
  have enters (t d) (live : (f'.block? t).isSome) (entered : f.Enters t d) : f'.Enters t d := by
    obtain ⟨o', here⟩ := exists_outline live
    obtain ⟨o, there, within⟩ := steady.outline t o' here
    exact ⟨o', here, within.starts ((enters_iff there).1 entered)⟩
  refine ⟨?_, fun b o' here => ?_, fun c listed => ?_⟩
  · obtain ⟨o', here⟩ := exists_outline intact.entry.1
    obtain ⟨o, there, within⟩ := steady.outline _ o' here
    rw [scopeDepth_of_outline here, within.depth, ← scopeDepth_of_outline there, h.start]
  · obtain ⟨o, there, within⟩ := steady.outline b o' here
    have agrees := h.blocks b o there
    obtain ⟨d, starts⟩ := agrees.starts
    refine ⟨⟨d, within.starts starts⟩, fun mem => agrees.late (within.late mem),
      fun mem => (handles_congr steady.catches).2 (agrees.caught (within.catches mem)), fun t mem inside => ?_⟩
    obtain ⟨entered, free⟩ := agrees.next t (within.targets mem) inside
    have live : (f'.block? t).isSome := by
      obtain ⟨-, rfl⟩ := outline_eq_some.1 here
      obtain ⟨e, goes, rfl⟩ := List.mem_map.1 mem
      exact intact.live b e (intact.mem_succs_of_mem_targets goes)
    rw [within.depth]
    exact ⟨enters t _ live entered, (handles_congr steady.catches).not.2 free⟩
  · rw [steady.catches] at listed
    obtain ⟨inside, below, zero⟩ := h.handler c listed
    refine ⟨inside, by rwa [steady.size], fun o' here => ?_⟩
    obtain ⟨o, there, within⟩ := steady.outline _ o' here
    exact within.starts (zero o there)

end Func

end Avm.Ir

/-! ## Blocks that get new outlines -/

namespace Avm.Ir.Func

variable {f f' f'' : Func} {b n t : BlockId} {v : ValueId} {k : NodeKind} {l : List (BlockId × BlockId)}
  {u u' : BlockId → Outline → Outline}

lemma kept_trans (first : ∀ v, (f.node? v).isSome → (f'.node? v).isSome ∧ f'.turn v = f.turn v)
    (second : ∀ v, (f'.node? v).isSome → (f''.node? v).isSome ∧ f''.turn v = f'.turn v)
    (v : ValueId) (there : (f.node? v).isSome) : (f''.node? v).isSome ∧ f''.turn v = f.turn v := by
  obtain ⟨there', same⟩ := first v there
  obtain ⟨there'', same'⟩ := second v there'
  exact ⟨there'', same'.trans same⟩

/-- The blocks at which copies are get the outlines that go with the blocks that they are copies of, and all
else stays. -/
structure Reshapes (l : List (BlockId × BlockId)) (u : BlockId → Outline → Outline) (f f' : Func) :
    Prop where
  listed : f'.Listed
  catches : f'.handlers = f.handlers
  size : f'.blocks.size = f.blocks.size
  kept : ∀ v, (f.node? v).isSome → (f'.node? v).isSome ∧ f'.turn v = f.turn v
  each : ∀ e ∈ l, f'.outline e.2 = (f.outline e.2).map (u e.1)
  other : ∀ t ∉ l.map (·.2), f'.outline t = f.outline t

namespace Reshapes

lemma refl (h : f.Listed) : Reshapes [] u f f :=
  ⟨h, rfl, rfl, fun _ there => ⟨there, rfl⟩, nofun, fun _ _ => rfl⟩

lemma cons (first : Reshapes [(b, n)] u f f') (rest : Reshapes l u f' f'') (apart : n ∉ l.map (·.2)) :
    Reshapes ((b, n) :: l) u f f'' where
  listed := rest.listed
  catches := rest.catches.trans first.catches
  size := rest.size.trans first.size
  kept := kept_trans first.kept rest.kept
  each e mem := by
    obtain rfl | mem := List.mem_cons.1 mem
    · rw [rest.other n apart]
      exact first.each _ List.mem_cons_self
    · rw [rest.each e mem, first.other]
      rw [List.map_singleton, List.mem_singleton]
      intro same
      exact apart (List.mem_map.2 ⟨e, mem, same⟩)
  other t absent := by
    rw [List.map_cons, List.mem_cons, not_or] at absent
    rw [rest.other t absent.2, first.other]
    simpa using absent.1

lemma comp (first : Reshapes l u f f') (second : Reshapes l u' f' f'') :
    Reshapes l (fun b => u' b ∘ u b) f f'' where
  listed := second.listed
  catches := second.catches.trans first.catches
  size := second.size.trans first.size
  kept := kept_trans first.kept second.kept
  each e mem := by
    rw [second.each e mem, first.each e mem, Option.map_map]
  other t absent := by
    rw [second.other t absent, first.other t absent]

lemma congr (h : Reshapes l u f f') (same : ∀ e ∈ l, u e.1 = u' e.1) : Reshapes l u' f f' :=
  { h with each := fun e mem => by rw [h.each e mem, same e mem] }

lemma of_same (h : f'.Listed) (catches : f'.handlers = f.handlers) (size : f'.blocks.size = f.blocks.size)
    (kept : ∀ v, (f.node? v).isSome → (f'.node? v).isSome ∧ f'.turn v = f.turn v)
    (outline : ∀ t, f'.outline t = f.outline t) : Reshapes l (fun _ => id) f f' where
  listed := h
  catches := catches
  size := size
  kept := kept
  each e _ := by
    rw [outline, Option.map_id]
    rfl
  other t _ := outline t

lemma of_one {g : Outline → Outline} (h : f'.Listed) (catches : f'.handlers = f.handlers)
    (size : f'.blocks.size = f.blocks.size)
    (kept : ∀ v, (f.node? v).isSome → (f'.node? v).isSome ∧ f'.turn v = f.turn v)
    (outline : ∀ t, f'.outline t = if t = n then (f.outline t).map g else f.outline t) :
    Reshapes [(b, n)] (fun _ => g) f f' where
  listed := h
  catches := catches
  size := size
  kept := kept
  each e mem := by
    rw [List.mem_singleton.1 mem, outline, if_pos rfl]
  other t absent := by
    rw [outline, if_neg]
    simpa using absent

lemma isSome (h : Reshapes l u f f') (t : BlockId) : (f'.block? t).isSome = (f.block? t).isSome := by
  rw [← isSome_outline, ← isSome_outline]
  by_cases mem : t ∈ l.map (·.2)
  · obtain ⟨e, listed, rfl⟩ := List.mem_map.1 mem
    rw [h.each e listed, Option.isSome_map]
  · rw [h.other t mem]

end Reshapes

lemma kept_of_shapes (shapes : ∀ v, f'.shape? v = f.shape? v) (v : ValueId) (there : (f.node? v).isSome) :
    (f'.node? v).isSome ∧ f'.turn v = f.turn v := by
  refine ⟨?_, turn_congr (shapes v)⟩
  rw [← Option.isSome_map (f := (·.kind.shape)), ← shape?, shapes, shape?, Option.isSome_map, there]

lemma reshapes_reend {term : Terminator} {hs : List Nat} (h : f.Listed) : Reshapes [(b, n)]
    (fun _ o => { o with targets := term.targets.map (·.1) }) f (f.reend n term hs) :=
  .of_one (h.sameNodes sameNodes_reend) sameNodes_reend.catches sameNodes_reend.size
    (kept_of_shapes fun _ => shape?_reend) fun _ => outline_reend

lemma outline_replaceUses {new : Value} : (f.replaceUses v new).outline t = f.outline t := by
  rw [outline_of_turns fun w => turn_congr shape?_replaceUses, outline]
  simp only [block?, replaceUses, Array.getElem?_map]
  cases f.blocks[t]? with
  | none => rfl
  | some x =>
    cases x with
    | none => rfl
    | some x => simp [outlineOf]

lemma reshapes_replaceUses {new : Value} (h : f.Listed) :
    Reshapes l (fun _ => id) f (f.replaceUses v new) := by
  have alike := alike_replaceUses (f := f) v new
  exact .of_same (h.sameNodes alike.toSameNodes) alike.toSameNodes.catches alike.toSameNodes.size
    (kept_of_shapes fun _ => shape?_replaceUses) fun _ => outline_replaceUses

lemma reshapes_setDepth {d : Nat} (h : f.Listed) : Reshapes [(b, n)] (fun _ o => { o with depth := d })
    f (f.modifyBlock n fun x => { x with scopeDepth := d }) := by
  have alike := alike_scopeDepth (f := f) (b := n) fun _ => d
  exact .of_one (h.sameNodes alike.toSameNodes) alike.toSameNodes.catches alike.toSameNodes.size
    (fun v there => ⟨there, rfl⟩) fun _ => outline_setDepth

lemma kept_putNode {index : Nat} (v : ValueId) (there : (f.node? v).isSome) :
    ((f.putNode b index k).node? v).isSome ∧ (f.putNode b index k).turn v = f.turn v := by
  refine ⟨by rw [node?_putNode_of_isSome there, there], ?_⟩
  rw [turn_putNode, if_neg (lt_size_of_node? there).ne]

/-- Covering a block by other handlers does not change what it does to the scope stack. -/
lemma outline_reend_self {hs : List Nat} : (f.reend b (f.terminator b) hs).outline t = f.outline t := by
  rw [outline_reend]
  split
  · rename_i same
    cases here : f.outline t with
    | none => rfl
    | some o =>
      obtain ⟨-, rfl⟩ := outline_eq_some.1 here
      rw [same]
      rfl
  · rfl

lemma reshapes_cover {hs : List Nat} (h : f.Listed) :
    Reshapes l (fun _ => id) f (f.reend n (f.terminator n) hs) :=
  .of_same (h.sameNodes sameNodes_reend) sameNodes_reend.catches sameNodes_reend.size
    (kept_of_shapes fun _ => shape?_reend) fun _ => outline_reend_self

lemma reshapes_putNode (h : f.Listed) (live : (f.block? n).isSome) : Reshapes [(b, n)]
    (fun _ o => { o with turns := o.turns ++ if k.isPhi then [] else [k.turn] })
    f (f.putNode n (f.place n k) k) := by
  refine .of_one (h.putNode live fits_place) rfl sameFlow_putNode.size kept_putNode fun t => ?_
  rw [outline_putNode h]
  by_cases same : t = n
  · subst same
    obtain ⟨o, here⟩ := exists_outline live
    rw [if_pos rfl, here, Option.map_some, Option.map_some]
    cases phi : k.isPhi with
    | true =>
      rw [if_neg (by simp), if_pos rfl, List.append_nil]
    | false =>
      have last : f.place t k = o.turns.length := by
        obtain ⟨-, rfl⟩ := outline_eq_some.1 here
        simp [place, phi]
      rw [if_pos ⟨rfl, rfl⟩, last, List.insertIdx_length_self]
      rfl
  · rw [if_neg same, if_neg fun both => same both.1]

end Avm.Ir.Func
