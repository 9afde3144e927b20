import Avm.Proofs.Ir.Writable

/-!
# Outlines of blocks

What a block does to the scope stack: the turns that its nodes take, the depth that it leaves behind and
the blocks at which it goes on.  Edits are followed through outlines where only the depth of the scope
stack matters.  An edit is `Steady` if the outlines of the blocks that are left say the same or less.

The main statements are `Steady.trans` and one lemma for each edit that is steady.
-/

namespace Avm.Ir

/-- What a node does to the scope stack, or that it takes the exception. -/
inductive Turn where
  | still
  | enters
  | leaves
  | catches
deriving DecidableEq, Repr

namespace Turn

variable {d e n : Nat} {t : Turn} {ts us : List Turn}

/-- The depth of the scope stack behind a node; a scope that is left was entered before. -/
def after : Turn → Nat → Option Nat
  | leaves, 0 => none
  | leaves, d + 1 => some d
  | enters, d => some (d + 1)
  | still, d | catches, d => some d

/-- The depth of the scope stack behind nodes. -/
def walk (d : Nat) (ts : List Turn) : Option Nat := ts.foldlM (fun d t => t.after d) d

@[simp] lemma walk_nil : walk d [] = some d := rfl

@[simp] lemma walk_cons : walk d (t :: ts) = (t.after d).bind fun d => walk d ts := rfl

lemma walk_append : walk d (ts ++ us) = (walk d ts).bind fun d => walk d us := by
  rw [walk, List.foldlM_append]
  rfl

lemma walk_filter : walk d (ts.filter (· != .still)) = walk d ts := by
  induction ts generalizing d with
  | nil => rfl
  | cons t ts ih =>
    rw [List.filter_cons]
    split
    · rw [walk_cons, walk_cons]
      exact congrArg _ (funext fun d => ih)
    · rename_i still
      have same : t = .still := by simpa using still
      rw [ih, same]
      rfl

lemma filter_insertIdx (i : Nat) (ts : List Turn) :
    (ts.insertIdx i .still).filter (· != .still) = ts.filter (· != .still) := by
  induction ts generalizing i with
  | nil => cases i <;> rfl
  | cons t ts ih =>
    cases i with
    | zero => rfl
    | succ i => rw [List.insertIdx_succ_cons, List.filter_cons, List.filter_cons, ih]

lemma walk_add (n : Nat) (h : walk d ts = some e) : walk (d + n) ts = some (e + n) := by
  induction ts generalizing d with
  | nil =>
    obtain rfl := Option.some.inj h
    rfl
  | cons t ts ih =>
    rw [walk_cons] at h ⊢
    obtain ⟨d', step, rest⟩ := Option.bind_eq_some_iff.1 h
    have more : t.after (d + n) = some (d' + n) := by
      cases t with
      | leaves =>
        cases d with
        | zero => cases step
        | succ d =>
          obtain rfl := Option.some.inj step
          rw [Nat.add_right_comm]
          rfl
      | enters =>
        obtain rfl := Option.some.inj step
        rw [Nat.add_right_comm]
        rfl
      | still =>
        obtain rfl := Option.some.inj step
        rfl
      | catches =>
        obtain rfl := Option.some.inj step
        rfl
    rw [more]
    exact ih rest

lemma walk_leaves : walk (d + n) (List.replicate n .leaves) = some d := by
  induction n with
  | zero => rfl
  | succ n ih => exact ih

/-- The change of the depth of the scope stack. -/
def change : Turn → Int
  | enters => 1
  | leaves => -1
  | still | catches => 0

lemma eq_add_of_walk (h : walk d ts = some e) : (e : Int) = d + (ts.map change).sum := by
  induction ts generalizing d with
  | nil =>
    obtain rfl := Option.some.inj h
    simp
  | cons t ts ih =>
    rw [walk_cons] at h
    obtain ⟨d', step, rest⟩ := Option.bind_eq_some_iff.1 h
    have one : (d' : Int) = d + t.change := by
      cases t with
      | leaves =>
        cases d with
        | zero => cases step
        | succ d =>
          obtain rfl := Option.some.inj step
          simp [change]
      | enters =>
        obtain rfl := Option.some.inj step
        rfl
      | still =>
        obtain rfl := Option.some.inj step
        simp [change]
      | catches =>
        obtain rfl := Option.some.inj step
        simp [change]
    rw [ih rest, one, List.map_cons, List.sum_cons]
    omega

lemma walk_inj {d' : Nat} (h : walk d ts = some e) (h' : walk d' ts = some e) : d = d' := by
  have first := eq_add_of_walk h
  have second := eq_add_of_walk h'
  omega

end Turn

namespace NodeKind

variable {k : NodeKind} {ks : List NodeKind} {d : Nat} {g : Value → Value}

/-- What the node does to the scope stack, or that it takes the exception. -/
def turn : NodeKind → Turn
  | scope .pop _ => .leaves
  | scope .. => .enters
  | caught => .catches
  | _ => .still

@[simp] lemma turn_shape : k.shape.turn = k.turn := by
  cases k with
  | scope op operand => cases op <;> rfl
  | _ => rfl

@[simp] lemma turn_mapOperands : (k.mapOperands g).turn = k.turn := by
  rw [← turn_shape, shape_mapOperands, turn_shape]

lemma depthAfter_eq : k.depthAfter d = k.turn.after d := by
  cases k with
  | scope op operand =>
    cases op with
    | pop => cases d <;> rfl
    | _ => rfl
  | _ => rfl

lemma scopeWalk_eq : scopeWalk d ks = Turn.walk d (ks.map turn) := by
  rw [scopeWalk, Turn.walk, List.foldlM_map]
  exact congrArg (ks.foldlM · d) (funext fun d => funext fun k => depthAfter_eq)

lemma scopeChange_eq : Edit.scopeChange k = k.turn.change := by
  cases k with
  | scope op operand => cases op <;> rfl
  | _ => rfl

lemma turn_of_hasSideEffects (none : k.hasSideEffects = false) : k.turn = .still := by
  cases k with
  | scope op operand => cases none
  | caught => cases none
  | _ => rfl

lemma turn_eq_catches : k.turn = .catches ↔ k = .caught := by
  cases k with
  | scope op operand => cases op <;> simp [turn]
  | _ => simp [turn]

end NodeKind

/-- What a block does to the scope stack. -/
structure Outline where
  /-- What its nodes do, in their order. -/
  turns : List Turn := []
  /-- The depth of the scope stack at the end. -/
  depth : Nat := 0
  /-- Where control goes on. -/
  targets : List BlockId := []

namespace Outline

variable {o o' o'' : Outline} {d : Nat}

/-- The block may be entered at a depth of the scope stack. -/
def Starts (o : Outline) (d : Nat) : Prop := Turn.walk d o.turns = some o.depth

/-- The outline says no more than another one: the scopes are the same, and where control goes on it did
before. -/
structure Within (o' o : Outline) : Prop where
  depth : o'.depth = o.depth
  targets : o'.targets ⊆ o.targets
  turns : o'.turns.filter (· != .still) = o.turns.filter (· != .still)
  late : .catches ∈ o'.turns.tail → .catches ∈ o.turns.tail

namespace Within

lemma refl (o : Outline) : o.Within o := ⟨rfl, fun _ mem => mem, rfl, id⟩

lemma trans (h : o'.Within o) (h' : o''.Within o') : o''.Within o :=
  ⟨h'.depth.trans h.depth, fun _ mem => h.targets (h'.targets mem), h'.turns.trans h.turns,
    fun mem => h.late (h'.late mem)⟩

lemma starts (h : o'.Within o) (start : o.Starts d) : o'.Starts d := by
  rw [Starts, ← Turn.walk_filter] at start ⊢
  rw [h.turns, h.depth]
  exact start

lemma catches (h : o'.Within o) (mem : .catches ∈ o'.turns) : .catches ∈ o.turns := by
  have kept : Turn.catches ∈ o'.turns.filter (· != .still) := List.mem_filter.2 ⟨mem, rfl⟩
  rw [h.turns] at kept
  exact (List.mem_filter.1 kept).1

end Within

lemma within_insertIdx {index : Nat} (late : .catches ∉ o.turns.tail)
    (behind : o.turns.head? = some .catches → index ≠ 0) :
    ({ o with turns := o.turns.insertIdx index .still } : Outline).Within o := by
  refine ⟨rfl, fun _ mem => mem, ?_, fun mem => ?_⟩
  · exact Turn.filter_insertIdx index o.turns
  · dsimp only at mem
    generalize o.turns = l at late behind mem ⊢
    cases l with
    | nil => cases index <;> cases mem
    | cons t l =>
      cases index with
      | zero =>
        rw [List.insertIdx_zero, List.tail_cons] at mem
        obtain same | mem := List.mem_cons.1 mem
        · exact absurd rfl (behind (congrArg some same.symm))
        · exact mem
      | succ index =>
        rw [List.insertIdx_succ_cons, List.tail_cons] at mem
        obtain same | mem := List.eq_or_mem_of_mem_insertIdx mem
        · cases same
        · exact mem

end Outline

namespace Func

variable {f f' f'' : Func} {b t source target : BlockId} {v w : ValueId} {k : NodeKind} {pool : Pool}

/-- What a node does to the scope stack, or that it takes the exception. -/
def turn (f : Func) (v : ValueId) : Turn := ((f.shape? v).map NodeKind.turn).getD .still

/-- The outline of a block, given what nodes do. -/
def outlineOf (turn : ValueId → Turn) (x : Block) : Outline :=
  ⟨x.body.map turn, x.scopeDepth, x.terminator.targets.map (·.1)⟩

/-- The outline of a block that exists. -/
def outline (f : Func) (b : BlockId) : Option Outline := (f.block? b).map (outlineOf f.turn)

section Turns

lemma turn_of_kind? (h : f.kind? v = some k) : f.turn v = k.turn := by
  rw [turn, shape?_of_kind? h]
  exact NodeKind.turn_shape

lemma turn_eq : f.turn v = ((f.kind? v).map NodeKind.turn).getD .still := by
  cases here : f.kind? v with
  | none =>
    rw [turn, shape?, Option.map_eq_none_iff.1 here]
    rfl
  | some k => exact turn_of_kind? here

lemma turn_congr (h : f'.shape? v = f.shape? v) : f'.turn v = f.turn v := by
  rw [turn, h, ← turn]

lemma turn_dropNode (still : f.turn v = .still) : (f.dropNode v).turn w = f.turn w := by
  rw [turn, shape?_dropNode]
  split
  · rename_i same
    rw [same, still]
    rfl
  · rfl

lemma turn_putNode {index : Nat} :
    (f.putNode b index k).turn w = if w = f.nodes.size then k.turn else f.turn w := by
  rw [turn, shape?_putNode]
  split
  · exact NodeKind.turn_shape
  · rfl

lemma scopeChanges_eq (vs : List ValueId) :
    Edit.scopeChanges f vs = ((vs.map f.turn).map Turn.change).sum := by
  have each (v : ValueId) : ((f.kind? v).map Edit.scopeChange).getD 0 = (f.turn v).change := by
    rw [turn_eq]
    cases f.kind? v with
    | none => rfl
    | some k => exact NodeKind.scopeChange_eq
  have sum (n : Int) : vs.foldl (fun n v => n + ((f.kind? v).map Edit.scopeChange).getD 0) n =
      n + ((vs.map f.turn).map Turn.change).sum := by
    induction vs generalizing n with
    | nil => simp
    | cons v vs ih =>
      rw [List.foldl_cons, ih, each, List.map_cons, List.map_cons, List.sum_cons, Int.add_assoc]
  rw [Edit.scopeChanges, sum, Int.zero_add]

end Turns

section Outlines

lemma outline_of_block? {x : Block} (h : f.block? b = some x) :
    f.outline b = some (outlineOf f.turn x) := by
  rw [outline, h]
  rfl

lemma exists_outline (live : (f.block? b).isSome) : ∃ o, f.outline b = some o := by
  obtain ⟨x, here⟩ := Option.isSome_iff_exists.1 live
  exact ⟨_, outline_of_block? here⟩

lemma isSome_outline : (f.outline b).isSome = (f.block? b).isSome := Option.isSome_map

lemma outline_eq_some {o : Outline} : f.outline b = some o ↔ (f.block? b).isSome ∧
    o = ⟨(f.body b).map f.turn, f.scopeDepth b, (f.terminator b).targets.map (·.1)⟩ := by
  rw [outline, body, scopeDepth, terminator]
  cases f.block? b with
  | none => simp
  | some x => simp [outlineOf, eq_comm]

lemma outline_of_turns (turns : ∀ v, f'.turn v = f.turn v) :
    f'.outline t = (f'.block? t).map (outlineOf f.turn) := by
  rw [outline, funext turns]

lemma outline_congr (blocks : f'.blocks = f.blocks) (turns : ∀ v, f'.turn v = f.turn v) :
    f'.outline t = f.outline t := by
  rw [outline_of_turns turns, block?_congr blocks, outline]

lemma outline_modifyBlock {g : Block → Block} {u : Outline → Outline}
    (changes : ∀ x, outlineOf f.turn (g x) = u (outlineOf f.turn x)) :
    (f.modifyBlock b g).outline t = if t = b then (f.outline t).map u else f.outline t := by
  have turns : (f.modifyBlock b g).turn = f.turn := rfl
  rw [outline, turns, block?_modifyBlock, outline]
  by_cases here : t = b
  · rw [if_pos here.symm, if_pos here, Option.map_map, Option.map_map]
    congr 1
    funext x
    exact changes x
  · rw [if_neg (Ne.symm here), if_neg here]

lemma outline_withEnd {term : Terminator} {hs : List Nat} : (f.withEnd b term hs).outline t =
    if t = b then (f.outline t).map fun o => { o with targets := term.targets.map (·.1) }
    else f.outline t :=
  outline_modifyBlock fun _ => rfl

lemma outline_setDepth {d : Nat} : (f.modifyBlock b fun x => { x with scopeDepth := d }).outline t =
    if t = b then (f.outline t).map fun o => { o with depth := d } else f.outline t :=
  outline_modifyBlock fun _ => rfl

lemma outline_reend {term : Terminator} {hs : List Nat} : (f.reend b term hs).outline t =
    if t = b then (f.outline t).map fun o => { o with targets := term.targets.map (·.1) }
    else f.outline t := by
  rw [← @outline_withEnd _ _ _ _ hs, reend, outline_of_turns fun v => turn_congr shape?_rewire,
    map_rewire (fun _ _ => rfl) fun _ _ => rfl, outline]

lemma outline_pushBlock : (f.pushBlock {}).outline t =
    if t = f.blocks.size then some {} else f.outline t := by
  rw [outline_of_turns fun _ => rfl, block?_pushBlock]
  split
  · rfl
  · rfl

lemma map_turn_putNode {index : Nat} (listed : f.Listed) :
    (f.body t).map (f.putNode b index k).turn = (f.body t).map f.turn := by
  refine List.map_congr_left fun v mem => ?_
  rw [turn_putNode, if_neg]
  rintro rfl
  exact listed.size_notMem t (List.mem_append_right _ mem)

lemma outline_putNode {index : Nat} (listed : f.Listed) : (f.putNode b index k).outline t =
    if t = b ∧ k.isPhi = false then
      (f.outline t).map fun o => { o with turns := o.turns.insertIdx index k.turn }
    else f.outline t := by
  have old : (f.body t).map (f.putNode b index k).turn = (f.body t).map f.turn :=
    map_turn_putNode listed
  have new : (f.putNode b index k).turn f.nodes.size = k.turn := by rw [turn_putNode, if_pos rfl]
  rw [outline, outline, putNode, block?_modifyBlock, block?_withNodes]
  rw [body] at old
  cases here : f.block? t with
  | none => simp
  | some x =>
    rw [here] at old
    have turns : x.body.map (f.putNode b index k).turn = x.body.map f.turn := old
    by_cases same : t = b
    · rw [if_pos same.symm]
      cases phi : k.isPhi with
      | true =>
        rw [if_neg (by simp)]
        simp only [Option.map_some, if_true, outlineOf]
        exact congrArg (fun ts => some (Outline.mk ts _ _)) turns
      | false =>
        rw [if_pos ⟨same, rfl⟩]
        simp only [Option.map_some, Bool.false_eq_true, if_false, outlineOf]
        refine congrArg (fun ts => some (Outline.mk ts _ _)) ?_
        change (x.body.insertIdx index f.nodes.size).map (f.putNode b index k).turn = _
        rw [List.map_insertIdx, new, turns]
    · rw [if_neg (Ne.symm same), if_neg fun h => same h.1]
      exact congrArg (fun ts => some (Outline.mk ts _ _)) turns

lemma outline_withBlock {depth : Nat} : (f.withBlock depth).outline t =
    if t = f.blocks.size then some { depth := depth } else f.outline t := by
  rw [withBlock, outline_setDepth, outline_pushBlock]
  split
  · rfl
  · rfl

lemma outline_beside {depth : Nat} : (f.beside source depth).outline t =
    if t = f.blocks.size then some { depth := depth } else f.outline t := by
  rw [beside, outline_reend, outline_withBlock]
  split
  · rfl
  · rfl

lemma outline_modifyPhis {vs : List ValueId} {g : List PhiInput → List PhiInput} :
    (f.modifyPhis vs g).outline t = f.outline t :=
  outline_congr blocks_modifyPhis fun _ => turn_congr shape?_modifyPhis

lemma outline_onEdge {kind : EdgeKind} {depth : Nat} (live : (f.block? source).isSome) :
    (f.onEdge source target kind depth).outline t =
      if t = f.blocks.size then some { depth := depth, targets := [target] }
      else if t = source then (f.outline t).map fun o =>
        { o with targets := (f.retargeted source kind f.blocks.size).targets.map (·.1) }
      else f.outline t := by
  have other : source ≠ f.blocks.size := size_ne_of_isSome live
  rw [onEdge, outline_reend, enteredEdge, outline_reend, preparedEdge, outline_modifyPhis,
    outline_beside]
  by_cases new : t = f.blocks.size
  · rw [if_pos new, if_pos new, if_pos new, if_neg (new ▸ other.symm)]
    rfl
  · rw [if_neg new, if_neg new, if_neg new]

lemma outline_handPhis {tail : BlockId} {es : List (BlockId × EdgeKind)} :
    (f.handPhis b tail es).outline t = f.outline t :=
  outline_congr blocks_handPhis fun _ => turn_congr shape?_handPhis

lemma shape?_cutBody {tail : BlockId} {index depth : Nat} :
    (f.cutBody b tail index depth).shape? v = f.shape? v := by
  rw [cutBody, shape?_modifyBlock, shape?_modifyBlock, shape?_handNodes, shape?_modifyBlock]

lemma outline_cutBody {tail : BlockId} {index depth : Nat} (other : tail ≠ b) :
    (f.cutBody b tail index depth).outline t =
      if t = tail then (f.outline t).map fun o => { o with turns := ((f.body b).drop index).map f.turn }
      else if t = b then (f.outline t).map fun o =>
        { o with turns := o.turns.take index, depth := depth }
      else f.outline t := by
  have turns (v) : (f.cutBody b tail index depth).turn v = f.turn v := turn_congr shape?_cutBody
  rw [outline_of_turns turns, outline, cutBody, block?_modifyBlock, block?_modifyBlock,
    block?_congr blocks_handNodes, block?_modifyBlock]
  by_cases first : t = tail
  · rw [if_neg (fun same => other (first.symm.trans same.symm)), if_pos first.symm, if_pos first,
      if_neg (fun same => other (first.symm.trans same.symm)), Option.map_map, Option.map_map]
    rfl
  · rw [if_neg (Ne.symm first), if_neg first]
    by_cases second : t = b
    · rw [if_pos second.symm, if_pos second, if_pos second.symm, Option.map_map, Option.map_map,
        Option.map_map]
      congr 1
      funext x
      simp [outlineOf, List.map_take]
    · rw [if_neg (Ne.symm second), if_neg second, if_neg (Ne.symm second)]

lemma shape?_beside {depth : Nat} : (f.beside b depth).shape? v = f.shape? v := by
  rw [beside, shape?_reend]
  rfl

lemma shape?_cut {index depth depth' : Nat} : (f.cut b index depth depth').shape? v = f.shape? v := by
  rw [cut, shape?_reend, enteredCut, shape?_reend]
  change (f.preparedCut b index depth depth').shape? v = _
  rw [preparedCut, shape?_handPhis, shape?_cutBody, shape?_beside]

lemma outline_cut {index depth depth' : Nat} {o : Outline} (here : f.outline b = some o) :
    (f.cut b index depth depth').outline t =
      if t = f.blocks.size then some ⟨o.turns.drop index, depth, o.targets⟩
      else if t = b then some ⟨o.turns.take index, depth', [f.blocks.size]⟩
      else f.outline t := by
  obtain ⟨live, rfl⟩ := outline_eq_some.1 here
  have other : f.blocks.size ≠ b := (size_ne_of_isSome live).symm
  rw [cut, outline_reend, enteredCut, outline_reend, outline_withEnd, preparedCut, outline_handPhis,
    outline_cutBody other, outline_beside, body_beside]
  by_cases new : t = f.blocks.size
  · rw [if_neg (new ▸ other), if_pos new, if_neg (new ▸ other), if_pos new, if_pos new, if_pos new]
    have turns (v) : (f.beside b depth).turn v = f.turn v := turn_congr shape?_beside
    simp [funext turns, List.map_drop]
  · rw [if_neg new, if_neg new, if_neg new, if_neg new]
    by_cases same : t = b
    · rw [if_pos same, if_pos same, if_pos same, if_pos same, same, here]
      rfl
    · rw [if_neg same, if_neg same, if_neg same, if_neg same]

lemma outline_without {x : Block} (listed : f.Listed) (here : f.block? b = some x) :
    (f.without b x).outline t = if t = b then none else f.outline t := by
  by_cases same : t = b
  · rw [if_pos same, ← Option.not_isSome_iff_eq_none, isSome_outline, isSome_without, same]
    simp
  · rw [if_neg same, outline, outline]
    have parts := map_without (f := f) (b := b) (x := x) (t := t)
      (p := fun y => (y.body, y.scopeDepth, y.terminator)) (fun _ _ => rfl) fun _ _ => rfl
    rw [if_neg same] at parts
    cases found : f.block? t with
    | none =>
      rw [found] at parts
      rw [Option.map_eq_none_iff.1 parts]
      rfl
    | some y =>
      rw [found] at parts
      obtain ⟨z, left, eq⟩ := Option.map_eq_some_iff.1 parts
      rw [left]
      simp only [Prod.mk.injEq] at eq
      simp only [Option.map_some, outlineOf, eq.1, eq.2.1, eq.2.2]
      refine congrArg (fun ts => some (Outline.mk ts _ _)) (List.map_congr_left fun v mem => turn_congr ?_)
      have own : v ∈ f.nodesOf t := List.mem_append_right _ (by rwa [body_of_block? found])
      rw [shape?_without, if_neg (listed.notMem_nodeIds here own same)]

end Outlines

section Steadiness

/-- The blocks that are left do the same to the scope stack, go on as before or at fewer places, and can
be written if they could be before. -/
structure Steady (f f' : Func) : Prop where
  catches : f'.handlers = f.handlers
  size : f'.blocks.size = f.blocks.size
  outline : ∀ b o', f'.outline b = some o' → ∃ o, f.outline b = some o ∧ o'.Within o
  writable : ∀ pool, f.Writable pool → f'.Writable pool

namespace Steady

lemma refl (f : Func) : Steady f f :=
  ⟨rfl, rfl, fun _ o here => ⟨o, here, .refl o⟩, fun _ writable => writable⟩

lemma trans (h : Steady f f') (h' : Steady f' f'') : Steady f f'' where
  catches := h'.catches.trans h.catches
  size := h'.size.trans h.size
  outline b o'' here := by
    obtain ⟨o', there, within'⟩ := h'.outline b o'' here
    obtain ⟨o, there, within⟩ := h.outline b o' there
    exact ⟨o, there, within.trans within'⟩
  writable pool writable := h'.writable pool (h.writable pool writable)

/-- What keeps the edges and the depths of blocks, and changes their nodes within bounds. -/
lemma of_sameFlow (flow : SameFlow f f') (depth : ∀ b, f'.scopeDepth b = f.scopeDepth b)
    (turns : ∀ b, ((f'.body b).map f'.turn).filter (· != .still) =
      ((f.body b).map f.turn).filter (· != .still))
    (late : ∀ b, .catches ∈ ((f'.body b).map f'.turn).tail → .catches ∈ ((f.body b).map f.turn).tail)
    (nodes : ∀ pool v k, f'.shape? v = some k → f.shape? v = some k ∨ k.Writable pool) :
    Steady f f' where
  catches := flow.catches
  size := flow.size
  outline b o' here := by
    obtain ⟨live, rfl⟩ := outline_eq_some.1 here
    rw [flow.isSome] at live
    refine ⟨_, outline_eq_some.2 ⟨live, rfl⟩, depth b, ?_, turns b, late b⟩
    rw [flow.targets]
    exact fun _ mem => mem
  writable pool writable := writable.sameFlow flow (nodes pool)

lemma of_turns (flow : SameFlow f f') (depth : ∀ b, f'.scopeDepth b = f.scopeDepth b)
    (body : ∀ b, f'.body b = f.body b) (shapes : ∀ v, f'.shape? v = f.shape? v) : Steady f f' := by
  have turns : f'.turn = f.turn := funext fun v => turn_congr (shapes v)
  have same (b) : (f'.body b).map f'.turn = (f.body b).map f.turn := by
    rw [body, turns]
  refine of_sameFlow flow depth (fun b => ?_) (fun b mem => ?_) fun _ v k here => .inl ?_
  · rw [same]
  · rwa [same] at mem
  · rwa [shapes] at here

lemma scopeDepth_congr (h : (f'.block? t).map (·.scopeDepth) = (f.block? t).map (·.scopeDepth)) :
    f'.scopeDepth t = f.scopeDepth t := by
  rw [scopeDepth, h, ← scopeDepth]

lemma replaceUses (f : Func) (v : ValueId) (new : Value) : Steady f (f.replaceUses v new) := by
  have alike := alike_replaceUses (f := f) v new
  refine of_turns alike.toSameFlow (fun b => scopeDepth_congr ?_) alike.body fun _ => shape?_replaceUses
  simp only [block?, Func.replaceUses, Array.getElem?_map]
  cases f.blocks[b]? with
  | none => rfl
  | some x => cases x <;> rfl

lemma modifyKind {u : NodeKind → NodeKind} (keeps : ∀ k, (u k).shape = k.shape) :
    Steady f (f.modifyKind v u) :=
  of_turns (sameFlow_of_map rfl rfl fun _ _ => rfl) (fun _ => rfl) (fun _ => rfl) fun _ =>
    shape?_modifyNode fun n => keeps n.kind

lemma filter_map_filter_ne {turn : ValueId → Turn} {l : List ValueId} (still : turn v = .still) :
    ((l.filter (· != v)).map turn).filter (· != .still) = (l.map turn).filter (· != .still) := by
  rw [List.filter_map, List.filter_map, List.filter_filter]
  congr 1
  refine List.filter_congr fun w _ => ?_
  by_cases same : w = v
  · simp [same, still]
  · simp [same]

lemma body_dropNode : (f.dropNode v).body b = f.body b ∨
    (f.dropNode v).body b = (f.body b).filter (· != v) := by
  rw [Func.dropNode]
  split
  · exact .inl rfl
  · rw [body, block?_modifyBlock, body]
    split
    · right
      cases here : f.block? b with
      | none => simp [here]
      | some x => simp [here]
    · exact .inl rfl

lemma dropNode (still : f.turn v = .still) : Steady f (f.dropNode v) := by
  have turns : (f.dropNode v).turn = f.turn := funext fun w => turn_dropNode still
  refine of_sameFlow sameFlow_dropNode (fun b => ?_) (fun b => ?_) (fun b mem => ?_) fun _ w k here => ?_
  · exact scopeDepth_congr (map_dropNode fun _ _ _ => rfl)
  · rw [turns]
    obtain same | less := body_dropNode (f := f) (v := v) (b := b)
    · rw [same]
    · rw [less, filter_map_filter_ne still]
  · rw [turns] at mem
    obtain same | less := body_dropNode (f := f) (v := v) (b := b)
    · rwa [same] at mem
    · rw [less] at mem
      exact (List.filter_sublist.map f.turn).tail.subset mem
  · rw [shape?_dropNode] at here
    split at here
    · cases here
    · exact .inl here

lemma replace (f : Func) (new : Value) (still : f.turn v = .still) :
    Steady f ((f.replaceUses v new).dropNode v) := by
  refine (replaceUses f v new).trans (dropNode ?_)
  rw [turn_congr shape?_replaceUses, still]

lemma body_moveTo {index : Nat} (source t v) (last : (f.body b).length ≤ index) : ∃ l,
    (l = f.body t ∨ l = (f.body t).filter (· != v)) ∧
      ((f.moveTo v source b index).body t = l ∨ (f.moveTo v source b index).body t = l ++ [v]) := by
  set g := f.modifyBlock source fun x => { x with body := x.body.filter (· != v) } with taken
  have out : g.body t = f.body t ∨ g.body t = (f.body t).filter (· != v) := by
    rw [taken, body, block?_modifyBlock, body]
    cases f.block? t with
    | none => simp
    | some x =>
      split
      · exact .inr rfl
      · exact .inl rfl
  refine ⟨g.body t, out, ?_⟩
  rw [Func.moveTo, ← taken, body, block?_modifyNode, block?_modifyBlock]
  split
  · rename_i same
    subst same
    rw [body] at out ⊢
    cases here : g.block? b with
    | none => exact .inl rfl
    | some x =>
      right
      rw [here] at out
      have short : x.body.length ≤ (f.body b).length := by
        obtain eq | eq := out
        · exact (congrArg List.length eq).le
        · exact (congrArg List.length eq).le.trans (List.length_filter_le _ _)
      rw [Option.map_some, Option.map_some, Option.getD_some, Nat.min_eq_right (short.trans last)]
      exact List.insertIdx_length_self
  · exact .inl rfl

lemma moveTo {index : Nat} (still : f.turn v = .still) (last : (f.body b).length ≤ index) :
    Steady f (f.moveTo v source b index) := by
  have turns : (f.moveTo v source b index).turn = f.turn := funext fun w => turn_congr shape?_moveTo
  refine of_sameFlow sameFlow_moveTo (fun t => scopeDepth_congr (map_moveTo fun _ _ => rfl))
    (fun t => ?_) (fun t mem => ?_) fun _ w k here => .inl (by rwa [shape?_moveTo] at here)
  · obtain ⟨l, old, new⟩ := body_moveTo source t v last
    have less : (l.map f.turn).filter (· != .still) = ((f.body t).map f.turn).filter (· != .still) := by
      obtain rfl | rfl := old
      · rfl
      · exact filter_map_filter_ne still
    rw [turns, ← less]
    obtain same | more := new
    · rw [same]
    · rw [more, List.map_append, List.filter_append, List.map_singleton, still]
      exact List.append_nil _
  · obtain ⟨l, old, new⟩ := body_moveTo source t v last
    have less : (l.map f.turn).tail ⊆ ((f.body t).map f.turn).tail := by
      obtain rfl | rfl := old
      · exact fun _ mem => mem
      · exact (List.filter_sublist.map f.turn).tail.subset
    rw [turns] at mem
    apply less
    obtain same | more := new
    · rwa [same] at mem
    · rw [more, List.map_append, List.map_singleton, still] at mem
      cases l with
      | nil => cases mem
      | cons w l => simpa using mem

lemma reend {term : Terminator} {hs : List Nat} (live : (f.block? b).isSome)
    (fewer : ∀ e ∈ term.targets, ∃ kind, (e.1, kind) ∈ (f.terminator b).targets)
    (writable : (f.terminator b).Writable → term.Writable) : Steady f (f.reend b term hs) where
  catches := sameNodes_reend.catches
  size := sameNodes_reend.size
  outline t o' here := by
    rw [outline_reend] at here
    split at here
    · rename_i same
      obtain ⟨o, there, rfl⟩ := Option.map_eq_some_iff.1 here
      refine ⟨o, there, rfl, fun s mem => ?_, rfl, id⟩
      obtain ⟨e, goes, rfl⟩ := List.mem_map.1 mem
      obtain ⟨kind, goes⟩ := fewer e goes
      obtain ⟨-, rfl⟩ := outline_eq_some.1 there
      rw [same]
      exact List.mem_map.2 ⟨_, goes, rfl⟩
    · exact ⟨o', here, .refl o'⟩
  writable pool old := old.reend live (writable (old.ends b))

lemma without {x : Block} (listed : f.Listed) (here : f.block? b = some x) :
    Steady f (f.without b x) where
  catches := catches_without
  size := size_without
  outline t o' there := by
    rw [outline_without listed here] at there
    split at there
    · cases there
    · exact ⟨o', there, .refl o'⟩
  writable pool writable := by
    refine ⟨fun v k there => ?_, fun t => ?_⟩
    · rw [shape?_without] at there
      split at there
      · cases there
      · exact writable.nodes v k there
    · rw [terminator_without]
      split
      · trivial
      · exact writable.ends t

lemma foldl {α β : Type} {step : Func × β → α → Func × β}
    (each : ∀ acc a, Steady acc.1 (step acc a).1) (l : List α) (acc : Func × β) :
    Steady acc.1 (l.foldl step acc).1 := by
  induction l generalizing acc with
  | nil => exact refl _
  | cons a l ih => exact (each acc a).trans (ih _)

lemma foldl_dropNode (vs : List ValueId) (still : ∀ v ∈ vs, f.turn v = .still) :
    Steady f (vs.foldl Func.dropNode f) := by
  induction vs generalizing f with
  | nil => exact refl f
  | cons v vs ih =>
    have first := still v List.mem_cons_self
    refine (dropNode first).trans (ih fun w mem => ?_)
    rw [turn_dropNode first]
    exact still w (List.mem_cons_of_mem _ mem)

end Steady

lemma Trims.listed (h : Trims f f') (listed : f.Listed) : f'.Listed := by
  induction h with
  | refl => exact listed
  | alike _ same ih => exact ih.sameNodes same.toSameNodes
  | drop v _ ih => exact ih.dropNode v

/-- A graph with its nodes listed in the right places that comes of another one by steady edits. -/
structure Lessened (f₀ f : Func) : Prop extends Steady f₀ f, Listed f

lemma Lessened.trims {f₀ : Func} (h : Lessened f₀ f) (steady : Steady f f') (trims : Trims f f') :
    Lessened f₀ f' :=
  ⟨h.toSteady.trans steady, trims.listed h.toListed⟩

end Steadiness

end Func

end Avm.Ir
