import Avm.Proofs.Depth.Merging

/-!
# Smaller graphs have the same bounds

The third way in which a graph of summaries is made smaller joins branches of a node that lead to one
place, and takes away a direct edge to that place.  It loses no depth either, and so nothing is lost
when the three are repeated until none of them applies.

The main statement is `bounded_of_reduce`.
-/

namespace Avm.DepthGraph

variable {g g' : DepthGraph} {n m a b : Nat} {k : StackKind} {bound : Int} {rest : List Nat}

/-- Branches of a node that only it leads to, and that all lead on to one place or to none. -/
structure Group (g : DepthGraph) (a : Nat) (target : Option Nat) (members : List Nat) : Prop where
  branch : ∀ b ∈ members, b ∈ g.succs a
  other : ∀ b ∈ members, b ≠ a
  entered : ∀ b ∈ members, ∀ x, b ∈ g.succs x → x = a
  leads : ∀ b ∈ members, g.succs b = target.toList
  nodup : members.Nodup

variable {target : Option Nat} {keep : Nat} {others : List Nat}

lemma mem_succs_foldl_removeNode {x : Nat} :
    m ∈ (others.foldl removeNode g).succs x ↔ x ∉ others ∧ m ∉ others ∧ m ∈ g.succs x := by
  induction others generalizing g with
  | nil => simp
  | cons n rest ih =>
    rw [List.foldl_cons, ih, mem_succs_removeNode]
    simp only [List.mem_cons, not_or]
    tauto

lemma summary_foldl_removeNode {x : Nat} (absent : x ∉ others) :
    (others.foldl removeNode g).summary x = g.summary x := by
  induction others generalizing g with
  | nil => rfl
  | cons n rest ih =>
    obtain ⟨ne, absent⟩ := not_or.1 (List.mem_cons.not.1 absent)
    rw [List.foldl_cons, ih absent, summary_removeNode ne]

lemma isSome_node?_foldl_removeNode {x : Nat} :
    ((others.foldl removeNode g).node? x).isSome = true ↔
      x ∉ others ∧ (g.node? x).isSome = true := by
  induction others generalizing g with
  | nil => simp
  | cons n rest ih =>
    rw [List.foldl_cons, ih, isSome_node?_removeNode]
    simp only [List.mem_cons, not_or]
    tauto

@[simp] lemma size_foldl_removeNode : (others.foldl removeNode g).size = g.size := by
  induction others generalizing g with
  | nil => rfl
  | cons n rest ih => rw [List.foldl_cons, ih, size_removeNode]

lemma Tidy.foldl_removeNode (tidy : g.Tidy) : (others.foldl DepthGraph.removeNode g).Tidy := by
  induction others generalizing g with
  | nil => exact tidy
  | cons n rest ih => exact ih tidy.removeNode

lemma le_foldl_join {s : Summary} {bs : List Nat} :
    let joined := bs.foldl (fun s b => s.join (g.summary b)) s
    ((s.on k).net ≤ (joined.on k).net ∧ (s.on k).peak ≤ (joined.on k).peak) ∧
    ∀ b ∈ bs, ((g.summary b).on k).net ≤ (joined.on k).net ∧
      ((g.summary b).on k).peak ≤ (joined.on k).peak := by
  induction bs generalizing s with
  | nil => exact ⟨⟨le_refl _, le_refl _⟩, fun b mem => absurd mem List.not_mem_nil⟩
  | cons c rest ih =>
    obtain ⟨⟨net, peak⟩, others⟩ := @ih (s.join (g.summary c))
    rw [Summary.on_join, Delta.join] at net peak
    dsimp only at net peak
    refine ⟨⟨le_trans (le_max_left _ _) net, le_trans (le_max_left _ _) peak⟩, ?_⟩
    refine List.forall_mem_cons.2 ⟨?_, others⟩
    exact ⟨le_trans (le_max_right _ _) net, le_trans (le_max_right _ _) peak⟩

/-- The effect of a group, which that of a direct edge belongs to. -/
def joined (g : DepthGraph) (a : Nat) (target : Option Nat) (keep : Nat) (others : List Nat) :
    Summary :=
  let s := others.foldl (fun s b => s.join (g.summary b)) (g.summary keep)
  if g.isDirect a target then s.join {} else s

/-- The graph without the branches that are not kept, and without the direct edge. -/
def pruned (g : DepthGraph) (a : Nat) (target : Option Nat) (others : List Nat) : DepthGraph :=
  let h := others.foldl removeNode g
  if g.isDirect a target then
    h.setNode a ⟨h.summary a, (h.succs a).filter fun s => some s != target⟩ else h

/-- What stands for a node once a group is joined. -/
def image (keep : Nat) (others : List Nat) (n : Nat) : Nat := if n ∈ others then keep else n

lemma image_of_mem (h : n ∈ keep :: others) : image keep others n = keep := by
  rw [image]
  split
  · rfl
  · rename_i absent
    exact (List.mem_cons.1 h).resolve_right absent

lemma image_of_not_mem (h : n ∉ keep :: others) : image keep others n = n :=
  if_neg fun mem => h (List.mem_cons_of_mem _ mem)

lemma image_eq_or (keep : Nat) (others : List Nat) (n : Nat) :
    image keep others n = keep ∨ image keep others n ∈ n :: rest := by
  rw [image]
  split
  · exact .inl rfl
  · exact .inr List.mem_cons_self

lemma joinGroup_eq : g.joinGroup a target keep others =
    (g.pruned a target others).setNode keep ⟨g.joined a target keep others, g.succs keep⟩ := rfl

lemma le_joined : ∀ b ∈ keep :: others,
    ((g.summary b).on k).net ≤ ((g.joined a target keep others).on k).net ∧
    ((g.summary b).on k).peak ≤ ((g.joined a target keep others).on k).peak := by
  obtain ⟨first, rest⟩ := @le_foldl_join g k (g.summary keep) others
  intro b mem
  have above : ((g.summary b).on k).net ≤ ((others.foldl (fun s b => s.join (g.summary b))
        (g.summary keep)).on k).net ∧
      ((g.summary b).on k).peak ≤ ((others.foldl (fun s b => s.join (g.summary b))
        (g.summary keep)).on k).peak := by
    obtain rfl | mem := List.mem_cons.1 mem
    · exact first
    · exact rest b mem
  rw [joined]
  split
  · rw [Summary.on_join, Delta.join]
    exact ⟨le_max_of_le_left above.1, le_max_of_le_left above.2⟩
  · exact above

lemma net_joined_nonneg (direct : g.isDirect a target = true) :
    0 ≤ ((g.joined a target keep others).on k).net := by
  rw [joined, if_pos direct, Summary.on_join, Summary.on_default]
  exact le_max_right _ _

lemma exists_of_isDirect (direct : g.isDirect a target = true) :
    ∃ t, target = some t ∧ t ∈ g.succs a := by
  obtain ⟨t, rfl, mem⟩ := (Option.any_eq_true _ _).1 direct
  exact ⟨t, rfl, by simpa using mem⟩

lemma lt_size_of_isDirect (direct : g.isDirect a target = true) :
    a < (others.foldl removeNode g).size := by
  obtain ⟨t, -, edge⟩ := exists_of_isDirect direct
  rw [size_foldl_removeNode]
  exact lt_size_of_mem_succs edge

lemma mem_succs_pruned (apart : a ∉ others) {x : Nat} : m ∈ (g.pruned a target others).succs x ↔
    x ∉ others ∧ m ∉ others ∧ m ∈ g.succs x ∧
      ¬(x = a ∧ g.isDirect a target = true ∧ some m = target) := by
  rw [pruned]
  split
  · rename_i direct
    have lt := @lt_size_of_isDirect g a target others direct
    by_cases same : x = a
    · subst same
      rw [succs_setNode_self lt, List.mem_filter, mem_succs_foldl_removeNode]
      simp only [bne_iff_ne, direct, true_and, ne_eq]
      tauto
    · rw [succs_setNode_ne same, mem_succs_foldl_removeNode]
      simp only [same, false_and, not_false_eq_true, and_true]
  · rename_i indirect
    rw [mem_succs_foldl_removeNode]
    simp only [indirect, Bool.false_eq_true, false_and, and_false, not_false_eq_true, and_true]

lemma summary_pruned {x : Nat} (absent : x ∉ others) :
    (g.pruned a target others).summary x = g.summary x := by
  rw [pruned]
  split
  · rename_i direct
    have lt := @lt_size_of_isDirect g a target others direct
    by_cases same : x = a
    · subst same
      rw [summary_setNode_self lt, summary_foldl_removeNode absent]
    · rw [summary_setNode_ne same, summary_foldl_removeNode absent]
  · exact summary_foldl_removeNode absent

lemma isSome_node?_setNode {d : DepthNode} (h : (g.node? m).isSome = true) :
    ((g.setNode n d).node? m).isSome = true := by
  by_cases same : m = n
  · subst same
    rw [node?_setNode_self (lt_size_of_isSome h)]
    rfl
  · rwa [node?_setNode_ne same]

lemma isSome_node?_pruned (absent : m ∉ others) (h : (g.node? m).isSome = true) :
    ((g.pruned a target others).node? m).isSome = true := by
  have there := (@isSome_node?_foldl_removeNode g others m).2 ⟨absent, h⟩
  rw [pruned]
  split
  · exact isSome_node?_setNode there
  · exact there

lemma nodup_succs_pruned (tidy : g.Tidy) {x : Nat} :
    ((g.pruned a target others).succs x).Nodup := by
  have nodup := (@Tidy.foldl_removeNode g others tidy).nodup
  rw [pruned]
  split
  · rename_i direct
    have lt := @lt_size_of_isDirect g a target others direct
    by_cases same : x = a
    · subst same
      rw [succs_setNode_self lt]
      exact (nodup x).filter _
    · rw [succs_setNode_ne same]
      exact nodup x
  · exact nodup x

/-- A trail goes the same way when a group is joined: it takes the branch that is kept for any of the group and
for the direct edge.  It gets no less deep, and comes by the branch only behind the node with the branches. -/
structure Carries (g : DepthGraph) (k : StackKind) (a : Nat) (target : Option Nat) (keep : Nat) (others : List Nat)
    (n : Nat) (rest rest' : List Nat) : Prop where
  trail : (g.joinGroup a target keep others).Trail (image keep others n :: rest')
  height : g.height k rest ≤ (g.joinGroup a target keep others).height k rest'
  sub : ∀ x ∈ rest', x = keep ∨ x ∈ rest
  behind : keep ∈ image keep others n :: rest' → a ∈ rest

section

variable (group : g.Group a target (keep :: others)) (tidy : g.Tidy)

include group

lemma Group.keep_not_mem : keep ∉ others := (List.nodup_cons.1 group.nodup).1

lemma Group.apart : a ∉ keep :: others := fun mem => group.other a mem rfl

/-- The place that a group leads to is none of its branches, which are entered from elsewhere. -/
lemma Group.target_not_mem (mem : m ∈ target.toList) : m ∉ keep :: others := by
  intro branch
  have edge : m ∈ g.succs keep := by
    rw [group.leads keep List.mem_cons_self]
    exact mem
  exact group.other keep List.mem_cons_self (group.entered m branch keep edge)

include tidy

lemma Group.inner {b : Nat} (mem : b ∈ keep :: others) : b ≠ 0 := by
  rintro rfl
  exact group.other 0 mem (tidy.root a (group.branch 0 mem)).symm

lemma Group.keep_lt : keep < (g.pruned a target others).size := by
  have there := tidy.closed a keep (group.branch keep List.mem_cons_self)
  exact lt_size_of_isSome (isSome_node?_pruned group.keep_not_mem there)

lemma Group.succs_keep : (g.joinGroup a target keep others).succs keep = target.toList := by
  rw [joinGroup_eq, succs_setNode_self (group.keep_lt tidy), group.leads keep List.mem_cons_self]

lemma Group.summary_keep :
    (g.joinGroup a target keep others).summary keep = g.joined a target keep others := by
  rw [joinGroup_eq, summary_setNode_self (group.keep_lt tidy)]

omit tidy

lemma Group.mem_succs {x : Nat} (ne : x ≠ keep) :
    m ∈ (g.joinGroup a target keep others).succs x ↔
      x ∉ others ∧ m ∉ others ∧ m ∈ g.succs x ∧
        ¬(x = a ∧ g.isDirect a target = true ∧ some m = target) := by
  rw [joinGroup_eq, succs_setNode_ne ne]
  exact mem_succs_pruned fun mem => group.apart (List.mem_cons_of_mem _ mem)

omit group in
lemma summary_joinGroup {x : Nat} (absent : x ∉ keep :: others) :
    (g.joinGroup a target keep others).summary x = g.summary x := by
  obtain ⟨ne, absent⟩ := not_or.1 (List.mem_cons.not.1 absent)
  rw [joinGroup_eq, summary_setNode_ne ne, summary_pruned absent]

lemma Group.keep_mem_succs : keep ∈ (g.joinGroup a target keep others).succs a := by
  obtain ⟨ne, absent⟩ := not_or.1 (List.mem_cons.not.1 group.apart)
  refine (group.mem_succs ne).2 ⟨absent, group.keep_not_mem, ?_, ?_⟩
  · exact group.branch keep List.mem_cons_self
  · rintro ⟨-, -, rfl⟩
    exact group.target_not_mem (List.mem_singleton_self keep) List.mem_cons_self

include tidy

section Carrying

variable {p : Nat} {before rest' : List Nat} (carries : g.Carries k a target keep others p before rest')
  (trail : g.Trail (p :: before)) (edge : n ∈ g.succs p)

include carries

omit group tidy in
lemma Carries.mem_or (mem : m ∈ image keep others p :: rest') : m = keep ∨ m ∈ p :: before := by
  obtain rfl | mem := List.mem_cons.1 mem
  · exact image_eq_or keep others p
  · exact (carries.sub m mem).imp_right (List.mem_cons_of_mem p)

omit group tidy in
lemma Carries.fresh (new : n ∉ p :: before) (branch : n ∉ keep :: others) : n ∉ image keep others p :: rest' := by
  intro mem
  obtain rfl | mem := carries.mem_or mem
  · exact branch List.mem_cons_self
  · exact new mem

include trail edge

omit tidy in
lemma Carries.into_branch (branch : n ∈ keep :: others) :
    ∃ rest'', g.Carries k a target keep others n (p :: before) rest'' := by
  obtain rfl : p = a := group.entered n branch p edge
  have sub := fun x => carries.mem_or (m := x)
  obtain ⟨trail', height, -, behind⟩ := carries
  rw [image_of_not_mem group.apart] at trail' behind sub
  have fresh : keep ∉ p :: rest' := fun mem => (List.nodup_cons.1 trail.nodup).1 (behind mem)
  refine ⟨p :: rest', ?_, ?_, sub, fun _ => List.mem_cons_self⟩
  · rw [image_of_mem branch]
    exact trail'.step group.keep_mem_succs fresh
  · rw [height_cons, height_cons, summary_joinGroup group.apart]
    omega

variable (new : n ∉ p :: before) (branch : n ∉ keep :: others)

include new branch

omit trail in
lemma Carries.out_of_branch (inside : p ∈ keep :: others) :
    ∃ rest'', g.Carries k a target keep others n (p :: before) rest'' := by
  have sub := fun x => carries.mem_or (m := x)
  have fresh := carries.fresh new branch
  obtain ⟨trail', height, -, behind⟩ := carries
  rw [image_of_mem inside] at trail' behind sub fresh
  have edge' : n ∈ (g.joinGroup a target keep others).succs keep := by
    rw [group.succs_keep tidy, ← group.leads p inside]
    exact edge
  refine ⟨keep :: rest', ?_, ?_, sub, fun _ => List.mem_cons_of_mem p (behind List.mem_cons_self)⟩
  · rw [image_of_not_mem branch]
    exact trail'.step edge' fresh
  · have above := (@le_joined g a k target keep others p inside).1
    rw [height_cons, height_cons, group.summary_keep tidy]
    omega

omit edge in
lemma Carries.direct (same : p = a) (isDirect : g.isDirect a target = true) (leads : some n = target) :
    ∃ rest'', g.Carries k a target keep others n (p :: before) rest'' := by
  subst same leads
  have sub := fun x => carries.mem_or (m := x)
  have fresh := carries.fresh new branch
  obtain ⟨trail', height, -, behind⟩ := carries
  rw [image_of_not_mem group.apart] at trail' behind sub fresh
  have first : keep ∉ p :: rest' := fun mem => (List.nodup_cons.1 trail.nodup).1 (behind mem)
  have edge : n ∈ (g.joinGroup p (some n) keep others).succs keep := by
    rw [group.succs_keep tidy]
    exact List.mem_singleton_self n
  have fresh' : n ∉ keep :: p :: rest' := by
    rw [List.mem_cons, not_or]
    exact ⟨fun same => branch (same ▸ List.mem_cons_self), fresh⟩
  refine ⟨keep :: p :: rest', ?_, ?_, List.forall_mem_cons.2 ⟨.inl rfl, sub⟩, fun _ => List.mem_cons_self⟩
  · rw [image_of_not_mem branch]
    exact (trail'.step group.keep_mem_succs first).step edge fresh'
  · have nonneg := @net_joined_nonneg g p k (some n) keep others isDirect
    rw [height_cons, height_cons, height_cons, group.summary_keep tidy, summary_joinGroup group.apart]
    omega

omit tidy trail in
lemma Carries.elsewhere (inside : p ∉ keep :: others)
    (direct : ¬(p = a ∧ g.isDirect a target = true ∧ some n = target)) :
    ∃ rest'', g.Carries k a target keep others n (p :: before) rest'' := by
  have sub := fun x => carries.mem_or (m := x)
  have fresh := carries.fresh new branch
  obtain ⟨trail', height, -, behind⟩ := carries
  rw [image_of_not_mem inside] at trail' behind sub fresh
  have edge' : n ∈ (g.joinGroup a target keep others).succs p :=
    (group.mem_succs fun same => inside (same ▸ List.mem_cons_self)).2
      ⟨fun mem => inside (List.mem_cons_of_mem _ mem), fun mem => branch (List.mem_cons_of_mem _ mem), edge, direct⟩
  refine ⟨p :: rest', ?_, ?_, sub, fun mem => ?_⟩
  · rw [image_of_not_mem branch]
    exact trail'.step edge' fresh
  · rw [height_cons, height_cons, summary_joinGroup inside]
    omega
  · rw [image_of_not_mem branch] at mem
    obtain same | mem := List.mem_cons.1 mem
    · exact absurd (same ▸ List.mem_cons_self) branch
    · exact List.mem_cons_of_mem p (behind mem)

end Carrying

/-- A trail stays one if it takes the branch that is kept for any of its group and for the direct edge,
and it gets no less deep. -/
lemma trail_joinGroup (k : StackKind) (trail : g.Trail (n :: rest)) :
    ∃ rest', g.Carries k a target keep others n rest rest' := by
  generalize eq : n :: rest = t at trail
  induction trail generalizing n rest with
  | root =>
    obtain ⟨rfl, rfl⟩ := List.cons.inj eq
    have outside : 0 ∉ keep :: others := fun mem => group.inner tidy mem rfl
    refine ⟨[], ?_, le_refl _, fun x mem => absurd mem List.not_mem_nil, fun mem => ?_⟩
    · rw [image_of_not_mem outside]
      exact .root
    · rw [image_of_not_mem outside] at mem
      rw [← List.mem_singleton.1 mem] at outside
      exact absurd List.mem_cons_self outside
  | @step p q before trail edge new ih =>
    obtain ⟨rfl, rfl⟩ := List.cons.inj eq
    obtain ⟨rest', carries⟩ := ih rfl
    by_cases branch : n ∈ keep :: others
    · exact carries.into_branch group trail edge branch
    by_cases inside : p ∈ keep :: others
    · exact carries.out_of_branch group tidy edge new branch inside
    by_cases direct : p = a ∧ g.isDirect a target = true ∧ some n = target
    · exact carries.direct group tidy trail new branch direct.1 direct.2.1 direct.2.2
    · exact carries.elsewhere group edge new branch inside direct

lemma bounded_of_joinGroup (h : (g.joinGroup a target keep others).Bounded k bound) :
    g.Bounded k bound := by
  intro n rest trail
  obtain ⟨rest', trail', height, -, -⟩ := trail_joinGroup group tidy k trail
  have deep := h _ _ trail'
  by_cases branch : n ∈ keep :: others
  · have above := (@le_joined g a k target keep others n branch).2
    rw [image_of_mem branch, group.summary_keep tidy] at deep
    omega
  · rw [image_of_not_mem branch, summary_joinGroup branch] at deep
    omega

lemma Group.tidy_joinGroup : (g.joinGroup a target keep others).Tidy := by
  have sub {x m : Nat} (edge : m ∈ (g.joinGroup a target keep others).succs x) :
      m ∈ g.succs x ∧ m ∉ others := by
    by_cases same : x = keep
    · subst same
      rw [group.succs_keep tidy] at edge
      refine ⟨?_, fun mem => group.target_not_mem edge (List.mem_cons_of_mem _ mem)⟩
      rw [group.leads x List.mem_cons_self]
      exact edge
    · obtain ⟨-, absent, edge, -⟩ := (group.mem_succs same).1 edge
      exact ⟨edge, absent⟩
  constructor
  case closed =>
    intro x m edge
    obtain ⟨edge, absent⟩ := sub edge
    exact isSome_node?_setNode (isSome_node?_pruned absent (tidy.closed x m edge))
  case nodup =>
    intro x
    by_cases same : x = keep
    · rw [same, group.succs_keep tidy, ← group.leads keep List.mem_cons_self]
      exact tidy.nodup keep
    · rw [joinGroup_eq, succs_setNode_ne same]
      exact nodup_succs_pruned tidy
  case root => exact fun x edge => tidy.root x (sub edge).1

end

/-- Adds a branch to the group of the place that it leads to. -/
def addBranch (place : Nat → Option Nat) (groups : List (Option Nat × List Nat)) (b : Nat) :
    List (Option Nat × List Nat) :=
  if groups.any (·.1 == place b) then
    groups.map fun e => if e.1 = place b then (e.1, e.2 ++ [b]) else e
  else groups ++ [(place b, [b])]

lemma mem_foldl_addBranch (place : Nat → Option Nat) (bs : List Nat) :
    (∀ e ∈ bs.foldl (addBranch place) [], e.2 = bs.filter fun b => place b = e.1) ∧
    ∀ b ∈ bs, ∃ e ∈ bs.foldl (addBranch place) [], e.1 = place b := by
  induction bs using List.reverseRecOn with
  | nil => simp
  | append_singleton bs b ih =>
    obtain ⟨whole, all⟩ := ih
    rw [List.foldl_append, List.foldl_cons, List.foldl_nil]
    generalize bs.foldl (addBranch place) [] = groups at whole all
    rw [addBranch]
    split
    · rename_i known
      constructor
      · intro e mapped
        obtain ⟨e, mem, rfl⟩ := List.mem_map.1 mapped
        split
        · rename_i same
          simp [List.filter_append, whole e mem, same]
        · rename_i other
          simp [List.filter_append, whole e mem, Ne.symm other]
      · intro c mem
        obtain ⟨e, there, same⟩ : ∃ e ∈ groups, e.1 = place c := by
          obtain mem | mem := List.mem_append.1 mem
          · exact all c mem
          · obtain rfl := List.mem_singleton.1 mem
            obtain ⟨e, mem, same⟩ := List.any_eq_true.1 known
            exact ⟨e, mem, eq_of_beq same⟩
        refine ⟨_, List.mem_map_of_mem there, ?_⟩
        split
        · exact same
        · exact same
    · rename_i unknown
      have others : ∀ e ∈ groups, e.1 ≠ place b := by
        intro e mem same
        exact unknown (List.any_eq_true.2 ⟨e, mem, beq_iff_eq.2 same⟩)
      constructor
      · intro e mem
        obtain mem | mem := List.mem_append.1 mem
        · simp [List.filter_append, whole e mem, Ne.symm (others e mem)]
        · obtain rfl := List.mem_singleton.1 mem
          have none : bs.filter (fun c => place c = place b) = [] := by
            rw [List.filter_eq_nil_iff]
            intro c mem same
            obtain ⟨e, there, eq⟩ := all c mem
            exact others e there (eq.trans (of_decide_eq_true same))
          simp [List.filter_append, none]
      · intro c mem
        obtain mem | mem := List.mem_append.1 mem
        · obtain ⟨e, there, same⟩ := all c mem
          exact ⟨e, List.mem_append_left _ there, same⟩
        · obtain rfl := List.mem_singleton.1 mem
          exact ⟨_, List.mem_append_right _ (List.mem_singleton_self _), rfl⟩

lemma group_of_mem_branchGroups (tidy : g.Tidy) {degrees : Array Nat} {members : List Nat}
    (h : (target, members) ∈ g.branchGroups degrees a) : g.Group a target members := by
  have eq := (mem_foldl_addBranch (fun b => (g.succs b).head?) _).1 _ h
  dsimp only at eq
  have test {b : Nat} (mem : b ∈ members) : b ∈ g.succs a ∧ b ≠ a ∧ (g.succs b).length ≤ 1 ∧
      g.hasOnePred degrees b = true ∧ (g.succs b).head? = target := by
    rw [eq, List.mem_filter, List.mem_filter] at mem
    obtain ⟨⟨edge, tests⟩, leads⟩ := mem
    simp only [Bool.and_eq_true, bne_iff_ne, decide_eq_true_eq] at tests leads
    exact ⟨edge, tests.1.1.1, tests.1.1.2, tests.2, leads⟩
  constructor
  case branch => exact fun b mem => (test mem).1
  case other => exact fun b mem => (test mem).2.1
  case entered =>
    intro b mem x edge
    obtain ⟨here, -, -, one, -⟩ := test mem
    exact eq_of_hasOnePred one edge here
  case leads =>
    intro b mem
    obtain ⟨-, -, short, -, rfl⟩ := test mem
    cases list : g.succs b with
    | nil => rfl
    | cons t more =>
      rw [list, List.length_cons] at short
      rw [List.length_eq_zero_iff.1 (Nat.le_zero.1 (Nat.le_of_succ_le_succ short))]
      rfl
  case nodup =>
    rw [eq]
    exact ((tidy.nodup a).filter _).filter _

lemma shrinks_collapseAt {degrees : Array Nat} (h : g.collapseAt degrees a = some g') :
    Shrinks g g' := by
  intro tidy
  rw [collapseAt] at h
  split at h
  · cases h
  · obtain ⟨⟨target, members⟩, mem, h⟩ := List.exists_of_findSome?_eq_some h
    cases members with
    | nil => cases h
    | cons keep others =>
      dsimp only at h
      split at h
      · cases h
      · obtain rfl := Option.some.inj h
        have group := group_of_mem_branchGroups tidy mem
        exact ⟨group.tidy_joinGroup tidy, fun _ _ => bounded_of_joinGroup group tidy⟩

lemma shrinks_collapse : Shrinks g g.collapse := by
  rw [collapse]
  cases found : (List.range g.size).findSome? (g.collapseAt g.inDegrees) with
  | none => exact .refl g
  | some g' =>
    obtain ⟨a, -, h⟩ := List.exists_of_findSome?_eq_some found
    exact shrinks_collapseAt h

lemma shrinks_reduceLoop {fuel : Nat} : Shrinks g (reduceLoop fuel g) := by
  induction fuel generalizing g with
  | zero => exact .refl g
  | succ fuel ih =>
    have once : Shrinks g g.mergeChains.deleteOrphans.collapse :=
      (shrinks_mergeChains.trans shrinks_deleteOrphans).trans shrinks_collapse
    rw [reduceLoop]
    split
    · exact once.trans ih
    · exact once

/-- A bound of the smallest graph is one of the graph. -/
theorem bounded_of_reduce (tidy : g.Tidy) (h : g.reduce.Bounded k bound) : g.Bounded k bound :=
  (shrinks_reduceLoop tidy).2 k bound h

end Avm.DepthGraph
