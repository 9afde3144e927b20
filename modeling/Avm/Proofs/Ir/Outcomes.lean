import Avm.Proofs.Ir.Edits

/-!
# What edits come to

An edit may fail, so what it comes to has two sides: what holds if it succeeds, and which faults it
has.  `Edit.Meets` says both, with one rule for each way to put edits together.  `Edit.Retains` is the
case in which the graph behind the edit has a property that the graph before it had, and nothing is
asked of the faults.
-/

namespace Avm.Ir

namespace Edit

variable {α β : Type} {f f' : Func} {x : Edit α} {g : α → Edit β} {P : α → Func → Prop}
  {Q : β → Func → Prop} {bad : Fault → Prop}

/-- What an edit of a graph comes to: if it succeeds, what it gives and the graph behind are as said,
and if it fails, the fault is. -/
def Meets (x : Edit α) (f : Func) (post : α → Func → Prop) (bad : Fault → Prop) : Prop :=
  match x.run f with
  | .ok a f' => post a f'
  | .error e _ => bad e

lemma Meets.of_ok {a : α} (h : x.Meets f P bad) (run : x.run f = .ok a f') : P a f' := by
  rw [Meets, run] at h
  exact h

lemma Meets.of_error {e : Fault} (h : x.Meets f P bad) (run : x.run f = .error e f') : bad e := by
  rw [Meets, run] at h
  exact h

/-- An edit of a graph succeeds, and what it gives and the graph behind pass a test. -/
def succeedsWith (x : Edit α) (f : Func) (test : α → Func → Bool) : Bool :=
  match x.run f with
  | .ok a f' => test a f'
  | .error .. => false

lemma exists_of_succeedsWith {test : α → Func → Bool} (h : x.succeedsWith f test = true) :
    ∃ a f', x.run f = .ok a f' ∧ test a f' = true := by
  rw [succeedsWith] at h
  split at h
  · rename_i a f' run
    exact ⟨a, f', run, h⟩
  · cases h

lemma meets_pure {a : α} (h : P a f) : (pure a : Edit α).Meets f P bad := h

lemma meets_throw {e : Fault} (h : bad e) : (throw e : Edit α).Meets f P bad := h

lemma Meets.bind (first : x.Meets f P bad) (next : ∀ a f', P a f' → (g a).Meets f' Q bad) :
    (x >>= g).Meets f Q bad := by
  change (match EStateM.bind x g f with | .ok b f' => Q b f' | .error e _ => bad e)
  rw [EStateM.bind]
  cases h : x f with
  | ok a f₁ => exact next a f₁ (first.of_ok h)
  | error e f₁ => exact first.of_error h

lemma Meets.imp {P' : α → Func → Prop} {bad' : Fault → Prop} (h : x.Meets f P bad)
    (post : ∀ a f', P a f' → P' a f') (fault : ∀ e, bad e → bad' e) : x.Meets f P' bad' := by
  rw [Meets] at h ⊢
  cases run : x.run f with
  | ok a f₁ =>
    rw [run] at h
    exact post a f₁ h
  | error e f₁ =>
    rw [run] at h
    exact fault e h

lemma meets_throw_bind {e : Fault} {g : α → Edit β} (h : bad e) :
    (throw e >>= g).Meets f Q bad :=
  Meets.bind (P := fun _ _ => False) (meets_throw h) fun _ _ none => none.elim

lemma meets_ok_bind {a : α} (run : x.run f = .ok a f') (next : (g a).Meets f' Q bad) : (x >>= g).Meets f Q bad := by
  refine Meets.bind (P := fun c f₁ => c = a ∧ f₁ = f') ?_ ?_
  · rw [Meets, run]
    exact ⟨rfl, rfl⟩
  · rintro _ _ ⟨rfl, rfl⟩
    exact next

lemma meets_get {g : Func → Edit β} (next : (g f).Meets f Q bad) : (get >>= g).Meets f Q bad := next

lemma meets_modify {u : Func → Func} {g : PUnit → Edit β} (next : (g ⟨⟩).Meets (u f) Q bad) :
    (modify u >>= g).Meets f Q bad := next

lemma meets_set {f₁ : Func} {g : PUnit → Edit β} (next : (g ⟨⟩).Meets f₁ Q bad) :
    (set f₁ >>= g).Meets f Q bad := next

lemma meets_block {b : BlockId} {g : Block → Edit β} (missing : bad (.graph (.noBlock b)))
    (next : ∀ x, f.block? b = some x → (g x).Meets f Q bad) : (block b >>= g).Meets f Q bad := by
  refine Meets.bind (P := fun x f' => f.block? b = some x ∧ f' = f) ?_ ?_
  · refine meets_get ?_
    cases f.block? b with
    | none => exact missing
    | some x => exact ⟨rfl, rfl⟩
  · rintro x _ ⟨here, rfl⟩
    exact next x here

lemma meets_ofExcept {r : Except Fault α} (ok : ∀ a, r = .ok a → P a f) (error : ∀ e, r = .error e → bad e) :
    (ofExcept r).Meets f P bad := by
  cases r with
  | ok a => exact ok a rfl
  | error e => exact error e rfl

/-- An edit whose faults are known is looked at only where it succeeds. -/
lemma meets_of_forall (ok : ∀ a f', x.run f = .ok a f' → P a f')
    (error : ∀ e f', x.run f = .error e f' → bad e) : x.Meets f P bad := by
  rw [Meets]
  cases run : x.run f with
  | ok a f₁ => exact ok a f₁ run
  | error e f₁ => exact error e f₁ run

lemma meets_foldlM {γ : Type} {step : β → γ → Edit β} {P : List γ → β → Func → Prop} {l : List γ}
    {acc : β} (each : ∀ before c after acc f, l = before ++ c :: after → P before acc f →
      (step acc c).Meets f (fun acc' f' => P (before ++ [c]) acc' f') bad) (start : P [] acc f) :
    (l.foldlM step acc).Meets f (fun acc' f' => P l acc' f') bad := by
  suffices h : ∀ after before acc f, l = before ++ after → P before acc f →
      (after.foldlM step acc).Meets f (fun acc' f' => P l acc' f') bad from h l [] acc f rfl start
  intro after
  induction after with
  | nil =>
    rintro before acc f rfl here
    rw [List.append_nil] at each ⊢
    exact meets_pure here
  | cons c after ih =>
    intro before acc f split here
    refine (each before c after acc f split here).bind fun acc' f' there => ?_
    exact ih (before ++ [c]) acc' f' (by rw [split, List.append_cons]) there

lemma meets_last {u : Func → Func} {P : PUnit → Func → Prop} (h : P ⟨⟩ (u f)) :
    (modify u : Edit PUnit).Meets f P bad := h

-- A run is never to be computed when an edit is looked at.
attribute [irreducible] Meets

section Failing

variable {e : Fault}

lemma bind_eq_error : (x >>= g).run f = .error e f' ↔
    x.run f = .error e f' ∨ ∃ a f₁, x.run f = .ok a f₁ ∧ (g a).run f₁ = .error e f' := by
  change EStateM.bind x g f = _ ↔ _
  rw [EStateM.bind]
  cases h : x f with
  | ok a f₁ => simp [EStateM.run, h]
  | error e f₁ => simp [EStateM.run, h]

lemma modify_ne_error {u : Func → Func} : ¬(modify u : Edit PUnit).run f = .error e f' := nofun

lemma block_eq_error {b : BlockId} (run : (block b).run f = .error e f') : f' = f := by
  obtain none | ⟨_, _, first, failed⟩ := bind_eq_error.1 run
  · cases none
  · obtain ⟨rfl, rfl⟩ := get_eq_ok.1 first
    split at failed
    · cases failed
    · exact (EStateM.Result.error.inj failed).2.symm

lemma setTerminator_eq_error {b : BlockId} {t : Terminator}
    (run : (setTerminator b t).run f = .error e f') : f' = f := by
  obtain none | ⟨_, _, first, failed⟩ := bind_eq_error.1 run
  · cases none
  · obtain ⟨rfl, rfl⟩ := get_eq_ok.1 first
    split at failed
    · exact (EStateM.Result.error.inj failed).2.symm
    · obtain missing | ⟨_, _, -, none⟩ := bind_eq_error.1 failed
      · obtain missing | ⟨_, _, -, none⟩ := bind_eq_error.1 missing
        · exact block_eq_error missing
        · exact absurd none modify_ne_error
      · exact absurd none modify_ne_error

end Failing

section Retaining

variable {P : Func → Prop} {x : Edit α} {g : α → Edit β}

/-- If the graph has a property and the edit succeeds, the graph behind has it too. -/
def Retains (P : Func → Prop) (x : Edit α) : Prop :=
  ∀ f, P f → x.Meets f (fun _ f' => P f') fun _ => True

lemma meets_of_retains (h : x.Retains P) (start : P f) : x.Meets f (fun _ f' => P f') fun _ => True :=
  h f start

lemma Retains.of_ok {a : α} (h : x.Retains P) (start : P f) (run : x.run f = .ok a f') : P f' :=
  (h f start).of_ok run

lemma retains_of_run (h : ∀ f a f', P f → x.run f = .ok a f' → P f') : x.Retains P :=
  fun f start => meets_of_forall (fun a f' run => h f a f' start run) fun _ _ _ => trivial

lemma retains_pure {a : α} : (pure a : Edit α).Retains P := fun _ start => meets_pure start

lemma retains_throw {e : Fault} : (throw e : Edit α).Retains P := fun _ _ => meets_throw trivial

lemma retains_ofExcept {r : Except Fault α} : (ofExcept r).Retains P :=
  fun _ start => meets_ofExcept (fun _ _ => start) fun _ _ => trivial

lemma retains_modify {u : Func → Func} (keeps : ∀ f, P f → P (u f)) : (modify u : Edit PUnit).Retains P :=
  fun f start => meets_last (keeps f start)

lemma Retains.bind (first : x.Retains P) (next : ∀ a, (g a).Retains P) : (x >>= g).Retains P :=
  fun f start => (first f start).bind fun a f' there => next a f' there

lemma retains_get {g : Func → Edit β} (next : ∀ f, P f → (g f).Meets f (fun _ f' => P f') fun _ => True) :
    (get >>= g).Retains P :=
  fun f start => meets_get (next f start)

lemma retains_block {b : BlockId} : (block b).Retains P := by
  refine retains_of_run fun f x f' start run => ?_
  obtain ⟨-, rfl⟩ := block_eq_ok.1 run
  exact start

end Retaining

section Running

variable {x : Edit α} {g : α → Edit β} {a : α}

lemma run_get_bind {k : Func → Edit α} : (get >>= k).run f = (k f).run f := rfl

lemma run_ok_bind (first : x.run f = .ok a f') : (x >>= g).run f = (g a).run f' := by
  change EStateM.bind x g f = _
  rw [EStateM.bind, show x f = .ok a f' from first]
  rfl

lemma run_modify_bind {u : Func → Func} {k : PUnit → Edit α} : (modify u >>= k).run f = (k ⟨⟩).run (u f) := rfl

lemma run_block_bind {b : BlockId} {y : Block} {k : Block → Edit α} (here : f.block? b = some y) :
    (block b >>= k).run f = (k y).run f :=
  run_ok_bind (block_eq_ok.2 ⟨here, rfl⟩)

lemma run_modifyBlock_bind {b : BlockId} {u : Block → Block} {k : Unit → Edit α} (live : (f.block? b).isSome) :
    (modifyBlock b u >>= k).run f = (k ()).run (f.modifyBlock b u) :=
  run_ok_bind (modifyBlock_eq_ok.2 ⟨live, rfl⟩)

lemma Yields.run_bind (h : x.Yields f P) :
    ∃ a f', P a f' ∧ ∀ {γ : Type} (g : α → Edit γ), (x >>= g).run f = (g a).run f' := by
  obtain ⟨a, f', run, post⟩ := h
  exact ⟨a, f', post, fun _ => run_ok_bind run⟩

lemma run_bind_congr {x' : Edit α} {g' : α → Edit β} (first : x.run f = x'.run f)
    (next : ∀ a f', x.run f = .ok a f' → (g a).run f' = (g' a).run f') : (x >>= g).run f = (x' >>= g').run f := by
  change EStateM.bind x g f = EStateM.bind x' g' f
  rw [EStateM.bind, EStateM.bind, show x' f = x f from first.symm]
  cases run : x f with
  | ok a f' => exact next a f' run
  | error e f' => rfl

variable {step step' : α → β → Edit α} {l : List β}

lemma run_foldlM_still (each : ∀ c ∈ l, (step a c).run f = .ok a f) : (l.foldlM step a).run f = .ok a f := by
  induction l with
  | nil => rfl
  | cons c l ih =>
    exact bind_eq_ok.2 ⟨a, f, each c List.mem_cons_self, ih fun c mem => each c (List.mem_cons_of_mem _ mem)⟩

lemma run_foldlM_congr {P : Func → Prop} (keeps : ∀ a, ∀ c ∈ l, (step a c).Retains P)
    (each : ∀ a, ∀ c ∈ l, ∀ f, P f → (step a c).run f = (step' a c).run f) (start : P f) :
    (l.foldlM step a).run f = (l.foldlM step' a).run f := by
  induction l generalizing a f with
  | nil => rfl
  | cons c l ih =>
    rw [List.foldlM_cons, List.foldlM_cons]
    refine run_bind_congr (each a c List.mem_cons_self f start) fun a' f' run => ?_
    apply ih (fun a c mem => keeps a c (List.mem_cons_of_mem _ mem)) fun a c mem =>
      each a c (List.mem_cons_of_mem _ mem)
    exact (keeps a c List.mem_cons_self).of_ok start run

end Running

end Edit

end Avm.Ir
