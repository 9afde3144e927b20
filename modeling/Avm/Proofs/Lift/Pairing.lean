import Avm.Ir.Lift
import Avm.Proofs.Flow.Building
import Avm.Proofs.Flow.Sweep

/-!
# Code and the graph it is lifted with

A method body is lifted from code and a control flow graph.  `MethodBody.pairing` gives the two, and
`MethodBody.liftFresh` lifts with a graph that is always built from the code that is left.

The main statement is `lift_eq_liftFresh`.  The graph belongs to the code unless some handler covers
nothing while every instruction is reached, with such handlers and without them: then the handlers go,
no instruction does, and the old graph, which numbers its handlers by the old list, stays.
-/

namespace Avm

variable {code : Code} {g g' : FlowGraph} {resolved : List (Handler Nat)}

/-- Some handler covers nothing, and every instruction is reached, also without such handlers. -/
def Code.LosesOnlyHandlers (code : Code) : Prop :=
  ∃ resolved g g',
    code.resolvedHandlers = .ok resolved ∧ (∃ x ∈ resolved, x.stop ≤ x.start) ∧
    FlowGraph.build code = .ok g ∧ code.AllReached g ∧
    FlowGraph.build (code.trimmed resolved) = .ok g' ∧ code.AllReached g'

lemma build_trimmed_ne (res : code.resolvedHandlers = .ok resolved)
    (empty : ∃ x ∈ resolved, x.stop ≤ x.start) (built : FlowGraph.build code = .ok g) :
    FlowGraph.build (code.trimmed resolved) ≠ .ok g := by
  intro again
  obtain ⟨all, spec⟩ := FlowGraph.build_sound built
  obtain ⟨kept, specKept⟩ := FlowGraph.build_sound again
  obtain rfl : resolved = all := Except.ok.inj (res.symm.trans spec.resolved)
  obtain rfl := Except.ok.inj ((Code.resolvedHandlers_trimmed res).symm.trans specKept.resolved)
  -- A graph has a start for each handler of its code, so it tells how many there were.
  have count := specKept.targets.length_eq.trans spec.targets.length_eq.symm
  have same := List.length_filter_eq_length_iff.1 count
  obtain ⟨x, mem, le⟩ := empty
  exact absurd (of_decide_eq_true (same x mem)) (Nat.not_lt.2 le)

namespace MethodBody

variable {body : MethodBody} {config : Config}

/-- The code and the graph that a body is lifted from. -/
def pairing (body : MethodBody) (config : Config) : Except Fault (Code × FlowGraph) := do
  let code ← Code.decode body.code body.exceptions
  let g ← FlowGraph.build code
  if config.removeUnreachable then
    let (swept, removed) ← code.sweep g
    let g' ← if removed = 0 then pure g else FlowGraph.build swept
    return (swept, g')
  else return (code, g)

/-- The code that a body is lifted from, with a graph that is built from this code in any case. -/
def freshPairing (body : MethodBody) (config : Config) : Except Fault (Code × FlowGraph) := do
  let code ← Code.decode body.code body.exceptions
  let g ← FlowGraph.build code
  let code ← if config.removeUnreachable then Prod.fst <$> code.sweep g else pure code
  let g ← FlowGraph.build code
  return (code, g)

/-- The function graph of a method body, made from code and the graph of this code. -/
def liftFresh (body : MethodBody) (pool : Pool) (config : Config) : Except Fault Ir.Func := do
  let (code, g) ← body.freshPairing config
  let _ ← StackBounds.analyze g code pool config.maxStackPaths
  Ir.Func.ofCode body code g pool

/-- Sweeping the code of the body is on, and takes handlers and nothing else. -/
def LosesOnlyHandlers (body : MethodBody) (config : Config) : Prop :=
  config.removeUnreachable = true ∧
    ∃ code, Code.decode body.code body.exceptions = .ok code ∧ code.LosesOnlyHandlers

lemma lift_eq (body : MethodBody) (pool : Pool) (config : Config) :
    body.lift pool config = (do
      let (code, g) ← body.pairing config
      let _ ← StackBounds.analyze g code pool config.maxStackPaths
      Ir.Func.ofCode body code g pool) := by
  rw [lift, pairing]
  cases Code.decode body.code body.exceptions with
  | error fault => rfl
  | ok code =>
    simp only [ok_bind]
    cases FlowGraph.build code with
    | error fault => rfl
    | ok g =>
      simp only [ok_bind]
      split
      · cases code.sweep g with
        | error fault => rfl
        | ok swept =>
          simp only [ok_bind]
          split
          · rfl
          · cases FlowGraph.build swept.1 with
            | error fault => rfl
            | ok g' => rfl
      · rfl

/-- If sweeping takes handlers and nothing else, the old graph is paired with the new code. -/
lemma pairing_of_losesOnlyHandlers (h : body.LosesOnlyHandlers config) :
    ∃ code g, body.pairing config = .ok (code, g) ∧ FlowGraph.build code ≠ .ok g := by
  obtain ⟨sweeps, code, decoded, resolved, g, g', res, empty, built, reached, rebuilt, reached'⟩ := h
  have swept : code.sweep g = .ok (code.trimmed resolved, 0) :=
    (Code.sweep_eq_ok_zero res).2 ⟨rfl, reached, fun _ => ⟨g', rebuilt, reached'⟩⟩
  refine ⟨code.trimmed resolved, g, ?_, build_trimmed_ne res empty built⟩
  simp only [pairing, decoded, ok_bind, built, sweeps, if_true, swept, pure_eq_ok]

/-- Code that loses no instruction keeps its handlers too, unless it loses handlers only. -/
lemma build_of_sweep (h : ¬code.LosesOnlyHandlers) (built : FlowGraph.build code = .ok g)
    {swept : Code} (sweep : code.sweep g = .ok (swept, 0)) : FlowGraph.build swept = .ok g := by
  obtain ⟨resolved, spec⟩ := FlowGraph.build_sound built
  obtain ⟨rfl, reached, rebuilt⟩ := (Code.sweep_eq_ok_zero spec.resolved).1 sweep
  by_cases empty : ∃ x ∈ resolved, x.stop ≤ x.start
  · obtain ⟨g', built', reached'⟩ := rebuilt empty
    exact absurd ⟨resolved, g, g', spec.resolved, empty, built, reached, built', reached'⟩ h
  · have covers : ∀ x ∈ resolved, x.start < x.stop :=
      fun x mem => Nat.lt_of_not_le fun le => empty ⟨x, mem, le⟩
    rwa [Code.trimmed_eq_self spec.resolved covers]

lemma pairing_eq_freshPairing (h : ¬body.LosesOnlyHandlers config) :
    body.pairing config = body.freshPairing config := by
  rw [pairing, freshPairing]
  cases decoded : Code.decode body.code body.exceptions with
  | error fault => rfl
  | ok code =>
    simp only [ok_bind]
    cases built : FlowGraph.build code with
    | error fault => rfl
    | ok g =>
      simp only [ok_bind]
      split
      · rename_i sweeps
        cases sweep : code.sweep g with
        | error fault => rfl
        | ok result =>
          obtain ⟨swept, removed⟩ := result
          simp only [ok_bind, Except.map_ok]
          split
          · rename_i zero
            obtain rfl : removed = 0 := zero
            have again : FlowGraph.build swept = .ok g :=
              build_of_sweep (fun loses => h ⟨sweeps, code, decoded, loses⟩) built sweep
            rw [pure_eq_ok, ok_bind, again, ok_bind]
          · rfl
      · simp only [pure_eq_ok, ok_bind, built]

lemma build_of_freshPairing (h : body.freshPairing config = .ok (code, g)) :
    FlowGraph.build code = .ok g := by
  simp only [freshPairing, bind_eq_ok] at h
  obtain ⟨_, -, _, -, h⟩ := h
  split at h
  all_goals
    simp only [bind_eq_ok] at h
    obtain ⟨_, -, _, built, h⟩ := h
    obtain ⟨rfl, rfl⟩ := Prod.mk.inj (Except.ok.inj h)
    exact built

/-- The graph that a body is lifted with is that of other code exactly if sweeping takes handlers and
nothing else; otherwise a graph that is built anew gives the same function graph. -/
theorem lift_eq_liftFresh (body : MethodBody) (config : Config) :
    (body.LosesOnlyHandlers config ↔
      ∃ code g, body.pairing config = .ok (code, g) ∧ FlowGraph.build code ≠ .ok g) ∧
    (¬body.LosesOnlyHandlers config →
      ∀ pool, body.lift pool config = body.liftFresh pool config) := by
  refine ⟨⟨pairing_of_losesOnlyHandlers, ?_⟩, ?_⟩
  · rintro ⟨code, g, paired, stale⟩
    by_contra h
    rw [pairing_eq_freshPairing h] at paired
    exact stale (build_of_freshPairing paired)
  · intro h pool
    rw [lift_eq, liftFresh, pairing_eq_freshPairing h]

/-- A conversion in a range that its handler covers, behind a handler that covers nothing. -/
def behindEmptyHandler : MethodBody where
  params := 1
  locals := 2
  code := [0xd1, 0x70, 0x29, 0x47, 0x29, 0x47]
  exceptions := [⟨0, 0, 4, 0, 0⟩, ⟨0, 3, 4, 5, 6⟩]

/-- The number of the handler that is left is not known to the old graph, so its range is lost. -/
theorem lift_behindEmptyHandler_ne :
    behindEmptyHandler.lift {} {} ≠ behindEmptyHandler.liftFresh {} {} := by
  decide +kernel

end MethodBody

end Avm
