import Avm.Proofs.Code.Twins
import Avm.Proofs.Emit.Lockstep
import Avm.Proofs.Opt.Writability

/-!
# Methods of a batch

The methods of a batch are written one after another into one pool, so a method finds constants there that
others have left, also those of methods that failed halfway.  What comes out for a method is nevertheless
what comes out if it is processed alone: its constants may have other numbers, and all else is the same.

The main statement is `processBatch_independent`.
-/

namespace Avm

namespace MethodBody

variable {body : MethodBody} {P Q P' Q' F pool : Pool} {c c' : Code} {config : Config}

/-- The bytes of a body hold the given instructions and handlers: they encode code that has them, and
unless there are too many bytes, they decode to code that has them. -/
structure Lists (b : MethodBody) (is : List (Instruction Nat)) (hs : List (Handler Nat)) : Prop where
  encoded : ∃ code : Code, code.encode = .ok ⟨b.code, b.exceptions⟩ ∧ code.listing = .ok is ∧
    code.resolvedHandlers = .ok hs
  decoded : b.code.length < 0x100000000 → ∃ code, Code.decode b.code b.exceptions = .ok code ∧
    code.listing = .ok is ∧ code.resolvedHandlers = .ok hs

/-- Two bodies are the same, sizes included, but for the numbers by which instructions refer to the
constants of their pools. -/
structure Agrees (P Q : Pool) (r r' : MethodBody) : Prop where
  frame : r = { r' with code := r.code, exceptions := r.exceptions }
  stream : ∃ is is' hs ss, r.Lists is hs ∧ r'.Lists is' hs ∧
    is.mapM (Instruction.spell? P) = some ss ∧ is'.mapM (Instruction.spell? Q) = some ss

/-- Two attempts at a body both succeed, with bodies that agree, or both fail. -/
def SameOutcome (P Q : Pool) : Except Fault MethodBody → Except Fault MethodBody → Prop
  | .ok r, .ok r' => Agrees P Q r r'
  | .error _, .error _ => True
  | _, _ => False

lemma lists_of_encode {e : EncodedCode} (encoded : c.encode = .ok e) :
    ∃ is hs, c.listing = .ok is ∧ c.resolvedHandlers = .ok hs ∧
      ∀ b : MethodBody, b.code = e.bytes → b.exceptions = e.exceptions → b.Lists is hs := by
  obtain ⟨rs, laid⟩ := c.encode_eq_ok encoded
  have out : ∀ m o, Encode.markerOffset? c m = some o → c.resolve? m =
      some ((Encode.rowBounds (Encode.codeLength c) rs).idxOf o) := fun _ _ => laid.resolve?
  have listed := Code.listing_eq_ok out laid.instrs
  have handled := Code.resolvedHandlers_eq_ok out laid.handlers
  refine ⟨_, _, listed, handled, fun b bytes exceptions => ⟨⟨c, ?_, listed, handled⟩, fun small => ?_⟩⟩
  · rw [bytes, exceptions, encoded]
  · rw [bytes] at small
    obtain ⟨d, is, hs, decoded, listed', there, handled', back⟩ := laid.exists_decode small
    obtain rfl := Except.ok.inj (listed.symm.trans listed')
    obtain rfl := Except.ok.inj (handled.symm.trans handled')
    exact ⟨d, by rw [bytes, exceptions, decoded], there, back⟩

lemma sameOutcome_withCode (twin : Code.Twin P Q c c') (names : P'.multinames = Q'.multinames)
    (fits : P.Fits) (fits' : Q.Fits) (near : c.Near) (near' : c'.Near) :
    SameOutcome P Q (body.withCode c P' config) (body.withCode c' Q' config) := by
  rw [withCode, withCode, ← twin.build]
  cases FlowGraph.build c with
  | error e => trivial
  | ok g =>
    rw [ok_bind, ok_bind, ← twin.analyze names]
    cases StackBounds.analyze g c P' config.maxStackPaths with
    | error e => trivial
    | ok bounds =>
      rw [ok_bind, ok_bind, ← twin.localCount]
      cases encoded : c.encode with
      | error e =>
        cases encoded' : c'.encode with
        | error e' => trivial
        | ok e' =>
          obtain ⟨e, same⟩ := twin.symm.exists_encode encoded' fits near
          rw [encoded] at same
          cases same
      | ok e =>
        obtain ⟨e', encoded'⟩ := twin.exists_encode encoded fits' near'
        obtain ⟨is, hs, listed, handled, lists⟩ := lists_of_encode encoded
        obtain ⟨is', hs', listed', handled', lists'⟩ := lists_of_encode encoded'
        rw [twin.resolvedHandlers, handled'] at handled
        obtain rfl := Except.ok.inj handled
        obtain ⟨ss, spelt, spelt'⟩ := twin.spelling listed listed'
        rw [encoded']
        exact ⟨rfl, is, is', hs', ss, lists _ rfl rfl, lists' _ rfl rfl, spelt, spelt'⟩

/-- A function graph is written into two pools with the same names alike, also if one of them has grown
since. -/
lemma sameOutcome_emit {f : Ir.Func} (writable : f.Writable pool) (names : P.multinames = Q.multinames)
    (longer : (body.emit f P config).2.Extends F) (fits : F.Fits) (fits' : (body.emit f Q config).2.Fits)
    (near : ∀ c, (Emit.emit f P).1 = .ok c → c.Near) (near' : ∀ c, (Emit.emit f Q).1 = .ok c → c.Near) :
    SameOutcome F (body.emit f Q config).2 (body.emit f P config).1 (body.emit f Q config).1 := by
  obtain ⟨left, right, same⟩ := Emit.emit_lockstep writable P Q
  change (Emit.emit f P).2.Extends F at longer
  change (Emit.emit f Q).2.Fits at fits'
  change SameOutcome F (Emit.emit f Q).2
    ((Emit.emit f P).1.bind fun code => body.withCode code (Emit.emit f P).2 config)
    ((Emit.emit f Q).1.bind fun code => body.withCode code (Emit.emit f Q).2 config)
  cases written : (Emit.emit f P).1 with
  | error e =>
    cases written' : (Emit.emit f Q).1 with
    | error e' => trivial
    | ok c' =>
      rw [written, written'] at same
      exact same.elim
  | ok c =>
    cases written' : (Emit.emit f Q).1 with
    | error e' =>
      rw [written, written'] at same
      exact same.elim
    | ok c' =>
      rw [written, written'] at same
      have grown : Code.Twin F (Emit.emit f Q).2 c c' := same.mono longer (.refl _)
      exact sameOutcome_withCode grown (left.names.trans (names.trans right.names.symm)) fits fits'
        (near c written) (near' c' written')

end MethodBody

namespace Batch

open MethodBody

variable {pool : Pool} {config : Config} {b : Batch}

/-- What is reported for a method that failed. -/
def failure? (body : MethodBody) : Except Fault MethodBody → Option MethodFailure
  | .ok _ => none
  | .error fault => some ⟨body.method, fault⟩

/-- The pool behind a method of a batch, which is optimized with one pool and written into another one. -/
def poolBehind (pool : Pool) (env : Environment) (config : Config) (P : Pool) (body : MethodBody) : Pool :=
  match body.optimize pool env config with
  | .ok o => (body.emit o.func P config).2
  | .error _ => P

/-- The branches of a method are short enough for their fields, where it is optimized with one pool and
written into another one. -/
def Near (pool : Pool) (env : Environment) (config : Config) (P : Pool) (body : MethodBody) : Prop :=
  ∀ o c, body.optimize pool env config = .ok o → (Emit.emit o.func P).1 = .ok c → c.Near

/-- An outcome for a method is the one that it has if it is processed alone, where it is written into one
pool and the constants of the batch are those of another one.  The numbers of constants and the branches
have to fit their fields both in the batch and alone. -/
structure Independent (pool : Pool) (env : Environment) (config : Config) (before final : Pool)
    (body : MethodBody) (r : Except Fault MethodBody) : Prop where
  method : ∀ m, r = .ok m → m.method = body.method
  alone : final.Fits → (body.process pool env config).2.Fits → Near pool env config before body →
    Near pool env config pool body →
      SameOutcome final (body.process pool env config).2 r (body.process pool env config).1

lemma method_of_withCode {body r : MethodBody} {c : Code} (made : body.withCode c pool config = .ok r) :
    r.method = body.method := by
  obtain ⟨g, -, made⟩ := bind_eq_ok.1 made
  obtain ⟨bounds, -, made⟩ := bind_eq_ok.1 made
  obtain ⟨e, -, made⟩ := bind_eq_ok.1 made
  cases made
  rfl

lemma bodies_add (m : MethodId) (r : Except Fault MethodBody) :
    (b.add m r).bodies = b.bodies ++ r.toOption.toList := by
  cases r with
  | ok body => rfl
  | error fault => exact (List.append_nil _).symm

lemma failures_add (body : MethodBody) (r : Except Fault MethodBody) :
    (b.add body.method r).failures = b.failures ++ (failure? body r).toList := by
  cases r with
  | ok body => exact (List.append_nil _).symm
  | error fault => rfl

lemma pool_add (m : MethodId) (r : Except Fault MethodBody) : (b.add m r).pool = b.pool := by
  cases r with
  | ok body => rfl
  | error fault => rfl

lemma write_spec (env : Environment) (config : Config) (body : MethodBody)
    (grown : pool.Extends b.pool) :
    (b.write config body (body.optimize pool env config)).pool = poolBehind pool env config b.pool body ∧
      b.pool.Extends (poolBehind pool env config b.pool body) ∧
      ∃ r, (b.write config body (body.optimize pool env config)).bodies = b.bodies ++ r.toOption.toList ∧
        (b.write config body (body.optimize pool env config)).failures =
          b.failures ++ (failure? body r).toList ∧
        ∀ final, (poolBehind pool env config b.pool body).Extends final →
          Independent pool env config b.pool final body r := by
  rw [poolBehind]
  cases optimized : body.optimize pool env config with
  | error fault =>
    refine ⟨rfl, .refl _, .error fault, (List.append_nil _).symm, rfl, fun final _ => ⟨nofun, ?_⟩⟩
    intro _ _ _ _
    rw [process, optimized]
    trivial
  | ok o =>
    have writable := Opt.writable_of_optimize optimized
    have longer : b.pool.Extends (body.emit o.func b.pool config).2 :=
      (Emit.emit_lockstep writable b.pool b.pool).1
    refine ⟨pool_add _ _, longer, (body.emit o.func b.pool config).1, bodies_add _ _, failures_add _ _, ?_⟩
    refine fun final more => ⟨fun m made => ?_, fun fits fits' near near' => ?_⟩
    · obtain ⟨c, -, made⟩ := bind_eq_ok.1 made
      exact method_of_withCode made
    · rw [process, optimized] at fits' ⊢
      exact sameOutcome_emit writable grown.names more fits fits' (fun c => near o c optimized)
        fun c => near' o c optimized

lemma foldl_write (env : Environment) (config : Config) (bodies : List MethodBody)
    (grown : pool.Extends b.pool) :
    let done := bodies.foldl (fun b body => b.write config body (body.optimize pool env config)) b
    done.pool = bodies.foldl (poolBehind pool env config) b.pool ∧ b.pool.Extends done.pool ∧ ∃ outcomes,
      outcomes.length = bodies.length ∧ done.bodies = b.bodies ++ outcomes.filterMap Except.toOption ∧
      done.failures = b.failures ++ (bodies.zip outcomes).filterMap (fun e => failure? e.1 e.2) ∧
      ∀ final, done.pool.Extends final → ∀ i body r, bodies[i]? = some body → outcomes[i]? = some r →
        Independent pool env config ((bodies.take i).foldl (poolBehind pool env config) b.pool) final body r := by
  induction bodies generalizing b with
  | nil =>
    refine ⟨rfl, .refl _, [], rfl, (List.append_nil _).symm, (List.append_nil _).symm, ?_⟩
    intro _ _ i _ _ first
    rw [List.getElem?_nil] at first
    cases first
  | cons body bodies ih =>
    obtain ⟨behind, longer, r, ok, failed, here⟩ := write_spec env config body grown
    rw [← behind] at longer here
    obtain ⟨pools, longer', outcomes, length, oks, fails, rest⟩ := ih (grown.trans longer)
    rw [List.foldl_cons, List.foldl_cons, ← behind]
    refine ⟨pools, longer.trans longer', r :: outcomes, congrArg (· + 1) length, ?_, ?_, ?_⟩
    · rw [oks, ok, List.append_assoc]
      cases r with
      | ok m => rfl
      | error fault => rfl
    · rw [fails, failed, List.append_assoc]
      cases r with
      | ok m => rfl
      | error fault => rfl
    · intro final more i
      cases i with
      | zero =>
        intro _ _ first only
        obtain rfl := Option.some.inj first
        obtain rfl := Option.some.inj only
        exact here final (longer'.trans more)
      | succ i =>
        rw [List.take_succ_cons, List.foldl_cons, ← behind]
        exact rest final more i

end Batch

open Batch in
/-- The methods of a batch do not influence each other.  Every method is reported once, as a body or as a
failure, both in the order of the methods; and it succeeds if and only if it succeeds alone, with the same
sizes, the same handlers and the same instructions once constants are spelt out, provided that the numbers
of constants and the branches fit their fields in both cases. -/
theorem processBatch_independent (bodies : List MethodBody) (pool : Pool) (env : Environment)
    (config : Config) :
    (processBatch bodies pool env config).pool = bodies.foldl (poolBehind pool env config) pool ∧
      ∃ outcomes : List (Except Fault MethodBody), outcomes.length = bodies.length ∧
        (processBatch bodies pool env config).bodies = outcomes.filterMap Except.toOption ∧
        (processBatch bodies pool env config).failures =
          (bodies.zip outcomes).filterMap (fun e => failure? e.1 e.2) ∧
        ∀ i body r, bodies[i]? = some body → outcomes[i]? = some r →
          Independent pool env config ((bodies.take i).foldl (poolBehind pool env config) pool)
            (processBatch bodies pool env config).pool body r := by
  obtain ⟨pools, -, outcomes, length, oks, fails, rest⟩ := foldl_write (b := { pool := pool }) env config
    bodies (.refl pool)
  exact ⟨pools, outcomes, length, oks, fails, rest _ (.refl _)⟩

/-- A method that multiplies a constant by itself. -/
def squaring : MethodBody where
  params := 1
  locals := 2
  code := [0x2d, 0x01, 0x2d, 0x01, 0xa2, 0x48]

/-- A method that does so twice, unless its argument says otherwise. -/
def cubing : MethodBody where
  method := 1
  params := 1
  locals := 2
  code := [0xd1, 0x11, 0x09, 0x00, 0x00, 0x2d, 0x01, 0x2d, 0x01, 0x2d, 0x01, 0xa2, 0xa2, 0x48, 0x24, 0x05, 0x48]

/-- The method `cubing` with its product in the pool, under the given number. -/
def cubed (n : UInt8) : MethodBody :=
  { cubing with
    maxStack := 1
    code := [0xd1, 0x11, 0x03, 0x00, 0x00, 0x2d, n, 0x48, 0x24, 0x05, 0x48] }

/-- The numbers and the branches of `cubing` fit, where it is written into the given pool. -/
def isNear (P : Pool) : Bool :=
  (cubing.optimize { ints := [300] } .unknown {}).toOption.all fun o =>
    (Emit.emit o.func P).1.toOption.all fun c => decide c.Near

lemma near_of_isNear {P : Pool} (near : isNear P = true) : Batch.Near { ints := [300] } .unknown {} P cubing := by
  intro o c optimized written
  rw [isNear, optimized] at near
  have all : (Emit.emit o.func P).1.toOption.all (fun c => decide c.Near) = true := near
  rw [written] at all
  exact of_decide_eq_true all

open Batch MethodBody in
/-- The product has another number in the batch, where the square is entered before it. -/
theorem processBatch_independent_cubing :
    (processBatch [squaring, cubing] { ints := [300] } .unknown {}).pool = { ints := [300, 90000, 27000000] } ∧
      (processBatch [squaring, cubing] { ints := [300] } .unknown {}).bodies[1]? = some (cubed 3) ∧
        cubing.process { ints := [300] } .unknown {} = (.ok (cubed 2), { ints := [300, 27000000] }) ∧
          Agrees { ints := [300, 90000, 27000000] } { ints := [300, 27000000] } (cubed 3) (cubed 2) := by
  have together : (processBatch [squaring, cubing] { ints := [300] } .unknown {}).pool =
      { ints := [300, 90000, 27000000] } := by decide +kernel
  have second : (processBatch [squaring, cubing] { ints := [300] } .unknown {}).bodies[1]? = some (cubed 3) := by
    decide +kernel
  have two : (processBatch [squaring, cubing] { ints := [300] } .unknown {}).bodies.length = 2 := by decide +kernel
  have alone : cubing.process { ints := [300] } .unknown {} = (.ok (cubed 2), { ints := [300, 27000000] }) := by
    decide +kernel
  obtain ⟨-, outcomes, length, bodies, -, independent⟩ :=
    processBatch_independent [squaring, cubing] { ints := [300] } .unknown {}
  have same (r : Except Fault MethodBody) (here : outcomes[1]? = some r) :=
    (independent 1 cubing r rfl here).alone
  have before : ([squaring, cubing].take 1).foldl (poolBehind { ints := [300] } .unknown {}) { ints := [300] } =
      { ints := [300, 90000] } := by decide +kernel
  rw [before] at same
  clear independent before
  generalize processBatch [squaring, cubing] { ints := [300] } .unknown {} = b at *
  generalize cubing.process { ints := [300] } .unknown {} = p at *
  subst alone
  rw [together] at same
  -- both methods are among the bodies, so both outcomes are successes
  obtain ⟨r, r', rfl⟩ := List.length_eq_two.1 length
  rw [bodies] at two
  obtain ⟨m, rfl⟩ : ∃ m, r = .ok m := by
    cases r with
    | ok m => exact ⟨m, rfl⟩
    | error f => cases r' <;> cases two
  obtain ⟨m', rfl⟩ : ∃ m, r' = .ok m := by
    cases r' with
    | ok m => exact ⟨m, rfl⟩
    | error f => cases two
  have last : m' = cubed 3 := by
    rw [bodies] at second
    exact Option.some.inj second
  subst last
  exact ⟨together, second, rfl, same _ rfl (by decide) (by decide) (near_of_isNear (by decide +kernel))
    (near_of_isNear (by decide +kernel))⟩

end Avm
