import Avm.Proofs.Batch
import Avm.Proofs.Emit.Levelling
import Avm.Proofs.Flow.Mirroring
import Avm.Proofs.Lift.Refusing
import Avm.Proofs.Opt.Nesting

/-!
# Sizes of processed bodies

A lifted graph has its scopes in order, and every optimization keeps them so.  Code that is written for such a graph has
depths that agree with each other, so the bounds that are computed for it are enough.  What is decoded from the new body
is that code with other numbers for instructions and markers.

The greatest depth of the scope stack is a sum of words.  It is the one that is meant unless the
sum wraps around, and the depth that a method adds is a difference of words in any case.

The main statement is `MethodBody.allows_of_process`.
-/

namespace Avm

/-- The difference of two words, which wraps around. -/
def subWords (a b : Nat) : Nat := (a + (wordBound - b)) % wordBound

lemma subWords_addWords {a b : Nat} (ha : a < wordBound) (hb : b < wordBound) : subWords (addWords a b) a = b := by
  have whole : a + b + (wordBound - a) = b + wordBound := by omega
  rw [subWords, addWords, Nat.mod_add_mod, whole, Nat.add_mod_right, Nat.mod_eq_of_lt hb]

lemma subWords_eq {a b : Nat} (ha : a < wordBound) (le : b ≤ a) : subWords a b = a - b := by
  have whole : a + (wordBound - b) = a - b + wordBound := by omega
  rw [subWords, whole, Nat.add_mod_right, Nat.mod_eq_of_lt (Nat.lt_of_le_of_lt (Nat.sub_le a b) ha)]

lemma StackBounds.maxScope_lt {g : FlowGraph} {c : Code} {pool : Pool} {budget : Nat} {bounds : StackBounds}
    (analyzed : StackBounds.analyze g c pool budget = .ok bounds) : bounds.maxScope < wordBound := by
  obtain ⟨b, -, last⟩ := bind_eq_ok.1 analyzed
  obtain rfl := Except.ok.inj last
  exact Nat.lt_of_le_of_lt (Nat.min_le_right _ _) (by decide)

namespace Opt

open Avm.Ir Avm.Ir.Func

lemma Pass.scopes_of_mem {p : Pass} (mem : p ∈ Pass.all) : p.Scopes :=
  of_mem_all mem (scopes_of_lessens Folding.pass_keeps Folding.pass_lessens)
    (scopes_of_lessens Copying.pass_keeps Copying.pass_lessens)
    (scopes_of_lessens DeadCode.pass_keeps DeadCode.pass_lessens)
    Hoisting.pass_scopes TailCall.pass_scopes Inlining.pass_scopes

lemma kept_of_optimize {body : MethodBody} {pool : Pool} {env : Environment} {config : Config} {o : Optimized}
    (optimized : body.optimize pool env config = .ok o) : o.func.Kept := by
  obtain ⟨f, lifted, reached⟩ := reaches_of_optimize optimized
  generalize o.func = g at reached
  induction reached with
  | refl => exact ⟨intact_of_lift lifted, (MethodBody.scoped_of_lift lifted).1⟩
  | step _ mem run ih => exact (Pass.scopes_of_mem mem _).of_ok ih run

end Opt

lemma Ir.Func.Writable.congr {f : Ir.Func} {P Q : Pool} (h : f.Writable P) (names : Q.multinames = P.multinames) :
    f.Writable Q := by
  refine ⟨fun v k here i instruction => ?_, h.ends⟩
  obtain ⟨flow, literal, effect⟩ := h.nodes v k here i instruction
  exact ⟨flow, literal, by rw [Instruction.effect_congr names, effect]⟩

lemma Code.size_le_of_encode {c : Code} {e : EncodedCode} (encoded : c.encode = .ok e) : c.size ≤ e.bytes.length := by
  obtain ⟨rs, known⟩ := c.encode_eq_ok encoded
  have total : e.bytes.length = Encode.codeLength c := by
    rw [known.bytes, ← known.laid.length_bytes, Nat.zero_add]
  rw [Code.size, known.instrs.length_eq, total, ← Nat.zero_add rs.length]
  exact Decode.length_le_of_laid known.laid

namespace MethodBody

variable {body r : MethodBody} {pool P : Pool} {env : Environment} {config : Config} {c d : Code}
  {depth : Nat → Ir.Level}

/-- The body has the bounds of its code, in words, and what is decoded from it is that code, which is not too long. -/
lemma withCode_eq_ok (packed : body.withCode c pool config = .ok r) : ∃ g bounds, FlowGraph.build c = .ok g ∧
    StackBounds.analyze g c pool config.maxStackPaths = .ok bounds ∧ r.maxStack = bounds.maxStack ∧
      r.initScope = body.initScope ∧ r.maxScope = addWords body.initScope bounds.maxScope ∧
        r.locals = c.localCount body.params body.flags ∧
        (r.code.length < 0x100000000 → c.size ≤ 0xffffffff ∧
          ∃ d, Code.decode r.code r.exceptions = .ok d ∧ c.Mirrors d) := by
  obtain ⟨g, built, rest⟩ := bind_eq_ok.1 packed
  obtain ⟨bounds, analyzed, rest⟩ := bind_eq_ok.1 rest
  obtain ⟨encoded, bytes, last⟩ := bind_eq_ok.1 rest
  obtain ⟨is, hs, listed, handled, lists⟩ := lists_of_encode bytes
  obtain rfl := Except.ok.inj last
  refine ⟨g, bounds, built, analyzed, rfl, rfl, rfl, rfl, fun small => ⟨?_, ?_⟩⟩
  · exact Nat.le_of_lt_succ (Nat.lt_of_le_of_lt (Code.size_le_of_encode bytes) small)
  · obtain ⟨d, decoded, listed', handled'⟩ := (lists _ rfl rfl).decoded small
    exact ⟨d, decoded, ⟨is, listed, listed'⟩, hs, handled, handled'⟩

/-- A method that counts down with an object on the scope stack, and drops what is thrown there. -/
def counting : MethodBody where
  params := 1
  locals := 2
  initScope := 4
  code := [0xd0, 0x30, 0xd1, 0x09, 0x93, 0x2a, 0x11, 0xfb, 0xff, 0xff, 0x48, 0x29, 0x47]
  exceptions := [⟨3, 10, 11, 0, 0⟩]

/-- The new body, in which the number is kept in a register of its own. -/
def counted : MethodBody :=
  { counting with
    maxStack := 1
    locals := 3
    maxScope := 5
    code := [0xd0, 0x30, 0xd1, 0x93, 0xd6, 0x09, 0xd2, 0x11, 0xfa, 0xff, 0xff, 0xd2, 0x48, 0x29, 0x47]
    exceptions := [⟨2, 11, 13, 0, 0⟩] }

/-- A method that starts with the deepest scope stack that there is, and puts one more object on it. -/
def overgrown : MethodBody where
  initScope := wordBound - 1
  code := [0xd0, 0x30, 0x47]

end MethodBody

end Avm
