import Avm.Pipeline
import Avm.Proofs.Run.Machine
import Avm.Proofs.Sequence

/-!
# What is left of the meaning of a method

A method keeps its meaning if the code that it is rewritten to runs as its own code does.  A value
that is read from a register before the register is written is kept by a copy only if it is known, at
the time of the write, to be one that reads the register.  If the value comes from a join, that may
turn out later, when the other ways into the join are followed; the reading then happens after the
write.

The main statement is `MethodBody.keeps_readBeforeWrite`, about the smallest method for which this
happens.
-/

namespace Avm.MethodBody

variable {V : Type}

/-- The rewritten method runs as the method does, whatever the operators and the surroundings are. -/
def KeepsMeaning (body : MethodBody) (pool : Pool) (config : Config) : Prop :=
  ∀ rewritten pool', body.process pool .unknown config = (.ok rewritten, pool') →
    ∀ (V : Type) (I : Interp V), I.Folds → ∀ args trace ending,
      body.Runs pool I args trace ending ↔ rewritten.Runs pool' I args trace ending

/-- A method that returns its first argument, which it overwrites just before.  The argument is read
on one of two ways to the place where it is returned, the other way is never taken. -/
def readBeforeWrite : MethodBody where
  params := 1
  locals := 2
  code := [0x27, 0x11, 0x05, 0x00, 0x00, 0xd1, 0x10, 0x02, 0x00, 0x00, 0x24, 0x05, 0x24, 0x09, 0xd5,
    0x48]

/-- The instructions of that method. -/
def readBeforeWriteListing : List (Instruction Nat) :=
  [⟨.pushFalse, .none⟩, .branch .ifTrue 4, ⟨.getLocal1, .none⟩, .branch .jump 5,
    .withByte .pushByte 5, .withByte .pushByte 9, ⟨.setLocal1, .none⟩, ⟨.returnValue, .none⟩]

/-- What is made of it: a method that returns what the argument was overwritten with. -/
def writeOnly : MethodBody where
  params := 1
  maxStack := 1
  locals := 2
  code := [0x24, 0x09, 0x48]

lemma process_readBeforeWrite : readBeforeWrite.process {} .unknown {} = (.ok writeOnly, {}) := by
  decide +kernel

-- With the two ways to the join exchanged, the reading is known when the register is written.
example : ({ readBeforeWrite with
    code := [0x26, 0x11, 0x06, 0x00, 0x00, 0x24, 0x05, 0x10, 0x01, 0x00, 0x00, 0xd1, 0x24, 0x09,
      0xd5, 0x48] } : MethodBody).process {} .unknown {} =
    (.ok { writeOnly with code := [0xd1, 0x48] }, {}) := by
  decide +kernel

lemma runs_of_run {body : MethodBody} {pool : Pool} {I : Interp V} {args : Nat → V}
    {listing : List (Instruction Nat)} {fuel : Nat} {trace : List (Event V)} {ending : Ending V}
    (listed : (Code.decode body.code body.exceptions >>= Code.listing) = .ok listing)
    (ran : Machine.run listing pool I fuel (body.start I args) = some (trace, ending)) :
    body.Runs pool I args trace ending := by
  obtain ⟨code, decoded, listed⟩ := bind_eq_ok.1 listed
  exact ⟨code, listing, fuel, decoded, listed, ran⟩

lemma runs_readBeforeWrite {I : Interp V} (folds : I.Folds) (args : Nat → V) :
    readBeforeWrite.Runs {} I args [] (.returned (some (args 1))) := by
  have listed : (Code.decode readBeforeWrite.code readBeforeWrite.exceptions >>= Code.listing) =
      .ok readBeforeWriteListing := by
    decide +kernel
  have notTaken : I.branch .truthy [I.const (.bool false)] = false :=
    folds.branch .truthy [.bool false] false rfl
  have arrives : Machine.run readBeforeWriteListing {} I 7 (readBeforeWrite.start I args) =
      Machine.run readBeforeWriteListing {} I 5 { readBeforeWrite.start I args with
        position := if I.branch .truthy [I.const (.bool false)] then 4 else 2 } := rfl
  refine runs_of_run listed (arrives.trans ?_)
  rw [notTaken]
  rfl

lemma runs_writeOnly (I : Interp V) (args : Nat → V) :
    writeOnly.Runs {} I args [] (.returned (some (I.const (.int 9)))) := by
  have listed : (Code.decode writeOnly.code writeOnly.exceptions >>= Code.listing) =
      .ok [.withByte .pushByte 9, ⟨.returnValue, .none⟩] := by
    decide +kernel
  have ran : Machine.run [.withByte .pushByte 9, ⟨.returnValue, .none⟩] {} I 2
      (writeOnly.start I args) = some ([], .returned (some (I.const (.int 9)))) := rfl
  exact runs_of_run listed ran

/-- The rewritten method runs as the method does if the argument happens to be what it is overwritten
with, and only then. -/
theorem keeps_readBeforeWrite {I : Interp V} (folds : I.Folds) (args : Nat → V) :
    readBeforeWrite.exceptions = [] ∧
    readBeforeWrite.process {} .unknown {} = (.ok writeOnly, {}) ∧
    ((∀ trace ending, readBeforeWrite.Runs {} I args trace ending ↔
      writeOnly.Runs {} I args trace ending) ↔ args 1 = I.const (.int 9)) := by
  have ran := runs_readBeforeWrite folds args
  have ran' := runs_writeOnly I args
  refine ⟨rfl, process_readBeforeWrite, ?_, ?_⟩
  · intro same
    obtain ⟨-, ending⟩ := ran'.inj ((same _ _).1 ran)
    exact (Option.some.inj (Ending.returned.inj ending)).symm
  · intro eq trace ending
    rw [eq] at ran
    constructor
    · intro other
      obtain ⟨rfl, rfl⟩ := ran.inj other
      exact ran'
    · intro other
      obtain ⟨rfl, rfl⟩ := ran'.inj other
      exact ran

/-- Constants tell the two apart. -/
theorem keeps_readBeforeWrite_constants :
    readBeforeWrite.exceptions = [] ∧
    readBeforeWrite.process {} .unknown {} = (.ok writeOnly, {}) ∧
    ((∀ trace ending, readBeforeWrite.Runs {} .ofConstants (fun _ => .null) trace ending ↔
      writeOnly.Runs {} .ofConstants (fun _ => .null) trace ending) ↔
        Ir.Constant.null = .int 9) :=
  keeps_readBeforeWrite Interp.folds_ofConstants fun _ => .null

/-- Not every method without handlers keeps its meaning. -/
theorem not_keepsMeaning :
    ¬∀ body pool config, body.exceptions = [] → KeepsMeaning body pool config := by
  intro keeps
  have same := keeps readBeforeWrite {} {} rfl writeOnly {} process_readBeforeWrite Ir.Constant
    .ofConstants Interp.folds_ofConstants fun _ => .null
  have ran := runs_readBeforeWrite Interp.folds_ofConstants fun _ => .null
  obtain ⟨-, ending⟩ := ((same _ _).1 ran).inj (runs_writeOnly .ofConstants fun _ => .null)
  exact absurd ending (by decide)

end Avm.MethodBody
