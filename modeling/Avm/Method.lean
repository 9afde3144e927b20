import Avm.Code

/-!
# Methods and their surroundings

A method body is the code of a method with the sizes of its stacks and registers.  An environment
answers, for a call site, which method a call reaches and how firmly, and gives the bodies of
methods.
-/

namespace Avm

/-- The number of a method. -/
abbrev MethodId := Nat

/-- How a method is shown. -/
def MethodId.text (m : MethodId) : String := s!"method#{m}"

/-- What a method asks of its activation. -/
structure MethodFlags where
  /-- The arguments are also passed as an array. -/
  needArguments : Bool := false
  /-- The method has an activation object. -/
  needActivation : Bool := false
  /-- Surplus arguments are passed as an array. -/
  needRest : Bool := false
  /-- Some parameters are optional. -/
  hasOptional : Bool := false
  /-- The method sets the default namespace. -/
  setDxns : Bool := false
  /-- The parameters have names. -/
  hasParamNames : Bool := false
deriving DecidableEq, Repr, Inhabited

namespace MethodFlags

/-- The flags that are set in a byte; other bits are passed over. -/
def ofBits (n : Nat) : MethodFlags where
  needArguments := n.testBit 0
  needActivation := n.testBit 1
  needRest := n.testBit 2
  hasOptional := n.testBit 3
  setDxns := n.testBit 6
  hasParamNames := n.testBit 7

/-- The byte of the flags. -/
def toBits (f : MethodFlags) : Nat :=
  f.needArguments.toNat + 2 * f.needActivation.toNat + 4 * f.needRest.toNat
    + 8 * f.hasOptional.toNat + 64 * f.setDxns.toNat + 128 * f.hasParamNames.toNat

end MethodFlags

/-- One past the greatest word.  Counts of registers and depths of stacks are words. -/
def wordBound : Nat := 0x100000000

/-- The sum of two words, which wraps around. -/
def addWords (a b : Nat) : Nat := (a + b) % wordBound

theorem addWords_eq {a b : Nat} (fits : a + b < wordBound) : addWords a b = a + b := Nat.mod_eq_of_lt fits

theorem addWords_lt (a b : Nat) : addWords a b < wordBound := Nat.mod_lt _ (by decide)

/-- The number of registers that hold the receiver and the arguments when a method starts.  It is exact, where
the sum of words would wrap around for the last two numbers of parameters. -/
def argumentRegisters (params : Nat) (flags : MethodFlags) : Nat :=
  params + 1 + (flags.needRest || flags.needArguments).toNat

theorem argumentRegisters_lt {params : Nat} (flags : MethodFlags) (few : params + 2 < wordBound) :
    argumentRegisters params flags < wordBound := by
  have extra : (flags.needRest || flags.needArguments).toNat ≤ 1 := Bool.toNat_le _
  rw [argumentRegisters]
  omega

/-- A method body. -/
structure MethodBody where
  /-- The method. -/
  method : MethodId := 0
  /-- The number of parameters. -/
  params : Nat := 0
  /-- What the method asks of its activation. -/
  flags : MethodFlags := {}
  /-- The greatest depth of the operand stack. -/
  maxStack : Nat := 0
  /-- The number of registers. -/
  locals : Nat := 1
  /-- The depth of the scope stack when the method starts. -/
  initScope : Nat := 0
  /-- The greatest depth of the scope stack. -/
  maxScope : Nat := 0
  /-- The bytes of the instructions. -/
  code : List UInt8 := []
  /-- The exception handlers, by byte offsets. -/
  exceptions : List (Handler Nat) := []
deriving DecidableEq, Repr, Inhabited

/-- The number of registers that are set when the method starts. -/
def MethodBody.argumentRegisters (b : MethodBody) : Nat := Avm.argumentRegisters b.params b.flags

/-- How a call names the method that it calls. -/
inductive Dispatch where
  /-- By the name of a property. -/
  | property (name : Nat)
  /-- By a slot of the receiver's method table. -/
  | method (slot : Nat)
  /-- By the number of the method. -/
  | static (method : Nat)
  /-- By the name of a property of the base class. -/
  | super (name : Nat)
deriving DecidableEq, Repr, Inhabited

/-- A call, as far as it matters for what it reaches. -/
structure CallSite where
  /-- The method that calls. -/
  caller : MethodId
  /-- How the callee is named. -/
  dispatch : Dispatch
  /-- The call is made on the caller's own receiver. -/
  onReceiver : Bool
  /-- The number of arguments. -/
  argCount : Nat
deriving DecidableEq, Repr, Inhabited

/-- How firmly a call is bound to a method. -/
inductive CallBinding where
  | final | priv | static | virtual
deriving DecidableEq, Repr, Inhabited

namespace CallBinding

/-- Every way to be bound. -/
def all : List CallBinding := [final, priv, static, virtual]

/-- The name of a binding. -/
def name : CallBinding → String
  | final => "Final"
  | priv => "Private"
  | static => "Static"
  | virtual => "Virtual"

/-- No subclass can make the call reach another method. -/
def isStatic : CallBinding → Bool
  | virtual => false
  | _ => true

end CallBinding

/-- The method that a call reaches. -/
structure ResolvedCall where
  /-- The method. -/
  method : MethodId
  /-- How firmly the call is bound to it. -/
  binding : CallBinding
deriving DecidableEq, Repr, Inhabited

/-- What is known about other methods. -/
structure Environment where
  /-- The method that a call reaches. -/
  resolve : CallSite → Option ResolvedCall
  /-- The body of a method. -/
  body? : MethodId → Option MethodBody

namespace Environment

/-- Nothing is known. -/
def unknown : Environment := ⟨fun _ => none, fun _ => none⟩

instance : Inhabited Environment := ⟨unknown⟩

/-- The method that a call reaches; a call by method number needs no knowledge. -/
def resolveCall (env : Environment) (site : CallSite) : Option ResolvedCall :=
  match site.dispatch with
  | .static method => some ⟨method, .static⟩
  | _ => env.resolve site

end Environment

/-- An environment given by tables. -/
structure MethodTable where
  /-- What the properties of a caller's receiver reach. -/
  properties : List ((MethodId × Nat) × ResolvedCall) := []
  /-- What the slots of a caller's receiver reach. -/
  slots : List ((MethodId × Nat) × ResolvedCall) := []
  /-- The bodies of methods. -/
  bodies : List (MethodId × MethodBody) := []
deriving DecidableEq, Repr, Inhabited

namespace MethodTable

/-- Adds a property, in place of an earlier one. -/
def addProperty (t : MethodTable) (caller : MethodId) (name : Nat) (target : ResolvedCall) :
    MethodTable :=
  { t with properties := ((caller, name), target) :: t.properties }

/-- Adds a slot, in place of an earlier one. -/
def addSlot (t : MethodTable) (caller : MethodId) (slot : Nat) (target : ResolvedCall) :
    MethodTable :=
  { t with slots := ((caller, slot), target) :: t.slots }

/-- Adds a body, in place of an earlier one of the same method. -/
def addBody (t : MethodTable) (body : MethodBody) : MethodTable :=
  { t with bodies := (body.method, body) :: t.bodies }

/-- The method that a call reaches; only calls on the caller's own receiver are known. -/
def resolve (t : MethodTable) (site : CallSite) : Option ResolvedCall :=
  if site.onReceiver then
    match site.dispatch with
    | .property name => t.properties.lookup (site.caller, name)
    | .method slot => t.slots.lookup (site.caller, slot)
    | .static method => some ⟨method, .static⟩
    | .super _ => none
  else none

/-- The environment that the tables describe. -/
def environment (t : MethodTable) : Environment := ⟨t.resolve, fun m => t.bodies.lookup m⟩

end MethodTable

end Avm
