/-!
# Opcodes

The instruction set of the virtual machine: one constructor per opcode, with its encoding byte, its
mnemonic, the shape of its operands, its effect on the operand and scope stacks, and the way it
hands on control.  Everything a decoder, an encoder or a flow analysis needs to know about an
opcode is read off this one table.
-/

namespace Avm

/-- The shape of the operands that follow an opcode byte. -/
inductive Layout where
  /-- No operands. -/
  | none
  /-- One byte. -/
  | byte
  /-- One variable-length index. -/
  | index
  /-- Two variable-length indices. -/
  | pair
  /-- One signed 24-bit branch offset. -/
  | branch
  /-- A default offset, a case count and the case offsets. -/
  | switch
  /-- Kind, name, register and extra word of a debug record. -/
  | debug
deriving DecidableEq, Repr, Inhabited

/-- The name of a layout as it stands in messages. -/
def Layout.name : Layout → String
  | .none => "None"
  | .byte => "U8"
  | .index => "U30"
  | .pair => "U30U30"
  | .branch => "S24"
  | .switch => "Switch"
  | .debug => "Debug"

/-- Where control goes after an instruction. -/
inductive Flow where
  /-- On to the next instruction. -/
  | next
  /-- To the branch target. -/
  | jump
  /-- To the branch target or on to the next instruction. -/
  | conditional
  /-- To one of the targets of a case table. -/
  | switch
  /-- Out of the method. -/
  | leave
  /-- To the handlers, or out of the method. -/
  | raise
deriving DecidableEq, Repr, Inhabited

namespace Flow

/-- The name of a flow as it stands in messages. -/
def name : Flow → String
  | next => "Next"
  | jump => "Jump"
  | conditional => "Conditional"
  | switch => "Switch"
  | leave => "Return"
  | raise => "Throw"

/-- Control never reaches the following instruction by falling through. -/
def endsBlock : Flow → Bool
  | next | conditional => false
  | _ => true

end Flow

/-- What the instruction set says about one opcode. -/
structure OpcodeInfo where
  /-- The name in listings. -/
  mnemonic : String
  /-- The shape of the operands. -/
  layout : Layout := .none
  /-- Operand stack slots read, operand-dependent ones not counted. -/
  pops : Nat := 0
  /-- Operand stack slots written. -/
  pushes : Nat := 0
  /-- Change of the scope stack depth. -/
  scope : Int := 0
  /-- Where control goes next. -/
  flow : Flow := .next
  /-- The instruction may raise an exception. -/
  canThrow : Bool := false
  /-- The first operand is a multiname, whose run-time parts are popped as well. -/
  multiname : Bool := false
deriving DecidableEq, Repr, Inhabited

/-- The opcodes of the instruction set. -/
inductive Opcode where
  | bkpt | nop | throw | getSuper | setSuper | dxns | dxnsLate | kill | label | ifNlt | ifNle
  | ifNgt | ifNge | jump | ifTrue | ifFalse | ifEq | ifNe | ifLt | ifLe | ifGt | ifGe
  | ifStrictEq | ifStrictNe | lookupSwitch | pushWith | popScope | nextName | hasNext | pushNull
  | pushUndefined | nextValue | pushByte | pushShort | pushTrue | pushFalse | pushNaN | pop | dup
  | swap | pushString | pushInt | pushUInt | pushDouble | pushScope | pushNamespace | hasNext2
  | li8 | li16 | li32 | lf32 | lf64 | si8 | si16 | si32 | sf32 | sf64 | newFunction | call
  | construct | callMethod | callStatic | callSuper | callProperty | returnVoid | returnValue
  | constructSuper | constructProp | callPropLex | callSuperVoid | callPropVoid | sxi1 | sxi8
  | sxi16 | applyType | newObject | newArray | newActivation | newClass | getDescendants
  | newCatch | findPropStrict | findProperty | findDef | getLex | setProperty | getLocal
  | setLocal | getGlobalScope | getScopeObject | getProperty | initProperty | deleteProperty
  | getSlot | setSlot | getGlobalSlot | setGlobalSlot | convertS | escXElem | escXAttr | convertI
  | convertU | convertD | convertB | convertO | checkFilter | coerce | coerceB | coerceA
  | coerceI | coerceD | coerceS | asType | asTypeLate | coerceU | coerceO | negate | increment
  | incLocal | decrement | decLocal | typeOf | not | bitNot | add | subtract | multiply | divide
  | modulo | lShift | rShift | uRShift | bitAnd | bitOr | bitXor | equals | strictEquals
  | lessThan | lessEquals | greaterThan | greaterEquals | instanceOf | isType | isTypeLate | isIn
  | incrementI | decrementI | incLocalI | decLocalI | negateI | addI | subtractI | multiplyI
  | getLocal0 | getLocal1 | getLocal2 | getLocal3 | setLocal0 | setLocal1 | setLocal2 | setLocal3
  | debug | debugLine | debugFile | bkptLine | timestamp
deriving DecidableEq, Repr, Inhabited

namespace Opcode

/-- Every opcode, in the order of the encoding bytes. -/
def all : List Opcode :=
  [.bkpt, .nop, .throw, .getSuper, .setSuper, .dxns, .dxnsLate, .kill, .label, .ifNlt, .ifNle,
   .ifNgt, .ifNge, .jump, .ifTrue, .ifFalse, .ifEq, .ifNe, .ifLt, .ifLe, .ifGt, .ifGe,
   .ifStrictEq, .ifStrictNe, .lookupSwitch, .pushWith, .popScope, .nextName, .hasNext, .pushNull,
   .pushUndefined, .nextValue, .pushByte, .pushShort, .pushTrue, .pushFalse, .pushNaN, .pop,
   .dup, .swap, .pushString, .pushInt, .pushUInt, .pushDouble, .pushScope, .pushNamespace,
   .hasNext2, .li8, .li16, .li32, .lf32, .lf64, .si8, .si16, .si32, .sf32, .sf64, .newFunction,
   .call, .construct, .callMethod, .callStatic, .callSuper, .callProperty, .returnVoid,
   .returnValue, .constructSuper, .constructProp, .callPropLex, .callSuperVoid, .callPropVoid,
   .sxi1, .sxi8, .sxi16, .applyType, .newObject, .newArray, .newActivation, .newClass,
   .getDescendants, .newCatch, .findPropStrict, .findProperty, .findDef, .getLex, .setProperty,
   .getLocal, .setLocal, .getGlobalScope, .getScopeObject, .getProperty, .initProperty,
   .deleteProperty, .getSlot, .setSlot, .getGlobalSlot, .setGlobalSlot, .convertS, .escXElem,
   .escXAttr, .convertI, .convertU, .convertD, .convertB, .convertO, .checkFilter, .coerce,
   .coerceB, .coerceA, .coerceI, .coerceD, .coerceS, .asType, .asTypeLate, .coerceU, .coerceO,
   .negate, .increment, .incLocal, .decrement, .decLocal, .typeOf, .not, .bitNot, .add,
   .subtract, .multiply, .divide, .modulo, .lShift, .rShift, .uRShift, .bitAnd, .bitOr, .bitXor,
   .equals, .strictEquals, .lessThan, .lessEquals, .greaterThan, .greaterEquals, .instanceOf,
   .isType, .isTypeLate, .isIn, .incrementI, .decrementI, .incLocalI, .decLocalI, .negateI,
   .addI, .subtractI, .multiplyI, .getLocal0, .getLocal1, .getLocal2, .getLocal3, .setLocal0,
   .setLocal1, .setLocal2, .setLocal3, .debug, .debugLine, .debugFile, .bkptLine, .timestamp]

/-- The byte that encodes an opcode. -/
def byte : Opcode → UInt8
  | .bkpt => 0x01
  | .nop => 0x02
  | .throw => 0x03
  | .getSuper => 0x04
  | .setSuper => 0x05
  | .dxns => 0x06
  | .dxnsLate => 0x07
  | .kill => 0x08
  | .label => 0x09
  | .ifNlt => 0x0c
  | .ifNle => 0x0d
  | .ifNgt => 0x0e
  | .ifNge => 0x0f
  | .jump => 0x10
  | .ifTrue => 0x11
  | .ifFalse => 0x12
  | .ifEq => 0x13
  | .ifNe => 0x14
  | .ifLt => 0x15
  | .ifLe => 0x16
  | .ifGt => 0x17
  | .ifGe => 0x18
  | .ifStrictEq => 0x19
  | .ifStrictNe => 0x1a
  | .lookupSwitch => 0x1b
  | .pushWith => 0x1c
  | .popScope => 0x1d
  | .nextName => 0x1e
  | .hasNext => 0x1f
  | .pushNull => 0x20
  | .pushUndefined => 0x21
  | .nextValue => 0x23
  | .pushByte => 0x24
  | .pushShort => 0x25
  | .pushTrue => 0x26
  | .pushFalse => 0x27
  | .pushNaN => 0x28
  | .pop => 0x29
  | .dup => 0x2a
  | .swap => 0x2b
  | .pushString => 0x2c
  | .pushInt => 0x2d
  | .pushUInt => 0x2e
  | .pushDouble => 0x2f
  | .pushScope => 0x30
  | .pushNamespace => 0x31
  | .hasNext2 => 0x32
  | .li8 => 0x35
  | .li16 => 0x36
  | .li32 => 0x37
  | .lf32 => 0x38
  | .lf64 => 0x39
  | .si8 => 0x3a
  | .si16 => 0x3b
  | .si32 => 0x3c
  | .sf32 => 0x3d
  | .sf64 => 0x3e
  | .newFunction => 0x40
  | .call => 0x41
  | .construct => 0x42
  | .callMethod => 0x43
  | .callStatic => 0x44
  | .callSuper => 0x45
  | .callProperty => 0x46
  | .returnVoid => 0x47
  | .returnValue => 0x48
  | .constructSuper => 0x49
  | .constructProp => 0x4a
  | .callPropLex => 0x4c
  | .callSuperVoid => 0x4e
  | .callPropVoid => 0x4f
  | .sxi1 => 0x50
  | .sxi8 => 0x51
  | .sxi16 => 0x52
  | .applyType => 0x53
  | .newObject => 0x55
  | .newArray => 0x56
  | .newActivation => 0x57
  | .newClass => 0x58
  | .getDescendants => 0x59
  | .newCatch => 0x5a
  | .findPropStrict => 0x5d
  | .findProperty => 0x5e
  | .findDef => 0x5f
  | .getLex => 0x60
  | .setProperty => 0x61
  | .getLocal => 0x62
  | .setLocal => 0x63
  | .getGlobalScope => 0x64
  | .getScopeObject => 0x65
  | .getProperty => 0x66
  | .initProperty => 0x68
  | .deleteProperty => 0x6a
  | .getSlot => 0x6c
  | .setSlot => 0x6d
  | .getGlobalSlot => 0x6e
  | .setGlobalSlot => 0x6f
  | .convertS => 0x70
  | .escXElem => 0x71
  | .escXAttr => 0x72
  | .convertI => 0x73
  | .convertU => 0x74
  | .convertD => 0x75
  | .convertB => 0x76
  | .convertO => 0x77
  | .checkFilter => 0x78
  | .coerce => 0x80
  | .coerceB => 0x81
  | .coerceA => 0x82
  | .coerceI => 0x83
  | .coerceD => 0x84
  | .coerceS => 0x85
  | .asType => 0x86
  | .asTypeLate => 0x87
  | .coerceU => 0x88
  | .coerceO => 0x89
  | .negate => 0x90
  | .increment => 0x91
  | .incLocal => 0x92
  | .decrement => 0x93
  | .decLocal => 0x94
  | .typeOf => 0x95
  | .not => 0x96
  | .bitNot => 0x97
  | .add => 0xa0
  | .subtract => 0xa1
  | .multiply => 0xa2
  | .divide => 0xa3
  | .modulo => 0xa4
  | .lShift => 0xa5
  | .rShift => 0xa6
  | .uRShift => 0xa7
  | .bitAnd => 0xa8
  | .bitOr => 0xa9
  | .bitXor => 0xaa
  | .equals => 0xab
  | .strictEquals => 0xac
  | .lessThan => 0xad
  | .lessEquals => 0xae
  | .greaterThan => 0xaf
  | .greaterEquals => 0xb0
  | .instanceOf => 0xb1
  | .isType => 0xb2
  | .isTypeLate => 0xb3
  | .isIn => 0xb4
  | .incrementI => 0xc0
  | .decrementI => 0xc1
  | .incLocalI => 0xc2
  | .decLocalI => 0xc3
  | .negateI => 0xc4
  | .addI => 0xc5
  | .subtractI => 0xc6
  | .multiplyI => 0xc7
  | .getLocal0 => 0xd0
  | .getLocal1 => 0xd1
  | .getLocal2 => 0xd2
  | .getLocal3 => 0xd3
  | .setLocal0 => 0xd4
  | .setLocal1 => 0xd5
  | .setLocal2 => 0xd6
  | .setLocal3 => 0xd7
  | .debug => 0xef
  | .debugLine => 0xf0
  | .debugFile => 0xf1
  | .bkptLine => 0xf2
  | .timestamp => 0xf3

/-- The row of the instruction table that belongs to an opcode. -/
def info : Opcode → OpcodeInfo
  | .bkpt => { mnemonic := "bkpt" }
  | .nop => { mnemonic := "nop" }
  | .throw => { mnemonic := "throw", pops := 1, flow := .raise, canThrow := true }
  | .getSuper =>
    { mnemonic := "getsuper", layout := .index, pops := 1, pushes := 1, canThrow := true, multiname := true }
  | .setSuper =>
    { mnemonic := "setsuper", layout := .index, pops := 2, canThrow := true, multiname := true }
  | .dxns => { mnemonic := "dxns", layout := .index, canThrow := true }
  | .dxnsLate => { mnemonic := "dxnslate", pops := 1, canThrow := true }
  | .kill => { mnemonic := "kill", layout := .index }
  | .label => { mnemonic := "label" }
  | .ifNlt =>
    { mnemonic := "ifnlt", layout := .branch, pops := 2, flow := .conditional, canThrow := true }
  | .ifNle =>
    { mnemonic := "ifnle", layout := .branch, pops := 2, flow := .conditional, canThrow := true }
  | .ifNgt =>
    { mnemonic := "ifngt", layout := .branch, pops := 2, flow := .conditional, canThrow := true }
  | .ifNge =>
    { mnemonic := "ifnge", layout := .branch, pops := 2, flow := .conditional, canThrow := true }
  | .jump => { mnemonic := "jump", layout := .branch, flow := .jump }
  | .ifTrue => { mnemonic := "iftrue", layout := .branch, pops := 1, flow := .conditional }
  | .ifFalse => { mnemonic := "iffalse", layout := .branch, pops := 1, flow := .conditional }
  | .ifEq =>
    { mnemonic := "ifeq", layout := .branch, pops := 2, flow := .conditional, canThrow := true }
  | .ifNe =>
    { mnemonic := "ifne", layout := .branch, pops := 2, flow := .conditional, canThrow := true }
  | .ifLt =>
    { mnemonic := "iflt", layout := .branch, pops := 2, flow := .conditional, canThrow := true }
  | .ifLe =>
    { mnemonic := "ifle", layout := .branch, pops := 2, flow := .conditional, canThrow := true }
  | .ifGt =>
    { mnemonic := "ifgt", layout := .branch, pops := 2, flow := .conditional, canThrow := true }
  | .ifGe =>
    { mnemonic := "ifge", layout := .branch, pops := 2, flow := .conditional, canThrow := true }
  | .ifStrictEq => { mnemonic := "ifstricteq", layout := .branch, pops := 2, flow := .conditional }
  | .ifStrictNe => { mnemonic := "ifstrictne", layout := .branch, pops := 2, flow := .conditional }
  | .lookupSwitch => { mnemonic := "lookupswitch", layout := .switch, pops := 1, flow := .switch }
  | .pushWith => { mnemonic := "pushwith", pops := 1, scope := 1, canThrow := true }
  | .popScope => { mnemonic := "popscope", scope := -1 }
  | .nextName => { mnemonic := "nextname", pops := 2, pushes := 1, canThrow := true }
  | .hasNext => { mnemonic := "hasnext", pops := 2, pushes := 1, canThrow := true }
  | .pushNull => { mnemonic := "pushnull", pushes := 1 }
  | .pushUndefined => { mnemonic := "pushundefined", pushes := 1 }
  | .nextValue => { mnemonic := "nextvalue", pops := 2, pushes := 1, canThrow := true }
  | .pushByte => { mnemonic := "pushbyte", layout := .byte, pushes := 1 }
  | .pushShort => { mnemonic := "pushshort", layout := .index, pushes := 1 }
  | .pushTrue => { mnemonic := "pushtrue", pushes := 1 }
  | .pushFalse => { mnemonic := "pushfalse", pushes := 1 }
  | .pushNaN => { mnemonic := "pushnan", pushes := 1 }
  | .pop => { mnemonic := "pop", pops := 1 }
  | .dup => { mnemonic := "dup", pops := 1, pushes := 2 }
  | .swap => { mnemonic := "swap", pops := 2, pushes := 2 }
  | .pushString => { mnemonic := "pushstring", layout := .index, pushes := 1 }
  | .pushInt => { mnemonic := "pushint", layout := .index, pushes := 1 }
  | .pushUInt => { mnemonic := "pushuint", layout := .index, pushes := 1 }
  | .pushDouble => { mnemonic := "pushdouble", layout := .index, pushes := 1 }
  | .pushScope => { mnemonic := "pushscope", pops := 1, scope := 1, canThrow := true }
  | .pushNamespace => { mnemonic := "pushnamespace", layout := .index, pushes := 1 }
  | .hasNext2 => { mnemonic := "hasnext2", layout := .pair, pushes := 1, canThrow := true }
  | .li8 => { mnemonic := "li8", pops := 1, pushes := 1, canThrow := true }
  | .li16 => { mnemonic := "li16", pops := 1, pushes := 1, canThrow := true }
  | .li32 => { mnemonic := "li32", pops := 1, pushes := 1, canThrow := true }
  | .lf32 => { mnemonic := "lf32", pops := 1, pushes := 1, canThrow := true }
  | .lf64 => { mnemonic := "lf64", pops := 1, pushes := 1, canThrow := true }
  | .si8 => { mnemonic := "si8", pops := 2, canThrow := true }
  | .si16 => { mnemonic := "si16", pops := 2, canThrow := true }
  | .si32 => { mnemonic := "si32", pops := 2, canThrow := true }
  | .sf32 => { mnemonic := "sf32", pops := 2, canThrow := true }
  | .sf64 => { mnemonic := "sf64", pops := 2, canThrow := true }
  | .newFunction => { mnemonic := "newfunction", layout := .index, pushes := 1 }
  | .call => { mnemonic := "call", layout := .index, pops := 2, pushes := 1, canThrow := true }
  | .construct =>
    { mnemonic := "construct", layout := .index, pops := 1, pushes := 1, canThrow := true }
  | .callMethod =>
    { mnemonic := "callmethod", layout := .pair, pops := 1, pushes := 1, canThrow := true }
  | .callStatic =>
    { mnemonic := "callstatic", layout := .pair, pops := 1, pushes := 1, canThrow := true }
  | .callSuper =>
    { mnemonic := "callsuper", layout := .pair, pops := 1, pushes := 1, canThrow := true, multiname := true }
  | .callProperty =>
    { mnemonic := "callproperty", layout := .pair, pops := 1, pushes := 1, canThrow := true, multiname := true }
  | .returnVoid => { mnemonic := "returnvoid", flow := .leave }
  | .returnValue => { mnemonic := "returnvalue", pops := 1, flow := .leave, canThrow := true }
  | .constructSuper =>
    { mnemonic := "constructsuper", layout := .index, pops := 1, canThrow := true }
  | .constructProp =>
    { mnemonic := "constructprop", layout := .pair, pops := 1, pushes := 1, canThrow := true, multiname := true }
  | .callPropLex =>
    { mnemonic := "callproplex", layout := .pair, pops := 1, pushes := 1, canThrow := true, multiname := true }
  | .callSuperVoid =>
    { mnemonic := "callsupervoid", layout := .pair, pops := 1, canThrow := true, multiname := true }
  | .callPropVoid =>
    { mnemonic := "callpropvoid", layout := .pair, pops := 1, canThrow := true, multiname := true }
  | .sxi1 => { mnemonic := "sxi1", pops := 1, pushes := 1 }
  | .sxi8 => { mnemonic := "sxi8", pops := 1, pushes := 1 }
  | .sxi16 => { mnemonic := "sxi16", pops := 1, pushes := 1 }
  | .applyType =>
    { mnemonic := "applytype", layout := .index, pops := 1, pushes := 1, canThrow := true }
  | .newObject => { mnemonic := "newobject", layout := .index, pushes := 1, canThrow := true }
  | .newArray => { mnemonic := "newarray", layout := .index, pushes := 1 }
  | .newActivation => { mnemonic := "newactivation", pushes := 1 }
  | .newClass =>
    { mnemonic := "newclass", layout := .index, pops := 1, pushes := 1, canThrow := true }
  | .getDescendants =>
    { mnemonic := "getdescendants", layout := .index, pops := 1, pushes := 1, canThrow := true, multiname := true }
  | .newCatch => { mnemonic := "newcatch", layout := .index, pushes := 1 }
  | .findPropStrict =>
    { mnemonic := "findpropstrict", layout := .index, pushes := 1, canThrow := true, multiname := true }
  | .findProperty =>
    { mnemonic := "findproperty", layout := .index, pushes := 1, canThrow := true, multiname := true }
  | .findDef => { mnemonic := "finddef", layout := .index, pushes := 1, canThrow := true }
  | .getLex => { mnemonic := "getlex", layout := .index, pushes := 1, canThrow := true }
  | .setProperty =>
    { mnemonic := "setproperty", layout := .index, pops := 2, canThrow := true, multiname := true }
  | .getLocal => { mnemonic := "getlocal", layout := .index, pushes := 1 }
  | .setLocal => { mnemonic := "setlocal", layout := .index, pops := 1 }
  | .getGlobalScope => { mnemonic := "getglobalscope", pushes := 1 }
  | .getScopeObject => { mnemonic := "getscopeobject", layout := .byte, pushes := 1 }
  | .getProperty =>
    { mnemonic := "getproperty", layout := .index, pops := 1, pushes := 1, canThrow := true, multiname := true }
  | .initProperty =>
    { mnemonic := "initproperty", layout := .index, pops := 2, canThrow := true, multiname := true }
  | .deleteProperty =>
    { mnemonic := "deleteproperty", layout := .index, pops := 1, pushes := 1, canThrow := true, multiname := true }
  | .getSlot =>
    { mnemonic := "getslot", layout := .index, pops := 1, pushes := 1, canThrow := true }
  | .setSlot => { mnemonic := "setslot", layout := .index, pops := 2, canThrow := true }
  | .getGlobalSlot => { mnemonic := "getglobalslot", layout := .index, pushes := 1 }
  | .setGlobalSlot => { mnemonic := "setglobalslot", layout := .index, pops := 1 }
  | .convertS => { mnemonic := "convert_s", pops := 1, pushes := 1, canThrow := true }
  | .escXElem => { mnemonic := "esc_xelem", pops := 1, pushes := 1, canThrow := true }
  | .escXAttr => { mnemonic := "esc_xattr", pops := 1, pushes := 1, canThrow := true }
  | .convertI => { mnemonic := "convert_i", pops := 1, pushes := 1, canThrow := true }
  | .convertU => { mnemonic := "convert_u", pops := 1, pushes := 1, canThrow := true }
  | .convertD => { mnemonic := "convert_d", pops := 1, pushes := 1, canThrow := true }
  | .convertB => { mnemonic := "convert_b", pops := 1, pushes := 1 }
  | .convertO => { mnemonic := "convert_o", pops := 1, pushes := 1, canThrow := true }
  | .checkFilter => { mnemonic := "checkfilter", pops := 1, pushes := 1, canThrow := true }
  | .coerce => { mnemonic := "coerce", layout := .index, pops := 1, pushes := 1, canThrow := true }
  | .coerceB => { mnemonic := "coerce_b", pops := 1, pushes := 1 }
  | .coerceA => { mnemonic := "coerce_a", pops := 1, pushes := 1 }
  | .coerceI => { mnemonic := "coerce_i", pops := 1, pushes := 1, canThrow := true }
  | .coerceD => { mnemonic := "coerce_d", pops := 1, pushes := 1, canThrow := true }
  | .coerceS => { mnemonic := "coerce_s", pops := 1, pushes := 1, canThrow := true }
  | .asType => { mnemonic := "astype", layout := .index, pops := 1, pushes := 1, canThrow := true }
  | .asTypeLate => { mnemonic := "astypelate", pops := 2, pushes := 1, canThrow := true }
  | .coerceU => { mnemonic := "coerce_u", pops := 1, pushes := 1, canThrow := true }
  | .coerceO => { mnemonic := "coerce_o", pops := 1, pushes := 1 }
  | .negate => { mnemonic := "negate", pops := 1, pushes := 1, canThrow := true }
  | .increment => { mnemonic := "increment", pops := 1, pushes := 1, canThrow := true }
  | .incLocal => { mnemonic := "inclocal", layout := .index, canThrow := true }
  | .decrement => { mnemonic := "decrement", pops := 1, pushes := 1, canThrow := true }
  | .decLocal => { mnemonic := "declocal", layout := .index, canThrow := true }
  | .typeOf => { mnemonic := "typeof", pops := 1, pushes := 1 }
  | .not => { mnemonic := "not", pops := 1, pushes := 1 }
  | .bitNot => { mnemonic := "bitnot", pops := 1, pushes := 1, canThrow := true }
  | .add => { mnemonic := "add", pops := 2, pushes := 1, canThrow := true }
  | .subtract => { mnemonic := "subtract", pops := 2, pushes := 1, canThrow := true }
  | .multiply => { mnemonic := "multiply", pops := 2, pushes := 1, canThrow := true }
  | .divide => { mnemonic := "divide", pops := 2, pushes := 1, canThrow := true }
  | .modulo => { mnemonic := "modulo", pops := 2, pushes := 1, canThrow := true }
  | .lShift => { mnemonic := "lshift", pops := 2, pushes := 1, canThrow := true }
  | .rShift => { mnemonic := "rshift", pops := 2, pushes := 1, canThrow := true }
  | .uRShift => { mnemonic := "urshift", pops := 2, pushes := 1, canThrow := true }
  | .bitAnd => { mnemonic := "bitand", pops := 2, pushes := 1, canThrow := true }
  | .bitOr => { mnemonic := "bitor", pops := 2, pushes := 1, canThrow := true }
  | .bitXor => { mnemonic := "bitxor", pops := 2, pushes := 1, canThrow := true }
  | .equals => { mnemonic := "equals", pops := 2, pushes := 1, canThrow := true }
  | .strictEquals => { mnemonic := "strictequals", pops := 2, pushes := 1 }
  | .lessThan => { mnemonic := "lessthan", pops := 2, pushes := 1, canThrow := true }
  | .lessEquals => { mnemonic := "lessequals", pops := 2, pushes := 1, canThrow := true }
  | .greaterThan => { mnemonic := "greaterthan", pops := 2, pushes := 1, canThrow := true }
  | .greaterEquals => { mnemonic := "greaterequals", pops := 2, pushes := 1, canThrow := true }
  | .instanceOf => { mnemonic := "instanceof", pops := 2, pushes := 1, canThrow := true }
  | .isType => { mnemonic := "istype", layout := .index, pops := 1, pushes := 1, canThrow := true }
  | .isTypeLate => { mnemonic := "istypelate", pops := 2, pushes := 1, canThrow := true }
  | .isIn => { mnemonic := "in", pops := 2, pushes := 1, canThrow := true }
  | .incrementI => { mnemonic := "increment_i", pops := 1, pushes := 1, canThrow := true }
  | .decrementI => { mnemonic := "decrement_i", pops := 1, pushes := 1, canThrow := true }
  | .incLocalI => { mnemonic := "inclocal_i", layout := .index, canThrow := true }
  | .decLocalI => { mnemonic := "declocal_i", layout := .index, canThrow := true }
  | .negateI => { mnemonic := "negate_i", pops := 1, pushes := 1, canThrow := true }
  | .addI => { mnemonic := "add_i", pops := 2, pushes := 1, canThrow := true }
  | .subtractI => { mnemonic := "subtract_i", pops := 2, pushes := 1, canThrow := true }
  | .multiplyI => { mnemonic := "multiply_i", pops := 2, pushes := 1, canThrow := true }
  | .getLocal0 => { mnemonic := "getlocal0", pushes := 1 }
  | .getLocal1 => { mnemonic := "getlocal1", pushes := 1 }
  | .getLocal2 => { mnemonic := "getlocal2", pushes := 1 }
  | .getLocal3 => { mnemonic := "getlocal3", pushes := 1 }
  | .setLocal0 => { mnemonic := "setlocal0", pops := 1 }
  | .setLocal1 => { mnemonic := "setlocal1", pops := 1 }
  | .setLocal2 => { mnemonic := "setlocal2", pops := 1 }
  | .setLocal3 => { mnemonic := "setlocal3", pops := 1 }
  | .debug => { mnemonic := "debug", layout := .debug }
  | .debugLine => { mnemonic := "debugline", layout := .index }
  | .debugFile => { mnemonic := "debugfile", layout := .index }
  | .bkptLine => { mnemonic := "bkptline", layout := .index }
  | .timestamp => { mnemonic := "timestamp" }

/-- The name of an opcode in listings. -/
def mnemonic (o : Opcode) : String := o.info.mnemonic

/-- The operand shape of an opcode. -/
def layout (o : Opcode) : Layout := o.info.layout

/-- Where control goes after an opcode. -/
def flow (o : Opcode) : Flow := o.info.flow

/-- The opcode may raise an exception. -/
def canThrow (o : Opcode) : Bool := o.info.canThrow

/-- The opcode names a property by a multiname. -/
def takesMultiname (o : Opcode) : Bool := o.info.multiname

/-- The opcode carries branch targets. -/
def isBranch (o : Opcode) : Bool :=
  match o.flow with
  | .jump | .conditional | .switch => true
  | _ => false

/-- The opcode that a byte encodes. -/
def ofByte? (b : UInt8) : Option Opcode := all.find? (·.byte == b)

/-- The opcode with a given name in listings. -/
def ofMnemonic? (m : String) : Option Opcode := all.find? (·.mnemonic == m)

/-- The conditional branch that is taken exactly when the given one is not. -/
def inverseBranch : Opcode → Option Opcode
  | .ifTrue => some .ifFalse
  | .ifFalse => some .ifTrue
  | .ifEq => some .ifNe
  | .ifNe => some .ifEq
  | .ifStrictEq => some .ifStrictNe
  | .ifStrictNe => some .ifStrictEq
  | .ifLt => some .ifNlt
  | .ifNlt => some .ifLt
  | .ifLe => some .ifNle
  | .ifNle => some .ifLe
  | .ifGt => some .ifNgt
  | .ifNgt => some .ifGt
  | .ifGe => some .ifNge
  | .ifNge => some .ifGe
  | _ => none

end Opcode

end Avm
