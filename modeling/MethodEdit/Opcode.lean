/-!
Opcodes of the stack machine. The short encodings are opcodes of their own: what is read is what is
written back.
-/
namespace MethodEdit

/-- Operations on the top of the stack that take no operand. -/
inductive StackOp where
  | nop | dup | pop | ldnull
  | add | sub | mul | div | rem | neg | and | or | xor | not | shl | shr
  | ceq | cgt | clt
  | convI4 | convI8 | convR4 | convR8
  deriving DecidableEq, Repr

inductive Condition where
  | isTrue | isFalse | equal | notEqual | atLeast | above | atMost | below
  deriving DecidableEq, Repr

inductive Opcode where
  | stack (op : StackOp)
  | ldstr
  /-- Pushes `k - 1` without an operand: `ldc.i4.m1` to `ldc.i4.8`. -/
  | ldcFixed (k : Fin 10)
  | ldcI4S | ldcI4 | ldcI8 | ldcR4 | ldcR8
  | ldargFixed (index : Fin 4)
  | ldarg | ldarga | starg
  | ldlocFixed (index : Fin 4)
  | ldloc | ldloca
  | stlocFixed (index : Fin 4)
  | stloc
  | call | callvirt | newobj
  | ldfld | ldflda | stfld | ldsfld | ldsflda | stsfld
  | box | unboxAny | castclass | isinst
  | br (short : Bool)
  | leave (short : Bool)
  | branch (condition : Condition) (short : Bool)
  | switch | ret | raise
  deriving DecidableEq, Repr

/-- How control goes on after an instruction. -/
inductive Flow where
  | next
  | branch
  /-- May jump or fall through. -/
  | condBranch
  | call
  | ret
  | raise
  deriving DecidableEq, Repr

/-- What an opcode expects as its operand. -/
inductive OperandKind where
  | none | int8 | int32 | int64 | float32 | float64 | string | argument | slot | target | table
  | method | field | type
  deriving DecidableEq, Repr

def StackOp.mnemonic : StackOp → String
  | nop => "nop" | dup => "dup" | pop => "pop" | ldnull => "ldnull"
  | add => "add" | sub => "sub" | mul => "mul" | div => "div" | rem => "rem" | neg => "neg"
  | and => "and" | or => "or" | xor => "xor" | not => "not" | shl => "shl" | shr => "shr"
  | ceq => "ceq" | cgt => "cgt" | clt => "clt"
  | convI4 => "conv.i4" | convI8 => "conv.i8" | convR4 => "conv.r4" | convR8 => "conv.r8"

def Condition.mnemonic : Condition → String
  | isTrue => "brtrue" | isFalse => "brfalse" | equal => "beq" | notEqual => "bne.un"
  | atLeast => "bge" | above => "bgt" | atMost => "ble" | below => "blt"

namespace Opcode

def nop : Opcode := stack .nop

def shortMark (short : Bool) : String := if short then ".s" else ""

def mnemonic : Opcode → String
  | stack op => op.mnemonic
  | ldstr => "ldstr"
  | ldcFixed k => if k = 0 then "ldc.i4.m1" else "ldc.i4." ++ Nat.repr (k.val - 1)
  | ldcI4S => "ldc.i4.s" | ldcI4 => "ldc.i4" | ldcI8 => "ldc.i8"
  | ldcR4 => "ldc.r4" | ldcR8 => "ldc.r8"
  | ldargFixed i => "ldarg." ++ Nat.repr i
  | ldarg => "ldarg" | ldarga => "ldarga" | starg => "starg"
  | ldlocFixed i => "ldloc." ++ Nat.repr i
  | ldloc => "ldloc" | ldloca => "ldloca"
  | stlocFixed i => "stloc." ++ Nat.repr i
  | stloc => "stloc"
  | call => "call" | callvirt => "callvirt" | newobj => "newobj"
  | ldfld => "ldfld" | ldflda => "ldflda" | stfld => "stfld"
  | ldsfld => "ldsfld" | ldsflda => "ldsflda" | stsfld => "stsfld"
  | box => "box" | unboxAny => "unbox.any" | castclass => "castclass" | isinst => "isinst"
  | br short => "br" ++ shortMark short
  | leave short => "leave" ++ shortMark short
  | branch condition short => condition.mnemonic ++ shortMark short
  | switch => "switch" | ret => "ret" | raise => "throw"

def flow : Opcode → Flow
  | br _ | leave _ => .branch
  | branch .. | switch => .condBranch
  | call | callvirt | newobj => .call
  | ret => .ret
  | raise => .raise
  | _ => .next

def operandKind : Opcode → OperandKind
  | ldstr => .string
  | ldcI4S => .int8
  | ldcI4 => .int32
  | ldcI8 => .int64
  | ldcR4 => .float32
  | ldcR8 => .float64
  | ldarg | ldarga | starg => .argument
  | ldloc | ldloca | stloc => .slot
  | call | callvirt | newobj => .method
  | ldfld | ldflda | stfld | ldsfld | ldsflda | stsfld => .field
  | box | unboxAny | castclass | isinst => .type
  | br _ | leave _ | branch .. => .target
  | switch => .table
  | stack _ | ldcFixed _ | ldargFixed _ | ldlocFixed _ | stlocFixed _ | ret | raise => .none

/-- Calls and field loads, by value or by address: the accesses that an edit can look for or
replace. -/
def isMemberAccess : Opcode → Bool
  | call | callvirt | ldsfld | ldsflda | ldfld | ldflda => true
  | _ => false

def fixedInteger? : Opcode → Option Int
  | ldcFixed k => some ((k.val : Int) - 1)
  | _ => none

def isInt32Constant : Opcode → Bool
  | ldcFixed _ | ldcI4S | ldcI4 => true
  | _ => false

def fixedArgument? : Opcode → Option UInt16
  | ldargFixed i => some i.val.toUInt16
  | _ => none

def fixedSlot? : Opcode → Option UInt16
  | ldlocFixed i | stlocFixed i => some i.val.toUInt16
  | _ => none

def loadsSlot : Opcode → Bool
  | ldlocFixed _ | ldloc | ldloca => true
  | _ => false

def storesSlot : Opcode → Bool
  | stlocFixed _ | stloc => true
  | _ => false

def isShortBranch : Opcode → Bool
  | br short | leave short | branch _ short => short
  | _ => false

def isConditionalBranch : Opcode → Bool
  | branch .. => true
  | _ => false

def isBranch (op : Opcode) : Bool := op.flow == .branch || op.flow == .condBranch

def all : List Opcode :=
  [StackOp.nop, .dup, .pop, .ldnull, .add, .sub, .mul, .div, .rem, .neg, .and, .or, .xor, .not,
    .shl, .shr, .ceq, .cgt, .clt, .convI4, .convI8, .convR4, .convR8].map stack ++
  [ldstr] ++ (List.finRange 10).map ldcFixed ++ [ldcI4S, ldcI4, ldcI8, ldcR4, ldcR8] ++
  (List.finRange 4).map ldargFixed ++ [ldarg, ldarga, starg] ++
  (List.finRange 4).map ldlocFixed ++ [ldloc, ldloca] ++
  (List.finRange 4).map stlocFixed ++ [stloc, call, callvirt, newobj] ++
  [ldfld, ldflda, stfld, ldsfld, ldsflda, stsfld, box, unboxAny, castclass, isinst] ++
  [false, true].flatMap (fun short => [br short, leave short] ++
    [Condition.isTrue, .isFalse, .equal, .notEqual, .atLeast, .above, .atMost, .below].map
      (branch · short)) ++
  [switch, ret, raise]

def ofMnemonic? (mnemonic : String) : Option Opcode := all.find? (·.mnemonic == mnemonic)

end Opcode

end MethodEdit
