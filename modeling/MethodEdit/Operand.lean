import MethodEdit.Decimal.Style
import MethodEdit.Label
import MethodEdit.Member
import MethodEdit.Opcode

/-!
Operands of instructions: which opcodes take them, when two are equal, and their texts.
-/
namespace MethodEdit

inductive Operand where
  | none
  /-- The opcode tells how wide the constant is. -/
  | int (value : Int64)
  | float (value : Binary64)
  | string (text : String)
  | argument (index : UInt16)
  | slot (index : UInt16)
  | target (label : Label)
  | table (labels : List Label)
  | method (m : Method)
  | field (f : Field)
  | type (t : Ty)

/-- A constant inside an instruction: positional, and whole numbers without a fraction. -/
def NumberStyle.inline : NumberStyle := ⟨false, fun _ => true⟩

/-- A constant on its own: with an exponent below `10 ^ -4` and from `10 ^ 16` on, and whole numbers
with a fraction. -/
def NumberStyle.standalone : NumberStyle := ⟨true, fun exponent => -4 ≤ exponent && exponent < 16⟩

namespace Operand

def isBetween (low high : Int) (value : Int64) : Bool := low ≤ value.toInt && value.toInt ≤ high

/-- The operand has the shape and, for integers, the width. -/
def hasKind : OperandKind → Operand → Bool
  | .none, none => true
  | .int8, int value => isBetween (-128) 127 value
  | .int32, int value => isBetween (-2147483648) 2147483647 value
  | .int64, int _ => true
  | .float32, float _ | .float64, float _ => true
  | .string, string _ => true
  | .argument, argument _ => true
  | .slot, slot _ => true
  | .target, target _ => true
  | .table, table _ => true
  | .method, method _ => true
  | .field, field _ => true
  | .type, type _ => true
  | _, _ => false

/-- Constants are compared by value, members by signature and types by name. -/
instance : BEq Operand where
  beq
    | none, none => true
    | int a, int b => a == b
    | float a, float b => a.equals b
    | string a, string b => a == b
    | argument a, argument b => a == b
    | slot a, slot b => a == b
    | target a, target b => a == b
    | table a, table b => a == b
    | method a, method b => a.signature == b.signature
    | field a, field b => a.signature == b.signature
    | type a, type b => a == b
    | _, _ => false

def ofMember : Member → Operand
  | .method m => method m
  | .field f => field f

def member? : Operand → Option Member
  | method m => some (.method m)
  | field f => some (.field f)
  | _ => Option.none

def targets : Operand → List Label
  | target label => [label]
  | table labels => labels
  | _ => []

def inline : Operand → String
  | none => ""
  | int value => " " ++ Int.repr value.toInt
  | float value => " " ++ value.text .inline
  | string text => " " ++ Text.quoted text
  | argument index | slot index => " " ++ Nat.repr index.toNat
  | target label => " " ++ label.text
  | table labels => " " ++ Label.listText labels
  | method m => " " ++ m.text
  | field f => " " ++ f.text
  | type t => " " ++ t.name

def text : Operand → String
  | none => "None"
  | int value => Text.wrapped "Integer" (Int.repr value.toInt)
  | float value => Text.wrapped "Float" (value.text .standalone)
  | string text => Text.wrapped "String" (Text.quoted text)
  | argument index => Text.wrapped "Argument" (Nat.repr index.toNat)
  | slot index => Text.wrapped "Local" (Nat.repr index.toNat)
  | target label => Text.wrapped "Label" label.text
  | table labels => Text.wrapped "Labels" (Label.listText labels)
  | method m => Text.wrapped "Method" m.text
  | field f => Text.wrapped "Field" f.text
  | type t => Text.wrapped "Type" t.name

end Operand

def Opcode.accepts (op : Opcode) (operand : Operand) : Bool := operand.hasKind op.operandKind

end MethodEdit
