import MethodEdit.ModelError

/-!
Instructions: an opcode, its operand, and the labels that stand at it. The constructors choose the
shortest encoding, and the queries see through all encodings.
-/
namespace MethodEdit

structure Instruction where
  opcode : Opcode
  operand : Operand := .none
  labels : List Label := []

namespace Instruction

def isValid (i : Instruction) : Bool := i.opcode.accepts i.operand

def validate (i : Instruction) : Except ModelError Unit :=
  if i.isValid then .ok () else .error (.invalidOperand i.opcode i.operand)

def make (opcode : Opcode) (operand : Operand) : Except ModelError Instruction := do
  let i : Instruction := { opcode, operand }
  i.validate
  return i

instance : BEq Instruction where
  beq a b := a.opcode == b.opcode && a.operand == b.operand && a.labels == b.labels

def nop : Instruction := { opcode := .nop }

def ret : Instruction := { opcode := .ret }

def call (m : Method) : Instruction := { opcode := .call, operand := .method m }

/-- The fixed form for the first four indices, and the general form for the others. -/
def indexed (fixed : Fin 4 → Opcode) (general : Opcode) (operand : UInt16 → Operand)
    (index : UInt16) : Instruction :=
  if h : index.toNat < 4 then { opcode := fixed ⟨index.toNat, h⟩ }
  else { opcode := general, operand := operand index }

def loadArgument : UInt16 → Instruction := indexed .ldargFixed .ldarg .argument

def loadArgumentAddress (index : UInt16) : Instruction :=
  { opcode := .ldarga, operand := .argument index }

def loadSlot : UInt16 → Instruction := indexed .ldlocFixed .ldloc .slot

def loadSlotAddress (index : UInt16) : Instruction := { opcode := .ldloca, operand := .slot index }

def storeSlot : UInt16 → Instruction := indexed .stlocFixed .stloc .slot

/-- Without an operand from -1 to 8, with one byte if that is enough, and with four otherwise. -/
def loadInt32 (value : Int32) : Instruction :=
  if h : -1 ≤ value.toInt ∧ value.toInt ≤ 8 then
    { opcode := .ldcFixed ⟨(value.toInt + 1).toNat, by omega⟩ }
  else if -128 ≤ value.toInt ∧ value.toInt ≤ 127 then
    { opcode := .ldcI4S, operand := .int value.toInt64 }
  else { opcode := .ldcI4, operand := .int value.toInt64 }

def loadInt64 (value : Int64) : Instruction := { opcode := .ldcI8, operand := .int value }

def branch (opcode : Opcode) (label : Label) : Except ModelError Instruction :=
  make opcode (.target label)

def jump (short : Bool) (label : Label) : Instruction :=
  { opcode := .br short, operand := .target label }

def jumpIfTrue (label : Label) : Instruction :=
  { opcode := .branch .isTrue false, operand := .target label }

def slotIndex? (i : Instruction) : Option UInt16 :=
  i.opcode.fixedSlot? <|> match i.opcode, i.operand with
    | .ldloc, .slot index | .ldloca, .slot index | .stloc, .slot index => some index
    | _, _ => none

def argumentIndex? (i : Instruction) : Option UInt16 :=
  i.opcode.fixedArgument? <|> match i.opcode, i.operand with
    | .ldarg, .argument index | .ldarga, .argument index | .starg, .argument index => some index
    | _, _ => none

def loadsSlot (i : Instruction) : Bool := i.opcode.loadsSlot

def storesSlot (i : Instruction) : Bool := i.opcode.storesSlot

def member? (i : Instruction) : Option Member := i.operand.member?

def integer? (i : Instruction) : Option Int64 :=
  i.opcode.fixedInteger?.map Int64.ofInt <|> match i.opcode, i.operand with
    | .ldcI4S, .int value | .ldcI4, .int value | .ldcI8, .int value => some value
    | _, _ => none

def float? (i : Instruction) : Option Binary64 :=
  match i.opcode, i.operand with
  | .ldcR4, .float value | .ldcR8, .float value => some value
  | _, _ => none

def loadsInteger (value : Int64) (i : Instruction) : Bool := i.integer? == some value

def loadsFloat (value : Binary64) (i : Instruction) : Bool := i.float?.any (·.equals value)

/-- A call or field load of the member. -/
def accesses (member : Member) (i : Instruction) : Bool :=
  i.opcode.isMemberAccess && i.member?.any (· == member)

def targets (i : Instruction) : List Label := i.operand.targets

def allLabels (i : Instruction) : List Label := i.labels ++ i.targets

def text (i : Instruction) : String :=
  String.join (i.labels.map fun label => label.text ++ ": ") ++ i.opcode.mnemonic ++
    i.operand.inline

end Instruction

end MethodEdit
