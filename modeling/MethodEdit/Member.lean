import MethodEdit.Flags
import MethodEdit.Text.Quoted
import MethodEdit.Types.Basic

/-!
Methods, fields and parameters of the described program. Members are the same if they have the same
signature and both or neither of them has an instance.
-/
namespace MethodEdit

/-- Which local slot a parameter asks for. A missing type stands for the value type of the
parameter. -/
inductive Pick where
  /-- The slot of this name, made if there is none. -/
  | named (name : String) (type : Option Ty)
  | index (index : UInt16)
  /-- The slot of this type that comes after `skipped` others of the type. -/
  | ofType (type : Option Ty) (skipped : Nat)
  /-- The slot that the instruction under the cursor loads or stores. -/
  | current

/-- Where the argument for a parameter of an injected procedure comes from. -/
inductive Hint where
  /-- The instance, a parameter or a slot with the name of the parameter, in this order. -/
  | byName
  /-- The instance or a parameter of the edited method, possibly under another name. -/
  | argument (other : Option MemberName)
  | slot (pick : Pick)

namespace Pick

def text : Pick → String
  | named name type =>
    Text.record "Name"
      [("name", Text.quoted name), ("local_type", Text.optional (type.map Ty.name))]
  | index i => Text.wrapped "Index" (Nat.repr i.toNat)
  | ofType type skipped =>
    Text.record "TypeOccurrence"
      [("local_type", Text.optional (type.map Ty.name)), ("occurrence", Nat.repr skipped)]
  | current => "Current"

end Pick

def Hint.text : Hint → String
  | byName => "None"
  | argument other => Text.wrapped "Original" (Text.optional (other.map MemberName.text))
  | slot pick => Text.wrapped "Local" pick.text

structure Parameter where
  name : MemberName
  type : Ty
  hint : Hint := .byName

namespace Parameter

def isByRef (p : Parameter) : Bool := p.type.isByRef

def valueType (p : Parameter) : Ty := p.type.valueType

def text (p : Parameter) : String := p.name.text ++ " " ++ p.type.name

end Parameter

structure Method where
  owner : Ty
  name : MemberName
  parameters : List Parameter
  returns : Ty
  flags : MethodFlags
  /-- Number of generic parameters of a definition. -/
  arity : Nat := 0
  /-- Generic arguments of an instantiation. -/
  generics : List Ty := []

/-- What tells methods apart. -/
structure Signature where
  owner : String
  name : MemberName
  isStatic : Bool
  generics : List String
  parameters : List String
  deriving DecidableEq

namespace Method

def isStatic (m : Method) : Bool := m.flags.isStatic

def returnsVoid (m : Method) : Bool := m.returns.isVoid

/-- First parameter of the given name, with its position. -/
def parameter? (m : Method) (name : String) : Option (Nat × Parameter) :=
  (m.parameters.zipIdx.find? fun (p, _) => p.name.text == name).map fun (p, i) => (i, p)

def signature (m : Method) : Signature where
  owner := m.owner.name
  name := m.name
  isStatic := m.isStatic
  generics := m.generics.map Ty.name
  parameters := m.parameters.map (·.type.name)

def text (m : Method) : String :=
  m.owner.name ++ "." ++ m.name.text ++
    (if m.generics.isEmpty then "" else Text.bracketed (m.generics.map Ty.name)) ++
    Text.tuple (m.parameters.map (·.type.name)) ++ ":" ++ m.returns.name

end Method

structure Field where
  owner : Ty
  name : MemberName
  type : Ty
  flags : FieldFlags

namespace Field

def isStatic (f : Field) : Bool := f.flags.isStatic

/-- What tells fields apart: the owner and the name. -/
def signature (f : Field) : String × MemberName := (f.owner.name, f.name)

def text (f : Field) : String := f.owner.name ++ "." ++ f.name.text ++ ":" ++ f.type.name

end Field

inductive Member where
  | method (m : Method)
  | field (f : Field)

namespace Member

def owner : Member → Ty
  | method m => m.owner
  | field f => f.owner

def isStatic : Member → Bool
  | method m => m.isStatic
  | field f => f.isStatic

def text : Member → String
  | method m => Text.wrapped "Method" m.text
  | field f => Text.wrapped "Field" f.text

instance : BEq Member where
  beq
    | method m, method n => m.signature == n.signature
    | field f, field g => f.signature == g.signature && f.isStatic == g.isStatic
    | _, _ => false

end Member

end MethodEdit
