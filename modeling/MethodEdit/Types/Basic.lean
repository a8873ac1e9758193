import MethodEdit.Name

/-!
Types of the described program. A type carries the types it extends, so it can be asked about its
supertypes without a graph at hand. Two types are the same if they have the same name.
-/
namespace MethodEdit

inductive Kind where
  | classType
  | interfaceType
  | valueType
  | voidType
  deriving DecidableEq, Repr

/-- A type whose values point at values of an element type. It is declared like any other type, so
its name need not tell what it points at. -/
structure Pointer (α : Type) where
  name : String
  element : α
  base : Option α := none
  interfaces : List α := []

inductive Ty where
  | named (name : String) (kind : Kind) (base : Option Ty) (interfaces : List Ty)
  | byRef (pointer : Pointer Ty)

namespace Ty

def name : Ty → String
  | named name _ _ _ => name
  | byRef pointer => pointer.name

instance : BEq Ty := ⟨fun a b => a.name == b.name⟩

theorem beq_iff {a b : Ty} : (a == b) = true ↔ a.name = b.name := beq_iff_eq (α := String)

def base : Ty → Option Ty
  | named _ _ base _ => base
  | byRef pointer => pointer.base

def interfaces : Ty → List Ty
  | named _ _ _ interfaces => interfaces
  | byRef pointer => pointer.interfaces

def element : Ty → Option Ty
  | named .. => none
  | byRef pointer => some pointer.element

/-- The by-reference type over `element`, under the name that is made for it. -/
def pointerTo (element : Ty) : Ty := byRef { name := TypeName.byRef element.name, element }

@[simp] theorem name_pointerTo (element : Ty) :
    (pointerTo element).name = TypeName.byRef element.name := rfl

@[simp] theorem element_pointerTo (element : Ty) : (pointerTo element).element = some element := rfl

def isKind (kind : Kind) : Ty → Bool
  | named _ own _ _ => own == kind
  | byRef _ => false

def isValue : Ty → Bool := isKind .valueType

def isInterface : Ty → Bool := isKind .interfaceType

def isVoid : Ty → Bool := isKind .voidType

def isByRef (t : Ty) : Bool := t.element.isSome

def isReference (t : Ty) : Bool := !t.isValue && !t.isVoid && !t.isByRef

def ancestors : Ty → List Ty
  | named _ _ none _ | byRef ⟨_, _, none, _⟩ => []
  | named _ _ (some parent) _ | byRef ⟨_, _, some parent, _⟩ => parent :: parent.ancestors

def baseChain (t : Ty) : List Ty := t :: t.ancestors

def valueType (t : Ty) : Ty := t.element.getD t

end Ty

end MethodEdit
