import MethodEdit.Types.Assignable

/-!
How a value fits a formal parameter. A source that has an address (an argument, a slot, the
instance) can be passed by reference; a value that is already on the stack cannot.
-/
namespace MethodEdit

structure Fit where
  /-- The types are the same, not merely assignable. -/
  exact : Bool
  /-- The address of the source is passed, not its value. -/
  needsAddress : Bool
  deriving DecidableEq, Repr

inductive Mismatch where
  /-- A plain formal, but the source is by reference. -/
  | unexpectedByRef
  /-- A by-reference formal, but the value has no address. -/
  | missingByRef
  | typeIncompatible
  deriving DecidableEq, Repr

namespace Ty

def fitPlain (formal bound : Ty) : Except Mismatch Fit :=
  if assignable formal bound then .ok ⟨formal == bound, false⟩ else .error .typeIncompatible

/-- A source that has an address against a formal: a by-reference formal takes a pointer to its
element as it is, and the address of a source of exactly its element type. -/
def fitSource (formal bound : Ty) : Except Mismatch Fit :=
  match formal.element, bound.element with
  | none, some _ => .error .unexpectedByRef
  | some wanted, some pointee =>
    if wanted == pointee then .ok ⟨true, false⟩ else .error .typeIncompatible
  | some wanted, none => if wanted == bound then .ok ⟨true, true⟩ else .error .typeIncompatible
  | none, none => fitPlain formal bound

/-- A value on the stack against a formal: either `bound` itself or, if `pointer`, its address. -/
def fitStack (formal bound : Ty) (pointer : Bool) : Except Mismatch Fit :=
  match formal.element, pointer with
  | some _, false => .error .missingByRef
  | none, true => .error .unexpectedByRef
  | some wanted, true => if wanted == bound then .ok ⟨true, false⟩ else .error .typeIncompatible
  | none, false => fitPlain formal bound

end Ty

end MethodEdit
