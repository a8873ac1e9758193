import MethodEdit.Member

/-!
Queries describe a member to look for: by owner and name, and possibly by parameter types and
generic arguments.
-/
namespace MethodEdit

structure Query where
  owner : Ty
  name : MemberName
  /-- Without parameter types, the first overload will do. -/
  parameters : Option (List Ty) := none
  generics : List Ty := []

/-- What tells queries apart. A setter is asked for under a key of its own. -/
structure QueryKey where
  owner : String
  name : MemberName
  parameters : Option (List String)
  generics : List String
  setter : Bool
  deriving DecidableEq

namespace Query

def key (q : Query) : QueryKey where
  owner := q.owner.name
  name := q.name
  parameters := q.parameters.map (·.map Ty.name)
  generics := q.generics.map Ty.name
  setter := false

def setterKey (q : Query) : QueryKey := { q.key with setter := true }

def text (q : Query) : String :=
  q.owner.name ++ "." ++ q.name.text ++
    (if q.generics.isEmpty then "" else Text.bracketed (q.generics.map Ty.name)) ++
    (match q.parameters with
      | none => ""
      | some types => Text.tuple (types.map Ty.name))

def takes (q : Query) (m : Method) : Bool :=
  match q.parameters with
  | none => true
  | some types => types == m.parameters.map (·.type)

end Query

def QueryKey.text (k : QueryKey) : String :=
  Text.record "MemberKey"
    [("declaring_type", k.owner), ("name", k.name.text),
     ("parameter_types", Text.optional (k.parameters.map Text.bracketed)),
     ("generic_arguments", Text.bracketed k.generics), ("setter", Text.truth k.setter)]

end MethodEdit
