import MethodEdit.Graph.Basic

/-!
Member look-up along the base chain of the queried type. Methods come first, then getters of a
property, then fields; among those, the nearest owner; among those, the first declared.
-/
namespace MethodEdit

namespace Query

def matchesMethod (q : Query) (m : Method) : Bool :=
  m.name == q.name && m.generics.isEmpty && m.arity == q.generics.length && q.takes m

def matchesGetter (q : Query) (m : Method) : Bool :=
  m.name == q.name.getter && m.parameters.isEmpty && m.arity == 0

def matchesSetter (q : Query) (m : Method) : Bool :=
  m.name == q.name.setter && m.parameters.length == 1 && m.arity == 0 && q.takes m

/-- Properties and fields have neither parameters nor generic arguments. -/
def admitsProperty (q : Query) : Bool :=
  q.generics.isEmpty && q.parameters.all List.isEmpty

end Query

namespace Graph

def methodAlong (g : Graph) (chain : List Ty) (matching : Method → Bool) : Option Method :=
  chain.findSome? fun owner => g.methods.find? fun m => m.owner == owner && matching m

def fieldAlong (g : Graph) (chain : List Ty) (matching : Field → Bool) : Option Field :=
  chain.findSome? fun owner => g.fields.find? fun f => f.owner == owner && matching f

/-- The method with generic arguments in place, stored on first use. -/
def instantiate (g : Graph) (definition : Method) (generics : List Ty) : Method × Graph :=
  if generics.isEmpty then (definition, g) else g.addMethod { definition with generics }

/-- The member that a query stands for. Only an instantiation changes the graph. -/
def findMember (g : Graph) (q : Query) : Except ModelError (Member × Graph) :=
  let chain := q.owner.baseChain
  match g.methodAlong chain q.matchesMethod with
  | some definition =>
    let (m, g) := g.instantiate definition q.generics
    .ok (.method m, g)
  | none =>
    if q.admitsProperty then
      match g.methodAlong chain q.matchesGetter, g.fieldAlong chain (·.name == q.name) with
      | some getter, _ => .ok (.method getter, g)
      | none, some f => .ok (.field f, g)
      | none, none => .error (.missingMember q)
    else .error (.missingMember q)

def findSetter (g : Graph) (q : Query) : Except ModelError Method :=
  match g.methodAlong q.owner.baseChain q.matchesSetter with
  | some setter => .ok setter
  | none => .error (.missingSetter q)

end Graph

end MethodEdit
