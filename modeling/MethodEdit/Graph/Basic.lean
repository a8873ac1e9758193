import MethodEdit.ModelError

/-!
The graph of described types and members, in order of declaration. Nothing is stored twice:
declaring a type of a known name, or a member of a known signature, gives back the one that is
stored.
-/
namespace MethodEdit

structure Graph where
  types : List Ty := []
  methods : List Method := []
  fields : List Field := []

namespace Graph

def empty : Graph := {}

def type? (g : Graph) (name : String) : Option Ty := g.types.find? (·.name == name)

/-- The stored type of the same name, or this one after storing it. -/
def addType (g : Graph) (t : Ty) : Ty × Graph :=
  match g.type? t.name with
  | some stored => (stored, g)
  | none => (t, { g with types := g.types ++ [t] })

theorem name_addType (g : Graph) (t : Ty) : (g.addType t).1.name = t.name := by
  unfold addType
  split
  · rename_i stored h
    simpa using List.find?_some h
  · rfl

theorem type?_addType (g : Graph) (t : Ty) :
    (g.addType t).2.type? t.name = some (g.addType t).1 := by
  unfold addType
  split
  · assumption
  · rename_i h
    simp only [type?, List.find?_append] at h ⊢
    simp [h]

/-- The by-reference type over `element`. A declared type of that name takes precedence. -/
def byRef (g : Graph) (element : Ty) : Ty × Graph := g.addType (.pointerTo element)

def addMethod (g : Graph) (m : Method) : Method × Graph :=
  match g.methods.find? (·.signature == m.signature) with
  | some stored => (stored, g)
  | none => (m, { g with methods := g.methods ++ [m] })

theorem signature_addMethod (g : Graph) (m : Method) :
    (g.addMethod m).1.signature = m.signature := by
  unfold addMethod
  split
  · rename_i stored h
    simpa using List.find?_some h
  · rfl

theorem addMethod_mem (g : Graph) (m : Method) : (g.addMethod m).1 ∈ (g.addMethod m).2.methods := by
  unfold addMethod
  split
  · rename_i stored h
    exact List.mem_of_find?_eq_some h
  · simp

def addField (g : Graph) (f : Field) : Field × Graph :=
  match g.fields.find? (·.signature == f.signature) with
  | some stored => (stored, g)
  | none => (f, { g with fields := g.fields ++ [f] })

def lookup (g : Graph) (name : String) : Except ModelError Ty :=
  match TypeName.fault? name with
  | some fault => .error (.malformedName fault)
  | none =>
    match g.type? name with
    | some t => .ok t
    | none => .error (.missingType name)

/-- A type as it is mentioned: each ampersand at the end is one by-reference step, and by-reference
types come into being when they are mentioned. -/
def mentioned (g : Graph) (mention : String) : Except ModelError (Ty × Graph) :=
  let elementName := (mention.toList.reverse.dropWhile (· == '&')).reverse
  let steps := mention.toList.length - elementName.length
  (g.lookup (String.ofList elementName)).map fun t =>
    steps.repeat (fun (t, g) => g.byRef t) (t, g)

end Graph

end MethodEdit
