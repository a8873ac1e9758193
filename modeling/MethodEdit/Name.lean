import MethodEdit.Text.Blank

/-!
Names of members and of types. A member name is a non-empty text without blanks, semicolons and
ampersands. A type name is one or more member names joined by dots, with an ampersand at the end if
it names a by-reference type.
-/
namespace MethodEdit

inductive NameError where
  | emptyMember
  | illegalCharacter (name : String)
  | emptyType (name : String)
  | nestedByRef (name : String)
  | emptySegment (name : String)
  deriving DecidableEq, Repr

def NameError.message : NameError → String
  | .emptyMember => "Member name is empty"
  | .illegalCharacter name => "Member name '" ++ name ++ "' contains an illegal character"
  | .emptyType name => "Type name '" ++ name ++ "' is empty"
  | .nestedByRef name => "Type name '" ++ name ++ "' nests by-reference types"
  | .emptySegment name => "Type name '" ++ name ++ "' has an empty segment"

def isNameChar (c : Char) : Bool := !(Text.isBlank c || c == ';' || c == '&')

def memberNameFault? (name : String) : Option NameError :=
  if name.toList.isEmpty then some .emptyMember
  else if name.toList.all isNameChar then none
  else some (.illegalCharacter name)

theorem memberNameFault?_eq_none_iff {name : String} :
    memberNameFault? name = none ↔
      name.toList ≠ [] ∧ ∀ c ∈ name.toList, isNameChar c = true := by
  unfold memberNameFault?
  by_cases hnil : name.toList = []
  · simp [hnil]
  · by_cases hall : name.toList.all isNameChar = true
    · rw [if_neg (by simpa using hnil), if_pos hall]
      exact ⟨fun _ => ⟨hnil, List.all_eq_true.1 hall⟩, fun _ => rfl⟩
    · rw [if_neg (by simpa using hnil), if_neg hall]
      exact ⟨fun h => absurd h (by simp), fun h => absurd (List.all_eq_true.2 h.2) hall⟩

/-- Name of a method, field or parameter. -/
structure MemberName where
  text : String
  accepted : memberNameFault? text = none
  deriving DecidableEq

namespace MemberName

def ofString (name : String) : Except NameError MemberName :=
  match h : memberNameFault? name with
  | none => .ok ⟨name, h⟩
  | some fault => .error fault

theorem fault?_append {front name : String} (hf : ∀ c ∈ front.toList, isNameChar c = true)
    (h : memberNameFault? name = none) : memberNameFault? (front ++ name) = none := by
  rw [memberNameFault?_eq_none_iff] at h ⊢
  rw [String.toList_append]
  refine ⟨fun hnil => h.1 (List.append_eq_nil_iff.1 hnil).2, fun c hc => ?_⟩
  exact (List.mem_append.1 hc).elim (hf c) (h.2 c)

def getter (name : MemberName) : MemberName :=
  ⟨"get_" ++ name.text, fault?_append (List.all_eq_true.1 (by decide)) name.accepted⟩

def setter (name : MemberName) : MemberName :=
  ⟨"set_" ++ name.text, fault?_append (List.all_eq_true.1 (by decide)) name.accepted⟩

/-- Conventional name for the instance of the edited method. -/
def theInstance : MemberName := ⟨"__instance", by decide⟩

/-- Conventional name for the value that the edited method returns. -/
def theResult : MemberName := ⟨"__result", by decide⟩

end MemberName

namespace TypeName

def byRef (name : String) : String := name ++ "&"

def isByRef (name : String) : Bool := name.toList.getLast? == some '&'

def element (name : List Char) : List Char :=
  if name.getLast? == some '&' then name.dropLast else name

def segments : List Char → List (List Char)
  | [] => [[]]
  | c :: rest =>
    if c = '.' then [] :: segments rest
    else match segments rest with
      | [] => [[c]]
      | segment :: others => (c :: segment) :: others

def segmentFault? (name : String) (segment : List Char) : Option NameError :=
  if segment.isEmpty then some (.emptySegment name) else memberNameFault? (String.ofList segment)

/-- What keeps a text from being a type name: the first fault from the left. -/
def fault? (name : String) : Option NameError :=
  let element := element name.toList
  if element.isEmpty then some (.emptyType name)
  else if element.contains '&' then some (.nestedByRef name)
  else (segments element).findSome? (segmentFault? name)

end TypeName

end MethodEdit
