/-!
Layout of reports: lists in brackets, tuples, and records with named fields.
-/
namespace MethodEdit.Text

def commaSeparated (items : List String) : String := String.intercalate ", " items

def bracketed (items : List String) : String := "[" ++ commaSeparated items ++ "]"

def wrapped (name value : String) : String := name ++ "(" ++ value ++ ")"

def optional : Option String → String
  | none => "None"
  | some value => wrapped "Some" value

/-- A tuple without a name: nothing at all if it is empty, a trailing comma if it has one entry. -/
def tuple : List String → String
  | [] => ""
  | [item] => "(" ++ item ++ ",)"
  | items => "(" ++ commaSeparated items ++ ")"

def record (name : String) (fields : List (String × String)) : String :=
  let shown := fields.map fun (key, value) => key ++ ": " ++ value
  name ++ " \x7b " ++ commaSeparated shown ++ " \x7d"

def truth (b : Bool) : String := if b then "true" else "false"

end MethodEdit.Text
