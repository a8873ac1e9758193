import MethodEdit.Operand
import MethodEdit.Query

/-!
What can be wrong with a description: an operand, a type, a member or a name.
-/
namespace MethodEdit

inductive ModelError where
  | invalidOperand (opcode : Opcode) (operand : Operand)
  | missingType (name : String)
  | missingMember (query : Query)
  | missingSetter (query : Query)
  | malformedName (fault : NameError)

namespace ModelError

def kind : ModelError → String
  | invalidOperand .. => "InvalidOperand"
  | missingType _ => "MissingType"
  | missingMember _ | missingSetter _ => "MissingMember"
  | malformedName _ => "MalformedName"

def text (e : ModelError) : String :=
  match e with
  | invalidOperand opcode operand =>
    Text.record e.kind [("opcode", opcode.mnemonic), ("operand", Text.quoted operand.text)]
  | missingType name => Text.wrapped e.kind (Text.quoted name)
  | missingMember query => Text.wrapped e.kind (Text.quoted query.text)
  | missingSetter query => Text.wrapped e.kind (Text.quoted ("setter of " ++ query.text))
  | malformedName fault => Text.wrapped e.kind (Text.quoted fault.message)

end ModelError

end MethodEdit
