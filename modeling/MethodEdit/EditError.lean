import MethodEdit.Instruction

/-!
Reasons for which an edit is refused, and their texts.
-/
namespace MethodEdit

inductive Boundary where
  | codeStart
  | codeEnd
  deriving DecidableEq, Repr

def Boundary.text : Boundary → String
  | codeStart => "Start"
  | codeEnd => "End"

/-- What a value was bound to. -/
inductive BindingSite where
  | parameter (name : MemberName)
  | slot (name : String)
  | returnValue

def BindingSite.text : BindingSite → String
  | parameter name => name.text
  | slot name => "local " ++ name
  | returnValue => "return value"

inductive ExpectedType where
  | plain (t : Ty)
  | pointerTo (t : Ty)
  | nothing

def ExpectedType.text : ExpectedType → String
  | plain t => t.name
  | pointerTo t => TypeName.byRef t.name
  | nothing => "void"

/-- What the instruction under the cursor would have to be. -/
inductive Expectation where
  | singleTarget
  | slotAccess
  | replaceable
  | followed
  | followedBranch
  | integerConstant
  | floatConstant
  deriving DecidableEq, Repr

def Expectation.text : Expectation → String
  | singleTarget => "branch with a single target"
  | slotAccess => "local load or store"
  | replaceable => "member access, numeric constant, or local load"
  | followed => "instruction followed by another one"
  | followedBranch => "branch followed by another instruction"
  | integerConstant => "integer constant load"
  | floatConstant => "floating point constant load"

inductive WantedSlot where
  | named (name : String)
  | index (index : UInt16)
  | ofType (type : Ty) (skipped : Nat)
  | anonymous

def WantedSlot.text : WantedSlot → String
  | named name => name
  | index i => Nat.repr i.toNat
  | ofType type skipped => "local #" ++ Nat.repr skipped ++ " of type " ++ type.name
  | anonymous => "<unnamed, untyped>"

inductive WantedLabel where
  | named (name : String)
  | label (label : Label)
  | standing (position : Nat)
  deriving DecidableEq, Repr

def WantedLabel.text : WantedLabel → String
  | named name => name
  | label l => l.text
  | standing position => "at " ++ Nat.repr position

inductive EditError where
  | model (e : ModelError)
  /-- A search met no match before the end of the code. -/
  | navigationExhausted (start : Nat) (boundary : Boundary)
  /-- No rule binds a parameter of the procedure. -/
  | unknownParameter (procedure : Method) (parameter : MemberName)
  /-- The procedure lacks a parameter of the member that it replaces. -/
  | missingParameter (procedure : Method) (expected : Parameter)
  | missingByRef (parameter : MemberName) (found : Ty)
  | unexpectedByRef (parameter : MemberName) (found : Ty)
  | typeIncompatible (site : BindingSite) (expected : ExpectedType) (found : Ty)
  /-- There is no instance to pass, or the replacement does not take it. -/
  | missingInstance (m : Method)
  | missingResult (procedure : Method)
  | unexpectedResult (procedure : Method)
  | parameterOrderMismatch (procedure : Method) (position : Nat) (expected found : Parameter)
  | nameCollision (name : String)
  | invalidCurrentInstruction (position : Nat) (expected : Expectation) (found : Instruction)
  | invalidReturn (procedure : Method)
  | nonStaticProcedure (procedure : Method)
  | localAlreadyNamed (index : UInt16) (name : String)
  | unknownLocal (wanted : WantedSlot)
  | unknownLabel (wanted : WantedLabel)
  | duplicateLabel (label : Label)
  | unexpectedBranch (position : Nat) (opcode : Opcode)
  | unplacedLabels (labels : List Label)
  | emptyMethodBody
  | emptyPredicateChain
  | invalidName (fault : NameError)
  | invalidPosition (position length : Nat)

namespace EditError

def kind : EditError → String
  | model e => e.kind
  | navigationExhausted .. => "NavigationExhausted"
  | unknownParameter .. => "UnknownParameter"
  | missingParameter .. => "MissingParameter"
  | missingByRef .. => "MissingByRef"
  | unexpectedByRef .. => "UnexpectedByRef"
  | typeIncompatible .. => "TypeIncompatible"
  | missingInstance _ => "MissingInstance"
  | missingResult _ => "MissingResult"
  | unexpectedResult _ => "UnexpectedResult"
  | parameterOrderMismatch .. => "ParameterOrderMismatch"
  | nameCollision _ => "NameCollision"
  | invalidCurrentInstruction .. => "InvalidCurrentInstruction"
  | invalidReturn _ => "InvalidReturn"
  | nonStaticProcedure _ => "NonStaticProcedure"
  | localAlreadyNamed .. => "LocalAlreadyNamed"
  | unknownLocal _ => "UnknownLocal"
  | unknownLabel _ => "UnknownLabel"
  | duplicateLabel _ => "DuplicateLabel"
  | unexpectedBranch .. => "UnexpectedBranch"
  | unplacedLabels _ => "UnplacedLabels"
  | emptyMethodBody => "EmptyMethodBody"
  | emptyPredicateChain => "EmptyPredicateChain"
  | invalidName _ => "InvalidName"
  | invalidPosition .. => "InvalidPosition"

def text (e : EditError) : String :=
  match e with
  | model e => e.text
  | navigationExhausted start boundary =>
    Text.record e.kind [("from", Nat.repr start), ("boundary", boundary.text)]
  | unknownParameter procedure parameter =>
    Text.record e.kind
      [("procedure", Text.quoted procedure.text), ("parameter", Text.quoted parameter.text)]
  | missingParameter procedure expected =>
    Text.record e.kind
      [("procedure", Text.quoted procedure.text), ("expected", Text.quoted expected.text)]
  | missingByRef parameter found | unexpectedByRef parameter found =>
    Text.record e.kind
      [("parameter", Text.quoted parameter.text), ("found", Text.quoted found.name)]
  | typeIncompatible site expected found =>
    Text.record e.kind
      [("binding", Text.quoted site.text), ("expected", Text.quoted expected.text),
       ("found", Text.quoted found.name)]
  | missingInstance m | missingResult m | unexpectedResult m | nonStaticProcedure m =>
    Text.wrapped e.kind (Text.quoted m.text)
  | parameterOrderMismatch procedure position expected found =>
    Text.record e.kind
      [("procedure", Text.quoted procedure.text), ("position", Nat.repr position),
       ("expected", Text.quoted expected.text), ("found", Text.quoted found.text)]
  | nameCollision name => Text.wrapped e.kind (Text.quoted name)
  | invalidCurrentInstruction position expected found =>
    Text.record e.kind
      [("position", Nat.repr position), ("expected", Text.quoted expected.text),
       ("found", Text.quoted found.text)]
  | invalidReturn procedure =>
    Text.record e.kind
      [("procedure", Text.quoted procedure.text), ("found", Text.quoted procedure.returns.name)]
  | localAlreadyNamed index name =>
    Text.record e.kind [("index", Nat.repr index.toNat), ("name", Text.quoted name)]
  | unknownLocal wanted => Text.wrapped e.kind (Text.quoted wanted.text)
  | unknownLabel wanted => Text.wrapped e.kind (Text.quoted wanted.text)
  | duplicateLabel label => Text.wrapped e.kind label.text
  | unexpectedBranch position opcode =>
    Text.record e.kind [("position", Nat.repr position), ("opcode", opcode.mnemonic)]
  | unplacedLabels labels => Text.wrapped e.kind (Label.listText labels)
  | emptyMethodBody | emptyPredicateChain => e.kind
  | invalidName fault => Text.wrapped e.kind (Text.quoted fault.message)
  | invalidPosition position length =>
    Text.record e.kind [("position", Nat.repr position), ("len", Nat.repr length)]

end EditError

instance : MonadLift (Except ModelError) (Except EditError) := ⟨Except.mapError .model⟩

end MethodEdit
