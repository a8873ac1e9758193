import MethodEdit.Command.Symbols
import MethodEdit.Graph.Cache
import MethodEdit.Injection.Branch
import MethodEdit.Injection.Bulk

/-!
The operations of an editing session as data. A member can be given as it is or by a query, which is
resolved before anything else happens.
-/
namespace MethodEdit

/-- A session together with the description that its queries are resolved in. -/
structure Workbench where
  resolver : Resolver
  session : Session

inductive MemberChoice where
  | given (member : Member)
  | query (q : Query)
  | setterOf (q : Query)

inductive Direction where
  | forward
  | backward
  deriving DecidableEq, Repr

inductive SessionCommand where
  | length
  | moveTo (position : Nat)
  | moveBy (distance : Int)
  | moveToFirst
  | moveToLast
  | look
  | instructionAt (position : Nat)
  | search (direction : Direction) (holds : Session → Bool)
  | searchMember (direction : Direction) (member : MemberChoice)
  | seekChain (toStart : Bool) (chain : List (Session → Bool))
  | check (test : Test)
  | checkMember (member : MemberChoice)
  | labelAt (position : Nat) (name : Option String) (make : Bool)
  | currentLabel (make : Bool)
  | targetLabel
  | attachLabel (label : Label)
  | slotAt (position : Nat)
  | nameCurrentSlot (name : String)
  | unplacedLabels
  | positionOf (label : Label)
  | argumentIndex (parameter : Nat)
  | rewrite (opcode : Opcode) (operand : Operand)
  | insertBefore (i : Instruction)
  | insertAfter (i : Instruction)
  | removeCurrent
  | blankCurrent
  | insertCall (procedure : Method) (before : Bool)
  | insertReturn (procedure : Method) (before : Bool)
  | insertJump (procedure : Method) (label : Label) (before : Bool)
  | replaceCall (procedure : Method)
  | jumpAlways
  | jumpNever
  | replaceInteger (value : Int64)
  | replaceFloat (value : Binary64)
  | insertAfterAll (member : MemberChoice) (procedure : Method)
  | replaceAllCalls (member : MemberChoice) (procedure : Method)
  | replaceAllIntegers (old new : Int64) (start stop : Option Nat)
  | replaceAllFloats (old new : Binary64) (start stop : Option Nat)
  | replaceAllIntegersByCall (old : Int64) (procedure : Method)
  | replaceAllFloatsByCall (old : Binary64) (procedure : Method)
  | symbols (command : SymbolCommand)

namespace Workbench

def onSession {α : Type} (op : Edit Session α) : Edit Workbench α := fun w =>
  let (result, session) := op w.session
  (result, { w with session })

/-- The chosen member. What was resolved is remembered. -/
def choose : MemberChoice → Edit Workbench Member
  | .given member => return member
  | .query q => do
    let w ← get
    let (member, resolver) ← (liftM (w.resolver.resolve q) : Except EditError _)
    set { w with resolver }
    return member
  | .setterOf q => do
    let w ← get
    let (setter, resolver) ← (liftM (w.resolver.resolveSetter q) : Except EditError _)
    set { w with resolver }
    return .method setter

end Workbench

namespace SessionCommand

open Workbench

def find (direction : Direction) (holds : Session → Bool) : Edit Session Nat :=
  match direction with
  | .forward => Session.seek holds
  | .backward => Session.rewind holds

def done (op : Edit Session Unit) : Edit Workbench Answer := do
  onSession op
  return .done

def number (op : Edit Session Nat) : Edit Workbench Answer := do
  return .number (some (← onSession op))

def label (op : Edit Session Label) : Edit Workbench Answer := do
  return .label (← onSession op)

def run : SessionCommand → Edit Workbench Answer
  | length => do return .number (some (← get).session.length)
  | moveTo position => number (Session.moveTo position)
  | moveBy distance => number (Session.moveBy distance)
  | moveToFirst => done (modify (·.withCursor 0))
  | moveToLast => done (modify fun s => s.withCursor (s.length - 1))
  | look => do return .view (← get).session.view
  | instructionAt position => do return .instruction (← get).session.code[position]?
  | search direction holds => number (find direction holds)
  | searchMember direction member => do
    let member ← choose member
    number (find direction (·.current.accesses member))
  | seekChain toStart chain => number (Session.seekChain toStart chain)
  | check test => do return .flag ((← get).session.satisfies test)
  | checkMember member => do
    let member ← choose member
    return .flag ((← get).session.current.accesses member)
  | labelAt position name make => label (Session.labelAt position name make)
  | currentLabel make => label (Session.currentLabel make)
  | targetLabel => label Session.targetLabel
  | attachLabel l => done (Session.attachLabel l)
  | slotAt position => do return .slot ((← get).session.slotAt? position)
  | nameCurrentSlot name => do return .slot (some (← onSession (Session.nameCurrentSlot name)))
  | unplacedLabels => do return .labels (← get).session.code.unplacedLabels
  | positionOf l => do return .number ((← get).session.code.positionOf? l)
  | argumentIndex parameter => do
    return .number (some ((← get).session.argumentIndex parameter).toNat)
  | rewrite opcode operand => done (Session.rewrite opcode operand)
  | insertBefore i => done (Session.insertBefore i)
  | insertAfter i => done (Session.insertAfter i)
  | removeCurrent => do return .instruction (some (← onSession Session.removeCurrent))
  | blankCurrent => done Session.blankCurrent
  | insertCall procedure before => done (Session.insertCall procedure before)
  | insertReturn procedure before => done (Session.insertReturn procedure before)
  | insertJump procedure l before => done (Session.insertJump procedure l before)
  | replaceCall procedure => done (Session.replaceCall procedure)
  | jumpAlways => done Session.jumpAlways
  | jumpNever => done Session.jumpNever
  | replaceInteger value => done (Session.replaceInteger value)
  | replaceFloat value => done (Session.replaceFloat value)
  | insertAfterAll member procedure => do
    let member ← choose member
    number (Session.insertAfterAll member procedure)
  | replaceAllCalls member procedure => do
    let member ← choose member
    number (Session.replaceAllCalls member procedure)
  | replaceAllIntegers old new start stop =>
    number (Session.replaceAllIntegers old new start stop)
  | replaceAllFloats old new start stop => number (Session.replaceAllFloats old new start stop)
  | replaceAllIntegersByCall old procedure =>
    number (Session.replaceAllIntegersByCall old procedure)
  | replaceAllFloatsByCall old procedure => number (Session.replaceAllFloatsByCall old procedure)
  | symbols command => onSession (Session.onSymbols command.run)

/-- The workbench after a history of commands, refused ones included. -/
def runAll : List SessionCommand → Workbench → Workbench
  | [], w => w
  | command :: rest, w => runAll rest (command.run w).2

end SessionCommand

end MethodEdit
