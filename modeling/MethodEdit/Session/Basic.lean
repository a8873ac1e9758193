import MethodEdit.Graph.Core
import MethodEdit.Symbols.Labels

/-!
An editing session: the code of one method, its slots and labels, and a cursor that points at an
instruction.
-/
namespace MethodEdit

structure Session where
  code : Code
  symbols : Symbols
  /-- The method whose body is edited. -/
  method : Method
  core : CoreTypes
  settings : Settings
  cursor : Nat := 0
  /-- An edit that is all or nothing is going on. -/
  editing : Bool := false

namespace Session

def registerCode (code : Code) (t : Symbols) : Symbols :=
  (code.flatMap (·.allLabels)).foldl
    (fun t label => t.registerLabel label (code.positionOf? label).isSome) t

/-- A session over the given code, which must not be empty, with slots of the given types. -/
def start (method : Method) (core : CoreTypes) (slots : List Ty) (instructions : List Instruction)
    (settings : Settings) (source : LabelSource) : Except EditError Session := do
  if instructions.isEmpty then throw .emptyMethodBody
  let code ← Code.ofInstructions instructions
  code.checkLabels
  let symbols := registerCode code (Symbols.ofTypes slots source settings)
  return { code, symbols, method, core, settings }

def startFresh (method : Method) (core : CoreTypes) (slots : List Ty)
    (instructions : List Instruction) (settings : Settings) : Except EditError Session :=
  start method core slots instructions settings
    (LabelSource.after (instructions.flatMap (·.allLabels)))

/-- Hands the code back once all labels that it refers to have a place. -/
def finish (s : Session) : Except EditError (Code × Symbols) :=
  match s.code.unplacedLabels with
  | [] => .ok (s.code, s.symbols)
  | unplaced => .error (.unplacedLabels unplaced)

def length (s : Session) : Nat := s.code.length

/-- The instruction under the cursor; `nop` if the cursor were on none. -/
def current (s : Session) : Instruction := s.code.getD s.cursor .nop

def next? (s : Session) : Option Instruction := s.code[s.cursor + 1]?

def previous? (s : Session) : Option Instruction :=
  match s.cursor with
  | 0 => none
  | before + 1 => s.code[before]?

def isFirst (s : Session) : Bool := s.cursor == 0

def isLast (s : Session) : Bool := s.cursor + 1 == s.length

def withCursor (s : Session) (position : Nat) : Session := { s with cursor := position }

def clamp (s : Session) (position : Nat) : Nat := min position (s.length - 1)

def slotAt? (s : Session) (position : Nat) : Option Slot :=
  s.code[position]?.bind s.symbols.slotFor?

def currentSlot? (s : Session) : Option Slot := s.slotAt? s.cursor

/-- Index of the argument for a parameter of the edited method: the instance comes first. -/
def argumentIndex (s : Session) (parameter : Nat) : UInt16 :=
  (parameter + if s.method.isStatic then 0 else 1).toUInt16

def invalidCurrent (s : Session) (expected : Expectation) : EditError :=
  .invalidCurrentInstruction s.cursor expected s.current

def onSymbols {α : Type} (op : Edit Symbols α) : Edit Session α := fun s =>
  let (result, symbols) := op s.symbols
  (result, { s with symbols })

/-- All or nothing: if the edit is refused, code, slots, labels and cursor are as they were. Labels
that were handed out are not handed out again. Within another such edit nothing is taken back: the
outer one does that. -/
def transaction {α : Type} (edit : Edit Session α) : Edit Session α := fun s =>
  if s.editing then edit s
  else
    match edit { s with editing := true } with
    | (.ok value, after) => (.ok value, { after with editing := false })
    | (.error e, after) =>
      (.error e,
        { after with
          code := s.code
          symbols := after.symbols.rollback s.symbols.checkpoint
          cursor := s.cursor
          editing := false })

end Session

end MethodEdit
