import MethodEdit.Session.Search

/-!
Edits at the cursor: inserting, rewriting and removing instructions, and placing labels. The symbol
table keeps up with the labels of the code.
-/
namespace MethodEdit.Session

/-- Inserts an instruction whose labels stand nowhere yet. -/
def insertAt (position : Nat) (i : Instruction) : Edit Session Unit := do
  let s ← get
  if let some label := i.labels.find? fun label => (s.code.positionOf? label).isSome then
    throw (.duplicateLabel label)
  let code ← s.code.insertAt position i
  let symbols := (s.symbols.registerLabels i.labels true).registerLabels i.targets false
  set { s with code, symbols }

def rewrite (opcode : Opcode) (operand : Operand) : Edit Session Unit := do
  let s ← get
  let code ← s.code.rewriteAt s.cursor opcode operand
  set { s with code, symbols := s.symbols.registerLabels operand.targets false }

/-- Inserts in front of the current instruction. Cursor and labels stay with that one. -/
def insertBefore (i : Instruction) : Edit Session Unit := do
  let s ← get
  insertAt s.cursor i
  modify (·.withCursor (s.cursor + 1))

def insertAfter (i : Instruction) : Edit Session Unit := do
  let s ← get
  insertAt (s.cursor + 1) i
  modify (·.withCursor (s.cursor + 1))

/-- Removes the current instruction and moves onto the one after it, which takes over the labels, or
onto the new last one. -/
def removeCurrent : Edit Session Instruction := do
  let s ← get
  if s.length = 1 then throw .emptyMethodBody
  let (removed, code) ← s.code.removeAt s.cursor
  let s := { s with code }
  set (s.withCursor (s.clamp s.cursor))
  return removed

def blankCurrent : Edit Session Unit := do
  let s ← get
  let code ← s.code.blankAt s.cursor
  set { s with code }

def attachLabelAt (position : Nat) (label : Label) : Edit Session Unit := do
  let s ← get
  if (s.symbols.label? label).isNone then throw (.unknownLabel (.label label))
  let code ← s.code.attachLabel position label
  set { s with code, symbols := s.symbols.markAttached label }

def attachLabel (label : Label) : Edit Session Unit := do
  attachLabelAt (← get).cursor label

/-- Label that stands at a position: the one of the given name, or else the first one. If there is
none and `make`, a new one is placed there. -/
def labelAt (position : Nat) (name : Option String) (make : Bool) : Edit Session Label := do
  let s ← get
  let i ← s.code.at? position
  match name with
  | some name =>
    match s.symbols.labelNamed? name with
    | some entry =>
      if entry.label ∈ i.labels then return entry.label else throw (.nameCollision name)
    | none =>
      if !make then throw (.unknownLabel (.named name))
      let label ← onSymbols Symbols.createLabel
      onSymbols (Symbols.nameLabel label name)
      attachLabelAt position label
      return label
  | none =>
    match i.labels with
    | label :: _ => return label
    | [] =>
      if !make then throw (.unknownLabel (.standing position))
      let label ← onSymbols Symbols.createLabel
      attachLabelAt position label
      return label

def currentLabel (make : Bool) : Edit Session Label := do
  labelAt (← get).cursor none make

def targetLabel : Edit Session Label := do
  let s ← get
  match s.current.operand with
  | .target label => return label
  | _ => throw (s.invalidCurrent .singleTarget)

def nameCurrentSlot (name : String) : Edit Session Slot := do
  let s ← get
  match s.currentSlot? with
  | some slot => onSymbols (Symbols.nameSlot slot.index name)
  | none => throw (s.invalidCurrent .slotAccess)

end MethodEdit.Session
