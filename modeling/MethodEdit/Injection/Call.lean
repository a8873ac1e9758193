import MethodEdit.Injection.Binding

/-!
Injecting calls: a call of a procedure, a return through one, and a jump decided by one. Injected
code has no labels, so it is entered only from the instruction in front of it.
-/
namespace MethodEdit.Session

def checkStatic (procedure : Method) : Edit Session Unit :=
  if procedure.isStatic then return else throw (.nonStaticProcedure procedure)

/-- Inserts in front of the current instruction, or behind it and moves on. -/
def emit (before : Bool) (i : Instruction) : Edit Session Unit :=
  if before then insertBefore i else insertAfter i

def emitAll (before : Bool) : List Instruction → Edit Session Unit
  | [] => return
  | i :: rest => do
    emit before i
    emitAll before rest

/-- The parameters that an injected call has to load. A procedure that returns a value takes one of
the same type from the top of the stack. -/
def callFormals (procedure : Method) : Except EditError (List Parameter) :=
  if procedure.returnsVoid then .ok procedure.parameters
  else
    match procedure.parameters with
    | first :: rest =>
      if first.type == procedure.returns then .ok rest else .error (.invalidReturn procedure)
    | [] => .error (.invalidReturn procedure)

def insertCall (procedure : Method) (before : Bool) : Edit Session Unit := do
  checkStatic procedure
  transaction do
    let formals ← callFormals procedure
    let loads ← bindAll procedure formals
    emitAll before (loads ++ [.call procedure])

/-- The result parameter of a procedure that returns from the edited method: a pointer to the
returned value if there is one, and no such parameter otherwise. -/
def resultParameter (s : Session) (procedure : Method) : Except EditError (Option Nat) :=
  let returns := s.method.returns
  match procedure.parameter? s.settings.resultName.text with
  | none => if returns.isVoid then .ok none else .error (.missingResult procedure)
  | some (i, p) =>
    if returns.isVoid then .error (.unexpectedResult procedure)
    else
      match p.type.element with
      | none => .error (.missingByRef s.settings.resultName p.type)
      | some element =>
        if element == returns then .ok (some i)
        else
          .error (.typeIncompatible (.parameter s.settings.resultName) (.pointerTo returns) p.type)

def resultSlot (procedure : Method) : Edit Session (Option (Nat × Slot)) := do
  let s ← get
  match ← s.resultParameter procedure with
  | none => return none
  | some position =>
    let slot ← onSymbols
      (Symbols.getOrCreateSlot (some s.method.returns) (some s.settings.resultSlot.text))
    return some (position, slot)

/-- One load for each parameter, where the parameter at the result position gets the address of the
result slot. -/
def bindWithResult (procedure : Method) (result : Option (Nat × Slot)) :
    List (Parameter × Nat) → Edit Session (List Instruction)
  | [] => return []
  | (p, i) :: rest => do
    let load ← match result with
      | some (position, slot) =>
        if position = i then pure (Instruction.loadSlotAddress slot.index)
        else bindParameter procedure p
      | none => bindParameter procedure p
    return load :: (← bindWithResult procedure result rest)

def resumeLabel (before : Bool) : Edit Session Label := do
  let s ← get
  if before then currentLabel true
  else if s.isLast then throw (s.invalidCurrent .followed)
  else labelAt (s.cursor + 1) none true

def resumeGuard (conditional before : Bool) : Edit Session (List Instruction) := do
  if conditional then
    let label ← resumeLabel before
    return [.jumpIfTrue label]
  else return []

/-- Injects a return from the edited method. A procedure that returns a condition decides: the
method returns unless it holds. The returned value is what the procedure leaves in the result
slot. -/
def insertReturn (procedure : Method) (before : Bool) : Edit Session Unit := do
  checkStatic procedure
  let conditional := procedure.returns == (← get).core.boolean
  if !procedure.returnsVoid && !conditional then throw (.invalidReturn procedure)
  transaction do
    let result ← resultSlot procedure
    let loads ← bindWithResult procedure result procedure.parameters.zipIdx
    let guard ← resumeGuard conditional before
    let value := (result.map fun (_, slot) => Instruction.loadSlot slot.index).toList
    emitAll before (loads ++ [.call procedure] ++ guard ++ value ++ [.ret])

def insertJump (procedure : Method) (label : Label) (before : Bool) : Edit Session Unit := do
  checkStatic procedure
  let s ← get
  if procedure.returns != s.core.boolean then throw (.invalidReturn procedure)
  if (procedure.parameter? s.settings.resultName.text).isSome then
    throw (.unexpectedResult procedure)
  if (s.symbols.label? label).isNone then throw (.unknownLabel (.label label))
  transaction do
    let loads ← bindAll procedure procedure.parameters
    emitAll before (loads ++ [.call procedure, .jumpIfTrue label])

end MethodEdit.Session
