import MethodEdit.Injection.Call

/-!
Replacing the current instruction by a call that takes and leaves the same things on the stack.
-/
namespace MethodEdit

/-- What an instruction does to the stack. A flag says whether an address takes the place of the
value. -/
structure Effect where
  instance? : Option (Ty × Bool) := none
  parameters : List Parameter := []
  value? : Option (Ty × Bool)

namespace Session

def pushedType? (s : Session) : Option Ty :=
  match s.current.opcode with
  | .ldcFixed _ | .ldcI4S | .ldcI4 => some s.core.int32
  | .ldcI8 => some s.core.int64
  | .ldcR4 => some s.core.float32
  | .ldcR8 => some s.core.float64
  | _ => if s.current.loadsSlot then s.currentSlot?.map (·.type) else none

/-- Effect of the current instruction, if it is one that a call can replace: a member access, a
numeric constant or a slot load. -/
def currentEffect (s : Session) : Except EditError Effect :=
  let opcode := s.current.opcode
  let passed (owner : Ty) (isStatic : Bool) :=
    if isStatic then none else some (owner, owner.isValue)
  match opcode.isMemberAccess, s.current.member? with
  | true, some (.method m) =>
    .ok {
      instance? := passed m.owner m.isStatic
      parameters := m.parameters
      value? := if m.returnsVoid then none else some (m.returns, false) }
  | true, some (.field f) =>
    .ok {
      instance? := passed f.owner f.isStatic
      value? := some (f.type, opcode == .ldflda || opcode == .ldsflda) }
  | _, _ =>
    match s.pushedType? with
    | some type => .ok { value? := some (type, opcode == .ldloca) }
    | none => .error (s.invalidCurrent .replaceable)

end Session

namespace Effect

def checkReturn (e : Effect) (procedure : Method) : Except EditError Unit :=
  let refuse (expected : ExpectedType) : Except EditError Unit :=
    .error (.typeIncompatible .returnValue expected procedure.returns)
  match e.value? with
  | none => if procedure.returnsVoid then .ok () else refuse .nothing
  | some (value, true) =>
    if procedure.returns.element.any (· == value) then .ok () else refuse (.pointerTo value)
  | some (value, false) =>
    if !procedure.returnsVoid && Ty.assignable value procedure.returns then .ok ()
    else refuse (.plain value)

/-- The first formal must take the instance, if there is one; gives the other formals. A formal with
the name of the first parameter of the member is not meant for the instance. -/
def checkInstance (e : Effect) (procedure : Method) : Except EditError (List Parameter) :=
  match e.instance?, procedure.parameters with
  | none, formals => .ok formals
  | some _, [] => .error (.missingInstance procedure)
  | some (owner, pointer), formal :: rest =>
    if e.parameters.head?.any (·.name == formal.name) then .error (.missingInstance procedure)
    else
      match formal.type.fitStack owner pointer with
      | .ok _ => .ok rest
      | .error mismatch => .error (mismatch.toError formal owner)

/-- The formals must begin with the parameters of the member, by name and type; gives the rest of
them. -/
def checkParameters (procedure : Method) :
    List (Parameter × Nat) → List Parameter → Except EditError (List Parameter)
  | [], formals => .ok formals
  | (p, _) :: _, [] => .error (.missingParameter procedure p)
  | (p, i) :: more, formal :: rest =>
    if formal.name != p.name || formal.type != p.type then
      .error (.parameterOrderMismatch procedure i p formal)
    else checkParameters procedure more rest

def extraFormals (e : Effect) (procedure : Method) : Except EditError (List Parameter) := do
  e.checkReturn procedure
  let formals ← e.checkInstance procedure
  checkParameters procedure e.parameters.zipIdx formals

end Effect

namespace Session

def moveLabelsTo (position : Nat) : Edit Session Unit := do
  let s ← get
  let code ← s.code.moveLabels s.cursor position
  set { s with code }

/-- Replaces the current instruction by a call of the procedure, with loads for its further
parameters in front. Labels go to the first of the loads; the cursor ends on the call. -/
def replaceCall (procedure : Method) : Edit Session Unit := do
  checkStatic procedure
  transaction do
    let s ← get
    let effect ← s.currentEffect
    let extra ← effect.extraFormals procedure
    let loads ← bindAll procedure extra
    emitAll true loads
    if !loads.isEmpty then moveLabelsTo s.cursor
    rewrite .call (.method procedure)

end Session

end MethodEdit
