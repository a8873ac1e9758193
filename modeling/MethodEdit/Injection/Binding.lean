import MethodEdit.Session.Edit
import MethodEdit.Types.Fit

/-!
Binding the parameters of an injected procedure: each one is loaded from an argument or a slot of
the edited method.
-/
namespace MethodEdit

/-- Where the value for a parameter is loaded from. -/
inductive Source where
  | argument (index : UInt16) (type : Ty)
  | slot (index : UInt16) (type : Ty)

namespace Source

def type : Source → Ty
  | argument _ type | slot _ type => type

def load (source : Source) (address : Bool) : Instruction :=
  match source, address with
  | argument index _, false => .loadArgument index
  | argument index _, true => .loadArgumentAddress index
  | slot index _, false => .loadSlot index
  | slot index _, true => .loadSlotAddress index

def ofSlot (s : Slot) : Source := slot s.index s.type

end Source

def Mismatch.toError (mismatch : Mismatch) (p : Parameter) (found : Ty) : EditError :=
  match mismatch with
  | .missingByRef => .missingByRef p.name found
  | .unexpectedByRef => .unexpectedByRef p.name found
  | .typeIncompatible => .typeIncompatible (.parameter p.name) (.plain p.type) found

namespace Session

/-- The instance of the edited method, or its parameter of the given name. -/
def argumentNamed? (s : Session) (name : MemberName) : Except EditError (Option Source) :=
  if name = s.settings.instanceName then
    if s.method.isStatic then .error (.missingInstance s.method)
    else .ok (some (.argument 0 s.method.owner))
  else
    .ok ((s.method.parameter? name.text).map fun (i, p) =>
      .argument (s.argumentIndex i) p.type)

def pickSlot (p : Parameter) : Pick → Edit Session Slot
  | .named name type =>
    onSymbols (Symbols.getOrCreateSlot (some (type.getD p.valueType)) (some name))
  | .index index => do
    match (← get).symbols.slot? index with
    | some slot => return slot
    | none => throw (.unknownLocal (.index index))
  | .ofType type skipped =>
    onSymbols (Symbols.slotOfType (type.getD p.valueType) none skipped)
  | .current => do
    let s ← get
    let i ← s.code.at? s.cursor
    match s.symbols.slotFor? i with
    | some slot => return slot
    | none => throw (.invalidCurrentInstruction s.cursor .slotAccess i)

/-- Where the value for a parameter of the procedure comes from, by its hint. -/
def sourceFor (procedure : Method) (p : Parameter) : Edit Session Source := do
  let s ← get
  match p.hint with
  | .argument other =>
    match ← s.argumentNamed? (other.getD p.name) with
    | some source => return source
    | none => throw (.unknownParameter procedure p.name)
  | .slot pick => return .ofSlot (← pickSlot p pick)
  | .byName =>
    match ← s.argumentNamed? p.name, s.symbols.slotNamed? p.name.text with
    | some source, _ => return source
    | none, some slot => return .ofSlot slot
    | none, none => throw (.unknownParameter procedure p.name)

def bindParameter (procedure : Method) (p : Parameter) : Edit Session Instruction := do
  let source ← sourceFor procedure p
  match p.type.fitSource source.type with
  | .ok fit => return source.load fit.needsAddress
  | .error mismatch => throw (mismatch.toError p source.type)

def bindAll (procedure : Method) : List Parameter → Edit Session (List Instruction)
  | [] => return []
  | p :: rest => do
    let load ← bindParameter procedure p
    return load :: (← bindAll procedure rest)

end Session

end MethodEdit
