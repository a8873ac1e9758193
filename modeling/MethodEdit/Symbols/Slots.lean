import MethodEdit.Symbols.Basic

/-!
Local slots: declaring them, finding them, and giving them names.
-/
namespace MethodEdit.Symbols

def slot? (t : Symbols) (index : UInt16) : Option Slot := t.slots[index.toNat]?

def slotNamed? (t : Symbols) (name : String) : Option Slot := t.slots.find? (·.name == name)

def slotFor? (t : Symbols) (i : Instruction) : Option Slot :=
  if i.loadsSlot || i.storesSlot then i.slotIndex?.bind t.slot? else none

/-- The slot that comes next: its index is the number of slots, as far as 16 bits hold it. -/
def nextSlot (t : Symbols) (type : Ty) : Slot where
  index := t.slots.length.toUInt16
  type := type
  name := placeholder t.slotStem t.slots.length (t.slots.map (·.name))
  named := false

def withSlot (t : Symbols) (type : Ty) : Symbols := { t with slots := t.slots ++ [t.nextSlot type] }

def ofTypes (types : List Ty) (source : LabelSource) (settings : Settings) : Symbols :=
  types.foldl withSlot (empty source settings)

def declareSlot (type : Ty) : Edit Symbols Slot := do
  let t ← get
  set (t.withSlot type)
  return t.nextSlot type

def checkName (name : String) : Edit Symbols Unit :=
  match memberNameFault? name with
  | some fault => throw (.invalidName fault)
  | none => return

/-- Gives a slot its chosen name, once and for all. The name that it has already is accepted. -/
def nameSlot (index : UInt16) (name : String) : Edit Symbols Slot := do
  checkName name
  let t ← get
  let some slot := t.slot? index | throw (.unknownLocal (.index index))
  if slot.name = name then return slot
  if slot.named then throw (.localAlreadyNamed index slot.name)
  if (t.slotNamed? name).isSome then throw (.nameCollision name)
  let renamed := { slot with name, named := true }
  set { t with slots := t.slots.set index.toNat renamed }
  return renamed

/-- The slot of the given name, which must be usable as the given type, or a new slot. A new slot
needs a type; without a name, the slot is always new. -/
def getOrCreateSlot (type : Option Ty) (name : Option String) : Edit Symbols Slot := do
  let t ← get
  match name.bind t.slotNamed?, name, type with
  | some slot, some name, some wanted =>
    if Ty.assignable wanted slot.type then return slot
    throw (.typeIncompatible (.slot name) (.plain wanted) slot.type)
  | some slot, _, _ => return slot
  | none, some name, some type =>
    checkName name
    let slot ← declareSlot type
    nameSlot slot.index name
  | none, none, some type => declareSlot type
  | none, some name, none => throw (.unknownLocal (.named name))
  | none, none, none => throw (.unknownLocal .anonymous)

/-- The slot of exactly this type that comes after `skipped` others. With a name, it is given that
name. -/
def slotOfType (type : Ty) (name : Option String) (skipped : Nat) : Edit Symbols Slot := do
  let t ← get
  let some found := (t.slots.filter (·.type == type))[skipped]?
    | throw (.unknownLocal (.ofType type skipped))
  match name with
  | some name => nameSlot found.index name
  | none =>
    match t.slot? found.index with
    | some slot => return slot
    | none => throw (.unknownLocal (.index found.index))

end MethodEdit.Symbols
