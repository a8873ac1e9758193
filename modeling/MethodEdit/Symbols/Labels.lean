import MethodEdit.Symbols.Slots

/-!
Labels known to an edited method: registering those of its code, making new ones, and naming them.
-/
namespace MethodEdit.Symbols

def place? (t : Symbols) (label : Label) : Option Nat := t.index.lookup label

def label? (t : Symbols) (label : Label) : Option LabelEntry :=
  (t.place? label).bind fun place => t.labels[place]?

def labelNamed? (t : Symbols) (name : String) : Option LabelEntry := t.labels.find? (·.name == name)

def modifyLabel (t : Symbols) (label : Label) (f : LabelEntry → LabelEntry) : Symbols :=
  match t.place? label with
  | some place => { t with labels := t.labels.modify place f }
  | none => t

def markAttached (t : Symbols) (label : Label) : Symbols :=
  t.modifyLabel label fun entry => { entry with attached := true }

/-- Makes a label known under a placeholder name. A known label can only become attached. -/
def registerLabel (t : Symbols) (label : Label) (attached : Bool) : Symbols :=
  match t.place? label with
  | some _ => if attached then t.markAttached label else t
  | none =>
    let name := placeholder t.labelStem t.labels.length (t.labels.map (·.name))
    { t with
      labels := t.labels ++ [{ label, name, attached }]
      index := (label, t.labels.length) :: t.index }

def registerLabels (t : Symbols) (labels : List Label) (attached : Bool) : Symbols :=
  labels.foldl (fun t label => t.registerLabel label attached) t

/-- A fresh label that stands nowhere yet. The source may run into a known label; that one is used
up all the same. -/
def createLabel : Edit Symbols Label := do
  let t ← get
  let label := t.source.next
  let t := { t with source := t.source.advance }
  set t
  if (t.place? label).isSome then throw (.duplicateLabel label)
  set (t.registerLabel label false)
  return label

/-- Names of labels stay unique. -/
def nameLabel (label : Label) (name : String) : Edit Symbols Unit := do
  checkName name
  let t ← get
  if (t.place? label).isNone then throw (.unknownLabel (.label label))
  if (t.labelNamed? name).any (·.label != label) then throw (.nameCollision name)
  set (t.modifyLabel label fun entry => { entry with name })

def getOrCreateLabel (name : Option String) : Edit Symbols Label := do
  let t ← get
  match name.bind t.labelNamed? with
  | some entry => return entry.label
  | none =>
    let label ← createLabel
    if let some name := name then nameLabel label name
    return label

end MethodEdit.Symbols
