import MethodEdit.Code
import MethodEdit.Edit
import MethodEdit.Settings
import MethodEdit.Types.Assignable

/-!
Local slots and labels of an edited method. Every slot and every label has a name of its own: a
placeholder at first, and later perhaps a chosen one.
-/
namespace MethodEdit

structure Slot where
  index : UInt16
  type : Ty
  name : String
  /-- The name was chosen; it is no placeholder. -/
  named : Bool

structure LabelEntry where
  label : Label
  name : String
  /-- The label stands at some instruction. -/
  attached : Bool
  deriving DecidableEq, Repr

structure Symbols where
  /-- In order of index. -/
  slots : List Slot := []
  /-- In order of discovery. -/
  labels : List LabelEntry := []
  /-- Where each label is in the list of labels. -/
  index : List (Label × Nat) := []
  source : LabelSource
  slotStem : String
  labelStem : String

/-- Slots and labels at some moment. -/
structure Checkpoint where
  slots : List Slot
  labels : List LabelEntry

/-- Stem and number, followed by `_1`, `_2` and so on as long as the name is taken. -/
def placeholder (stem : String) (number : Nat) (taken : List String) : String :=
  let name := stem ++ Nat.repr number
  if name ∈ taken then
    -- one more candidate than there are names, so one is free
    let candidates := (List.range (taken.length + 1)).map fun n => name ++ "_" ++ Nat.repr (n + 1)
    (candidates.find? (· ∉ taken)).getD name
  else name

namespace Symbols

def empty (source : LabelSource) (settings : Settings) : Symbols where
  source := source
  slotStem := settings.slotStem
  labelStem := settings.labelStem

def checkpoint (t : Symbols) : Checkpoint := ⟨t.slots, t.labels⟩

def indexOf (labels : List LabelEntry) : List (Label × Nat) :=
  (labels.zipIdx.map fun (entry, place) => (entry.label, place)).reverse

/-- Back to the checkpoint, except that no label is handed out again. The index is made anew. -/
def rollback (t : Symbols) (c : Checkpoint) : Symbols :=
  { t with slots := c.slots, labels := c.labels, index := indexOf c.labels }

end Symbols

end MethodEdit
