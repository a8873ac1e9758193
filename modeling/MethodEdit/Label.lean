import MethodEdit.Text.Layout

/-!
Labels are jump targets. A label has no position of its own: it stands at the instruction that
carries it. Fresh labels come from a source, which usually counts upwards.
-/
namespace MethodEdit

structure Label where
  id : Nat
  deriving DecidableEq, Repr

namespace Label

/-- The greatest number of a label. No label comes after the one that has it. -/
def lastId : Nat := 18446744073709551615

def text (label : Label) : String := "l" ++ Nat.repr label.id

def listText (labels : List Label) : String := Text.bracketed (labels.map text)

end Label

/-- The labels that a source hands out one after the other, and how many of them are used up. -/
structure LabelSource where
  labels : Nat → Label
  used : Nat := 0

namespace LabelSource

def next (source : LabelSource) : Label := source.labels source.used

def advance (source : LabelSource) : LabelSource := { source with used := source.used + 1 }

def countingFrom (first : Label) : LabelSource where
  labels n := ⟨first.id + n⟩

def bound : List Label → Nat
  | [] => 0
  | label :: rest => max (label.id + 1) (bound rest)

/-- A source all of whose labels come after the given ones. These must not have the last number. -/
def after (labels : List Label) : LabelSource := countingFrom ⟨bound labels⟩

theorem bound_le_iff {labels : List Label} {n : Nat} :
    bound labels ≤ n ↔ ∀ label ∈ labels, label.id < n := by
  induction labels with
  | nil => simp [bound]
  | cons first rest ih =>
    rw [bound, Nat.max_le, ih, List.forall_mem_cons]
    exact Iff.rfl

theorem lt_bound {label : Label} {labels : List Label} (h : label ∈ labels) :
    label.id < bound labels := bound_le_iff.1 (Nat.le_refl _) label h

theorem lt_labels_after {label : Label} {labels : List Label} (h : label ∈ labels) (n : Nat) :
    label.id < ((after labels).labels n).id := by
  have := lt_bound h
  simp only [after, countingFrom]
  omega

def take (source : LabelSource) (count : Nat) : List Label :=
  (List.range' source.used count).map source.labels

end LabelSource

end MethodEdit
