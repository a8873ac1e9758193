import MethodEdit.EditError

/-!
Lists of instructions that are edited by position. Labels belong to positions: rewriting an
instruction keeps its labels, and removing one hands them to the instruction after it.
-/
namespace MethodEdit

abbrev Code := List Instruction

namespace Code

def ofInstructions (instructions : List Instruction) : Except EditError Code :=
  match instructions.find? (!·.isValid) with
  | some i => .error (.model (.invalidOperand i.opcode i.operand))
  | none => .ok instructions

def at? (code : Code) (position : Nat) : Except EditError Instruction :=
  match code[position]? with
  | some i => .ok i
  | none => .error (.invalidPosition position code.length)

/-- Afterwards the instruction stands at `position`, which may be the length of the code. -/
def insertAt (code : Code) (position : Nat) (i : Instruction) : Except EditError Code :=
  if position ≤ code.length then do
    let _ ← i.validate
    return code.insertIdx position i
  else .error (.invalidPosition position code.length)

def insertBefore (code : Code) (position : Nat) (i : Instruction) :
    Except EditError (Nat × Code) := do
  let _ ← code.at? position
  return (position + 1, ← code.insertAt position i)

def insertAfter (code : Code) (position : Nat) (i : Instruction) :
    Except EditError (Nat × Code) := do
  let _ ← code.at? position
  return (position + 1, ← code.insertAt (position + 1) i)

def rewriteAt (code : Code) (position : Nat) (opcode : Opcode) (operand : Operand) :
    Except EditError Code := do
  let i ← code.at? position
  let replacement ← Instruction.make opcode operand
  return code.set position { replacement with labels := i.labels }

def blankAt (code : Code) (position : Nat) : Except EditError Code :=
  code.rewriteAt position .nop .none

/-- The labels followed by those of `more` that are not among them yet. -/
def mergeLabels (labels more : List Label) : List Label :=
  more.foldl (fun merged label => if label ∈ merged then merged else merged ++ [label]) labels

theorem mem_mergeLabels {label : Label} {labels more : List Label} :
    label ∈ mergeLabels labels more ↔ label ∈ labels ∨ label ∈ more := by
  unfold mergeLabels
  induction more generalizing labels with
  | nil => simp
  | cons first rest ih =>
    rw [List.foldl_cons, ih]
    by_cases h : first ∈ labels
    · rw [if_pos h, List.mem_cons]
      constructor
      · exact fun hl => hl.imp_right Or.inr
      · rintro (hl | rfl | hl)
        · exact .inl hl
        · exact .inl h
        · exact .inr hl
    · rw [if_neg h]
      simp only [List.mem_append, List.mem_cons, List.not_mem_nil, or_false, or_assoc]

/-- The last instruction cannot be removed while labels stand at it: they would have no place to
go. -/
def removeAt (code : Code) (position : Nat) : Except EditError (Instruction × Code) := do
  let i ← code.at? position
  if !i.labels.isEmpty && position + 1 == code.length then
    throw (.unplacedLabels i.labels)
  return ({ i with labels := [] },
    (code.eraseIdx position).modify position fun next =>
      { next with labels := mergeLabels next.labels i.labels })

def positionOf? (code : Code) (label : Label) : Option Nat :=
  code.findIdx? (label ∈ ·.labels)

theorem positionOf?_eq_none_iff {code : Code} {label : Label} :
    code.positionOf? label = none ↔ ∀ i ∈ code, label ∉ i.labels := by
  simp [positionOf?]

/-- The label must not stand anywhere else. -/
def attachLabel (code : Code) (position : Nat) (label : Label) : Except EditError Code := do
  let _ ← code.at? position
  match code.positionOf? label with
  | some existing => if existing = position then return code else throw (.duplicateLabel label)
  | none => return code.modify position fun i => { i with labels := i.labels ++ [label] }

def moveLabels (code : Code) (source target : Nat) : Except EditError Code := do
  let i ← code.at? source
  let _ ← code.at? target
  if source = target then return code
  return (code.modify source fun i => { i with labels := [] }).modify target fun j =>
    { j with labels := mergeLabels j.labels i.labels }

def targets (code : Code) : List Label := code.flatMap (·.targets)

def insertSorted (label : Label) : List Label → List Label
  | [] => [label]
  | first :: rest =>
    if label.id ≤ first.id then label :: first :: rest else first :: insertSorted label rest

def sortLabels (labels : List Label) : List Label := labels.foldr insertSorted []

def dropRepeats : List Label → List Label
  | first :: second :: rest =>
    if first = second then dropRepeats (second :: rest) else first :: dropRepeats (second :: rest)
  | labels => labels

theorem mem_insertSorted {label other : Label} {labels : List Label} :
    label ∈ insertSorted other labels ↔ label = other ∨ label ∈ labels := by
  induction labels with
  | nil => simp [insertSorted]
  | cons first rest ih =>
    unfold insertSorted
    split
    · exact List.mem_cons
    · rw [List.mem_cons, ih, List.mem_cons, or_left_comm]

theorem mem_sortLabels {label : Label} {labels : List Label} :
    label ∈ sortLabels labels ↔ label ∈ labels := by
  induction labels with
  | nil => exact Iff.rfl
  | cons first rest ih =>
    rw [sortLabels] at ih ⊢
    rw [List.foldr_cons, mem_insertSorted, ih, List.mem_cons]

theorem pairwise_insertSorted {label : Label} {labels : List Label}
    (h : labels.Pairwise (·.id ≤ ·.id)) : (insertSorted label labels).Pairwise (·.id ≤ ·.id) := by
  induction labels with
  | nil => exact List.pairwise_singleton _ label
  | cons first rest ih =>
    obtain ⟨hfirst, hrest⟩ := List.pairwise_cons.1 h
    unfold insertSorted
    split
    · rename_i hle
      refine List.pairwise_cons.2 ⟨fun other ho => ?_, h⟩
      obtain rfl | ho := List.mem_cons.1 ho
      · exact hle
      · exact Nat.le_trans hle (hfirst other ho)
    · rename_i hlt
      refine List.pairwise_cons.2 ⟨fun other ho => ?_, ih hrest⟩
      obtain rfl | ho := mem_insertSorted.1 ho
      · omega
      · exact hfirst other ho

theorem pairwise_sortLabels (labels : List Label) :
    (sortLabels labels).Pairwise (·.id ≤ ·.id) := by
  unfold sortLabels
  induction labels with
  | nil => exact .nil
  | cons first rest ih => exact pairwise_insertSorted ih

theorem mem_dropRepeats {label : Label} {labels : List Label} :
    label ∈ dropRepeats labels ↔ label ∈ labels := by
  fun_induction dropRepeats labels with
  | case1 first rest ih => exact ih.trans (by simp)
  | case2 first second rest hne ih => rw [List.mem_cons, ih, ← List.mem_cons]
  | case3 => exact Iff.rfl

theorem pairwise_dropRepeats {labels : List Label} (h : labels.Pairwise (·.id ≤ ·.id)) :
    (dropRepeats labels).Pairwise (·.id < ·.id) := by
  fun_induction dropRepeats labels with
  | case1 first rest ih => exact ih (List.pairwise_cons.1 h).2
  | case2 first second rest hne ih =>
    obtain ⟨hfirst, hrest⟩ := List.pairwise_cons.1 h
    refine List.pairwise_cons.2 ⟨fun other ho => ?_, ih hrest⟩
    have hsecond : first.id < second.id := by
      have hid : first.id ≠ second.id := fun heq => hne (by cases first; cases second; simp_all)
      have hle := hfirst second List.mem_cons_self
      omega
    obtain rfl | ho := List.mem_cons.1 (mem_dropRepeats.1 ho)
    · exact hsecond
    · exact Nat.lt_of_lt_of_le hsecond ((List.pairwise_cons.1 hrest).1 other ho)
  | case3 labels hshort =>
    match labels with
    | [] => exact .nil
    | [label] => exact List.pairwise_singleton _ label
    | first :: second :: rest => exact absurd rfl (hshort first second rest)

/-- Labels that some instruction refers to and that stand nowhere, sorted, and each of them once. -/
def unplacedLabels (code : Code) : List Label :=
  dropRepeats (sortLabels (code.targets.filter fun label => (code.positionOf? label).isNone))

theorem mem_unplacedLabels {code : Code} {label : Label} :
    label ∈ code.unplacedLabels ↔ label ∈ code.targets ∧ code.positionOf? label = none := by
  rw [unplacedLabels, mem_dropRepeats, mem_sortLabels, List.mem_filter, Option.isNone_iff_eq_none]

theorem pairwise_unplacedLabels (code : Code) : code.unplacedLabels.Pairwise (·.id < ·.id) :=
  pairwise_dropRepeats (pairwise_sortLabels _)

/-- First label of a list that occurs in it before, or in `seen`. -/
def firstRepeated? (seen : List Label) : List Label → Option Label
  | [] => none
  | label :: rest =>
    if label ∈ seen then some label else firstRepeated? (label :: seen) rest

/-- No label may stand at two places. -/
def checkLabels (code : Code) : Except EditError Unit :=
  match firstRepeated? [] (code.flatMap (·.labels)) with
  | some label => .error (.duplicateLabel label)
  | none => .ok ()

end Code

end MethodEdit
