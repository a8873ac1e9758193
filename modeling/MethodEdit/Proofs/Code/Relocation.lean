import MethodEdit.Proofs.Code.Placement

/-!
Jump targets after an edit of the code. If no label stood twice, then none does after an insertion
of new labels, a removal, a rewriting or a move of labels, and each label is found where the edit
has taken its position.
-/
namespace MethodEdit

namespace Code

variable {code new : Code} {label : Label} {position : Nat}

theorem nodup_mergeLabels {labels : List Label} (h : labels.Nodup) (more : List Label) :
    (mergeLabels labels more).Nodup := by
  unfold mergeLabels
  induction more generalizing labels with
  | nil => exact h
  | cons first rest ih =>
    rw [List.foldl_cons]
    split
    · exact ih h
    · rename_i hnew
      rw [← List.concat_eq_append]
      exact ih (.concat hnew h)

namespace Unrepeated

theorem modify (h : code.Unrepeated) {f : Instruction → Instruction}
    (hf : ∀ i ∈ code, (f i).labels.Nodup) : Unrepeated (code.modify position f) := by
  intro j hj
  obtain ⟨q, hq⟩ := List.mem_iff_getElem?.1 hj
  rw [List.getElem?_modify, Option.map_eq_map, Option.map_eq_some_iff] at hq
  obtain ⟨i, hi, rfl⟩ := hq
  have hmem := List.mem_of_getElem? hi
  split
  · exact hf i hmem
  · exact h i hmem

theorem splice (h : code.Unrepeated) {block : Code} (hb : block.Unrepeated) :
    (code.splice position block).Unrepeated := by
  intro j hj
  simp only [Code.splice, List.mem_append] at hj
  obtain (hj | hj) | hj := hj
  · exact h j (List.mem_of_mem_take hj)
  · exact hb j hj
  · exact h j (List.mem_of_mem_drop hj)

theorem rewriteAt (h : code.Unrepeated) {i j : Instruction} (hi : code[position]? = some i)
    (hj : j.labels = i.labels) : Unrepeated (code.set position j) := by
  intro k hk
  obtain hk | rfl := List.mem_or_eq_of_mem_set hk
  · exact h k hk
  · rw [hj]
    exact h i (List.mem_of_getElem? hi)

theorem attachLabel (h : code.Unrepeated) (hc : code.attachLabel position label = .ok new) :
    new.Unrepeated := by
  obtain ⟨_, rfl⟩ | ⟨hnone, _, rfl⟩ := attachLabel_eq_ok_iff.1 hc
  · exact h
  · refine h.modify fun i hi => ?_
    rw [← List.concat_eq_append]
    exact .concat (positionOf?_eq_none_iff.1 hnone i hi) (h i hi)

theorem moveLabels (h : code.Unrepeated) {source target : Nat}
    (hc : code.moveLabels source target = .ok new) : new.Unrepeated := by
  obtain ⟨i, _, _, rfl⟩ := moveLabels_eq_ok_iff.1 hc
  split_ifs
  · exact h
  · have hcleared : Unrepeated (code.modify source fun i => { i with labels := [] }) :=
      h.modify fun _ _ => List.nodup_nil
    exact hcleared.modify fun j hj => nodup_mergeLabels (hcleared j hj) _

theorem removeAt (h : code.Unrepeated) {i : Instruction}
    (hc : code.removeAt position = .ok (i, new)) : new.Unrepeated := by
  obtain ⟨removed, _, _, _, rfl⟩ := removeAt_eq_ok_iff.1 hc
  have hrest : Unrepeated (code.eraseIdx position) := fun j hj => h j (List.mem_of_mem_eraseIdx hj)
  exact hrest.modify fun j hj => nodup_mergeLabels (hrest j hj) _

end Unrepeated

/-- The labels of the code are found where `φ` takes their positions, and those that are brought in
at the position. No other label is found, and none stands twice. -/
structure Relocated (φ : Nat → Nat) (brought : List Label) (position : Nat) (code new : Code) :
    Prop where
  kept : ∀ label p, code.Stands label p → new.positionOf? label = some (φ p)
  arrived : ∀ label ∈ brought, new.positionOf? label = some position
  unplaced : ∀ label, code.positionOf? label = none → label ∉ brought →
    new.positionOf? label = none
  checked : new.checkLabels = .ok ()

theorem Relabelled.relocated {φ : Nat → Nat} {brought : List Label}
    (h : Relabelled φ brought position code new) (hs : code.Separate)
    (hbrought : ∀ label ∈ brought, ∀ p, code.Stands label p → φ p = position)
    (hu : new.Unrepeated) : Relocated φ brought position code new := by
  have hnew : new.Separate := h.separate hs hbrought
  refine ⟨fun label p hp => ?_, fun label hl => ?_, fun label hnone hl => ?_, ?_⟩
  · exact hnew.positionOf?_eq_some_iff.2 ((h label _).2 (.inl ⟨p, hp, rfl⟩))
  · exact hnew.positionOf?_eq_some_iff.2 ((h label _).2 (.inr ⟨hl, rfl⟩))
  · rw [← Option.not_isSome_iff_eq_none, positionOf?_isSome_iff, h.placed_iff,
      ← positionOf?_isSome_iff, hnone]
    simpa using hl
  · exact checkLabels_eq_ok_iff.2 ⟨hu, hnew⟩

theorem relocated_insertAt (h : code.checkLabels = .ok ()) {i : Instruction}
    (hi : code.insertAt position i = .ok new) (hn : i.labels.Nodup)
    (hfresh : ∀ label ∈ i.labels, code.positionOf? label = none) :
    Relocated (shifted position 1) i.labels position code new := by
  obtain ⟨hu, hs⟩ := checkLabels_eq_ok_iff.1 h
  obtain ⟨hle, -, rfl⟩ := insertAt_eq_ok_iff.1 hi
  refine (relabelled_splice_one hle i).relocated hs (fun label hl p hp => ?_) ?_
  · have hplaced := positionOf?_isSome_iff.2 ⟨p, hp⟩
    simp [hfresh label hl] at hplaced
  · refine hu.splice fun j hj => ?_
    rw [List.mem_singleton.1 hj]
    exact hn

theorem relocated_removeAt (h : code.checkLabels = .ok ()) {i : Instruction}
    (hr : code.removeAt position = .ok (i, new)) :
    Relocated (closedUp position) [] position code new := by
  obtain ⟨hu, hs⟩ := checkLabels_eq_ok_iff.1 h
  exact (relabelled_removeAt hr).relocated hs (by simp) (hu.removeAt hr)

/-- The last instruction stays while it has labels; every other one can be removed. -/
theorem removeAt_succeeds_iff :
    (∃ i new, code.removeAt position = .ok (i, new)) ↔
      position < code.length ∧
        ¬(position + 1 = code.length ∧ ∃ label, code.Stands label position) := by
  constructor
  · rintro ⟨i, new, hr⟩
    obtain ⟨removed, hat, -, hc, -⟩ := removeAt_eq_ok_iff.1 hr
    refine ⟨(List.getElem?_eq_some_iff.1 hat).1, ?_⟩
    rintro ⟨hlast, label, j, hj, hl⟩
    cases hat.symm.trans hj
    obtain hc | hc := hc
    · simp [hc] at hl
    · exact hc hlast
  · rintro ⟨hlt, hc⟩
    have hat : code[position]? = some code[position] := List.getElem?_eq_getElem hlt
    refine ⟨_, _, removeAt_eq_ok_iff.2 ⟨code[position], hat, rfl, ?_, rfl⟩⟩
    by_cases hl : code[position].labels = []
    · exact .inl hl
    · obtain ⟨label, hmem⟩ := List.exists_mem_of_ne_nil _ hl
      exact .inr fun hlast => hc ⟨hlast, label, _, hat, hmem⟩

theorem relocated_rewriteAt (h : code.checkLabels = .ok ()) {opcode : Opcode} {operand : Operand}
    (hr : code.rewriteAt position opcode operand = .ok new) :
    Relocated id [] position code new := by
  obtain ⟨hu, hs⟩ := checkLabels_eq_ok_iff.1 h
  obtain ⟨-, i, hi, rfl⟩ := rewriteAt_eq_ok_iff.1 hr
  have hlabels : { i with opcode, operand }.labels = i.labels := rfl
  exact (relabelled_set hi hlabels).relocated hs (by simp) (hu.rewriteAt hi hlabels)

theorem relocated_moveLabels (h : code.checkLabels = .ok ()) {source target : Nat}
    (hm : code.moveLabels source target = .ok new) :
    Relocated (fun p => if p = source then target else p) [] target code new := by
  obtain ⟨hu, hs⟩ := checkLabels_eq_ok_iff.1 h
  exact (relabelled_moveLabels hm).relocated hs (by simp) (hu.moveLabels hm)

theorem relocated_attachLabel (h : code.checkLabels = .ok ())
    (ha : code.attachLabel position label = .ok new) :
    Relocated id [label] position code new := by
  obtain ⟨hu, hs⟩ := checkLabels_eq_ok_iff.1 h
  refine (relabelled_attachLabel ha).relocated hs (fun other hl p hp => ?_) (hu.attachLabel ha)
  rw [List.mem_singleton.1 hl] at hp
  exact eq_of_attachLabel hs ha hp

/-- Where labels are found after each edit of the code. -/
structure TargetsFollow (code : Code) : Prop where
  /-- From the new instruction on, labels move by one. -/
  insertAt : ∀ position i new, i.labels.Nodup →
    (∀ label ∈ i.labels, code.positionOf? label = none) → code.insertAt position i = .ok new →
    Relocated (shifted position 1) i.labels position code new
  insertBefore : ∀ position i moved new, i.labels.Nodup →
    (∀ label ∈ i.labels, code.positionOf? label = none) →
    code.insertBefore position i = .ok (moved, new) →
    Relocated (shifted position 1) i.labels position code new ∧ moved = position + 1
  insertAfter : ∀ position i placed new, i.labels.Nodup →
    (∀ label ∈ i.labels, code.positionOf? label = none) →
    code.insertAfter position i = .ok (placed, new) →
    Relocated (shifted (position + 1) 1) i.labels placed code new ∧ placed = position + 1
  /-- Labels of the removed instruction are found at the one behind it. -/
  removeAt : ∀ position i new, code.removeAt position = .ok (i, new) →
    Relocated (closedUp position) [] position code new
  removable : ∀ position, (∃ i new, code.removeAt position = .ok (i, new)) ↔
    position < code.length ∧ ¬(position + 1 = code.length ∧ ∃ label, code.Stands label position)
  rewriteAt : ∀ position opcode operand new, code.rewriteAt position opcode operand = .ok new →
    Relocated id [] position code new
  blankAt : ∀ position new, code.blankAt position = .ok new → Relocated id [] position code new
  moveLabels : ∀ source target new, code.moveLabels source target = .ok new →
    Relocated (fun p => if p = source then target else p) [] target code new
  attachLabel : ∀ position label new, code.attachLabel position label = .ok new →
    Relocated id [label] position code new

/-- In code where no label stands twice, every edit takes jump targets where its positions go, and
again no label stands twice. -/
theorem targets_follow_edits (h : code.checkLabels = .ok ()) : code.TargetsFollow where
  insertAt _ _ _ hn hfresh hi := relocated_insertAt h hi hn hfresh
  insertBefore position i moved new hn hfresh hb := by
    obtain ⟨-, hi, rfl⟩ := insertBefore_eq_ok_iff.1 hb
    exact ⟨relocated_insertAt h hi hn hfresh, rfl⟩
  insertAfter position i placed new hn hfresh ha := by
    obtain ⟨-, hi, rfl⟩ := insertAfter_eq_ok_iff.1 ha
    exact ⟨relocated_insertAt h hi hn hfresh, rfl⟩
  removeAt _ _ _ hr := relocated_removeAt h hr
  removable _ := removeAt_succeeds_iff
  rewriteAt _ _ _ _ hr := relocated_rewriteAt h hr
  blankAt _ _ hb := relocated_rewriteAt h hb
  moveLabels _ _ _ hm := relocated_moveLabels h hm
  attachLabel _ _ _ ha := relocated_attachLabel h ha

namespace Sample

def loop : Code :=
  [{ opcode := .nop, labels := [⟨0⟩] }, { Instruction.jump false ⟨0⟩ with labels := [⟨1⟩] }, .ret]

def landing : Instruction := { opcode := .nop, labels := [⟨2⟩, ⟨3⟩] }

end Sample

/-- Two labels are brought in between two others. With the first instruction gone, its label is
found at the second one, and the label of the second one can go on to the third. -/
theorem targets_follow_in_loop :
    Sample.loop.checkLabels = .ok () ∧
    (∃ new, Sample.loop.insertAt 1 Sample.landing = .ok new ∧ new.checkLabels = .ok () ∧
      new.positionOf? ⟨0⟩ = some 0 ∧ new.positionOf? ⟨3⟩ = some 1 ∧
      new.positionOf? ⟨1⟩ = some 2) ∧
    (∃ i new, Sample.loop.removeAt 0 = .ok (i, new) ∧ new.positionOf? ⟨0⟩ = some 0 ∧
      new.positionOf? ⟨1⟩ = some 0) ∧
    ∃ new, Sample.loop.moveLabels 1 2 = .ok new ∧ new.positionOf? ⟨1⟩ = some 2 := by
  have hchecked : Sample.loop.checkLabels = .ok () := rfl
  have hfirst : Sample.loop.Stands ⟨0⟩ 0 := ⟨_, rfl, List.mem_singleton.2 rfl⟩
  have hsecond : Sample.loop.Stands ⟨1⟩ 1 := ⟨_, rfl, List.mem_singleton.2 rfl⟩
  have hall := targets_follow_edits hchecked
  have hinsert := hall.insertAt 1 Sample.landing _ (by decide) (by decide) rfl
  obtain ⟨i, new, hremoved⟩ := (hall.removable 0).2 ⟨by decide, fun hlast => nomatch hlast.1⟩
  have hremove := hall.removeAt 0 i new hremoved
  have hmove := hall.moveLabels 1 2 _ rfl
  refine ⟨hchecked, ⟨_, rfl, hinsert.checked, hinsert.kept _ 0 hfirst,
    hinsert.arrived ⟨3⟩ (by decide), hinsert.kept _ 1 hsecond⟩, ?_, ?_⟩
  · exact ⟨i, new, hremoved, hremove.kept _ 0 hfirst, hremove.kept _ 1 hsecond⟩
  · exact ⟨_, rfl, hmove.kept _ 1 hsecond⟩

end Code

end MethodEdit
