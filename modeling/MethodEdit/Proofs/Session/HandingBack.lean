import Mathlib.Data.List.Sort
import MethodEdit.Proofs.Session.Reopening

/-!
What is said about code that is handed back. The labels without a place are listed in order, each of
them once. The check of labels names the label whose second occurrence comes first. A session hands
its code back, as it is, exactly if all labels that the code refers to have a place.
-/
namespace MethodEdit

namespace Code

variable {code : Code} {label : Label} {labels seen : List Label}

def Refers (code : Code) (label : Label) : Prop :=
  ∃ i ∈ code, i.operand = .target label ∨ ∃ table, i.operand = .table table ∧ label ∈ table

/-- Read from the front, the label is the first one that was there before. -/
def FirstRepeat (labels : List Label) (label : Label) : Prop :=
  ∃ before rest, labels = before ++ label :: rest ∧ before.Nodup ∧ label ∈ before

theorem mem_targets_iff_refers : label ∈ code.targets ↔ code.Refers label := by
  rw [targets, List.mem_flatMap]
  refine exists_congr fun i => and_congr_right fun _ => ?_
  rw [Instruction.targets]
  cases i.operand with
  | target other => simp [Operand.targets, eq_comm]
  | table others => simp [Operand.targets]
  | _ => simp [Operand.targets]

theorem mem_unplacedLabels_iff_refers :
    label ∈ code.unplacedLabels ↔ code.Refers label ∧ ∀ i ∈ code, label ∉ i.labels := by
  rw [mem_unplacedLabels, mem_targets_iff_refers, positionOf?_eq_none_iff]

theorem eq_of_increasing {others : List Label} (h : labels.Pairwise (·.id < ·.id))
    (ho : others.Pairwise (·.id < ·.id)) (hmem : ∀ label, label ∈ labels ↔ label ∈ others) :
    labels = others := by
  have hirrefl : Std.Irrefl fun a b : Label => a.id < b.id := ⟨fun a => Nat.lt_irrefl a.id⟩
  have hantisymm : Std.Antisymm fun a b : Label => a.id < b.id :=
    ⟨fun a b hab hba => absurd hba (Nat.lt_asymm hab)⟩
  exact h.eq_of_mem_iff ho hmem

theorem eq_unplacedLabels_iff :
    labels = code.unplacedLabels ↔ labels.Pairwise (·.id < ·.id) ∧
      ∀ label, label ∈ labels ↔ code.Refers label ∧ ∀ i ∈ code, label ∉ i.labels := by
  constructor
  · rintro rfl
    exact ⟨pairwise_unplacedLabels code, fun label => mem_unplacedLabels_iff_refers⟩
  · rintro ⟨hincreasing, hmem⟩
    refine eq_of_increasing hincreasing (pairwise_unplacedLabels code) fun label => ?_
    rw [hmem, mem_unplacedLabels_iff_refers]

/-- What comes before the reported label passes the check. -/
theorem firstRepeated?_eq_some_iff :
    firstRepeated? seen labels = some label ↔
      ∃ before rest, labels = before ++ label :: rest ∧ firstRepeated? seen before = none ∧
        (label ∈ seen ∨ label ∈ before) := by
  -- a label that is read goes over from the rest of the list to `seen`
  induction labels generalizing seen with
  | nil => simp [firstRepeated?]
  | cons first others ih =>
    by_cases hf : first ∈ seen
    · rw [firstRepeated?, if_pos hf]
      constructor
      · rintro ⟨⟩
        exact ⟨[], others, rfl, rfl, .inl hf⟩
      · rintro ⟨before, rest, heq, hnone, -⟩
        cases before with
        | nil => exact congrArg some (List.cons.inj heq).1
        | cons other before =>
          obtain ⟨rfl, -⟩ := List.cons.inj heq
          simp [firstRepeated?, hf] at hnone
    · rw [firstRepeated?, if_neg hf, ih]
      constructor
      · rintro ⟨before, rest, rfl, hnone, hl⟩
        refine ⟨first :: before, rest, rfl, by rwa [firstRepeated?, if_neg hf], ?_⟩
        simpa [or_assoc, or_left_comm] using hl
      · rintro ⟨before, rest, heq, hnone, hl⟩
        cases before with
        | nil =>
          obtain ⟨rfl, -⟩ := List.cons.inj heq
          exact absurd hl (by simpa using hf)
        | cons other before =>
          obtain ⟨rfl, rfl⟩ := List.cons.inj heq
          rw [firstRepeated?, if_neg hf] at hnone
          exact ⟨before, rest, rfl, hnone, by simpa [or_assoc, or_left_comm] using hl⟩

theorem firstRepeated?_nil_eq_some_iff :
    firstRepeated? [] labels = some label ↔ FirstRepeat labels label := by
  simp [firstRepeated?_eq_some_iff, firstRepeated?_eq_none_iff, FirstRepeat]

theorem checkLabels_eq_error_iff {e : EditError} :
    code.checkLabels = .error e ↔
      ∃ label, e = .duplicateLabel label ∧ FirstRepeat (code.flatMap (·.labels)) label := by
  simp only [← firstRepeated?_nil_eq_some_iff]
  unfold checkLabels
  cases firstRepeated? [] (code.flatMap (·.labels)) with
  | none => simp
  | some label => simp [eq_comm]

/-- Every label that the code refers to is found at an instruction. -/
def Resolved (code : Code) : Prop :=
  ∀ label, code.Refers label →
    ∃ position i, code.positionOf? label = some position ∧ code[position]? = some i ∧
      label ∈ i.labels

theorem unplacedLabels_eq_nil_iff : code.unplacedLabels = [] ↔ code.Resolved := by
  rw [List.eq_nil_iff_forall_not_mem]
  refine forall_congr' fun label => ?_
  rw [mem_unplacedLabels, mem_targets_iff_refers, not_and]
  refine imp_congr_right fun _ => ?_
  rw [← Ne, Option.ne_none_iff_exists']
  refine exists_congr fun position => ⟨fun hp => ?_, fun ⟨i, hp, _⟩ => hp⟩
  obtain ⟨i, hi, hl⟩ := stands_of_positionOf? hp
  exact ⟨i, hp, hi, hl⟩

end Code

namespace Session

variable {s : Session}

theorem finish_eq_error_iff {e : EditError} :
    s.finish = .error e ↔ ¬s.code.Resolved ∧ e = .unplacedLabels s.code.unplacedLabels := by
  rw [← Code.unplacedLabels_eq_nil_iff]
  unfold finish
  cases s.code.unplacedLabels with
  | nil => simp
  | cons first rest =>
    exact ⟨fun h => ⟨by simp, (Except.error.inj h).symm⟩, fun h => congrArg Except.error h.2.symm⟩

theorem finish_eq_ok_iff_resolved {code : Code} {symbols : Symbols} :
    s.finish = .ok (code, symbols) ↔ s.code.Resolved ∧ code = s.code ∧ symbols = s.symbols := by
  rw [← Code.unplacedLabels_eq_nil_iff, ← finish_eq_ok_iff]
  constructor
  · exact fun h => ⟨⟨_, h⟩, finish_eq_ok h⟩
  · rintro ⟨⟨result, h⟩, rfl, rfl⟩
    obtain ⟨hcode, hsymbols⟩ := finish_eq_ok h
    rw [h, ← hcode, ← hsymbols]

/-- The labels without a place are the increasing list of those that some operand refers to and that
stand nowhere. The check of labels passes if none stands twice in the code, and else names the first
one that does. A session hands its code back, as it is, if all labels that its operands refer to are
found, and else reports those without a place. -/
theorem hand_back_diagnosed :
    (∀ (code : Code) (labels : List Label), labels = code.unplacedLabels ↔
      labels.Pairwise (·.id < ·.id) ∧
        ∀ label, label ∈ labels ↔ code.Refers label ∧ ∀ i ∈ code, label ∉ i.labels) ∧
    (∀ code : Code, code.checkLabels = .ok () ↔ (code.flatMap (·.labels)).Nodup) ∧
    (∀ (code : Code) (e : EditError), code.checkLabels = .error e ↔
      ∃ label, e = .duplicateLabel label ∧ Code.FirstRepeat (code.flatMap (·.labels)) label) ∧
    (∀ (s : Session) (code : Code) (symbols : Symbols), s.finish = .ok (code, symbols) ↔
      s.code.Resolved ∧ code = s.code ∧ symbols = s.symbols) ∧
    ∀ (s : Session) (e : EditError), s.finish = .error e ↔
      ¬s.code.Resolved ∧ e = .unplacedLabels s.code.unplacedLabels := by
  refine ⟨fun code labels => ?_, fun code => ?_, fun code e => ?_, fun s code symbols => ?_,
    fun s e => ?_⟩
  · exact Code.eq_unplacedLabels_iff
  · exact Code.checkLabels_eq_ok_iff_nodup
  · exact Code.checkLabels_eq_error_iff
  · exact finish_eq_ok_iff_resolved
  · exact finish_eq_error_iff

-- label 5 is missed three times, and label 8 stands twice before label 7 does
example :
    let code : Code := [{ Instruction.jump false ⟨5⟩ with labels := [⟨7⟩] },
      { opcode := .switch, operand := .table [⟨5⟩, ⟨3⟩, ⟨7⟩, ⟨5⟩], labels := [⟨8⟩] },
      { opcode := .ret, labels := [⟨8⟩, ⟨7⟩] }]
    code.unplacedLabels = [⟨3⟩, ⟨5⟩] ∧ code.checkLabels = .error (.duplicateLabel ⟨8⟩) :=
  ⟨rfl, rfl⟩

end Session

end MethodEdit
