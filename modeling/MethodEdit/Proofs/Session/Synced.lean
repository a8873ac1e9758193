import MethodEdit.Injection.Replace
import MethodEdit.Proofs.Code.Placement
import MethodEdit.Proofs.Symbols.Growth

/-!
Code and symbol table agree about the labels: a label is attached if and only if it stands at an
instruction, and all labels that the code mentions are known. Each edit at the cursor keeps them in
agreement.
-/
namespace MethodEdit

open Edit

variable {code new : Code} {t u : Symbols}

/-- The code and the symbol table fit together. -/
structure Synced (code : Code) (t : Symbols) : Prop where
  regular : t.Regular
  valid : ∀ i ∈ code, i.isValid = true
  separate : code.Separate
  attached_iff : ∀ label, t.status label = some true ↔ ∃ position, code.Stands label position
  known : ∀ label ∈ code.targets, t.status label ≠ none

namespace Synced

theorem extend (h : Synced code t) (he : t.Extends u) : Synced code u where
  regular := he.regular h.regular
  valid := h.valid
  separate := h.separate
  attached_iff label := by
    rw [← h.attached_iff]
    obtain heq | ⟨hn, hf⟩ := he.status h.regular label
    · rw [heq]
    · simp [hn, hf]
  known label hl := by
    have hk := h.known label hl
    obtain heq | ⟨hn, _⟩ := he.status h.regular label
    · rw [heq]
      exact hk
    · exact absurd hn hk

theorem edit (h : Synced code t) {φ : Nat → Nat} {fresh : List Label} {position : Nat} {more : Code}
    (hrel : Code.Relabelled φ fresh position code new)
    (hfresh : ∀ label ∈ fresh, ∀ p, code.Stands label p → φ p = position)
    (hdrawn : Code.DrawnFrom code more new) (hmore : ∀ i ∈ more, i.isValid = true)
    (hu : u.Regular)
    (hattached : ∀ label, u.status label = some true ↔ t.status label = some true ∨ label ∈ fresh)
    (hknown : ∀ label, t.status label ≠ none ∨ label ∈ more.targets → u.status label ≠ none) :
    Synced new u where
  regular := hu
  valid := hdrawn.valid h.valid hmore
  separate := hrel.separate h.separate hfresh
  attached_iff label := by rw [hattached, hrel.placed_iff, h.attached_iff]
  known label hl := by
    obtain hl | hl := hdrawn.mem_targets hl
    · exact hknown label (.inl (h.known label hl))
    · exact hknown label (.inr hl)

theorem insert (h : Synced code t) {position : Nat} (hp : position ≤ code.length) {i : Instruction}
    (hv : i.isValid = true) (hnew : ∀ label ∈ i.labels, ∀ p, ¬code.Stands label p) :
    Synced (code.splice position [i])
      ((t.registerLabels i.labels true).registerLabels i.targets false) := by
  have hr := h.regular.registerLabels i.labels true
  refine h.edit (Code.relabelled_splice_one hp i) (fun label hl p hs => absurd hs (hnew label hl p))
    (Code.drawnFrom_splice code position [i]) (by simpa using hv)
    (hr.registerLabels i.targets false) (fun label => ?_) fun label hl => ?_
  · rw [hr.status_registerLabels, h.regular.status_registerLabels]
    by_cases hl : label ∈ i.labels
    · simp [hl]
    · cases t.status label with
      | none => simp [hl]
      | some b => cases b <;> simp [hl]
  · rw [hr.status_registerLabels, h.regular.status_registerLabels]
    by_cases ht : label ∈ i.targets
    · simp [ht]
    · by_cases hl' : label ∈ i.labels
      · simp [ht, hl']
      · simpa [ht, hl', Code.targets] using hl

theorem rewrite (h : Synced code t) {position : Nat} {i : Instruction}
    (hi : code[position]? = some i) {opcode : Opcode} {operand : Operand}
    (hv : opcode.accepts operand = true) :
    Synced (code.set position { i with opcode, operand })
      (t.registerLabels operand.targets false) := by
  refine h.edit (Code.relabelled_set hi rfl) (by simp) (Code.drawnFrom_set code position _)
    (by simpa [Instruction.isValid] using hv) (h.regular.registerLabels _ _) (fun label => ?_)
    fun label hl => ?_
  · rw [h.regular.status_registerLabels]
    cases t.status label with
    | none => simp
    | some b => cases b <;> simp
  · rw [h.regular.status_registerLabels]
    by_cases ht : label ∈ operand.targets
    · simp [ht]
    · simpa [ht, Code.targets, Instruction.targets] using hl

theorem relabel (h : Synced code t) {φ : Nat → Nat} {position : Nat}
    (hrel : Code.Relabelled φ [] position code new) (hdrawn : Code.DrawnFrom code [] new) :
    Synced new t :=
  h.edit hrel (by simp) hdrawn (by simp) h.regular (by simp) (by simp [Code.targets])

theorem attach (h : Synced code t) {position : Nat} {label : Label}
    (hl : t.status label ≠ none) (ha : code.attachLabel position label = .ok new) :
    Synced new (t.markAttached label) := by
  refine h.edit (Code.relabelled_attachLabel ha) ?_ (Code.drawnFrom_attachLabel ha) (by simp)
    (h.regular.markAttached label) (fun other => ?_) fun other ho => ?_
  · intro other ho p hs
    cases List.mem_singleton.1 ho
    exact Code.eq_of_attachLabel h.separate ha hs
  · rw [h.regular.status_markAttached]
    obtain ⟨b, hb⟩ := Option.ne_none_iff_exists'.1 hl
    by_cases heq : other = label
    · simp [heq, hb]
    · simp [heq]
  · rw [h.regular.status_markAttached]
    by_cases heq : other = label
    · simpa [heq] using hl
    · simpa [heq, Code.targets] using ho

theorem rollback (h : Synced code t) (u : Symbols) : Synced code (u.rollback t.checkpoint) where
  regular := h.regular.rollback u
  valid := h.valid
  separate := h.separate
  attached_iff label := by
    rw [← h.attached_iff, Symbols.status, h.regular.label?_rollback, Symbols.status]
  known label hl := by
    rw [Symbols.status, h.regular.label?_rollback]
    exact h.known label hl

end Synced

end MethodEdit
