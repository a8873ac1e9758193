import MethodEdit.Proofs.Session.Evolution

/-!
Edits that are all or nothing. If one is refused, code, slots, labels and cursor are what they were;
only labels may have been asked for. Checks that come before such an edit do no harm.
-/
namespace MethodEdit.Session

open Edit

variable {s s' : Session} {α β : Type}

theorem moves_of_tableOnly {op : Edit Session α} (h : Moves TableOnly op) : Moves Edits op :=
  fun s => (h s).edits

/-- The session is as before, except that labels may have been asked for. -/
structure Restored (s s' : Session) : Prop where
  code : s'.code = s.code
  cursor : s'.cursor = s.cursor
  method : s'.method = s.method
  core : s'.core = s.core
  settings : s'.settings = s.settings
  slots : s'.symbols.slots = s.symbols.slots
  labels : s'.symbols.labels = s.symbols.labels
  label? : ∀ label, s'.symbols.label? label = s.symbols.label? label
  slotStem : s'.symbols.slotStem = s.symbols.slotStem
  labelStem : s'.symbols.labelStem = s.symbols.labelStem
  source : s'.symbols.source.labels = s.symbols.source.labels ∧
    s.symbols.source.used ≤ s'.symbols.source.used
  /-- The next edit takes back what it does on its own account. -/
  editing : s'.editing = false

theorem Sound.restored (h : s.Sound) : s.Restored s where
  code := rfl
  cursor := rfl
  method := rfl
  core := rfl
  settings := rfl
  slots := rfl
  labels := rfl
  label? _ := rfl
  slotStem := rfl
  labelStem := rfl
  source := ⟨rfl, Nat.le_refl _⟩
  editing := h.resting

/-- The session evolves and, if the operation is refused, is restored. -/
structure Whole (op : Edit Session α) : Prop where
  moves : Moves Edits op
  restores : ∀ s, s.Sound → ∀ e s', op s = (.error e, s') → s.Restored s'

namespace Whole

variable {op : Edit Session α} {next : α → Edit Session β}

theorem of_unmoved (h : Moves Eq op) : Whole op where
  moves s := by
    rw [← h s]
    exact refl_of Edits s
  restores s hs e s' he := by
    have hsame := h s
    rw [he] at hsame
    subst hsame
    exact hs.restored

theorem throw (e : EditError) : Whole (MonadExcept.throw e : Edit Session α) :=
  of_unmoved fun _ => rfl

theorem bind (h : Moves Eq op) (hn : ∀ a, Whole (next a)) : Whole (op >>= next) where
  moves := .bind (of_unmoved h).moves fun a => (hn a).moves
  restores s hs e s' he := by
    have hsame := h s
    rw [run_bind] at he
    cases ho : op s with
    | mk result t =>
      rw [ho] at he hsame
      subst hsame
      cases result with
      | error e' =>
        cases he
        exact hs.restored
      | ok a => exact (hn a).restores s hs e s' he

end Whole

def takenBack (s after : Session) : Session :=
  { after with
    code := s.code
    symbols := after.symbols.rollback s.symbols.checkpoint
    cursor := s.cursor
    editing := false }

theorem transaction_within (edit : Edit Session α) (hs : s.editing = true) :
    transaction edit s = edit s := if_pos hs

/-- What an edit that is all or nothing comes to if no other one is going on. -/
theorem transaction_cases (edit : Edit Session α) (hs : s.editing = false) :
    (∃ e after, edit { s with editing := true } = (.error e, after) ∧
      transaction edit s = (.error e, s.takenBack after)) ∨
    ∃ a after, edit { s with editing := true } = (.ok a, after) ∧
      transaction edit s = (.ok a, { after with editing := false }) := by
  cases hm : edit { s with editing := true } with
  | mk result after =>
    cases result with
    | error e => exact .inl ⟨e, after, rfl, by simp [transaction, hs, hm, takenBack]⟩
    | ok a => exact .inr ⟨a, after, rfl, by simp [transaction, hs, hm]⟩

section

variable {after : Session} (he : { s with editing := true }.Edits after)

include he

theorem edits_takenBack (hs : s.editing = false) : s.Edits (s.takenBack after) where
  method := he.method
  core := he.core
  settings := he.settings
  editing := hs.symm
  symbols := Symbols.grows_rollback he.symbols
  synced h := h.rollback after.symbols
  nonempty := id
  inside := id

theorem edits_finished (hs : s.editing = false) : s.Edits { after with editing := false } :=
  { he with editing := hs.symm, synced := he.synced, inside := he.inside }

theorem restored_takenBack (hs : s.Sound) : s.Restored (s.takenBack after) where
  code := rfl
  cursor := rfl
  method := he.method
  core := he.core
  settings := he.settings
  slots := rfl
  labels := rfl
  label? := hs.synced.regular.label?_rollback after.symbols
  slotStem := he.symbols.slotStem
  labelStem := he.symbols.labelStem
  source := he.symbols.source
  editing := rfl

end

theorem whole_transaction {edit : Edit Session α} (h : Moves Edits edit) :
    Whole (transaction edit) where
  moves s := by
    have he := h { s with editing := true }
    cases hs : s.editing with
    | true =>
      -- the edit belongs to an outer one, which will take it back
      rw [transaction_within edit hs]
      exact h s
    | false =>
      obtain ⟨e, after, hm, ht⟩ | ⟨a, after, hm, ht⟩ := transaction_cases edit hs
      · rw [hm] at he
        rw [ht]
        exact edits_takenBack he hs
      · rw [hm] at he
        rw [ht]
        exact edits_finished he hs
  restores s hs e s' hrun := by
    have he := h { s with editing := true }
    obtain ⟨e', after, hm, ht⟩ | ⟨a, after, hm, ht⟩ := transaction_cases edit hs.resting
    · rw [hm] at he
      cases ht.symm.trans hrun
      exact restored_takenBack he hs
    · cases ht.symm.trans hrun

theorem transaction_yields {edit : Edit Session α} {Q : α → Session → Prop} (hs : s.editing = false)
    (h : Yields edit { s with editing := true } fun a t => Q a { t with editing := false }) :
    Yields (transaction edit) s Q := by
  obtain ⟨e, after, _, ht⟩ | ⟨a, after, hm, ht⟩ := transaction_cases edit hs
  · exact .of_error ht
  · exact .of_ok ht (h a after hm)

theorem transaction_yields_within {edit : Edit Session α} {Q : α → Session → Prop}
    (hs : s.editing = true) (h : Yields edit s Q) : Yields (transaction edit) s Q := by
  intro a t ht
  rw [transaction_within edit hs] at ht
  exact h a t ht

theorem transaction_error {edit : Edit Session α} {e : EditError} {after : Session}
    (hs : s.editing = false) (h : edit { s with editing := true } = (.error e, after)) :
    (transaction edit s).1 = .error e := by
  simp [transaction, hs, h]

theorem whole_rewrite (opcode : Opcode) (operand : Operand) : Whole (rewrite opcode operand) where
  moves := moves_rewrite opcode operand
  restores s hs e s' hrun := by
    obtain ⟨e', h⟩ | ⟨i, _, _, h⟩ := rewrite_cases opcode operand s
    · cases h.symm.trans hrun
      exact hs.restored
    · cases h.symm.trans hrun

theorem moves_checkStatic {R : Session → Session → Prop} [IsPreorder Session R]
    (procedure : Method) : Moves R (checkStatic procedure) := by
  unfold checkStatic
  split
  · exact .pure _
  · exact .throw _

end MethodEdit.Session
