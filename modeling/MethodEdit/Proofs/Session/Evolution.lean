import MethodEdit.Proofs.Session.Synced

/-!
What can become of a session: the edited method and the settings are fixed, the symbol table grows,
code and table stay in agreement, and the cursor stays on an instruction. This is found out for each
edit at the cursor from its possible outcomes.
-/
namespace MethodEdit.Session

open Edit

variable {s s' : Session}

theorem current_eq {i : Instruction} (hi : s.code[s.cursor]? = some i) : s.current = i := by
  rw [current, List.getD_eq_getElem?_getD, hi, Option.getD_some]

/-- What holds of a session however the cursor was moved. -/
structure Evolves (s s' : Session) : Prop where
  method : s'.method = s.method
  core : s'.core = s.core
  settings : s'.settings = s.settings
  editing : s'.editing = s.editing
  symbols : s.symbols.Grows s'.symbols
  synced : Synced s.code s.symbols → Synced s'.code s'.symbols
  nonempty : s.code ≠ [] → s'.code ≠ []

instance : IsPreorder Session Evolves where
  refl _ := ⟨rfl, rfl, rfl, rfl, .refl _, id, id⟩
  trans _ _ _ h₁ h₂ :=
    ⟨h₂.method.trans h₁.method, h₂.core.trans h₁.core, h₂.settings.trans h₁.settings,
      h₂.editing.trans h₁.editing, h₁.symbols.trans h₂.symbols, fun h => h₂.synced (h₁.synced h),
      fun h => h₂.nonempty (h₁.nonempty h)⟩

/-- The cursor stays on an instruction too. -/
structure Edits (s s' : Session) : Prop extends s.Evolves s' where
  inside : s.cursor < s.length → s'.cursor < s'.length

instance : IsPreorder Session Edits where
  refl s := ⟨refl_of Evolves s, id⟩
  trans _ _ _ h₁ h₂ :=
    ⟨trans_of Evolves h₁.toEvolves h₂.toEvolves, fun h => h₂.inside (h₁.inside h)⟩

theorem evolves_withCursor (s : Session) (position : Nat) : s.Evolves (s.withCursor position) :=
  ⟨rfl, rfl, rfl, rfl, .refl _, id, id⟩

theorem edits_withCursor {position : Nat}
    (h : s.cursor < s.length → position < s.length) : s.Edits (s.withCursor position) :=
  ⟨evolves_withCursor s position, h⟩

/-- Code and table agree, the cursor is on an instruction, and no edit is going on. -/
structure Sound (s : Session) : Prop where
  synced : Synced s.code s.symbols
  inside : s.cursor < s.length
  resting : s.editing = false

theorem Sound.edits (h : s.Sound) (he : s.Edits s') : s'.Sound where
  synced := he.synced h.synced
  inside := he.inside h.inside
  resting := he.editing.trans h.resting

theorem Edits.of_code {code : Code} {symbols : Symbols} {cursor : Nat}
    (hg : s.symbols.Grows symbols) (hs : Synced s.code s.symbols → Synced code symbols)
    (hc : s.cursor < s.length → cursor < code.length) (hn : s.length ≤ code.length) :
    s.Edits { s with code, symbols, cursor } where
  method := rfl
  core := rfl
  settings := rfl
  editing := rfl
  symbols := hg
  synced := hs
  nonempty h := by
    have := List.length_pos_iff.2 h
    exact List.length_pos_iff.1 (Nat.lt_of_lt_of_le this hn)
  inside := hc

def TableOnly (s s' : Session) : Prop :=
  ∃ symbols, s.symbols.Extends symbols ∧ s' = { s with symbols }

theorem TableOnly.edits (h : s.TableOnly s') : s.Edits s' := by
  obtain ⟨t, ht, rfl⟩ := h
  exact .of_code ht.toGrows (fun hs => hs.extend ht) id (Nat.le_refl _)

theorem moves_onSymbols {α : Type} {op : Edit Symbols α} (h : Moves Symbols.Extends op) :
    Moves TableOnly (onSymbols op) := fun s => ⟨_, h s.symbols, rfl⟩

theorem onSymbols_bind {α β : Type} (op : Edit Symbols α) (next : α → Edit Symbols β) :
    onSymbols (op >>= next) = onSymbols op >>= fun a => onSymbols (next a) := by
  funext s
  simp only [onSymbols, run_bind]
  cases op s.symbols with
  | mk result t =>
    cases result with
    | error e => rfl
    | ok a => rfl

theorem refuses_onSymbols {α : Type} {op : Edit Symbols α} {Q : Session → Prop}
    (h : Refuses op s.symbols fun symbols => Q { s with symbols }) :
    Refuses (onSymbols op) s Q := by
  intro e t ht
  cases ho : op s.symbols with
  | mk result u =>
    rw [onSymbols, ho] at ht
    cases ht
    exact h e u ho

theorem onSymbols_createLabel_cases (s : Session) :
    (s.symbols.place? s.symbols.source.next ≠ none ∧
      onSymbols Symbols.createLabel s =
        (.error (.duplicateLabel s.symbols.source.next), { s with symbols := s.symbols.drawn })) ∨
    (s.symbols.place? s.symbols.source.next = none ∧
      onSymbols Symbols.createLabel s =
        (.ok s.symbols.source.next, { s with symbols := s.symbols.minted })) := by
  unfold onSymbols
  obtain ⟨hknown, h⟩ | ⟨hnew, h⟩ := Symbols.createLabel_cases s.symbols
  · exact .inl ⟨hknown, by rw [h]⟩
  · exact .inr ⟨hnew, by rw [h]⟩

def SlotsOnly (s s' : Session) : Prop :=
  ∃ symbols, s.symbols.Reslots symbols ∧ s' = { s with symbols }

instance : IsPreorder Session SlotsOnly where
  refl s := ⟨s.symbols, refl_of Symbols.Reslots _, rfl⟩
  trans := by
    rintro s _ _ ⟨t, ht, rfl⟩ ⟨u, hu, rfl⟩
    exact ⟨u, trans_of Symbols.Reslots ht hu, rfl⟩

theorem SlotsOnly.tableOnly (h : s.SlotsOnly s') : s.TableOnly s' := by
  obtain ⟨symbols, hr, heq⟩ := h
  exact ⟨symbols, hr.1, heq⟩

theorem slots_onSymbols {α : Type} {op : Edit Symbols α} (h : Moves Symbols.Reslots op) :
    Moves SlotsOnly (onSymbols op) := fun s => ⟨_, h s.symbols, rfl⟩

theorem insertAt_cases (position : Nat) (i : Instruction) (s : Session) :
    (∃ e, insertAt position i s = (.error e, s)) ∨
    (position ≤ s.length ∧ i.isValid = true ∧
      (∀ label ∈ i.labels, ∀ p, ¬s.code.Stands label p) ∧
      insertAt position i s = (.ok ⟨⟩,
        { s with
          code := s.code.splice position [i]
          symbols :=
            (s.symbols.registerLabels i.labels true).registerLabels i.targets false })) := by
  unfold insertAt
  cases hf : i.labels.find? fun label => (s.code.positionOf? label).isSome with
  | some label => exact .inl ⟨.duplicateLabel label, by simp [hf]⟩
  | none =>
    cases hc : s.code.insertAt position i with
    | error e => exact .inl ⟨e, by simp [hf, hc]⟩
    | ok code =>
      obtain ⟨hp, hv, rfl⟩ := Code.insertAt_eq_ok_iff.1 hc
      refine .inr ⟨hp, hv, fun label hl p hs => ?_, by simp [hf, hc]⟩
      have hnone := List.find?_eq_none.1 hf label hl
      exact hnone (Code.positionOf?_isSome_iff.2 ⟨p, hs⟩)

def inserted (s : Session) (position : Nat) (i : Instruction) : Session :=
  { s with
    code := s.code.splice position [i]
    symbols := (s.symbols.registerLabels i.labels true).registerLabels i.targets false
    cursor := s.cursor + 1 }

theorem insertBefore_cases (i : Instruction) (s : Session) :
    (∃ e, insertBefore i s = (.error e, s)) ∨
    (s.cursor ≤ s.length ∧ i.isValid = true ∧
      (∀ label ∈ i.labels, ∀ p, ¬s.code.Stands label p) ∧
      insertBefore i s = (.ok ⟨⟩, s.inserted s.cursor i)) := by
  obtain ⟨e, h⟩ | ⟨hp, hv, hl, h⟩ := insertAt_cases s.cursor i s
  · exact .inl ⟨e, by simp [insertBefore, h]⟩
  · exact .inr ⟨hp, hv, hl, by simp [insertBefore, h, withCursor, inserted]⟩

theorem insertAfter_cases (i : Instruction) (s : Session) :
    (∃ e, insertAfter i s = (.error e, s)) ∨
    (s.cursor < s.length ∧ i.isValid = true ∧
      (∀ label ∈ i.labels, ∀ p, ¬s.code.Stands label p) ∧
      insertAfter i s = (.ok ⟨⟩, s.inserted (s.cursor + 1) i)) := by
  obtain ⟨e, h⟩ | ⟨hp, hv, hl, h⟩ := insertAt_cases (s.cursor + 1) i s
  · exact .inl ⟨e, by simp [insertAfter, h]⟩
  · exact .inr ⟨hp, hv, hl, by simp [insertAfter, h, withCursor, inserted]⟩

theorem insertAfter_unlabelled {i : Instruction} (hc : s.cursor < s.length) (hv : i.isValid = true)
    (hl : i.labels = []) : insertAfter i s = (.ok ⟨⟩, s.inserted (s.cursor + 1) i) := by
  have hinsert := Code.insertAt_eq_ok_iff.2 ⟨hc, hv, rfl⟩
  simp [insertAfter, insertAt, hl, hinsert, withCursor, inserted]

theorem rewrite_cases (opcode : Opcode) (operand : Operand) (s : Session) :
    (∃ e, rewrite opcode operand s = (.error e, s)) ∨
    ∃ i, s.code[s.cursor]? = some i ∧ opcode.accepts operand = true ∧
      rewrite opcode operand s = (.ok ⟨⟩,
        { s with
          code := s.code.set s.cursor { i with opcode, operand }
          symbols := s.symbols.registerLabels operand.targets false }) := by
  unfold rewrite
  cases hc : s.code.rewriteAt s.cursor opcode operand with
  | error e => exact .inl ⟨e, by simp [hc]⟩
  | ok code =>
    obtain ⟨ha, i, hi, rfl⟩ := Code.rewriteAt_eq_ok_iff.1 hc
    exact .inr ⟨i, hi, ha, by simp [hc]⟩

theorem rewrite_accepted {opcode : Opcode} {operand : Operand} {i : Instruction}
    (hi : s.code[s.cursor]? = some i) (ha : opcode.accepts operand = true) :
    rewrite opcode operand s = (.ok ⟨⟩,
      { s with
        code := s.code.set s.cursor { i with opcode, operand }
        symbols := s.symbols.registerLabels operand.targets false }) := by
  have hcode := Code.rewriteAt_eq_ok_iff.2 ⟨ha, i, hi, rfl⟩
  simp [rewrite, hcode]

theorem attachLabelAt_cases (position : Nat) (label : Label) (s : Session) :
    (∃ e, attachLabelAt position label s = (.error e, s)) ∨
    ∃ code, s.symbols.status label ≠ none ∧ s.code.attachLabel position label = .ok code ∧
      attachLabelAt position label s =
        (.ok ⟨⟩, { s with code, symbols := s.symbols.markAttached label }) := by
  unfold attachLabelAt
  cases hl : s.symbols.label? label with
  | none => exact .inl ⟨.unknownLabel (.label label), by simp [hl]⟩
  | some entry =>
    cases hc : s.code.attachLabel position label with
    | error e => exact .inl ⟨e, by simp [hl, hc]⟩
    | ok code => exact .inr ⟨code, by simp [Symbols.status, hl], rfl, by simp [hl, hc]⟩

theorem attachLabelAt_new (hs : Synced s.code s.symbols) {position : Nat} (hp : position < s.length)
    {label : Label} (hnew : s.symbols.status label = none) {symbols : Symbols}
    (hl : symbols.status label ≠ none) :
    attachLabelAt position label { s with symbols } = (.ok ⟨⟩,
      { s with
        code := s.code.modify position fun i => { i with labels := i.labels ++ [label] }
        symbols := symbols.markAttached label }) := by
  have hnone : s.code.positionOf? label = none := by
    rw [← Option.not_isSome_iff_eq_none, Code.positionOf?_isSome_iff, ← hs.attached_iff, hnew]
    nofun
  have hattach := Code.attachLabel_eq_ok_iff.2 (.inr ⟨hnone, hp, rfl⟩)
  have hknown : symbols.label? label ≠ none := by simpa [Symbols.status] using hl
  simp [attachLabelAt, hknown, hattach]

theorem moveLabelsTo_cases (position : Nat) (s : Session) :
    (∃ e, moveLabelsTo position s = (.error e, s)) ∨
    ∃ code, s.code.moveLabels s.cursor position = .ok code ∧
      moveLabelsTo position s = (.ok ⟨⟩, { s with code }) := by
  unfold moveLabelsTo
  cases hc : s.code.moveLabels s.cursor position with
  | error e => exact .inl ⟨e, by simp [hc]⟩
  | ok code => exact .inr ⟨code, rfl, by simp [hc]⟩

theorem removeCurrent_cases (s : Session) :
    (∃ e, removeCurrent s = (.error e, s)) ∨
    ∃ removed code, s.length ≠ 1 ∧ s.code.removeAt s.cursor = .ok (removed, code) ∧
      removeCurrent s =
        (.ok removed, { s with code, cursor := min s.cursor (code.length - 1) }) := by
  unfold removeCurrent
  by_cases hn : s.length = 1
  · exact .inl ⟨.emptyMethodBody, by simp [hn]⟩
  · cases hc : s.code.removeAt s.cursor with
    | error e => exact .inl ⟨e, by simp [hn, hc]⟩
    | ok result =>
      obtain ⟨removed, code⟩ := result
      exact .inr ⟨removed, code, hn, rfl, by simp [hn, hc]; rfl⟩

theorem edits_inserted {position : Nat} {i : Instruction} (hp : position ≤ s.length)
    (hv : i.isValid = true) (hl : ∀ label ∈ i.labels, ∀ p, ¬s.code.Stands label p) :
    s.Edits (s.inserted position i) := by
  have hlen := s.code.length_splice position [i]
  rw [List.length_singleton] at hlen
  have hgrows := (s.symbols.grows_registerLabels i.labels true).trans
    (Symbols.grows_registerLabels _ i.targets false)
  refine .of_code hgrows (fun hs => hs.insert hp hv hl) (fun hc => ?_) ?_
  · rw [hlen]
    exact Nat.succ_lt_succ hc
  · rw [hlen]
    exact Nat.le_succ _

theorem moves_insertBefore (i : Instruction) : Moves Edits (insertBefore i) := by
  intro s
  obtain ⟨e, h⟩ | ⟨hp, hv, hl, h⟩ := insertBefore_cases i s
  · rw [h]
    exact refl_of Edits s
  · rw [h]
    exact edits_inserted hp hv hl

theorem moves_insertAfter (i : Instruction) : Moves Edits (insertAfter i) := by
  intro s
  obtain ⟨e, h⟩ | ⟨hp, hv, hl, h⟩ := insertAfter_cases i s
  · rw [h]
    exact refl_of Edits s
  · rw [h]
    exact edits_inserted hp hv hl

theorem moves_rewrite (opcode : Opcode) (operand : Operand) :
    Moves Edits (rewrite opcode operand) := by
  intro s
  obtain ⟨e, h⟩ | ⟨i, hi, ha, h⟩ := rewrite_cases opcode operand s
  · rw [h]
    exact refl_of Edits s
  · rw [h]
    exact .of_code (s.symbols.grows_registerLabels _ _) (fun hs => hs.rewrite hi ha)
      (fun hc => by rw [List.length_set]; exact hc) (by rw [List.length_set]; exact Nat.le_refl _)

theorem moves_attachLabelAt (position : Nat) (label : Label) :
    Moves Edits (attachLabelAt position label) := by
  intro s
  obtain ⟨e, h⟩ | ⟨code, hl, hc, h⟩ := attachLabelAt_cases position label s
  · rw [h]
    exact refl_of Edits s
  · have hlen := Code.length_attachLabel hc
    rw [h]
    exact .of_code (s.symbols.grows_markAttached label) (fun hs => hs.attach hl hc)
      (fun hi => by rw [hlen]; exact hi) (Nat.le_of_eq hlen.symm)

theorem moves_moveLabelsTo (position : Nat) : Moves Edits (moveLabelsTo position) := by
  intro s
  obtain ⟨e, h⟩ | ⟨code, hc, h⟩ := moveLabelsTo_cases position s
  · rw [h]
    exact refl_of Edits s
  · have hlen := Code.length_moveLabels hc
    rw [h]
    exact .of_code (.refl _)
      (fun hs => hs.relabel (Code.relabelled_moveLabels hc) (Code.drawnFrom_moveLabels hc))
      (fun hi => by rw [hlen]; exact hi) (Nat.le_of_eq hlen.symm)

theorem blankCurrent_eq_rewrite : blankCurrent = rewrite .nop .none := rfl

/-- The one edit that makes the code shorter leaves something of it. -/
theorem moves_removeCurrent : Moves Edits removeCurrent := by
  intro s
  obtain ⟨e, h⟩ | ⟨removed, code, hn, hc, h⟩ := removeCurrent_cases s
  · rw [h]
    exact refl_of Edits s
  · have hlen := Code.length_removeAt hc
    have hpos : 0 < code.length := by
      simp only [length] at hn
      omega
    rw [h]
    exact {
      method := rfl
      core := rfl
      settings := rfl
      editing := rfl
      symbols := .refl _
      synced := fun hs => hs.relabel (Code.relabelled_removeAt hc) (Code.drawnFrom_removeAt hc)
      nonempty := fun _ => List.length_pos_iff.1 hpos
      inside := fun _ => by
        simp only [length]
        omega }

end MethodEdit.Session
