import MethodEdit.Proofs.Session.Transaction

/-!
The steps that a session takes. Whatever an operation does is made up of a few elementary ones, so a
property of sessions that each of them keeps is kept by every history of commands. Two things come
from outside: the instructions that the caller gives, and the labels that the source hands out.
-/
namespace MethodEdit

namespace Session

variable {s s' t : Session} {given : List Instruction} {asks : Bool} {i : Instruction}

/-- The instruction is given by the caller, or it has no labels and goes to known ones. -/
def Admits (s : Session) (given : List Instruction) (i : Instruction) : Prop :=
  i ∈ given ∨ i.labels = [] ∧ ∀ label ∈ i.targets, s.symbols.status label ≠ none

/-- How one session leads to another. The source of labels is only used if the session `asks`. -/
inductive Leads (given : List Instruction) (asks : Bool) : Session → Session → Prop where
  | refl (s : Session) : Leads given asks s s
  | trans {s t u : Session} (h₁ : Leads given asks s t) (h₂ : Leads given asks t u) :
      Leads given asks s u
  | moved (s : Session) (position : Nat) : Leads given asks s (s.withCursor position)
  | flagged (s : Session) (editing : Bool) : Leads given asks s { s with editing }
  | reslotted {s : Session} {symbols : Symbols} (h : s.symbols.Reslots symbols) :
      Leads given asks s { s with symbols }
  | renamed (s : Session) (label : Label) (name : String) :
      Leads given asks s
        { s with symbols := s.symbols.modifyLabel label fun entry => { entry with name } }
  | refused {s : Session} (ha : asks = true)
      (hknown : s.symbols.place? s.symbols.source.next ≠ none) :
      Leads given asks s { s with symbols := s.symbols.drawn }
  | created {s : Session} (ha : asks = true)
      (hnew : s.symbols.place? s.symbols.source.next = none) :
      Leads given asks s { s with symbols := s.symbols.minted }
  | inserted {s : Session} {position : Nat} {i : Instruction} (hp : position ≤ s.length)
      (hv : i.isValid = true) (hl : ∀ label ∈ i.labels, ∀ p, ¬s.code.Stands label p)
      (hi : s.Admits given i) : Leads given asks s (s.inserted position i)
  | rewritten {s : Session} {i : Instruction} {opcode : Opcode} {operand : Operand}
      (hi : s.code[s.cursor]? = some i) (hv : opcode.accepts operand = true)
      (hg : s.Admits given { opcode, operand }) :
      Leads given asks s
        { s with
          code := s.code.set s.cursor { i with opcode, operand }
          symbols := s.symbols.registerLabels operand.targets false }
  | attached {s : Session} {position : Nat} {label : Label} {code : Code}
      (hl : s.symbols.status label ≠ none) (hc : s.code.attachLabel position label = .ok code) :
      Leads given asks s { s with code, symbols := s.symbols.markAttached label }
  /-- The labels of the current instruction go to another one. -/
  | handedOver {s : Session} {position : Nat} {code : Code}
      (hc : s.code.moveLabels s.cursor position = .ok code) : Leads given asks s { s with code }
  | removed {s : Session} {removed : Instruction} {code : Code} {cursor : Nat}
      (hc : s.code.removeAt s.cursor = .ok (removed, code)) :
      Leads given asks s { s with code, cursor }
  /-- Only the source keeps what it did in the meantime. -/
  | takenBack {s after : Session} (h : Leads given asks { s with editing := true } after) :
      Leads given asks s (s.takenBack after)

namespace Leads

instance : IsPreorder Session (Leads given asks) where
  refl := refl
  trans _ _ _ := trans

theorem synced (h : Leads given asks s s') (hs : Synced s.code s.symbols) :
    Synced s'.code s'.symbols := by
  induction h with
  | refl | moved | flagged => exact hs
  | trans _ _ ih₁ ih₂ => exact ih₂ (ih₁ hs)
  | reslotted h => exact hs.extend h.1
  | renamed s label name =>
    exact hs.extend (Symbols.extends_modifyLabel s.symbols label (fun _ => rfl) fun _ => rfl)
  | refused => exact hs.extend (Symbols.extends_drawn _)
  | created _ hnew => exact hs.extend (Symbols.extends_minted hnew)
  | inserted hp hv hl => exact hs.insert hp hv hl
  | rewritten hi hv => exact hs.rewrite hi hv
  | attached hl hc => exact hs.attach hl hc
  | handedOver hc =>
    exact hs.relabel (Code.relabelled_moveLabels hc) (Code.drawnFrom_moveLabels hc)
  | removed hc => exact hs.relabel (Code.relabelled_removeAt hc) (Code.drawnFrom_removeAt hc)
  | takenBack => exact hs.rollback _

end Leads

/-- What becomes known: labels that the caller gives, and labels from the source. Nothing is
forgotten, and the source never goes back. -/
structure Learns (given : List Instruction) (asks : Bool) (s s' : Session) : Prop where
  keeps : ∀ label, s.symbols.status label ≠ none → s'.symbols.status label ≠ none
  learns : ∀ label, s'.symbols.status label ≠ none →
    s.symbols.status label ≠ none ∨ label ∈ given.flatMap (·.allLabels) ∨
      ∃ n, s.symbols.source.used ≤ n ∧ n < s'.symbols.source.used ∧
        label = s.symbols.source.labels n
  labels : s'.symbols.source.labels = s.symbols.source.labels
  used : s.symbols.source.used ≤ s'.symbols.source.used
  still : asks = false → s'.symbols.source = s.symbols.source

namespace Learns

theorem trans {u : Session} (h₁ : Learns given asks s t) (h₂ : Learns given asks t u) :
    Learns given asks s u where
  keeps label hl := h₂.keeps label (h₁.keeps label hl)
  learns label hl := by
    obtain hmid | hgiven | ⟨n, hle, hlt, rfl⟩ := h₂.learns label hl
    · obtain hold | hgiven | ⟨n, hle, hlt, hn⟩ := h₁.learns label hmid
      · exact .inl hold
      · exact .inr (.inl hgiven)
      · exact .inr (.inr ⟨n, hle, Nat.lt_of_lt_of_le hlt h₂.used, hn⟩)
    · exact .inr (.inl hgiven)
    · refine .inr (.inr ⟨n, Nat.le_trans h₁.used hle, hlt, ?_⟩)
      rw [h₁.labels]
  labels := h₂.labels.trans h₁.labels
  used := Nat.le_trans h₁.used h₂.used
  still ha := (h₂.still ha).trans (h₁.still ha)

theorem of_known (more : List Label)
    (hk : ∀ label, s'.symbols.status label ≠ none ↔ label ∈ more ∨ s.symbols.status label ≠ none)
    (hm : ∀ label ∈ more, label ∈ given.flatMap (·.allLabels) ∨ s.symbols.status label ≠ none)
    (hs : s'.symbols.source = s.symbols.source) : Learns given asks s s' where
  keeps label hl := (hk label).2 (.inr hl)
  learns label hl := by
    obtain hmore | hold := (hk label).1 hl
    · obtain hgiven | hold := hm label hmore
      · exact .inr (.inl hgiven)
      · exact .inl hold
    · exact .inl hold
  labels := by rw [hs]
  used := Nat.le_of_eq (by rw [hs])
  still _ := hs

theorem of_same (hk : ∀ label, s'.symbols.status label ≠ none ↔ s.symbols.status label ≠ none)
    (hs : s'.symbols.source = s.symbols.source) : Learns given asks s s' :=
  of_known [] (fun label => by simp [hk label]) (by simp) hs

end Learns

theorem Admits.mem_given (h : s.Admits given i) {label : Label} (hl : label ∈ i.allLabels) :
    label ∈ given.flatMap (·.allLabels) ∨ s.symbols.status label ≠ none := by
  obtain hi | ⟨hlabels, htargets⟩ := h
  · exact .inl (List.mem_flatMap.2 ⟨i, hi, hl⟩)
  · rw [Instruction.allLabels, hlabels, List.nil_append] at hl
    exact .inr (htargets label hl)

theorem Leads.learns (h : Leads given asks s s') (hs : Synced s.code s.symbols) :
    Learns given asks s s' := by
  induction h with
  | refl | moved | flagged | handedOver | removed => exact .of_same (fun _ => Iff.rfl) rfl
  | trans h₁ _ ih₁ ih₂ => exact (ih₁ hs).trans (ih₂ (h₁.synced hs))
  | reslotted h =>
    obtain ⟨_, slots, rfl⟩ := h
    exact .of_same (fun _ => Iff.rfl) rfl
  | renamed s label name =>
    exact .of_same (hs.regular.known_modifyLabel label _) (Symbols.source_modifyLabel ..)
  | refused ha =>
    exact {
      keeps := fun _ hl => hl
      learns := fun _ hl => .inl hl
      labels := rfl
      used := Nat.le_succ _
      still := fun h => by simp [ha] at h }
  | @created s ha hnew =>
    have hknown := hs.regular.known_minted
    have hsource := s.symbols.source_minted
    exact {
      keeps := fun label hl => (hknown label).2 (.inr hl)
      learns := fun label hl => by
        obtain rfl | hl := (hknown label).1 hl
        · refine .inr (.inr ⟨s.symbols.source.used, Nat.le_refl _, ?_, rfl⟩)
          rw [hsource]
          exact Nat.lt_succ_self _
        · exact .inl hl
      labels := by rw [hsource]; rfl
      used := by rw [hsource]; exact Nat.le_succ _
      still := fun h => by simp [ha] at h }
  | @inserted s position i _ _ _ hi =>
    refine .of_known i.allLabels (fun label => ?_) (fun label hl => hi.mem_given hl) ?_
    · rw [Session.inserted, (hs.regular.registerLabels _ _).known_registerLabels,
        hs.regular.known_registerLabels, Instruction.allLabels, List.mem_append, or_left_comm,
        or_assoc]
    · exact (Symbols.source_registerLabels ..).trans (Symbols.source_registerLabels ..)
  | @rewritten s _ opcode operand _ _ hg =>
    refine .of_known operand.targets (hs.regular.known_registerLabels _ false) (fun label hl => ?_)
      (Symbols.source_registerLabels ..)
    exact hg.mem_given (by simpa [Instruction.allLabels, Instruction.targets] using hl)
  | @attached s _ label =>
    exact .of_same (hs.regular.known_modifyLabel label _) (Symbols.source_modifyLabel ..)
  | @takenBack s after _ ih =>
    have hl := ih hs
    have hstatus (label : Label) :
        (s.takenBack after).symbols.status label = s.symbols.status label := by
      rw [Session.takenBack, Symbols.status, hs.regular.label?_rollback, Symbols.status]
    exact {
      keeps := fun label hk => by rw [hstatus]; exact hk
      learns := fun label hk => by rw [hstatus] at hk; exact .inl hk
      labels := hl.labels
      used := hl.used
      still := hl.still }

theorem Admits.mono (h : s.Admits given i) (hl : Leads given asks s t)
    (hs : Synced s.code s.symbols) : t.Admits given i :=
  h.imp_right fun ⟨hlabels, htargets⟩ =>
    ⟨hlabels, fun label hm => (hl.learns hs).keeps label (htargets label hm)⟩

theorem Admits.of_allLabels (h : i.allLabels = []) : s.Admits given i := by
  obtain ⟨hlabels, htargets⟩ := List.append_eq_nil_iff.1 h
  exact .inr ⟨hlabels, by simp [htargets]⟩

theorem Leads.mono {more : List Instruction} (h : Leads given asks s s')
    (hg : ∀ i ∈ given, i ∈ more) : Leads more true s s' := by
  have hadmits {t : Session} {i : Instruction} (ha : t.Admits given i) : t.Admits more i :=
    ha.imp_left (hg i)
  induction h with
  | refl s => exact .refl s
  | trans _ _ ih₁ ih₂ => exact ih₁.trans ih₂
  | moved s position => exact .moved s position
  | flagged s editing => exact .flagged s editing
  | reslotted h => exact .reslotted h
  | renamed s label name => exact .renamed s label name
  | refused _ hknown => exact .refused rfl hknown
  | created _ hnew => exact .created rfl hnew
  | inserted hp hv hl hi => exact .inserted hp hv hl (hadmits hi)
  | rewritten hi hv hg => exact .rewritten hi hv (hadmits hg)
  | attached hl hc => exact .attached hl hc
  | handedOver hc => exact .handedOver hc
  | removed hc => exact .removed hc
  | takenBack _ ih => exact ih.takenBack

end Session

end MethodEdit
