import MethodEdit.Proofs.Session.Operations

/-!
The sessions that can come about: started from some code, and then led on by commands, refused ones
included. In all of them the code and the symbol table agree and the cursor is on an instruction.
-/
namespace MethodEdit.Session

open Edit

variable {s s' : Session}

/-- A session that was started, or that some command led to. The command comes with any description
to resolve its queries in. -/
inductive Reachable : Session → Prop where
  | start {method : Method} {core : CoreTypes} {slots : List Ty} {instructions : List Instruction}
      {settings : Settings} {source : LabelSource} {s : Session}
      (h : Session.start method core slots instructions settings source = .ok s) : Reachable s
  | step {s : Session} (h : Reachable s) (resolver : Resolver) (command : SessionCommand) :
      Reachable (command.run ⟨resolver, s⟩).2.session

/-- Code and table agree from the start. -/
theorem synced_registerCode {code : Code} {t : Symbols} (ht : t.Regular)
    (hnew : ∀ label, t.status label = none) (hv : ∀ i ∈ code, i.isValid = true)
    (hs : code.Separate) : Synced code (registerCode code t) where
  regular := ht.registerEach _ _
  valid := hv
  separate := hs
  attached_iff label := by
    have hstatus := ht.status_registerEach (code.flatMap (·.allLabels))
      (fun label => (code.positionOf? label).isSome) label
    rw [registerCode, ← Symbols.registerEach, hstatus, hnew, ← Code.positionOf?_isSome_iff]
    by_cases hl : label ∈ code.flatMap (·.allLabels)
    · simp [hl]
    · have hno : (code.positionOf? label).isSome = false := by
        rw [← Bool.not_eq_true, Code.positionOf?_isSome_iff]
        rintro ⟨position, hp⟩
        exact hl (Code.mem_allLabels_of_stands hp)
      simp [hl, hno]
  known label hl := by
    obtain ⟨i, hi, hl⟩ := List.mem_flatMap.1 hl
    have hm : label ∈ code.flatMap (·.allLabels) :=
      List.mem_flatMap.2 ⟨i, hi, List.mem_append_right _ hl⟩
    have hstatus := ht.status_registerEach (code.flatMap (·.allLabels))
      (fun label => (code.positionOf? label).isSome) label
    rw [registerCode, ← Symbols.registerEach, hstatus, if_pos hm]
    simp

section

variable {method : Method} {core : CoreTypes} {slots : List Ty} {instructions : List Instruction}
  {settings : Settings} {source : LabelSource}

/-- What code a session accepts, and the session that it then is. -/
theorem start_eq_ok_iff :
    start method core slots instructions settings source = .ok s ↔
      instructions ≠ [] ∧ (∀ i ∈ instructions, i.isValid = true) ∧
      Code.checkLabels instructions = .ok () ∧
      s = {
        code := instructions
        symbols := registerCode instructions (Symbols.ofTypes slots source settings)
        method, core, settings } := by
  unfold start
  cases instructions with
  | nil => exact ⟨nofun, fun h => absurd rfl h.1⟩
  | cons first rest =>
    simp only [List.isEmpty_cons, Bool.false_eq_true, if_false, bind_eq_ok_iff,
      Code.ofInstructions_eq_ok_iff]
    constructor
    · rintro ⟨code, ⟨hv, rfl⟩, _, hc, h⟩
      cases h
      exact ⟨nofun, hv, hc, rfl⟩
    · rintro ⟨_, hv, hc, rfl⟩
      exact ⟨_, ⟨hv, rfl⟩, (), hc, rfl⟩

theorem source_start (h : start method core slots instructions settings source = .ok s) :
    s.symbols.source = source := by
  obtain ⟨_, _, _, rfl⟩ := start_eq_ok_iff.1 h
  exact (Symbols.source_registerEach _ _ _).trans (Symbols.source_ofTypes slots source settings)

theorem mem_allLabels_of_known (h : start method core slots instructions settings source = .ok s)
    {label : Label} (hl : s.symbols.status label ≠ none) :
    label ∈ instructions.flatMap (·.allLabels) := by
  obtain ⟨_, _, _, rfl⟩ := start_eq_ok_iff.1 h
  by_contra hno
  have hstatus := (Symbols.regular_ofTypes slots source settings).status_registerEach
    (instructions.flatMap (·.allLabels)) (fun label => (Code.positionOf? instructions label).isSome)
    label
  rw [if_neg hno, Symbols.status_ofTypes] at hstatus
  exact hl hstatus

theorem sound_start (h : start method core slots instructions settings source = .ok s) :
    s.Sound := by
  obtain ⟨hn, hv, hc, rfl⟩ := start_eq_ok_iff.1 h
  exact {
    synced := synced_registerCode (Symbols.regular_ofTypes slots source settings)
      (Symbols.status_ofTypes slots source settings) hv (Code.checkLabels_eq_ok_iff.1 hc).2
    inside := List.length_pos_iff.2 hn
    resting := rfl }

end

theorem Reachable.sound (h : s.Reachable) : s.Sound := by
  induction h with
  | start h => exact sound_start h
  | step _ resolver command ih => exact ih.edits (command.moves_run ⟨resolver, _⟩)

theorem Reachable.runAll (h : s.Reachable) (commands : List SessionCommand) (resolver : Resolver) :
    (SessionCommand.runAll commands ⟨resolver, s⟩).session.Reachable := by
  induction commands generalizing s resolver with
  | nil => exact h
  | cons command rest ih => exact ih (h.step resolver command) _

namespace Sample

/- A session to try the results on: the edited method pushes a constant, at which a label stands,
and drops it. -/

def int32 : Ty := .named "System.Int32" .valueType none []

def boolean : Ty := .named "System.Boolean" .valueType none []

def void : Ty := .named "System.Void" .voidType none []

def object : Ty := .named Ty.rootName .classType none []

def core : CoreTypes where
  object := object
  valueType := object
  void := void
  boolean := boolean
  int32 := int32
  int64 := int32
  float32 := int32
  float64 := int32
  string := object

def count : Parameter := { name := ⟨"count", by decide⟩, type := int32 }

def method (returns : Ty) : Method where
  owner := object
  name := ⟨"Touch", by decide⟩
  parameters := [count]
  returns := returns
  flags := .helper

def code : Code :=
  [{ opcode := .ldcI4, operand := .int 7, labels := [⟨0⟩] }, { opcode := .stack .pop }, .ret]

def session : Session where
  code := code
  symbols := Session.registerCode code
    (Symbols.ofTypes [] (LabelSource.after (code.flatMap (·.allLabels))) {})
  method := method void
  core := core
  settings := {}

theorem startFresh_eq : Session.startFresh (method void) core [] code {} = .ok session := rfl

theorem reachable_session : session.Reachable := .start startFresh_eq

end Sample

/-- How code, labels and cursor fit together. -/
structure WellFormed (s : Session) : Prop where
  nonempty : s.code ≠ []
  cursor_lt : s.cursor < s.length
  validates : ∀ i ∈ s.code, i.validate = .ok ()
  /-- A label stands at one instruction only. -/
  separate : ∀ (p q : Nat) (i j : Instruction) (label : Label), s.code[p]? = some i →
    s.code[q]? = some j → label ∈ i.labels → label ∈ j.labels → p = q
  /-- The table answers for a label what its list says. -/
  listed : ∀ (label : Label) (entry : LabelEntry), s.symbols.label? label = some entry ↔
    entry ∈ s.symbols.labels ∧ entry.label = label
  registered : ∀ i ∈ s.code, ∀ label, label ∈ i.labels ∨ label ∈ i.targets →
    (s.symbols.label? label).isSome = true
  attached_iff : ∀ (label : Label) (entry : LabelEntry), s.symbols.label? label = some entry →
    (entry.attached = true ↔ (s.code.positionOf? label).isSome = true)

theorem Sound.isSome_label? (h : s.Sound) {label : Label}
    (hl : (∃ position, s.code.Stands label position) ∨ label ∈ s.code.targets) :
    (s.symbols.label? label).isSome = true := by
  have hknown : s.symbols.status label ≠ none := by
    cases hl with
    | inl hl => simp [(h.synced.attached_iff label).2 hl]
    | inr hl => exact h.synced.known label hl
  rw [Symbols.status, Ne, Option.map_eq_none_iff] at hknown
  exact Option.isSome_iff_ne_none.2 hknown

/-- Whatever commands were run, and whether they were refused or not, the session is well formed. -/
theorem wellFormed_of_reachable (h : s.Reachable) : s.WellFormed where
  nonempty := List.length_pos_iff.1 (Nat.zero_lt_of_lt h.sound.inside)
  cursor_lt := h.sound.inside
  validates i hi := Instruction.validate_eq_ok_iff.2 (h.sound.synced.valid i hi)
  separate p q i j label hi hj hl hl' :=
    h.sound.synced.separate label p q ⟨i, hi, hl⟩ ⟨j, hj, hl'⟩
  listed label entry := h.sound.synced.regular.label?_eq_some_iff
  registered i hi label hl := by
    refine h.sound.isSome_label? ?_
    cases hl with
    | inl hl =>
      obtain ⟨position, hp⟩ := List.mem_iff_getElem?.1 hi
      exact .inl ⟨position, i, hp, hl⟩
    | inr hl => exact .inr (List.mem_flatMap.2 ⟨i, hi, hl⟩)
  attached_iff label entry he := by
    have hstatus := h.sound.synced.attached_iff label
    rw [Symbols.status, he, ← Code.positionOf?_isSome_iff] at hstatus
    simpa using hstatus

theorem wellFormed_after_edits :
    (SessionCommand.runAll
      [.insertJump (Sample.method Sample.boolean) ⟨0⟩ true, .removeCurrent, .insertAfter .ret,
        .jumpNever] ⟨{}, Sample.session⟩).session.WellFormed :=
  wellFormed_of_reachable (Sample.reachable_session.runAll _ _)

end MethodEdit.Session
