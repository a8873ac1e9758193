import MethodEdit.Proofs.Injection.Block

/-!
No edit orphans a jump target. A label that stands at some instruction still does afterwards, and
the code comes to refer only to labels that it referred to before, that stand somewhere, or that the
caller brought along. So code that could be handed back stays so under all edits that make their own
labels.
-/
namespace MethodEdit

namespace Code

variable {code new : Code} {label : Label} {brought : List Label}

/-- Labels stay placed, and the new code refers to no others than the old code did, except for
labels that stand somewhere and those that were brought along. -/
structure Keeps (brought : List Label) (code new : Code) : Prop where
  placed : ∀ label, (∃ p, code.Stands label p) → ∃ q, new.Stands label q
  targets : ∀ label ∈ new.targets, label ∈ code.targets ∨ label ∈ brought ∨ ∃ q, new.Stands label q

namespace Keeps

theorem refl (code : Code) : Keeps brought code code where
  placed _ h := h
  targets _ h := .inl h

theorem trans {mid : Code} (h₁ : Keeps brought code mid) (h₂ : Keeps brought mid new) :
    Keeps brought code new where
  placed label h := h₂.placed label (h₁.placed label h)
  targets label h := by
    obtain hmid | hrest := h₂.targets label h
    · obtain hcode | hbrought | hplaced := h₁.targets label hmid
      · exact .inl hcode
      · exact .inr (.inl hbrought)
      · exact .inr (.inr (h₂.placed label hplaced))
    · exact .inr hrest

theorem trade {others : List Label} (h : Keeps others code new)
    (ho : ∀ label ∈ others,
      label ∈ brought ∨ label ∈ code.targets ∨ ∃ p, code.Stands label p) :
    Keeps brought code new where
  placed := h.placed
  targets label hl := by
    obtain hcode | hother | hplaced := h.targets label hl
    · exact .inl hcode
    · obtain hbrought | hcode | hplaced := ho label hother
      · exact .inr (.inl hbrought)
      · exact .inl hcode
      · exact .inr (.inr (h.placed label hplaced))
    · exact .inr (.inr hplaced)

theorem of_relabelled {φ : Nat → Nat} {fresh : List Label} {position : Nat} {more : Code}
    (hrel : Relabelled φ fresh position code new) (hdrawn : DrawnFrom code more new) :
    Keeps more.targets code new where
  placed _ h := hrel.placed_iff.2 (.inl h)
  targets _ h := (hdrawn.mem_targets h).imp_right .inl

theorem mem_unplacedLabels (h : Keeps brought code new) (hl : label ∈ new.unplacedLabels) :
    label ∈ code.unplacedLabels ∨ label ∈ brought ∧ new.positionOf? label = none := by
  obtain ⟨htarget, hnew⟩ := Code.mem_unplacedLabels.1 hl
  have hno : ¬∃ q, new.Stands label q := by
    rw [← positionOf?_isSome_iff, hnew]
    simp
  obtain hcode | hbrought | hplaced := h.targets label htarget
  · have hold : code.positionOf? label = none := by
      rw [← Option.not_isSome_iff_eq_none, positionOf?_isSome_iff]
      exact fun hp => hno (h.placed label hp)
    exact .inl (Code.mem_unplacedLabels.2 ⟨hcode, hold⟩)
  · exact .inr ⟨hbrought, hnew⟩
  · exact absurd hplaced hno

end Keeps

end Code

namespace Session

open Edit

variable {s s' : Session} {α : Type} {brought : List Label}

/-- No jump target of the session is orphaned. -/
def Keeps (brought : List Label) (s s' : Session) : Prop := Code.Keeps brought s.code s'.code

instance : IsPreorder Session (Keeps brought) where
  refl s := Code.Keeps.refl s.code
  trans _ _ _ h₁ h₂ := Code.Keeps.trans h₁ h₂

theorem finish_eq_ok_iff : (∃ result, s.finish = .ok result) ↔ s.code.unplacedLabels = [] := by
  unfold finish
  split
  · rename_i h
    simp [h]
  · rename_i h
    exact ⟨nofun, fun hnil => absurd hnil h⟩

theorem keeps_of_code {op : Edit Session α} (h : ∀ s, (op s).2.code = s.code) :
    Moves (Keeps brought) op := by
  intro s
  rw [Keeps, h s]
  exact .refl s.code

theorem keeps_of_tableOnly {op : Edit Session α} (h : Moves TableOnly op) :
    Moves (Keeps brought) op := by
  refine keeps_of_code fun s => ?_
  obtain ⟨symbols, _, heq⟩ := h s
  rw [heq]

theorem keeps_of_slotsOnly {op : Edit Session α} (h : Moves SlotsOnly op) :
    Moves (Keeps brought) op :=
  keeps_of_tableOnly (h.mono fun _ _ hs => hs.tableOnly)

theorem keeps_inserted {position : Nat} (i : Instruction) (hp : position ≤ s.length) :
    s.Keeps i.targets (s.inserted position i) := by
  have h := Code.Keeps.of_relabelled (Code.relabelled_splice_one hp i)
    (Code.drawnFrom_splice s.code position [i])
  rw [Code.targets, List.flatMap_singleton] at h
  exact h

theorem keeps_insertBefore (i : Instruction) : Moves (Keeps i.targets) (insertBefore i) := by
  intro s
  obtain ⟨e, h⟩ | ⟨hp, _, _, h⟩ := insertBefore_cases i s
  · rw [h]
    exact refl_of (Keeps _) s
  · rw [h]
    exact keeps_inserted i hp

theorem keeps_insertAfter (i : Instruction) : Moves (Keeps i.targets) (insertAfter i) := by
  intro s
  obtain ⟨e, h⟩ | ⟨hp, _, _, h⟩ := insertAfter_cases i s
  · rw [h]
    exact refl_of (Keeps _) s
  · rw [h]
    exact keeps_inserted i hp

theorem keeps_rewrite (opcode : Opcode) (operand : Operand) :
    Moves (Keeps operand.targets) (rewrite opcode operand) := by
  intro s
  obtain ⟨e, h⟩ | ⟨i, hi, _, h⟩ := rewrite_cases opcode operand s
  · rw [h]
    exact refl_of (Keeps _) s
  · have hk := Code.Keeps.of_relabelled
      (Code.relabelled_set hi (j := { i with opcode, operand }) rfl)
      (Code.drawnFrom_set s.code s.cursor _)
    rw [Code.targets, List.flatMap_singleton] at hk
    rw [h]
    exact hk

theorem keeps_attachLabelAt (position : Nat) (label : Label) :
    Moves (Keeps []) (attachLabelAt position label) := by
  intro s
  obtain ⟨e, h⟩ | ⟨code, _, ha, h⟩ := attachLabelAt_cases position label s
  · rw [h]
    exact refl_of (Keeps _) s
  · rw [h]
    exact .of_relabelled (Code.relabelled_attachLabel ha) (Code.drawnFrom_attachLabel ha)

theorem keeps_moveLabelsTo (position : Nat) : Moves (Keeps []) (moveLabelsTo position) := by
  intro s
  obtain ⟨e, h⟩ | ⟨code, hm, h⟩ := moveLabelsTo_cases position s
  · rw [h]
    exact refl_of (Keeps _) s
  · rw [h]
    exact .of_relabelled (Code.relabelled_moveLabels hm) (Code.drawnFrom_moveLabels hm)

theorem keeps_removeCurrent : Moves (Keeps []) removeCurrent := by
  intro s
  obtain ⟨e, h⟩ | ⟨removed, code, _, hr, h⟩ := removeCurrent_cases s
  · rw [h]
    exact refl_of (Keeps _) s
  · rw [h]
    exact .of_relabelled (Code.relabelled_removeAt hr) (Code.drawnFrom_removeAt hr)

theorem keeps_seek (holds : Session → Bool) : Moves (Keeps brought) (seek holds) := by
  refine keeps_of_code fun s => ?_
  obtain ⟨e, h⟩ | ⟨position, _, h⟩ := seek_cases holds s
  · rw [h]
  · rw [h]
    rfl

theorem keeps_rewind (holds : Session → Bool) : Moves (Keeps brought) (rewind holds) := by
  refine keeps_of_code fun s => ?_
  obtain ⟨e, h⟩ | ⟨position, _, h⟩ := rewind_cases holds s
  · rw [h]
  · rw [h]
    rfl

theorem keeps_seekChain (toStart : Bool) (chain : List (Session → Bool)) :
    Moves (Keeps brought) (seekChain toStart chain) := by
  refine keeps_of_code fun s => ?_
  obtain ⟨e, h⟩ | ⟨position, _, h⟩ := seekChain_cases toStart chain s
  · rw [h]
  · rw [h]
    rfl

theorem keeps_labelAt (position : Nat) (name : Option String) (make : Bool) :
    Moves (Keeps []) (labelAt position name make) :=
  moves_labelAt_of (keeps_of_tableOnly (moves_onSymbols Symbols.moves_createLabel))
    (fun label name => keeps_of_tableOnly (moves_onSymbols (Symbols.moves_nameLabel label name)))
    (keeps_attachLabelAt position) name make

theorem labelAt_stands (position : Nat) (s : Session) :
    Yields (labelAt position none true) s fun label t => ∃ q, t.code.Stands label q := by
  refine .get (.lift fun i hi => ?_)
  dsimp only
  split
  · rename_i label rest hl
    exact .pure ⟨position, i, Code.at?_eq_ok_iff.1 hi, by simp [hl]⟩
  · refine .bind .trivial fun label t _ => ?_
    have hattach : Yields (attachLabelAt position label) t fun _ u =>
        ∃ q, u.code.Stands label q := by
      obtain ⟨e, h⟩ | ⟨code, _, ha, h⟩ := attachLabelAt_cases position label t
      · exact .of_error h
      · have hstands := (Code.relabelled_attachLabel ha label position).2 (.inr ⟨by simp, rfl⟩)
        exact .of_ok h ⟨position, hstands⟩
    exact .bind hattach fun _ u hu => .pure hu

theorem targetLabel_yields (s : Session) :
    Yields targetLabel s fun label t => t = s ∧ label ∈ s.code.targets := by
  refine .get ?_
  split
  · rename_i label ho
    refine .pure ⟨rfl, ?_⟩
    unfold current at ho
    cases hi : s.code[s.cursor]? with
    | none =>
      rw [List.getD_eq_getElem?_getD, hi] at ho
      cases ho
    | some i =>
      rw [List.getD_eq_getElem?_getD, hi, Option.getD_some] at ho
      have hl : label ∈ i.targets := by simp [Instruction.targets, ho, Operand.targets]
      exact List.mem_flatMap.2 ⟨i, List.mem_of_getElem? hi, hl⟩
  · exact .throw _

theorem keeps_emitAll (before : Bool) (block : Code)
    (h : ∀ i ∈ block, ∀ label ∈ i.targets, label ∈ brought) :
    Moves (Keeps brought) (emitAll before block) := by
  induction block with
  | nil => exact .pure _
  | cons i rest ih =>
    obtain ⟨hi, hrest⟩ := List.forall_mem_cons.1 h
    have hone : Moves (Keeps i.targets) (emit before i) := by
      cases before with
      | true => exact keeps_insertBefore i
      | false => exact keeps_insertAfter i
    exact .bind (fun s => (hone s).trade fun label hl => .inl (hi label hl)) fun _ => ih hrest

theorem keeps_transaction {edit : Edit Session α} (h : Moves (Keeps brought) edit) :
    Moves (Keeps brought) (transaction edit) := by
  intro s
  cases hs : s.editing with
  | true =>
    rw [transaction_within edit hs]
    exact h s
  | false =>
    have he := h { s with editing := true }
    obtain ⟨e, after, hm, ht⟩ | ⟨a, after, hm, ht⟩ := transaction_cases edit hs
    · rw [ht]
      exact Code.Keeps.refl s.code
    · rw [hm] at he
      rw [ht]
      exact he

theorem keeps_bindAll (procedure : Method) (formals : List Parameter)
    {next : List Instruction → Edit Session α}
    (hn : ∀ loads, (∀ i ∈ loads, i.targets = []) → Moves (Keeps brought) (next loads)) :
    Moves (Keeps brought) (bindAll procedure formals >>= next) := by
  refine .bind_yields (keeps_of_slotsOnly (slots_bindAll procedure formals))
    (bindAll_bound procedure formals) fun _ loads t hb => hn loads (fun i hi => ?_) t
  exact (List.append_eq_nil_iff.1 (allLabels_of_bound hb i hi)).2

theorem keeps_insertCall (procedure : Method) (before : Bool) :
    Moves (Keeps []) (insertCall procedure before) := by
  refine .bind (moves_checkStatic procedure) fun _ => keeps_transaction ?_
  refine .bind (.lift _) fun formals => keeps_bindAll procedure formals fun loads hl => ?_
  refine keeps_emitAll before _ fun i hi label hlabel => ?_
  obtain hi | hi := List.mem_append.1 hi
  · rw [hl i hi] at hlabel
    exact hlabel
  · rw [List.mem_singleton.1 hi] at hlabel
    exact hlabel

theorem keeps_insertJump (procedure : Method) (label : Label) (before : Bool) :
    Moves (Keeps [label]) (insertJump procedure label before) := by
  unfold insertJump
  refine .bind (moves_checkStatic procedure) fun _ => .bind .get fun s => ?_
  dsimp only
  split
  · exact .throw _
  · split
    · exact .throw _
    · split
      · exact .throw _
      · refine keeps_transaction (keeps_bindAll procedure _ fun loads hl => ?_)
        refine keeps_emitAll before _ fun i hi other hother => ?_
        simp only [List.mem_append, List.mem_cons, List.not_mem_nil, or_false] at hi
        obtain hi | rfl | rfl := hi
        · rw [hl i hi] at hother
          cases hother
        · cases hother
        · exact hother

theorem keeps_replaceCall (procedure : Method) : Moves (Keeps []) (replaceCall procedure) := by
  refine .bind (moves_checkStatic procedure) fun _ => keeps_transaction ?_
  refine .bind .get fun s => .bind (.lift _) fun effect => .bind (.lift _) fun extra => ?_
  refine keeps_bindAll procedure extra fun loads hl => ?_
  refine .bind (keeps_emitAll true loads fun i hi label hlabel => ?_) fun _ => ?_
  · rw [hl i hi] at hlabel
    exact hlabel
  · dsimp only
    split
    · exact .bind (keeps_moveLabelsTo _) fun _ => keeps_rewrite .call (.method procedure)
    · exact keeps_rewrite .call (.method procedure)

theorem resumeGuard_stands (conditional before : Bool) (s : Session) :
    Yields (resumeGuard conditional before) s fun guard t =>
      ∀ i ∈ guard, ∀ label ∈ i.targets, ∃ q, t.code.Stands label q := by
  have hlabel : Yields (resumeLabel before) s fun label t => ∃ q, t.code.Stands label q := by
    refine .get ?_
    split
    · exact labelAt_stands s.cursor s
    · split
      · exact .throw _
      · exact labelAt_stands (s.cursor + 1) s
  unfold resumeGuard
  split
  · refine .bind hlabel fun label t ht => .pure fun i hi other hother => ?_
    rw [List.mem_singleton.1 hi] at hother
    rw [List.mem_singleton.1 hother]
    exact ht
  · exact .pure (by simp)

theorem keeps_resumeGuard (conditional before : Bool) :
    Moves (Keeps []) (resumeGuard conditional before) :=
  moves_resumeGuard_of (fun position => keeps_labelAt position none true) conditional before

theorem keeps_insertReturn (procedure : Method) (before : Bool) :
    Moves (Keeps []) (insertReturn procedure before) := by
  unfold insertReturn
  refine .bind (moves_checkStatic procedure) fun _ => .bind .get fun s => ?_
  dsimp only
  split
  · exact .throw _
  · refine keeps_transaction ?_
    refine .bind (keeps_of_slotsOnly (slots_resultSlot procedure)) fun result => ?_
    refine .bind_yields (keeps_of_slotsOnly (slots_bindWithResult procedure result _))
      (bindWithResult_unlabelled procedure result _) fun _ loads t hl => ?_
    refine Moves.bind_yields (keeps_resumeGuard _ before) (resumeGuard_stands _ before)
      (fun _ guard u hguard => ?_) t
    have hbrought : ∀ i ∈ returnBlock procedure result loads guard, ∀ label ∈ i.targets,
        label ∈ Code.targets guard := by
      intro i hi label hlabel
      obtain hi | hi := mem_guard_of_mem_returnBlock hl hi
      · exact List.mem_flatMap.2 ⟨i, hi, hlabel⟩
      · rw [(List.append_eq_nil_iff.1 hi).2] at hlabel
        cases hlabel
    refine (keeps_emitAll before _ hbrought u).trade fun label hlabel => ?_
    obtain ⟨i, hi, hlabel⟩ := List.mem_flatMap.1 hlabel
    exact .inr (.inr (hguard i hi label hlabel))

theorem keeps_nextConditionalBranch : Moves (Keeps brought) nextConditionalBranch :=
  moves_nextConditionalBranch_of keeps_seek

theorem keeps_jumpAlways : Moves (Keeps []) jumpAlways := by
  refine keeps_transaction ?_
  refine .bind keeps_nextConditionalBranch fun _ => .bind .get fun s => ?_
  refine .bind_yields moves_targetLabel targetLabel_yields fun u label t ht => ?_
  obtain ⟨rfl, htarget⟩ := ht
  refine (keeps_insertAfter _ t).trade fun other hother => ?_
  rw [List.mem_singleton.1 hother]
  exact .inr (.inl htarget)

theorem keeps_jumpNever : Moves (Keeps []) jumpNever := by
  refine keeps_transaction ?_
  refine .bind keeps_nextConditionalBranch fun _ => .bind .get fun s => ?_
  dsimp only
  split
  · exact .throw _
  · refine .bind_yields (keeps_labelAt _ none true) (labelAt_stands _) fun _ label t hstands => ?_
    refine (keeps_rewrite _ _ t).trade fun other hother => ?_
    rw [List.mem_singleton.1 hother]
    exact .inr (.inr hstands)

theorem keeps_replaceInteger (value : Int64) : Moves (Keeps []) (replaceInteger value) := by
  unfold replaceInteger
  refine .bind .get fun s => ?_
  dsimp only
  split
  · exact .throw _
  · exact keeps_rewrite _ (.int value)

theorem keeps_replaceFloat (value : Binary64) : Moves (Keeps []) (replaceFloat value) := by
  unfold replaceFloat
  refine .bind .get fun s => ?_
  dsimp only
  split
  · exact .throw _
  · exact keeps_rewrite _ (.float value)

theorem keeps_editAll (start stop : Option Nat) (holds : Session → Bool)
    {edit : Edit Session Unit} (h : Moves (Keeps brought) edit) :
    Moves (Keeps brought) (editAll start stop holds edit) := by
  refine keeps_transaction fun s => ?_
  have hloop : s.Keeps brought _ :=
    moves_editMatches (fun s _ => Code.Keeps.refl s.code) stop holds h (s.length - start.getD 0)
      (s.withCursor (start.getD 0))
  simp only [run_bind, run_get, run_set]
  cases hm : editMatches stop holds edit (s.length - start.getD 0)
      (s.withCursor (start.getD 0)) with
  | mk result after =>
    rw [hm] at hloop
    cases result with
    | error e => exact hloop
    | ok count => exact hloop

theorem keeps_checked_editAll (procedure : Method) (holds : Session → Bool)
    {edit : Edit Session Unit} (h : Moves (Keeps brought) edit) :
    Moves (Keeps brought) (do checkStatic procedure; editAll none none holds edit) :=
  .bind (moves_checkStatic procedure) fun _ => keeps_editAll none none holds h

end Session

namespace Workbench

open Edit

variable {α : Type} {brought : List Label}

def Keeps (brought : List Label) (w w' : Workbench) : Prop := w.session.Keeps brought w'.session

instance : IsPreorder Workbench (Keeps brought) where
  refl w := refl_of (Session.Keeps brought) w.session
  trans _ _ _ h₁ h₂ := trans_of (Session.Keeps brought) h₁ h₂

theorem keeps_answer {op : Edit Session α} (h : Moves (Session.Keeps brought) op)
    (answer : α → Answer) :
    Moves (Keeps brought) (onSession op >>= fun a => pure (answer a)) :=
  .bind (fun w => h w.session) fun _ => .pure _

theorem keeps_choose {next : Member → Edit Workbench α} (choice : MemberChoice)
    (hn : ∀ member, Moves (Keeps brought) (next member)) :
    Moves (Keeps brought) (choose choice >>= next) := by
  refine .bind (fun w => ?_) hn
  rw [Keeps, session_choose]
  exact refl_of (Session.Keeps brought) w.session

end Workbench

namespace SessionCommand

open Edit Session Workbench

/-- The labels that the caller refers to in a command: in the operand of an instruction, or as the
goal of a jump. -/
def brought : SessionCommand → List Label
  | rewrite _ operand => operand.targets
  | insertBefore i | insertAfter i => i.targets
  | insertJump _ label _ => [label]
  | _ => []

theorem keeps_find {labels : List Label} (direction : Direction) (holds : Session → Bool) :
    Moves (Session.Keeps labels) (find direction holds) := by
  cases direction with
  | forward => exact keeps_seek holds
  | backward => exact keeps_rewind holds

/-- No command orphans a jump target, one case for each command. -/
theorem keeps_run (command : SessionCommand) :
    Moves (Workbench.Keeps command.brought) command.run := by
  cases command with
  | length | look | instructionAt | check | slotAt | unplacedLabels | positionOf | argumentIndex =>
    exact .bind .get fun _ => .pure _
  | moveTo | moveBy | moveToFirst | moveToLast => exact keeps_answer (keeps_of_code fun _ => rfl) _
  | search direction holds => exact keeps_answer (keeps_find direction holds) _
  | searchMember direction member =>
    exact keeps_choose member fun _ => keeps_answer (keeps_find direction _) _
  | seekChain toStart chain => exact keeps_answer (keeps_seekChain toStart chain) _
  | checkMember member => exact keeps_choose member fun _ => .bind .get fun _ => .pure _
  | labelAt position name make => exact keeps_answer (keeps_labelAt position name make) _
  | currentLabel make => exact keeps_answer (.bind .get fun _ => keeps_labelAt _ none make) _
  | targetLabel => exact keeps_answer moves_targetLabel _
  | attachLabel l => exact keeps_answer (.bind .get fun _ => keeps_attachLabelAt _ l) _
  | nameCurrentSlot name => exact keeps_answer (keeps_of_slotsOnly (slots_nameCurrentSlot name)) _
  | rewrite opcode operand => exact keeps_answer (keeps_rewrite opcode operand) _
  | insertBefore i => exact keeps_answer (keeps_insertBefore i) _
  | insertAfter i => exact keeps_answer (keeps_insertAfter i) _
  | removeCurrent => exact keeps_answer keeps_removeCurrent _
  | blankCurrent =>
    refine keeps_answer ?_ _
    rw [blankCurrent_eq_rewrite]
    exact keeps_rewrite .nop .none
  | insertCall procedure before => exact keeps_answer (keeps_insertCall procedure before) _
  | insertReturn procedure before => exact keeps_answer (keeps_insertReturn procedure before) _
  | insertJump procedure l before => exact keeps_answer (keeps_insertJump procedure l before) _
  | replaceCall procedure => exact keeps_answer (keeps_replaceCall procedure) _
  | jumpAlways => exact keeps_answer keeps_jumpAlways _
  | jumpNever => exact keeps_answer keeps_jumpNever _
  | replaceInteger value => exact keeps_answer (keeps_replaceInteger value) _
  | replaceFloat value => exact keeps_answer (keeps_replaceFloat value) _
  | insertAfterAll member procedure =>
    refine keeps_choose member fun _ => keeps_answer ?_ _
    exact keeps_checked_editAll procedure _ (keeps_insertCall procedure false)
  | replaceAllCalls member procedure =>
    refine keeps_choose member fun _ => keeps_answer ?_ _
    exact keeps_checked_editAll procedure _ (keeps_replaceCall procedure)
  | replaceAllIntegers old new start stop =>
    exact keeps_answer (keeps_editAll start stop _ (keeps_replaceInteger new)) _
  | replaceAllFloats old new start stop =>
    exact keeps_answer (keeps_editAll start stop _ (keeps_replaceFloat new)) _
  | replaceAllIntegersByCall old procedure =>
    exact keeps_answer (keeps_checked_editAll procedure _ (keeps_replaceCall procedure)) _
  | replaceAllFloatsByCall old procedure =>
    exact keeps_answer (keeps_checked_editAll procedure _ (keeps_replaceCall procedure)) _
  | symbols command =>
    exact fun w => keeps_of_tableOnly (moves_onSymbols command.moves_run) w.session

theorem keeps_runAll {commands : List SessionCommand} {brought : List Label}
    (h : ∀ command ∈ commands, ∀ label ∈ command.brought, label ∈ brought) (w : Workbench) :
    w.Keeps brought (runAll commands w) := by
  induction commands generalizing w with
  | nil => exact refl_of (Workbench.Keeps brought) w
  | cons command rest ih =>
    obtain ⟨hfirst, hrest⟩ := List.forall_mem_cons.1 h
    have hstep : w.Keeps brought (command.run w).2 :=
      (command.keeps_run w).trade fun label hl => .inl (hfirst label hl)
    exact trans_of (Workbench.Keeps brought) hstep (ih hrest _)

end SessionCommand

namespace Session

/-- No command orphans a jump target, whether it is refused or not. Labels that stand somewhere stay
placed, and a label without a place had none before, or the caller brought it along and it stands
nowhere. So if the code can be handed back, it can be after any history of commands that bring no
labels along. -/
theorem jump_targets_stay_placed (s : Session) :
    (∀ (resolver : Resolver) (command : SessionCommand) (label : Label),
      (s.code.positionOf? label).isSome = true →
        ((command.run ⟨resolver, s⟩).2.session.code.positionOf? label).isSome = true) ∧
    (∀ (resolver : Resolver) (command : SessionCommand) (label : Label),
      label ∈ (command.run ⟨resolver, s⟩).2.session.code.unplacedLabels →
        label ∈ s.code.unplacedLabels ∨ label ∈ command.brought ∧
          (command.run ⟨resolver, s⟩).2.session.code.positionOf? label = none) ∧
    ∀ (resolver : Resolver) (commands : List SessionCommand),
      (∀ command ∈ commands, command.brought = []) → (∃ result, s.finish = .ok result) →
        ∃ result, (SessionCommand.runAll commands ⟨resolver, s⟩).session.finish = .ok result := by
  refine ⟨fun resolver command label hp => ?_, fun resolver command label hl => ?_,
    fun resolver commands hc hf => ?_⟩
  · have hkeeps := command.keeps_run ⟨resolver, s⟩
    exact Code.positionOf?_isSome_iff.2 (hkeeps.placed label (Code.positionOf?_isSome_iff.1 hp))
  · exact (command.keeps_run ⟨resolver, s⟩).mem_unplacedLabels hl
  · have hnone : ∀ command ∈ commands, ∀ label ∈ command.brought, label ∈ [] := by
      intro command hm label hl
      rw [hc command hm] at hl
      exact hl
    have hkeeps := SessionCommand.keeps_runAll hnone ⟨resolver, s⟩
    have hbefore := finish_eq_ok_iff.1 hf
    refine finish_eq_ok_iff.2 (List.eq_nil_iff_forall_not_mem.2 fun label hl => ?_)
    obtain hold | ⟨hbrought, _⟩ := hkeeps.mem_unplacedLabels hl
    · rw [hbefore] at hold
      cases hold
    · cases hbrought

theorem jump_targets_stay_placed_in_sample :
    ((SessionCommand.removeCurrent.run ⟨{}, Sample.session⟩).2.session.code.positionOf?
      ⟨0⟩).isSome = true ∧
    ∃ result, (SessionCommand.runAll
      [.insertReturn (Sample.method Sample.boolean) false, .moveTo 5, .removeCurrent, .moveTo 3,
        .jumpAlways, .jumpNever] ⟨{}, Sample.session⟩).session.finish = .ok result := by
  obtain ⟨hplaced, _, hfinish⟩ := jump_targets_stay_placed Sample.session
  refine ⟨hplaced {} .removeCurrent ⟨0⟩ rfl, hfinish {} _ ?_ ⟨_, rfl⟩⟩
  intro command hc
  simp only [List.mem_cons, List.not_mem_nil, or_false] at hc
  obtain rfl | rfl | rfl | rfl | rfl | rfl := hc
  all_goals rfl

end Session

end MethodEdit
