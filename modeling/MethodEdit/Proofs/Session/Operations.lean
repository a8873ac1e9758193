import MethodEdit.Command.Session
import MethodEdit.Proofs.Session.Searching
import MethodEdit.Proofs.Session.Transaction

/-!
Every operation of a session lets it evolve, whether it is refused or not, and the injections are
all or nothing. An edit that is made at many places is one such edit.
-/
namespace MethodEdit

namespace Session

open Edit

variable {s s' : Session} {α : Type}

theorem clamp_lt (h : s.code ≠ []) (position : Nat) : s.clamp position < s.length := by
  have := List.length_pos_iff.2 h
  simp only [clamp, length]
  omega

theorem moves_moveTo (position : Nat) : Moves Edits (moveTo position) := by
  intro s
  refine edits_withCursor fun h => clamp_lt ?_ position
  exact List.length_pos_iff.1 (Nat.zero_lt_of_lt h)

theorem moves_moveBy (distance : Int) : Moves Edits (moveBy distance) :=
  .bind .get fun _ => moves_moveTo _

theorem seek_cases (holds : Session → Bool) (s : Session) :
    (∃ e, seek holds s = (.error e, s)) ∨
    ∃ position, position < s.length ∧ seek holds s = (.ok position, s.withCursor position) := by
  obtain ⟨found, ⟨⟨_, hin, _⟩, _⟩, he⟩ | ⟨_, he⟩ := seek_outcome holds s
  · exact .inr ⟨found, hin, he⟩
  · exact .inl ⟨_, he⟩

theorem rewind_cases (holds : Session → Bool) (s : Session) :
    (∃ e, rewind holds s = (.error e, s)) ∨
    ∃ position, position < s.cursor ∧ rewind holds s = (.ok position, s.withCursor position) := by
  obtain ⟨found, ⟨⟨hbefore, _⟩, _⟩, he⟩ | ⟨_, he⟩ := rewind_outcome holds s
  · exact .inr ⟨found, hbefore, he⟩
  · exact .inl ⟨_, he⟩

theorem moves_seek (holds : Session → Bool) : Moves Edits (seek holds) := by
  intro s
  obtain ⟨e, he⟩ | ⟨position, hp, he⟩ := seek_cases holds s
  · rw [he]
    exact refl_of Edits s
  · rw [he]
    exact edits_withCursor fun _ => hp

theorem moves_rewind (holds : Session → Bool) : Moves Edits (rewind holds) := by
  intro s
  obtain ⟨e, he⟩ | ⟨position, hp, he⟩ := rewind_cases holds s
  · rw [he]
    exact refl_of Edits s
  · rw [he]
    exact edits_withCursor fun hc => Nat.lt_trans hp hc

theorem seekChain_cases (toStart : Bool) (chain : List (Session → Bool)) (s : Session) :
    (∃ e, seekChain toStart chain s = (.error e, s)) ∨
    ∃ position, position < s.length ∧
      seekChain toStart chain s = (.ok position, s.withCursor position) := by
  cases chain with
  | nil => exact .inl ⟨.emptyPredicateChain, rfl⟩
  | cons first rest =>
    obtain ⟨anchor, ⟨hrun, _⟩, he⟩ | ⟨_, he⟩ := seekChain_outcome toStart first rest s
    · refine .inr ⟨_, ?_, he⟩
      have hwithin := hrun.within
      rw [List.length_cons] at hwithin
      split <;> omega
    · exact .inl ⟨_, he⟩

theorem moves_seekChain (toStart : Bool) (chain : List (Session → Bool)) :
    Moves Edits (seekChain toStart chain) := by
  intro s
  obtain ⟨e, he⟩ | ⟨position, hp, he⟩ := seekChain_cases toStart chain s
  · rw [he]
    exact refl_of Edits s
  · rw [he]
    exact edits_withCursor fun _ => hp

theorem moves_attachLabel (label : Label) : Moves Edits (attachLabel label) :=
  .bind .get fun _ => moves_attachLabelAt _ label

theorem moves_labelAt_of {R : Session → Session → Prop} [IsPreorder Session R] {position : Nat}
    (hcreate : Moves R (onSymbols Symbols.createLabel))
    (hname : ∀ label name, Moves R (onSymbols (Symbols.nameLabel label name)))
    (hattach : ∀ label, Moves R (attachLabelAt position label)) (name : Option String)
    (make : Bool) : Moves R (labelAt position name make) := by
  unfold labelAt
  refine .bind .get fun s => .bind (.lift _) fun i => ?_
  split
  · split
    · split
      · exact .pure _
      · exact .throw _
    · split
      · exact .throw _
      · refine .bind hcreate fun label => .bind (hname label _) fun _ => ?_
        exact .bind (hattach label) fun _ => .pure label
  · split
    · exact .pure _
    · split
      · exact .throw _
      · exact .bind hcreate fun label => .bind (hattach label) fun _ => .pure label

theorem moves_labelAt (position : Nat) (name : Option String) (make : Bool) :
    Moves Edits (labelAt position name make) :=
  moves_labelAt_of (moves_of_tableOnly (moves_onSymbols Symbols.moves_createLabel))
    (fun label name => moves_of_tableOnly (moves_onSymbols (Symbols.moves_nameLabel label name)))
    (moves_attachLabelAt position) name make

theorem moves_currentLabel (make : Bool) : Moves Edits (currentLabel make) :=
  .bind .get fun _ => moves_labelAt _ none make

theorem moves_targetLabel {R : Session → Session → Prop} [IsPreorder Session R] :
    Moves R targetLabel := by
  unfold targetLabel
  refine .bind .get fun s => ?_
  split
  · exact .pure _
  · exact .throw _

theorem slots_nameCurrentSlot (name : String) : Moves SlotsOnly (nameCurrentSlot name) := by
  unfold nameCurrentSlot
  refine .bind .get fun s => ?_
  split
  · exact slots_onSymbols (Symbols.reslots_nameSlot _ name)
  · exact .throw _

theorem slots_pickSlot (p : Parameter) (pick : Pick) : Moves SlotsOnly (pickSlot p pick) := by
  cases pick with
  | named name type => exact slots_onSymbols (Symbols.reslots_getOrCreateSlot _ _)
  | index index =>
    refine .bind .get fun s => ?_
    split
    · exact .pure _
    · exact .throw _
  | ofType type skipped => exact slots_onSymbols (Symbols.reslots_slotOfType _ _ _)
  | current =>
    refine .bind .get fun s => .bind (.lift _) fun i => ?_
    split
    · exact .pure _
    · exact .throw _

theorem slots_sourceFor (procedure : Method) (p : Parameter) :
    Moves SlotsOnly (sourceFor procedure p) := by
  unfold sourceFor
  refine .bind .get fun s => ?_
  split
  · refine .bind (.lift _) fun found => ?_
    split
    · exact .pure _
    · exact .throw _
  · exact .bind (slots_pickSlot p _) fun slot => .pure _
  · refine .bind (.lift _) fun found => ?_
    split
    · exact .pure _
    · exact .pure _
    · exact .throw _

theorem slots_bindParameter (procedure : Method) (p : Parameter) :
    Moves SlotsOnly (bindParameter procedure p) := by
  unfold bindParameter
  refine .bind (slots_sourceFor procedure p) fun source => ?_
  split
  · exact .pure _
  · exact .throw _

theorem slots_bindAll (procedure : Method) (formals : List Parameter) :
    Moves SlotsOnly (bindAll procedure formals) := by
  induction formals with
  | nil => exact .pure _
  | cons p rest ih =>
    exact .bind (slots_bindParameter procedure p) fun load => .bind ih fun loads => .pure _

theorem slots_resultSlot (procedure : Method) : Moves SlotsOnly (resultSlot procedure) := by
  unfold resultSlot
  refine .bind .get fun s => .bind (.lift _) fun found => ?_
  split
  · exact .pure _
  · exact .bind (slots_onSymbols (Symbols.reslots_getOrCreateSlot _ _)) fun slot => .pure _

theorem slots_bindWithResult (procedure : Method) (result : Option (Nat × Slot))
    (formals : List (Parameter × Nat)) :
    Moves SlotsOnly (bindWithResult procedure result formals) := by
  induction formals with
  | nil => exact .pure _
  | cons p rest ih =>
    have hrest (load : Instruction) : Moves SlotsOnly
        (do return load :: (← bindWithResult procedure result rest)) :=
      .bind ih fun loads => .pure _
    unfold bindWithResult
    split
    · split
      · exact .bind (.pure _) hrest
      · exact .bind (slots_bindParameter procedure _) hrest
    · exact .bind (slots_bindParameter procedure _) hrest

theorem moves_of_slotsOnly {op : Edit Session α} (h : Moves SlotsOnly op) : Moves Edits op :=
  h.mono fun _ _ hs => hs.tableOnly.edits

theorem moves_emitAll (before : Bool) (block : List Instruction) :
    Moves Edits (emitAll before block) := by
  induction block with
  | nil => exact .pure _
  | cons i rest ih =>
    refine .bind ?_ fun _ => ih
    cases before with
    | true => exact moves_insertBefore i
    | false => exact moves_insertAfter i

theorem whole_insertCall (procedure : Method) (before : Bool) :
    Whole (insertCall procedure before) := by
  refine .bind (moves_checkStatic procedure) fun _ => whole_transaction ?_
  refine .bind (.lift _) fun formals => ?_
  exact .bind (moves_of_slotsOnly (slots_bindAll procedure formals)) fun _ => moves_emitAll before _

theorem moves_resumeGuard_of {R : Session → Session → Prop} [IsPreorder Session R]
    (h : ∀ position, Moves R (labelAt position none true)) (conditional before : Bool) :
    Moves R (resumeGuard conditional before) := by
  unfold resumeGuard resumeLabel
  split
  · refine .bind (.bind .get fun s => ?_) fun label => .pure _
    split
    · exact .bind .get fun _ => h _
    · split
      · exact .throw _
      · exact h _
  · exact .pure _

theorem moves_resumeGuard (conditional before : Bool) :
    Moves Edits (resumeGuard conditional before) :=
  moves_resumeGuard_of (fun position => moves_labelAt position none true) conditional before

theorem whole_insertReturn (procedure : Method) (before : Bool) :
    Whole (insertReturn procedure before) := by
  unfold insertReturn
  refine .bind (moves_checkStatic procedure) fun _ => .bind .get fun s => ?_
  dsimp only
  split
  · exact .throw _
  · refine whole_transaction ?_
    refine .bind (moves_of_slotsOnly (slots_resultSlot procedure)) fun result => ?_
    refine .bind (moves_of_slotsOnly (slots_bindWithResult procedure result _)) fun loads => ?_
    exact .bind (moves_resumeGuard _ before) fun guard => moves_emitAll before _

theorem whole_insertJump (procedure : Method) (label : Label) (before : Bool) :
    Whole (insertJump procedure label before) := by
  unfold insertJump
  refine .bind (moves_checkStatic procedure) fun _ => .bind .get fun s => ?_
  dsimp only
  split
  · exact .throw _
  · split
    · exact .throw _
    · split
      · exact .throw _
      · refine whole_transaction ?_
        refine .bind (moves_of_slotsOnly (slots_bindAll procedure _)) fun loads => ?_
        exact moves_emitAll before _

theorem moves_emitAll_rewrite (procedure : Method) (loads : List Instruction) (position : Nat) :
    Moves Edits (do
      emitAll true loads
      if !loads.isEmpty then moveLabelsTo position
      rewrite .call (.method procedure)) := by
  refine .bind (moves_emitAll true loads) fun _ => ?_
  dsimp only
  split
  · exact .bind (moves_moveLabelsTo _) fun _ => moves_rewrite _ _
  · exact moves_rewrite _ _

theorem whole_replaceCall (procedure : Method) : Whole (replaceCall procedure) := by
  refine .bind (moves_checkStatic procedure) fun _ => whole_transaction ?_
  refine .bind .get fun s => .bind (.lift _) fun effect => .bind (.lift _) fun extra => ?_
  refine .bind (moves_of_slotsOnly (slots_bindAll procedure extra)) fun loads => ?_
  exact moves_emitAll_rewrite procedure loads s.cursor

theorem moves_nextConditionalBranch_of {R : Session → Session → Prop} [IsPreorder Session R]
    (h : ∀ holds, Moves R (seek holds)) : Moves R nextConditionalBranch := by
  have htail : Moves R (do
      let s ← get
      if !s.current.opcode.isConditionalBranch then
        throw (.unexpectedBranch s.cursor s.current.opcode)) := by
    refine .bind .get fun s => ?_
    split
    · exact .throw _
    · exact .pure _
  unfold nextConditionalBranch
  refine .bind .get fun s => ?_
  dsimp only
  split
  · exact .bind (h _) fun _ => htail
  · exact htail

theorem moves_nextConditionalBranch : Moves Edits nextConditionalBranch :=
  moves_nextConditionalBranch_of moves_seek

theorem whole_jumpAlways : Whole jumpAlways := by
  refine whole_transaction ?_
  refine .bind moves_nextConditionalBranch fun _ => .bind .get fun s => ?_
  exact .bind moves_targetLabel fun label => moves_insertAfter _

theorem whole_jumpNever : Whole jumpNever := by
  refine whole_transaction ?_
  refine .bind moves_nextConditionalBranch fun _ => .bind .get fun s => ?_
  dsimp only
  split
  · exact .throw _
  · exact .bind (moves_labelAt _ none true) fun label => moves_rewrite _ _

theorem whole_replaceInteger (value : Int64) : Whole (replaceInteger value) := by
  unfold replaceInteger
  refine .bind .get fun s => ?_
  dsimp only
  split
  · exact .throw _
  · exact whole_rewrite _ _

theorem whole_replaceFloat (value : Binary64) : Whole (replaceFloat value) := by
  unfold replaceFloat
  refine .bind .get fun s => ?_
  dsimp only
  split
  · exact .throw _
  · exact whole_rewrite _ _

/-- Between two matches the cursor moves on, and may leave the code. -/
theorem moves_editMatches {R : Session → Session → Prop} [IsPreorder Session R]
    (hcursor : ∀ s position, R s (s.withCursor position)) (stop : Option Nat)
    (holds : Session → Bool) {edit : Edit Session Unit} (h : Moves R edit) (left : Nat) :
    Moves R (editMatches stop holds edit left) := by
  induction left with
  | zero => exact .pure _
  | succ left ih =>
    have hrest (count : Nat) : Moves R (do
        modify fun s => s.withCursor (s.cursor + 1)
        let more ← editMatches stop holds edit left
        return count + more : Edit Session Nat) := by
      refine .bind (fun s => hcursor s _) fun _ => ?_
      exact .bind ih fun more => .pure _
    unfold editMatches
    refine .bind .get fun s => ?_
    dsimp only
    split
    · split
      · exact .bind h fun _ => hrest 1
      · exact hrest 0
    · exact .pure _

/-- But an edit is refused at an instruction. -/
theorem inside_of_editMatches_error {stop : Option Nat} {holds : Session → Bool}
    {edit : Edit Session Unit} (h : Moves Edits edit) {left : Nat} {e : EditError}
    (he : editMatches stop holds edit left s = (.error e, s')) : s'.cursor < s'.length := by
  induction left generalizing s with
  | zero => cases he
  | succ left ih =>
    have hrest {count : Nat} {t : Session} (ht : (do
        modify fun s => s.withCursor (s.cursor + 1)
        let more ← editMatches stop holds edit left
        return count + more : Edit Session Nat) t = (.error e, s')) : s'.cursor < s'.length := by
      simp only [run_bind, run_modify] at ht
      cases hm : editMatches stop holds edit left (t.withCursor (t.cursor + 1)) with
      | mk result u =>
        cases result with
        | error e' =>
          rw [hm] at ht
          cases ht
          exact ih hm
        | ok more =>
          rw [hm] at ht
          cases ht
    unfold editMatches at he
    simp only [run_bind, run_get] at he
    by_cases hc : s.cursor < min (stop.getD s.length) s.length
    · rw [if_pos hc] at he
      by_cases hh : holds s = true
      · simp only [hh, if_true, run_bind] at he
        have hs := (h s).inside (Nat.lt_of_lt_of_le hc (Nat.min_le_right _ _))
        cases hm : edit s with
        | mk result u =>
          rw [hm] at he hs
          cases result with
          | error e' =>
            cases he
            exact hs
          | ok _ => exact hrest he
      · simp only [hh] at he
        exact hrest he
    · rw [if_neg hc] at he
      cases he

theorem whole_editAll (start stop : Option Nat) (holds : Session → Bool)
    {edit : Edit Session Unit} (h : Moves Edits edit) :
    Whole (editAll start stop holds edit) := by
  refine whole_transaction fun s => ?_
  have hedit : Moves Evolves edit := fun s => (h s).toEvolves
  have hloop := moves_editMatches evolves_withCursor stop holds hedit (s.length - start.getD 0)
    (s.withCursor (start.getD 0))
  have hmoved := trans_of Evolves (evolves_withCursor s (start.getD 0)) hloop
  simp only [run_bind, run_get, run_set]
  cases hm : editMatches stop holds edit (s.length - start.getD 0)
      (s.withCursor (start.getD 0)) with
  | mk result after =>
    rw [hm] at hmoved
    cases result with
    | error e => exact ⟨hmoved, fun _ => inside_of_editMatches_error h hm⟩
    | ok count =>
      have hback := evolves_withCursor after (after.clamp s.cursor)
      refine ⟨trans_of Evolves hmoved hback, fun hc => clamp_lt (hmoved.nonempty ?_) _⟩
      exact List.length_pos_iff.1 (Nat.zero_lt_of_lt hc)

theorem whole_checked_editAll (procedure : Method) (holds : Session → Bool)
    {edit : Edit Session Unit} (h : Moves Edits edit) :
    Whole (do checkStatic procedure; editAll none none holds edit) :=
  .bind (moves_checkStatic procedure) fun _ => whole_editAll none none holds h

theorem whole_insertAfterAll (member : Member) (procedure : Method) :
    Whole (insertAfterAll member procedure) :=
  whole_checked_editAll procedure _ (whole_insertCall procedure false).moves

theorem whole_replaceAllCalls (member : Member) (procedure : Method) :
    Whole (replaceAllCalls member procedure) :=
  whole_checked_editAll procedure _ (whole_replaceCall procedure).moves

theorem whole_replaceAllIntegers (old new : Int64) (start stop : Option Nat) :
    Whole (replaceAllIntegers old new start stop) :=
  whole_editAll start stop _ (whole_replaceInteger new).moves

theorem whole_replaceAllFloats (old new : Binary64) (start stop : Option Nat) :
    Whole (replaceAllFloats old new start stop) :=
  whole_editAll start stop _ (whole_replaceFloat new).moves

theorem whole_replaceAllIntegersByCall (old : Int64) (procedure : Method) :
    Whole (replaceAllIntegersByCall old procedure) :=
  whole_checked_editAll procedure _ (whole_replaceCall procedure).moves

theorem whole_replaceAllFloatsByCall (old : Binary64) (procedure : Method) :
    Whole (replaceAllFloatsByCall old procedure) :=
  whole_checked_editAll procedure _ (whole_replaceCall procedure).moves

end Session

namespace Workbench

open Edit

/-- The session evolves; the description in which queries are resolved is another matter. -/
def Edits (w w' : Workbench) : Prop := w.session.Edits w'.session

instance : IsPreorder Workbench Edits where
  refl w := refl_of Session.Edits w.session
  trans _ _ _ h₁ h₂ := trans_of Session.Edits h₁ h₂

theorem moves_onSession {α : Type} {op : Edit Session α} (h : Moves Session.Edits op) :
    Moves Edits (onSession op) := fun w => h w.session

theorem session_choose (member : MemberChoice) (w : Workbench) :
    (choose member w).2.session = w.session := by
  cases member with
  | given member => rfl
  | query q =>
    simp only [choose, run_bind, run_get]
    cases (liftM (w.resolver.resolve q) : Except EditError _) with
    | error e => rfl
    | ok found => rfl
  | setterOf q =>
    simp only [choose, run_bind, run_get]
    cases (liftM (w.resolver.resolveSetter q) : Except EditError _) with
    | error e => rfl
    | ok found => rfl

theorem moves_choose (member : MemberChoice) : Moves Edits (choose member) := by
  intro w
  rw [Edits, session_choose]
  exact refl_of Session.Edits w.session

end Workbench

namespace SessionCommand

open Edit Session Workbench

theorem moves_find (direction : Direction) (holds : Session → Bool) :
    Moves Session.Edits (find direction holds) := by
  cases direction with
  | forward => exact moves_seek holds
  | backward => exact moves_rewind holds

theorem moves_done {op : Edit Session Unit} (h : Moves Session.Edits op) :
    Moves Workbench.Edits (done op) := .bind (moves_onSession h) fun _ => .pure _

theorem moves_number {op : Edit Session Nat} (h : Moves Session.Edits op) :
    Moves Workbench.Edits (number op) := .bind (moves_onSession h) fun _ => .pure _

theorem moves_label {op : Edit Session Label} (h : Moves Session.Edits op) :
    Moves Workbench.Edits (label op) := .bind (moves_onSession h) fun _ => .pure _

/-- Every command lets the session evolve, one case for each command. -/
theorem moves_run (command : SessionCommand) : Moves Workbench.Edits command.run := by
  cases command with
  | length | look | instructionAt | check | slotAt | unplacedLabels | positionOf | argumentIndex =>
    exact .bind .get fun _ => .pure _
  | moveTo position => exact moves_number (moves_moveTo position)
  | moveBy distance => exact moves_number (moves_moveBy distance)
  | moveToFirst =>
    exact moves_done fun s => edits_withCursor fun h => Nat.zero_lt_of_lt h
  | moveToLast =>
    exact moves_done fun s => edits_withCursor fun h => by omega
  | search direction holds => exact moves_number (moves_find direction holds)
  | searchMember direction member =>
    exact .bind (moves_choose member) fun _ => moves_number (moves_find direction _)
  | seekChain toStart chain => exact moves_number (moves_seekChain toStart chain)
  | checkMember member => exact .bind (moves_choose member) fun _ => .bind .get fun _ => .pure _
  | labelAt position name make => exact moves_label (moves_labelAt position name make)
  | currentLabel make => exact moves_label (moves_currentLabel make)
  | targetLabel => exact moves_label moves_targetLabel
  | attachLabel l => exact moves_done (moves_attachLabel l)
  | nameCurrentSlot name =>
    exact .bind (moves_onSession (moves_of_slotsOnly (slots_nameCurrentSlot name))) fun _ => .pure _
  | rewrite opcode operand => exact moves_done (moves_rewrite opcode operand)
  | insertBefore i => exact moves_done (moves_insertBefore i)
  | insertAfter i => exact moves_done (moves_insertAfter i)
  | removeCurrent => exact .bind (moves_onSession moves_removeCurrent) fun _ => .pure _
  | blankCurrent =>
    refine moves_done ?_
    rw [blankCurrent_eq_rewrite]
    exact moves_rewrite _ _
  | insertCall procedure before => exact moves_done (whole_insertCall procedure before).moves
  | insertReturn procedure before => exact moves_done (whole_insertReturn procedure before).moves
  | insertJump procedure l before => exact moves_done (whole_insertJump procedure l before).moves
  | replaceCall procedure => exact moves_done (whole_replaceCall procedure).moves
  | jumpAlways => exact moves_done whole_jumpAlways.moves
  | jumpNever => exact moves_done whole_jumpNever.moves
  | replaceInteger value => exact moves_done (whole_replaceInteger value).moves
  | replaceFloat value => exact moves_done (whole_replaceFloat value).moves
  | insertAfterAll member procedure =>
    refine .bind (moves_choose member) fun member => ?_
    exact moves_number (whole_insertAfterAll member procedure).moves
  | replaceAllCalls member procedure =>
    refine .bind (moves_choose member) fun member => ?_
    exact moves_number (whole_replaceAllCalls member procedure).moves
  | replaceAllIntegers old new start stop =>
    exact moves_number (whole_replaceAllIntegers old new start stop).moves
  | replaceAllFloats old new start stop =>
    exact moves_number (whole_replaceAllFloats old new start stop).moves
  | replaceAllIntegersByCall old procedure =>
    exact moves_number (whole_replaceAllIntegersByCall old procedure).moves
  | replaceAllFloatsByCall old procedure =>
    exact moves_number (whole_replaceAllFloatsByCall old procedure).moves
  | symbols command =>
    exact moves_onSession (moves_of_tableOnly (moves_onSymbols command.moves_run))

end SessionCommand

end MethodEdit
