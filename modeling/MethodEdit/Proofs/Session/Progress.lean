import MethodEdit.Proofs.Session.JumpTargets
import MethodEdit.Proofs.Session.Steps

/-!
Every operation is made up of the elementary steps, whether it is refused or not, and so is every
history of commands.
-/
namespace MethodEdit

namespace Session

open Edit

variable {s s' : Session} {α : Type} {given : List Instruction} {asks : Bool} {i : Instruction}

def Proceeds (given : List Instruction) (asks : Bool) (s s' : Session) : Prop :=
  Synced s.code s.symbols → Leads given asks s s'

instance : IsPreorder Session (Proceeds given asks) where
  refl s _ := .refl s
  trans _ _ _ h₁ h₂ hs := (h₁ hs).trans (h₂ ((h₁ hs).synced hs))

theorem Leads.proceeds (h : Leads given asks s s') : Proceeds given asks s s' := fun _ => h

theorem proceeds_of_slotsOnly {op : Edit Session α} (h : Moves SlotsOnly op) :
    Moves (Proceeds given asks) op := by
  intro s
  obtain ⟨symbols, hr, heq⟩ := h s
  rw [heq]
  exact (Leads.reslotted hr).proceeds

theorem proceeds_withCursor (s : Session) (position : Nat) :
    Proceeds given asks s (s.withCursor position) := (Leads.moved s position).proceeds

theorem moves_withCursor (position : Session → Nat) :
    Moves (Proceeds given asks) (modify fun s => s.withCursor (position s)) :=
  fun s => proceeds_withCursor s _

theorem proceeds_moveTo (position : Nat) : Moves (Proceeds given asks) (moveTo position) :=
  fun s => proceeds_withCursor s _

theorem proceeds_seek (holds : Session → Bool) : Moves (Proceeds given asks) (seek holds) := by
  intro s
  obtain ⟨e, h⟩ | ⟨position, _, h⟩ := seek_cases holds s
  · rw [h]
    exact refl_of (Proceeds given asks) s
  · rw [h]
    exact proceeds_withCursor s position

theorem proceeds_rewind (holds : Session → Bool) :
    Moves (Proceeds given asks) (rewind holds) := by
  intro s
  obtain ⟨e, h⟩ | ⟨position, _, h⟩ := rewind_cases holds s
  · rw [h]
    exact refl_of (Proceeds given asks) s
  · rw [h]
    exact proceeds_withCursor s position

theorem proceeds_seekChain (toStart : Bool) (chain : List (Session → Bool)) :
    Moves (Proceeds given asks) (seekChain toStart chain) := by
  intro s
  obtain ⟨e, h⟩ | ⟨position, _, h⟩ := seekChain_cases toStart chain s
  · rw [h]
    exact refl_of (Proceeds given asks) s
  · rw [h]
    exact proceeds_withCursor s position

theorem proceeds_createLabel : Moves (Proceeds given true) (onSymbols Symbols.createLabel) := by
  intro s
  obtain ⟨hknown, h⟩ | ⟨hnew, h⟩ := onSymbols_createLabel_cases s
  · rw [h]
    exact (Leads.refused rfl hknown).proceeds
  · rw [h]
    exact (Leads.created rfl hnew).proceeds

theorem proceeds_nameLabel (label : Label) (name : String) :
    Moves (Proceeds given asks) (onSymbols (Symbols.nameLabel label name)) := by
  intro s
  unfold onSymbols
  obtain ⟨e, h⟩ | ⟨_, h⟩ := Symbols.nameLabel_cases label name s.symbols
  · rw [h]
    exact refl_of (Proceeds given asks) s
  · rw [h]
    exact (Leads.renamed s label name).proceeds

theorem proceeds_onSymbols_pure (a : α) :
    Moves (Proceeds given asks) (onSymbols (pure a)) := fun s => refl_of (Proceeds given asks) s

theorem proceeds_getOrCreateLabel (name : Option String) :
    Moves (Proceeds given true) (onSymbols (Symbols.getOrCreateLabel name)) := by
  unfold Symbols.getOrCreateLabel
  rw [onSymbols_bind]
  refine .bind (fun s => refl_of (Proceeds given true) s) fun t => ?_
  split
  · exact proceeds_onSymbols_pure _
  · rw [onSymbols_bind]
    refine .bind proceeds_createLabel fun label => ?_
    split
    · rw [onSymbols_bind]
      exact .bind (proceeds_nameLabel label _) fun _ => proceeds_onSymbols_pure _
    · exact proceeds_onSymbols_pure _

theorem proceeds_attachLabelAt (position : Nat) (label : Label) :
    Moves (Proceeds given asks) (attachLabelAt position label) := by
  intro s
  obtain ⟨e, h⟩ | ⟨code, hl, hc, h⟩ := attachLabelAt_cases position label s
  · rw [h]
    exact refl_of (Proceeds given asks) s
  · rw [h]
    exact (Leads.attached hl hc).proceeds

theorem proceeds_labelAt (position : Nat) (name : Option String) (make : Bool) :
    Moves (Proceeds given true) (labelAt position name make) :=
  moves_labelAt_of proceeds_createLabel proceeds_nameLabel (proceeds_attachLabelAt position) name
    make

theorem proceeds_insertBefore (h : s.Admits given i) :
    Proceeds given asks s (insertBefore i s).2 := by
  obtain ⟨e, he⟩ | ⟨hp, hv, hl, he⟩ := insertBefore_cases i s
  · rw [he]
    exact refl_of (Proceeds given asks) s
  · rw [he]
    exact (Leads.inserted hp hv hl h).proceeds

theorem proceeds_insertAfter (h : s.Admits given i) :
    Proceeds given asks s (insertAfter i s).2 := by
  obtain ⟨e, he⟩ | ⟨hp, hv, hl, he⟩ := insertAfter_cases i s
  · rw [he]
    exact refl_of (Proceeds given asks) s
  · rw [he]
    exact (Leads.inserted hp hv hl h).proceeds

theorem proceeds_rewrite {opcode : Opcode} {operand : Operand}
    (h : s.Admits given { opcode, operand }) :
    Proceeds given asks s (rewrite opcode operand s).2 := by
  obtain ⟨e, he⟩ | ⟨i, hi, hv, he⟩ := rewrite_cases opcode operand s
  · rw [he]
    exact refl_of (Proceeds given asks) s
  · rw [he]
    exact (Leads.rewritten hi hv h).proceeds

theorem proceeds_removeCurrent : Moves (Proceeds given asks) removeCurrent := by
  intro s
  obtain ⟨e, h⟩ | ⟨removed, code, _, hc, h⟩ := removeCurrent_cases s
  · rw [h]
    exact refl_of (Proceeds given asks) s
  · rw [h]
    exact (Leads.removed hc).proceeds

theorem proceeds_moveLabelsTo (position : Nat) :
    Moves (Proceeds given asks) (moveLabelsTo position) := by
  intro s
  obtain ⟨e, h⟩ | ⟨code, hc, h⟩ := moveLabelsTo_cases position s
  · rw [h]
    exact refl_of (Proceeds given asks) s
  · rw [h]
    exact (Leads.handedOver hc).proceeds

theorem proceeds_transaction_of {edit : Edit Session α}
    (h : ∀ editing, Proceeds given asks { s with editing } (edit { s with editing }).2) :
    Proceeds given asks s (transaction edit s).2 := by
  intro hs
  cases hediting : s.editing with
  | true =>
    -- the outer edit will take everything back
    rw [transaction_within edit hediting]
    exact h s.editing hs
  | false =>
    have he : Leads given asks { s with editing := true } _ := h true hs
    obtain ⟨e, after, hm, ht⟩ | ⟨a, after, hm, ht⟩ := transaction_cases edit hediting
    · rw [hm] at he
      rw [ht]
      exact he.takenBack
    · rw [hm] at he
      rw [ht]
      exact ((Leads.flagged s true).trans he).trans (.flagged after false)

theorem proceeds_transaction {edit : Edit Session α} (h : Moves (Proceeds given asks) edit) :
    Moves (Proceeds given asks) (transaction edit) :=
  fun _ => proceeds_transaction_of fun _ => h _

theorem proceeds_emitAll (before : Bool) {block : Code} (h : ∀ i ∈ block, s.Admits given i) :
    Proceeds given asks s (emitAll before block s).2 := by
  intro hs
  induction block generalizing s with
  | nil => exact .refl s
  | cons i rest ih =>
    obtain ⟨hi, hrest⟩ := List.forall_mem_cons.1 h
    have hone : Leads given asks s (emit before i s).2 := by
      cases before with
      | true => exact proceeds_insertBefore hi hs
      | false => exact proceeds_insertAfter hi hs
    refine rel_bind hone fun _ t ht => ?_
    rw [ht] at hone
    exact ih (fun j hj => (hrest j hj).mono hone hs) (hone.synced hs)

theorem proceeds_insertCall (procedure : Method) (before : Bool) :
    Moves (Proceeds given asks) (insertCall procedure before) := by
  refine .bind (moves_checkStatic procedure) fun _ => proceeds_transaction ?_
  refine .bind (.lift _) fun formals => ?_
  refine .bind_yields (proceeds_of_slotsOnly (slots_bindAll procedure formals))
    (bindAll_bound procedure formals) fun _ loads t hb => proceeds_emitAll before fun i hi => ?_
  refine .of_allLabels ?_
  obtain hi | hi := List.mem_append.1 hi
  · exact allLabels_of_bound hb i hi
  · rw [List.mem_singleton.1 hi]
    rfl

/-- The jump goes to a label that is known before, and therefore also once the loads are bound. -/
theorem proceeds_insertJump (procedure : Method) (label : Label) (before : Bool) :
    Moves (Proceeds given asks) (insertJump procedure label before) := by
  have hedit (t : Session) (hl : t.symbols.status label ≠ none) : Proceeds given asks t ((do
      let loads ← bindAll procedure procedure.parameters
      emitAll before (loads ++ [.call procedure, .jumpIfTrue label]) : Edit Session Unit) t).2 := by
    intro ht
    have hbind : Leads given asks t _ :=
      proceeds_of_slotsOnly (slots_bindAll procedure procedure.parameters) t ht
    refine rel_bind hbind fun loads u hu => ?_
    rw [hu] at hbind
    refine proceeds_emitAll before (fun i hi => ?_) (hbind.synced ht)
    simp only [List.mem_append, List.mem_cons, List.not_mem_nil, or_false] at hi
    obtain hi | rfl | rfl := hi
    · have hb := bindAll_bound procedure procedure.parameters t loads u hu
      exact .of_allLabels (allLabels_of_bound hb i hi)
    · exact .of_allLabels rfl
    · refine .inr ⟨rfl, fun other hother => ?_⟩
      rw [List.mem_singleton.1 hother]
      exact (hbind.learns ht).keeps label hl
  unfold insertJump
  refine .bind (moves_checkStatic procedure) fun _ s => rel_bind (refl_of _ s) fun _ _ hs => ?_
  cases hs
  dsimp only
  split
  · exact refl_of (Proceeds given asks) s
  · split
    · exact refl_of (Proceeds given asks) s
    · split
      · exact refl_of (Proceeds given asks) s
      · rename_i hl
        refine proceeds_transaction_of fun _ => hedit _ ?_
        simpa [Symbols.status, Option.isNone_iff_eq_none] using hl

theorem proceeds_replaceCall (procedure : Method) :
    Moves (Proceeds given asks) (replaceCall procedure) := by
  have hcall : Moves (Proceeds given asks) (rewrite .call (.method procedure)) :=
    fun s => proceeds_rewrite (.of_allLabels rfl)
  refine .bind (moves_checkStatic procedure) fun _ => proceeds_transaction ?_
  refine .bind .get fun s => .bind (.lift _) fun effect => .bind (.lift _) fun extra => ?_
  refine .bind_yields (proceeds_of_slotsOnly (slots_bindAll procedure extra))
    (bindAll_bound procedure extra) fun _ loads t hb => ?_
  refine rel_bind (proceeds_emitAll true fun i hi => ?_) fun _ u _ => ?_
  · exact .of_allLabels (allLabels_of_bound hb i hi)
  · dsimp only
    split
    · exact Moves.bind (proceeds_moveLabelsTo _) (fun _ => hcall) u
    · exact hcall u

theorem proceeds_resumeGuard (conditional before : Bool) :
    Moves (Proceeds given true) (resumeGuard conditional before) :=
  moves_resumeGuard_of (fun position => proceeds_labelAt position none true) conditional before

theorem known_of_stands (hs : Synced s.code s.symbols) {label : Label}
    (h : ∃ position, s.code.Stands label position) : s.symbols.status label ≠ none := by
  rw [(hs.attached_iff label).2 h]
  nofun

theorem proceeds_insertReturn (procedure : Method) (before : Bool) :
    Moves (Proceeds given true) (insertReturn procedure before) := by
  unfold insertReturn
  refine .bind (moves_checkStatic procedure) fun _ => .bind .get fun s => ?_
  dsimp only
  split
  · exact .throw _
  · refine proceeds_transaction ?_
    refine .bind (proceeds_of_slotsOnly (slots_resultSlot procedure)) fun result => ?_
    refine .bind_yields (proceeds_of_slotsOnly (slots_bindWithResult procedure result _))
      (bindWithResult_unlabelled procedure result _) fun _ loads t hl ht => ?_
    have hguard : Leads given true t _ :=
      proceeds_resumeGuard (procedure.returns == s.core.boolean) before t ht
    refine rel_bind hguard fun guard u hu => ?_
    rw [hu] at hguard
    have hstands := resumeGuard_stands _ before t guard u hu
    have hfree := resumeGuard_yields ht _ before guard u hu
    have hsynced := hguard.synced ht
    refine proceeds_emitAll before (fun i hi => ?_) hsynced
    obtain hi | hi := mem_guard_of_mem_returnBlock hl hi
    · exact .inr ⟨hfree.2.2.unlabelled i hi,
        fun label hm => known_of_stands hsynced (hstands i hi label hm)⟩
    · exact .of_allLabels hi

theorem proceeds_nextConditionalBranch : Moves (Proceeds given asks) nextConditionalBranch :=
  moves_nextConditionalBranch_of proceeds_seek

theorem proceeds_jumpAlways : Moves (Proceeds given asks) jumpAlways := by
  refine proceeds_transaction ?_
  refine .bind proceeds_nextConditionalBranch fun _ => .bind .get fun s => ?_
  refine .bind_yields moves_targetLabel targetLabel_yields fun u label t ht hs => ?_
  obtain ⟨rfl, htarget⟩ := ht
  refine proceeds_insertAfter (.inr ⟨rfl, fun other hother => ?_⟩) hs
  rw [List.mem_singleton.1 hother]
  exact hs.known label htarget

theorem proceeds_jumpNever : Moves (Proceeds given true) jumpNever := by
  refine proceeds_transaction ?_
  refine .bind proceeds_nextConditionalBranch fun _ => .bind .get fun s => ?_
  dsimp only
  split
  · exact .throw _
  · refine .bind_yields (proceeds_labelAt _ none true) (labelAt_stands _)
      fun _ label t hstands hs => ?_
    refine proceeds_rewrite (.inr ⟨rfl, fun other hother => ?_⟩) hs
    rw [List.mem_singleton.1 hother]
    exact known_of_stands hs hstands

theorem proceeds_replaceInteger (value : Int64) :
    Moves (Proceeds given asks) (replaceInteger value) := by
  unfold replaceInteger
  refine .bind .get fun s => ?_
  dsimp only
  split
  · exact .throw _
  · exact fun t => proceeds_rewrite (.of_allLabels rfl)

theorem proceeds_replaceFloat (value : Binary64) :
    Moves (Proceeds given asks) (replaceFloat value) := by
  unfold replaceFloat
  refine .bind .get fun s => ?_
  dsimp only
  split
  · exact .throw _
  · exact fun t => proceeds_rewrite (.of_allLabels rfl)

theorem proceeds_editAll (start stop : Option Nat) (holds : Session → Bool)
    {edit : Edit Session Unit} (h : Moves (Proceeds given asks) edit) :
    Moves (Proceeds given asks) (editAll start stop holds edit) := by
  refine proceeds_transaction fun s => ?_
  have hloop := moves_editMatches proceeds_withCursor stop holds h (s.length - start.getD 0)
    (s.withCursor (start.getD 0))
  refine trans_of (Proceeds given asks) (proceeds_withCursor s _) (rel_bind hloop ?_)
  exact fun count t _ => Moves.bind (moves_withCursor _) (fun _ => .pure count) t

theorem proceeds_checked_editAll (procedure : Method) (holds : Session → Bool)
    {edit : Edit Session Unit} (h : Moves (Proceeds given asks) edit) :
    Moves (Proceeds given asks) (do checkStatic procedure; editAll none none holds edit) :=
  .bind (moves_checkStatic procedure) fun _ => proceeds_editAll none none holds h

end Session

namespace Workbench

open Edit

variable {α : Type} {given : List Instruction} {asks : Bool}

def Proceeds (given : List Instruction) (asks : Bool) (w w' : Workbench) : Prop :=
  w.session.Proceeds given asks w'.session

instance : IsPreorder Workbench (Proceeds given asks) where
  refl w := refl_of (Session.Proceeds given asks) w.session
  trans _ _ _ h₁ h₂ := trans_of (Session.Proceeds given asks) h₁ h₂

theorem proceeds_answer {op : Edit Session α} (h : Moves (Session.Proceeds given asks) op)
    (answer : α → Answer) :
    Moves (Proceeds given asks) (onSession op >>= fun a => pure (answer a)) :=
  .bind (fun w => h w.session) fun _ => .pure _

theorem proceeds_choose {next : Member → Edit Workbench α} (choice : MemberChoice)
    (hn : ∀ member, Moves (Proceeds given asks) (next member)) :
    Moves (Proceeds given asks) (choose choice >>= next) := by
  refine .bind (fun w => ?_) hn
  rw [Proceeds, session_choose]
  exact refl_of (Session.Proceeds given asks) w.session

end Workbench

namespace SymbolCommand

def asks : SymbolCommand → Bool
  | createLabel | getOrCreateLabel _ => true
  | _ => false

end SymbolCommand

namespace SessionCommand

open Edit Session Workbench

/-- The instructions that the caller gives, with labels of any choosing. -/
def given : SessionCommand → List Instruction
  | rewrite opcode operand => [{ opcode, operand }]
  | insertBefore i | insertAfter i => [i]
  | _ => []

def asks : SessionCommand → Bool
  | labelAt .. | currentLabel _ | insertReturn .. | jumpNever => true
  | symbols command => command.asks
  | _ => false

theorem proceeds_find {given : List Instruction} {asks : Bool} (direction : Direction)
    (holds : Session → Bool) : Moves (Session.Proceeds given asks) (find direction holds) := by
  cases direction with
  | forward => exact proceeds_seek holds
  | backward => exact proceeds_rewind holds

theorem proceeds_symbols (command : SymbolCommand) :
    Moves (Session.Proceeds [] command.asks) (onSymbols command.run) := by
  cases command with
  | createLabel =>
    unfold SymbolCommand.run
    rw [onSymbols_bind]
    exact .bind proceeds_createLabel fun _ => proceeds_onSymbols_pure _
  | getOrCreateLabel name =>
    unfold SymbolCommand.run
    rw [onSymbols_bind]
    exact .bind (proceeds_getOrCreateLabel name) fun _ => proceeds_onSymbols_pure _
  | nameLabel label name =>
    unfold SymbolCommand.run
    rw [onSymbols_bind]
    exact .bind (proceeds_nameLabel label name) fun _ => proceeds_onSymbols_pure _
  | _ => exact proceeds_of_slotsOnly (slots_onSymbols (SymbolCommand.reslots_run rfl))

/-- What each command does is made up of elementary steps. -/
theorem proceeds_run (command : SessionCommand) :
    Moves (Workbench.Proceeds command.given command.asks) command.run := by
  cases command with
  | length | look | instructionAt | check | slotAt | unplacedLabels | positionOf | argumentIndex =>
    exact .bind .get fun _ => .pure _
  | moveTo position => exact proceeds_answer (proceeds_moveTo position) _
  | moveBy distance => exact proceeds_answer (.bind .get fun _ => proceeds_moveTo _) _
  | moveToFirst | moveToLast => exact proceeds_answer (moves_withCursor _) _
  | search direction holds => exact proceeds_answer (proceeds_find direction holds) _
  | searchMember direction member =>
    exact proceeds_choose member fun _ => proceeds_answer (proceeds_find direction _) _
  | seekChain toStart chain => exact proceeds_answer (proceeds_seekChain toStart chain) _
  | checkMember member => exact proceeds_choose member fun _ => .bind .get fun _ => .pure _
  | labelAt position name make => exact proceeds_answer (proceeds_labelAt position name make) _
  | currentLabel make => exact proceeds_answer (.bind .get fun _ => proceeds_labelAt _ none make) _
  | targetLabel => exact proceeds_answer moves_targetLabel _
  | attachLabel l => exact proceeds_answer (.bind .get fun _ => proceeds_attachLabelAt _ l) _
  | nameCurrentSlot name =>
    exact proceeds_answer (proceeds_of_slotsOnly (slots_nameCurrentSlot name)) _
  | rewrite opcode operand =>
    exact proceeds_answer (fun s => proceeds_rewrite (.inl (List.mem_singleton.2 rfl))) _
  | insertBefore i =>
    exact proceeds_answer (fun s => proceeds_insertBefore (.inl (List.mem_singleton.2 rfl))) _
  | insertAfter i =>
    exact proceeds_answer (fun s => proceeds_insertAfter (.inl (List.mem_singleton.2 rfl))) _
  | removeCurrent => exact proceeds_answer proceeds_removeCurrent _
  | blankCurrent =>
    refine proceeds_answer ?_ _
    rw [blankCurrent_eq_rewrite]
    exact fun s => proceeds_rewrite (.of_allLabels rfl)
  | insertCall procedure before => exact proceeds_answer (proceeds_insertCall procedure before) _
  | insertReturn procedure before =>
    exact proceeds_answer (proceeds_insertReturn procedure before) _
  | insertJump procedure l before =>
    exact proceeds_answer (proceeds_insertJump procedure l before) _
  | replaceCall procedure => exact proceeds_answer (proceeds_replaceCall procedure) _
  | jumpAlways => exact proceeds_answer proceeds_jumpAlways _
  | jumpNever => exact proceeds_answer proceeds_jumpNever _
  | replaceInteger value => exact proceeds_answer (proceeds_replaceInteger value) _
  | replaceFloat value => exact proceeds_answer (proceeds_replaceFloat value) _
  | insertAfterAll member procedure =>
    refine proceeds_choose member fun _ => proceeds_answer ?_ _
    exact proceeds_checked_editAll procedure _ (proceeds_insertCall procedure false)
  | replaceAllCalls member procedure =>
    refine proceeds_choose member fun _ => proceeds_answer ?_ _
    exact proceeds_checked_editAll procedure _ (proceeds_replaceCall procedure)
  | replaceAllIntegers old new start stop =>
    exact proceeds_answer (proceeds_editAll start stop _ (proceeds_replaceInteger new)) _
  | replaceAllFloats old new start stop =>
    exact proceeds_answer (proceeds_editAll start stop _ (proceeds_replaceFloat new)) _
  | replaceAllIntegersByCall old procedure =>
    exact proceeds_answer (proceeds_checked_editAll procedure _ (proceeds_replaceCall procedure)) _
  | replaceAllFloatsByCall old procedure =>
    exact proceeds_answer (proceeds_checked_editAll procedure _ (proceeds_replaceCall procedure)) _
  | symbols command => exact fun w => proceeds_symbols command w.session

theorem leads_runAll (commands : List SessionCommand) (w : Workbench)
    (hs : Synced w.session.code w.session.symbols) :
    Leads (commands.flatMap given) true w.session (runAll commands w).session := by
  induction commands generalizing w with
  | nil => exact .refl w.session
  | cons command rest ih =>
    have hstep := command.proceeds_run w hs
    have hrest := ih (command.run w).2 (hstep.synced hs)
    exact (hstep.mono fun i hi => List.mem_append_left _ hi).trans
      (hrest.mono fun i hi => List.mem_append_right _ hi)

end SessionCommand

end MethodEdit
