import MethodEdit.Proofs.Session.AllOrNothing
import MethodEdit.Proofs.Session.Progress

/-!
Labels from the source. A command asks for one label at most, and one that it gets to keep was not
in use anywhere. The source never goes back, also not when an edit is taken back, so it hands out
every label once. But it does not take notice of the labels that the caller brings along, and runs
into these: then no new label is made.
-/
namespace MethodEdit

namespace LabelSource

theorem countingFrom_injective (first : Label) :
    Function.Injective (countingFrom first).labels := by
  intro m n h
  have hid := congrArg Label.id h
  simp only [countingFrom] at hid
  omega

theorem take_append {source later : LabelSource} (hl : later.labels = source.labels)
    (hle : source.used ≤ later.used) {stop : Nat} (hstop : later.used ≤ stop) :
    source.take (later.used - source.used) ++ later.take (stop - later.used) =
      source.take (stop - source.used) := by
  obtain ⟨m, hm⟩ := Nat.exists_eq_add_of_le hle
  obtain ⟨n, rfl⟩ := Nat.exists_eq_add_of_le hstop
  have hfirst : later.used - source.used = m := by omega
  have hrest : later.used + n - later.used = n := by omega
  have hall : later.used + n - source.used = m + n := by omega
  rw [hfirst, hrest, hall, take, take, take, hl, hm, ← List.map_append, List.range'_append_1]

theorem nodup_take {source : LabelSource} (h : Function.Injective source.labels) (n : Nat) :
    (source.take n).Nodup := List.Nodup.map h (List.nodup_range' ..)

theorem mem_take {source : LabelSource} {n : Nat} {label : Label} :
    label ∈ source.take n ↔
      ∃ k, source.used ≤ k ∧ k < source.used + n ∧ label = source.labels k := by
  simp only [take, List.mem_map, List.mem_range'_1, and_assoc, eq_comm]

end LabelSource

namespace Session

open Edit

variable {s s' : Session} {α β : Type}

/-- The source is left alone, and nothing is forgotten. -/
structure Quiet (s s' : Session) : Prop where
  synced : Synced s'.code s'.symbols
  source : s'.symbols.source = s.symbols.source
  keeps : ∀ label, s.symbols.status label ≠ none → s'.symbols.status label ≠ none

def Still (s s' : Session) : Prop := Synced s.code s.symbols → s.Quiet s'

instance : IsPreorder Session Still where
  refl _ hs := ⟨hs, rfl, fun _ hl => hl⟩
  trans _ _ _ h₁ h₂ hs := by
    have hq₁ := h₁ hs
    have hq₂ := h₂ hq₁.synced
    exact ⟨hq₂.synced, hq₂.source.trans hq₁.source, fun label hl =>
      hq₂.keeps label (hq₁.keeps label hl)⟩

theorem Proceeds.still {given : List Instruction} (h : Proceeds given false s s') : s.Still s' :=
  fun hs => ⟨(h hs).synced hs, ((h hs).learns hs).still rfl, ((h hs).learns hs).keeps⟩

theorem still_of_proceeds {op : Edit Session α} (h : Moves (Proceeds [] false) op) :
    Moves Still op := fun s => (h s).still

theorem still_emitAll (before : Bool) (block : Code) : Moves Still (emitAll before block) :=
  fun _ => (proceeds_emitAll before fun _ hi => .inl hi).still

theorem still_rewrite (opcode : Opcode) (operand : Operand) :
    Moves Still (rewrite opcode operand) :=
  fun _ => (proceeds_rewrite (.inl (List.mem_singleton.2 rfl))).still

/-- The source was asked once at most. If it came up with a known label, that is why the operation
was refused. -/
def DrawnOnce (s : Session) (result : Except EditError α) (s' : Session) : Prop :=
  s'.symbols.source = s.symbols.source ∨
    s'.symbols.source = s.symbols.source.advance ∧
      (s.symbols.status s.symbols.source.next ≠ none →
        result = .error (.duplicateLabel s.symbols.source.next))

theorem DrawnOnce.error {e : EditError} (h : s.DrawnOnce (.error e : Except EditError α) s') :
    s.DrawnOnce (.error e : Except EditError β) s' := by
  refine h.imp_right fun ⟨hsource, hknown⟩ => ⟨hsource, fun hk => ?_⟩
  cases hknown hk
  rfl

theorem DrawnOnce.ok {t : Session} {a : α} (h : s.DrawnOnce (.ok a : Except EditError α) t)
    (ht : s'.symbols.source = t.symbols.source) (result : Except EditError β) :
    s.DrawnOnce result s' := by
  unfold DrawnOnce
  rw [ht]
  refine h.imp_right fun ⟨hsource, hknown⟩ => ⟨hsource, fun hk => ?_⟩
  cases hknown hk

def Draws (op : Edit Session α) : Prop := ∀ s, Synced s.code s.symbols →
  Synced (op s).2.code (op s).2.symbols ∧ s.DrawnOnce (op s).1 (op s).2

namespace Draws

variable {op : Edit Session α} {next : α → Edit Session β}

theorem of_still (h : Moves Still op) : Draws op :=
  fun s hs => ⟨(h s hs).synced, .inl (h s hs).source⟩

theorem throw (e : EditError) : Draws (MonadExcept.throw e : Edit Session α) :=
  of_still (.throw e)

theorem pure (a : α) : Draws (Pure.pure a) := of_still (.pure a)

theorem createLabel : Draws (onSymbols Symbols.createLabel) := by
  intro s hs
  obtain ⟨_, h⟩ | ⟨hnew, h⟩ := onSymbols_createLabel_cases s
  · rw [h]
    exact ⟨hs.extend (Symbols.extends_drawn s.symbols), .inr ⟨rfl, fun _ => rfl⟩⟩
  · rw [h]
    refine ⟨hs.extend (Symbols.extends_minted hnew), .inr ⟨s.symbols.source_minted, fun hk => ?_⟩⟩
    exact absurd (hs.regular.status_eq_none_iff_place?.2 hnew) hk

theorem bind (h : Moves Still op) (hn : ∀ a, Draws (next a)) : Draws (op >>= next) := by
  intro s hs
  have hq := h s hs
  rw [run_bind]
  cases ho : op s with
  | mk result t =>
    rw [ho] at hq
    cases result with
    | error e => exact ⟨hq.synced, .inl hq.source⟩
    | ok a =>
      obtain ⟨hsynced, hdraws⟩ := hn a t hq.synced
      unfold DrawnOnce at hdraws ⊢
      rw [hq.source] at hdraws
      refine ⟨hsynced, hdraws.imp_right fun ⟨hsource, hknown⟩ => ⟨hsource, fun hk => ?_⟩⟩
      exact hknown (hq.keeps _ hk)

theorem then_still (h : Draws op) (hn : ∀ a, Moves Still (next a)) : Draws (op >>= next) := by
  intro s hs
  obtain ⟨hsynced, hdraws⟩ := h s hs
  rw [run_bind]
  cases ho : op s with
  | mk result t =>
    rw [ho] at hsynced hdraws
    cases result with
    | error e => exact ⟨hsynced, hdraws.error⟩
    | ok a =>
      have hq := hn a t hsynced
      exact ⟨hq.synced, hdraws.ok hq.source _⟩

theorem transaction (h : Draws op) : Draws (transaction op) := by
  intro s hs
  cases hediting : s.editing with
  | true =>
    rw [transaction_within op hediting]
    exact h s hs
  | false =>
    have hd := h { s with editing := true } hs
    obtain ⟨e, after, hm, ht⟩ | ⟨a, after, hm, ht⟩ := transaction_cases op hediting
    · rw [hm] at hd
      rw [ht]
      exact ⟨hs.rollback after.symbols, hd.2⟩
    · rw [hm] at hd
      rw [ht]
      exact hd

end Draws

theorem draws_labelAt (position : Nat) (name : Option String) (make : Bool) :
    Draws (labelAt position name make) := by
  have hplace (label : Label) : Moves (Proceeds [] false) (do
      attachLabelAt position label
      return label) := .bind (proceeds_attachLabelAt position label) fun _ => .pure label
  unfold labelAt
  refine .bind .get fun s => .bind (.lift _) fun i => ?_
  split
  · split
    · split
      · exact .pure _
      · exact .throw _
    · split
      · exact .throw _
      · refine .then_still .createLabel fun label => still_of_proceeds ?_
        exact .bind (proceeds_nameLabel label _) fun _ => hplace label
  · split
    · exact .pure _
    · split
      · exact .throw _
      · exact .then_still .createLabel fun label => still_of_proceeds (hplace label)

theorem draws_resumeGuard (conditional before : Bool) : Draws (resumeGuard conditional before) := by
  unfold resumeGuard resumeLabel
  split
  · refine .then_still (.bind .get fun s => ?_) fun label => .pure _
    split
    · exact .bind .get fun _ => draws_labelAt _ none true
    · split
      · exact .throw _
      · exact draws_labelAt _ none true
  · exact .pure _

theorem draws_insertReturn (procedure : Method) (before : Bool) :
    Draws (insertReturn procedure before) := by
  unfold insertReturn
  refine .bind (moves_checkStatic procedure) fun _ => .bind .get fun s => ?_
  dsimp only
  split
  · exact .throw _
  · refine .transaction ?_
    refine .bind (still_of_proceeds (proceeds_of_slotsOnly (slots_resultSlot procedure))) ?_
    refine fun result => .bind (still_of_proceeds (proceeds_of_slotsOnly
      (slots_bindWithResult procedure result _))) fun loads => ?_
    exact .then_still (draws_resumeGuard _ before) fun guard => still_emitAll before _

theorem draws_jumpNever : Draws jumpNever := by
  refine .transaction ?_
  refine .bind (still_of_proceeds proceeds_nextConditionalBranch) fun _ => .bind .get fun s => ?_
  dsimp only
  split
  · exact .throw _
  · exact .then_still (draws_labelAt _ none true) fun label => still_rewrite _ _

theorem draws_getOrCreateLabel (name : Option String) :
    Draws (onSymbols (Symbols.getOrCreateLabel name)) := by
  unfold Symbols.getOrCreateLabel
  rw [onSymbols_bind]
  refine .bind (fun s => refl_of Still s) fun t => ?_
  split
  · exact .of_still fun s => refl_of Still s
  · rw [onSymbols_bind]
    refine .then_still .createLabel fun label => ?_
    split
    · rw [onSymbols_bind]
      exact still_of_proceeds
        (.bind (proceeds_nameLabel label _) fun _ => proceeds_onSymbols_pure _)
    · exact fun s => refl_of Still s

/-- A label that stands at an instruction is found there. If there is none, a new one is placed
there, unless the source runs into a known label. -/
theorem labelAt_cases (hs : Synced s.code s.symbols) {position : Nat} (hp : position < s.length) :
    (∃ label, s.code.Stands label position ∧ labelAt position none true s = (.ok label, s)) ∨
    (∀ label, ¬s.code.Stands label position) ∧
      ((s.symbols.status s.symbols.source.next ≠ none ∧
        labelAt position none true s =
          (.error (.duplicateLabel s.symbols.source.next),
            { s with symbols := s.symbols.drawn })) ∨
      (s.symbols.status s.symbols.source.next = none ∧
        labelAt position none true s = (.ok s.symbols.source.next,
          { s with
            code := s.code.modify position fun i =>
              { i with labels := i.labels ++ [s.symbols.source.next] }
            symbols := s.symbols.minted.markAttached s.symbols.source.next }))) := by
  have hi : s.code[position]? = some s.code[position] := List.getElem?_eq_getElem hp
  have hat := Code.at?_eq_ok_iff.2 hi
  cases hl : s.code[position].labels with
  | cons label rest =>
    exact .inl ⟨label, ⟨_, hi, by simp [hl]⟩, by simp [labelAt, hat, hl]⟩
  | nil =>
    have hno (label : Label) : ¬s.code.Stands label position := by
      rintro ⟨i, hi', hm⟩
      cases hi.symm.trans hi'
      simp [hl] at hm
    refine .inr ⟨hno, ?_⟩
    obtain ⟨hknown, h⟩ | ⟨hnew, h⟩ := onSymbols_createLabel_cases s
    · exact .inl ⟨mt hs.regular.status_eq_none_iff_place?.1 hknown, by simp [labelAt, hat, hl, h]⟩
    · have hnone := hs.regular.status_eq_none_iff_place?.2 hnew
      have hattach := attachLabelAt_new hs hp hnone ((hs.regular.known_minted _).2 (.inl rfl))
      exact .inr ⟨hnone, by simp [labelAt, hat, hl, h, hattach]⟩

/-- The label is in use nowhere: the table does not list it, it stands at no instruction, and no
instruction refers to it. -/
structure Unused (s : Session) (label : Label) : Prop where
  unknown : s.symbols.label? label = none
  unlisted : ∀ entry ∈ s.symbols.labels, entry.label ≠ label
  unplaced : ∀ i ∈ s.code, label ∉ i.labels
  untargeted : ∀ i ∈ s.code, label ∉ i.targets

theorem unused_of_unknown (hs : Synced s.code s.symbols) {label : Label}
    (hl : s.symbols.status label = none) : s.Unused label where
  unknown := by simpa [Symbols.status] using hl
  unlisted entry he heq := by
    rw [hs.regular.status_eq_none_iff] at hl
    exact hl (List.mem_map.2 ⟨entry, he, heq⟩)
  unplaced i hi hm := by
    obtain ⟨position, hp⟩ := List.mem_iff_getElem?.1 hi
    exact known_of_stands hs ⟨position, i, hp, hm⟩ hl
  untargeted i hi hm := hs.known label (List.mem_flatMap.2 ⟨i, hi, hm⟩) hl

end Session

namespace SessionCommand

open Edit Session Workbench

variable {α : Type} {w : Workbench}

def handedOut (command : SessionCommand) (w : Workbench) : List Label :=
  w.session.symbols.source.take
    ((command.run w).2.session.symbols.source.used - w.session.symbols.source.used)

/-- The labels that the source hands out in the course of a history. -/
def handedOutAlong : List SessionCommand → Workbench → List Label
  | [], _ => []
  | command :: rest, w => command.handedOut w ++ handedOutAlong rest (command.run w).2

theorem drawnOnce_onSession {op : Edit Session α} (h : Draws op)
    (hs : Synced w.session.code w.session.symbols) :
    w.session.DrawnOnce (onSession op w).1 (onSession op w).2.session := (h w.session hs).2

theorem drawnOnce_answer {op : Edit Session α} (h : Draws op) (answer : α → Answer)
    (hs : Synced w.session.code w.session.symbols) :
    w.session.DrawnOnce ((onSession op >>= fun a => pure (answer a)) w).1
      ((onSession op >>= fun a => pure (answer a)) w).2.session := by
  have hdrawn := drawnOnce_onSession h hs
  rw [run_bind]
  cases ho : onSession op w with
  | mk result after =>
    rw [ho] at hdrawn
    cases result with
    | error e => exact hdrawn.error
    | ok a => exact hdrawn.ok rfl _

theorem draws_symbols {command : SymbolCommand} (h : command.asks = true) :
    Draws (onSymbols command.run) := by
  cases command with
  | createLabel =>
    unfold SymbolCommand.run
    rw [onSymbols_bind]
    exact .then_still .createLabel fun _ s => refl_of Still s
  | getOrCreateLabel name =>
    unfold SymbolCommand.run
    rw [onSymbols_bind]
    exact .then_still (draws_getOrCreateLabel name) fun _ s => refl_of Still s
  | _ => cases h

theorem drawnOnce_run (command : SessionCommand) (hs : Synced w.session.code w.session.symbols) :
    w.session.DrawnOnce (command.run w).1 (command.run w).2.session := by
  cases hasks : command.asks with
  | false =>
    have hsteps := command.proceeds_run w hs
    rw [hasks] at hsteps
    exact .inl ((hsteps.learns hs).still rfl)
  | true =>
    cases command with
    | labelAt position name make => exact drawnOnce_answer (draws_labelAt position name make) _ hs
    | currentLabel make =>
      exact drawnOnce_answer (.bind .get fun _ => draws_labelAt _ none make) _ hs
    | insertReturn procedure before =>
      exact drawnOnce_answer (draws_insertReturn procedure before) _ hs
    | jumpNever => exact drawnOnce_answer draws_jumpNever _ hs
    | symbols command => exact drawnOnce_onSession (draws_symbols hasks) hs
    | _ => cases hasks

theorem handedOut_cases (command : SessionCommand)
    (hs : Synced w.session.code w.session.symbols) :
    command.handedOut w = [] ∨
    command.handedOut w = [w.session.symbols.source.next] ∧
      (w.session.symbols.status w.session.symbols.source.next ≠ none →
        (command.run w).1 = .error (.duplicateLabel w.session.symbols.source.next)) := by
  unfold handedOut
  obtain hsource | ⟨hsource, hknown⟩ := command.drawnOnce_run hs
  · rw [hsource, Nat.sub_self]
    exact .inl rfl
  · rw [hsource, LabelSource.advance, Nat.add_sub_cancel_left]
    exact .inr ⟨rfl, hknown⟩

theorem used_le_runAll (commands : List SessionCommand) (w : Workbench) :
    w.session.symbols.source.used ≤ (runAll commands w).session.symbols.source.used := by
  induction commands generalizing w with
  | nil => exact Nat.le_refl _
  | cons command rest ih => exact Nat.le_trans (command.moves_run w).symbols.source.2 (ih _)

theorem handedOutAlong_eq_take (commands : List SessionCommand) (w : Workbench) :
    handedOutAlong commands w = w.session.symbols.source.take
      ((runAll commands w).session.symbols.source.used - w.session.symbols.source.used) := by
  induction commands generalizing w with
  | nil =>
    rw [runAll, Nat.sub_self]
    rfl
  | cons command rest ih =>
    obtain ⟨hlabels, hused⟩ := (command.moves_run w).symbols.source
    rw [handedOutAlong, ih, handedOut]
    exact LabelSource.take_append hlabels hused (used_le_runAll rest _)

end SessionCommand

namespace Session

open SessionCommand

variable {method : Method} {core : CoreTypes} {slots : List Ty} {instructions : List Instruction}
  {settings : Settings} {s : Session}

/-- If the source counts upwards, no label is handed out twice in the course of a history, whatever
becomes of the commands. A label that a command is handed was in use nowhere, or it was known and
the command is refused for it. No other labels become known, except those that the caller gives. -/
theorem fresh_labels_never_alias {first : Label}
    (h : start method core slots instructions settings (.countingFrom first) = .ok s)
    (resolver : Resolver) (commands : List SessionCommand) :
    (handedOutAlong commands ⟨resolver, s⟩).Nodup ∧
    ∀ command : SessionCommand,
      let w := runAll commands ⟨resolver, s⟩
      (∀ label ∈ command.handedOut w,
        w.session.Unused label ∨
          (w.session.symbols.label? label).isSome = true ∧
            (command.run w).1 = .error (.duplicateLabel label)) ∧
      ∀ label, w.session.symbols.label? label = none →
        ((command.run w).2.session.symbols.label? label).isSome = true →
          label ∈ command.handedOut w ∨ label ∈ command.given.flatMap (·.allLabels) := by
  refine ⟨?_, fun command => ?_⟩
  · rw [handedOutAlong_eq_take]
    refine LabelSource.nodup_take ?_ _
    rw [source_start h]
    exact LabelSource.countingFrom_injective first
  · have hsynced := ((Reachable.start h).runAll commands resolver).sound.synced
    have hlearns := (command.proceeds_run (runAll commands ⟨resolver, s⟩) hsynced).learns hsynced
    refine ⟨fun label hl => ?_, fun label hbefore hafter => ?_⟩
    · obtain hnone | ⟨hone, hknown⟩ := command.handedOut_cases hsynced
      · rw [hnone] at hl
        cases hl
      · rw [hone] at hl
        cases List.mem_singleton.1 hl
        by_cases hk : (runAll commands ⟨resolver, s⟩).session.symbols.status
            (runAll commands ⟨resolver, s⟩).session.symbols.source.next = none
        · exact .inl (unused_of_unknown hsynced hk)
        · exact .inr ⟨Symbols.isSome_label?_iff.2 hk, hknown hk⟩
    · obtain hold | hgiven | ⟨n, hle, hlt, rfl⟩ :=
        hlearns.learns label (Symbols.isSome_label?_iff.1 hafter)
      · exact absurd (Symbols.status_eq_none_iff_label?.2 hbefore) hold
      · exact .inr hgiven
      · exact .inl (LabelSource.mem_take.2 ⟨n, hle, by omega, rfl⟩)

/-- Three labels are asked for, the second one under a name that is not allowed. -/
theorem fresh_labels_never_alias_in_sample :
    let commands : List SessionCommand :=
      [.labelAt 1 none true, .labelAt 2 (some "two words") true, .symbols .createLabel]
    handedOutAlong commands ⟨{}, Sample.session⟩ = [⟨1⟩, ⟨2⟩, ⟨3⟩] ∧
      (handedOutAlong commands ⟨{}, Sample.session⟩).Nodup :=
  ⟨rfl, (fresh_labels_never_alias Sample.startFresh_eq {} _).1⟩

theorem next_mem_given (h : startFresh method core slots instructions settings = .ok s)
    (resolver : Resolver) (commands : List SessionCommand) {next : Label}
    (hnext : next = (runAll commands ⟨resolver, s⟩).session.symbols.source.next)
    (hknown : (runAll commands ⟨resolver, s⟩).session.symbols.status next ≠ none) :
    next ∈ (commands.flatMap given).flatMap (·.allLabels) := by
  have hsynced := (sound_start h).synced
  have hlearns := (leads_runAll commands ⟨resolver, s⟩ hsynced).learns hsynced
  rw [LabelSource.next, hlearns.labels, source_start h] at hnext
  obtain hold | hgiven | ⟨n, _, hlt, hn⟩ := hlearns.learns next hknown
  · have hbelow := LabelSource.lt_labels_after (mem_allLabels_of_known h hold)
      (runAll commands ⟨resolver, s⟩).session.symbols.source.used
    rw [← hnext] at hbelow
    exact absurd hbelow (Nat.lt_irrefl _)
  · exact hgiven
  · -- the source came up with this label before
    rw [source_start h] at hn
    have hsame := LabelSource.countingFrom_injective _ (hn.symm.trans hnext)
    omega

/-- In a session whose source starts above the labels of its code, a new label can be made, and at
every instruction, unless the source runs into a label that the caller brought along. -/
theorem label_made_unless_given
    (h : startFresh method core slots instructions settings = .ok s) (resolver : Resolver)
    (commands : List SessionCommand) :
    let t := (runAll commands ⟨resolver, s⟩).session
    let next := t.symbols.source.next
    (next ∉ (commands.flatMap given).flatMap (·.allLabels) → t.symbols.label? next = none) ∧
    (t.symbols.label? next = none →
      (∃ u, Symbols.createLabel t.symbols = (.ok next, u)) ∧
      ∀ position < t.length, ∃ label u, labelAt position none true t = (.ok label, u) ∧
        u.code.Stands label position) ∧
    (t.symbols.label? next ≠ none →
      (Symbols.createLabel t.symbols).1 = .error (.duplicateLabel next) ∧
      ∀ position < t.length, (labelAt position none true t).1 = .error (.duplicateLabel next) ↔
        ∀ label, ¬t.code.Stands label position) := by
  intro t next
  have hsynced : Synced t.code t.symbols :=
    ((Reachable.start h).runAll commands resolver).sound.synced
  refine ⟨fun hgiven => ?_, fun hnew => ⟨?_, fun position hp => ?_⟩,
    fun hknown => ⟨?_, fun position hp => ?_⟩⟩
  · rw [← Symbols.status_eq_none_iff_label?]
    by_contra hknown
    exact hgiven (next_mem_given h resolver commands rfl hknown)
  · rw [← Symbols.status_eq_none_iff_label?, hsynced.regular.status_eq_none_iff_place?] at hnew
    obtain ⟨hknown, _⟩ | ⟨_, hcreate⟩ := Symbols.createLabel_cases t.symbols
    · exact absurd hnew hknown
    · exact ⟨t.symbols.minted, hcreate⟩
  · obtain ⟨label, hstands, hl⟩ | ⟨_, ⟨hknown, _⟩ | ⟨_, hl⟩⟩ := labelAt_cases hsynced hp
    · exact ⟨label, t, hl, hstands⟩
    · exact absurd (Symbols.status_eq_none_iff_label?.2 hnew) hknown
    · refine ⟨next, _, hl, ?_⟩
      exact (Code.relabelled_attach hp next position).2 (.inr ⟨List.mem_singleton.2 rfl, rfl⟩)
  · rw [Ne, ← Symbols.status_eq_none_iff_label?,
      hsynced.regular.status_eq_none_iff_place?] at hknown
    obtain ⟨_, hcreate⟩ | ⟨hnew, _⟩ := Symbols.createLabel_cases t.symbols
    · rw [hcreate]
    · exact absurd hnew hknown
  · obtain ⟨label, hstands, hl⟩ | ⟨hno, ⟨_, hl⟩ | ⟨hnew, _⟩⟩ := labelAt_cases hsynced hp
    · rw [hl]
      exact ⟨nofun, fun hno => absurd hstands (hno label)⟩
    · rw [hl]
      exact ⟨fun _ => hno, fun _ => rfl⟩
    · exact absurd (Symbols.status_eq_none_iff_label?.1 hnew) hknown

/-- A label is made at the instruction behind the inserted one. -/
theorem label_made_in_sample :
    ∃ label u, labelAt 2 none true
        (runAll [.insertBefore (.jump false ⟨0⟩)] ⟨{}, Sample.session⟩).session = (.ok label, u) ∧
      u.code.Stands label 2 := by
  obtain ⟨hgiven, hmade, _⟩ :=
    label_made_unless_given Sample.startFresh_eq {} [.insertBefore (.jump false ⟨0⟩)]
  exact (hmade (hgiven (by decide))).2 2 (by decide)

/-- The caller inserts a jump to the label that the source comes up with next, and to no
instruction: no label can be made although that one stands nowhere. -/
theorem label_not_made :
    ∃ s t, startFresh (Sample.method Sample.void) Sample.core [] Sample.code {} = .ok s ∧
      (runAll [.insertBefore (.jump false ⟨1⟩)] ⟨{}, s⟩).session = t ∧
      t.code.positionOf? ⟨1⟩ = none ∧ 2 < t.length ∧
      (labelAt 2 none true t).1 = .error (.duplicateLabel ⟨1⟩) ∧
      (Symbols.createLabel t.symbols).1 = .error (.duplicateLabel ⟨1⟩) :=
  ⟨Sample.session, _, rfl, rfl, rfl, by decide, rfl, rfl⟩

end Session

end MethodEdit
