import MethodEdit.Proofs.Session.AllOrNothing

/-!
What refused commands leave behind. Code and cursor are always as they were, and nearly always the
slots and labels too. There are two exceptions: a label is made before its name turns out not to be
allowed, and once there are more slots than indices, a new slot cannot be found under its own index,
so it stays without the name that it was made for.
-/
namespace MethodEdit

/-- A new label would be made before the name turns out not to be allowed. -/
def Symbols.Misnames (t : Symbols) (name : String) : Prop :=
  t.labelNamed? name = none ∧ t.place? t.source.next = none ∧ memberNameFault? name ≠ none

/-- A new slot would be made, but its index leads to an older one. -/
def Symbols.Overflows (t : Symbols) (name : String) : Prop :=
  t.slotNamed? name = none ∧ memberNameFault? name = none ∧ 65536 ≤ t.slots.length

/-- If the command is refused, something that it made stays in the table. -/
def SymbolCommand.Strays (t : Symbols) : SymbolCommand → Prop
  | getOrCreateLabel (some name) => t.Misnames name
  | getOrCreateSlot (some _) (some name) => t.Overflows name
  | _ => False

/-- All other commands of a session either take one step or take back what they did. -/
def SessionCommand.Strays (s : Session) : SessionCommand → Prop
  | labelAt position (some name) make =>
    make = true ∧ position < s.length ∧ s.symbols.Misnames name
  | symbols command => command.Strays s.symbols
  | _ => False

namespace Symbols

open Edit

variable {t : Symbols} {label : Label} {name : String} {type : Ty}

theorem nameSlot_refuses (index : UInt16) (name : String) (t : Symbols) :
    Refuses (nameSlot index name) t (· = t) := by
  obtain ⟨e, h⟩ | ⟨slot, _, _, h⟩ | ⟨slot, _, _, _, h⟩ := nameSlot_cases index name t
  · exact .of_error h rfl
  · exact .of_ok h
  · exact .of_ok h

theorem nameSlot_nextSlot (type : Ty) (hfree : t.slotNamed? name = none)
    (hname : memberNameFault? name = none) (hlen : t.slots.length < 65536) :
    Refuses (nameSlot (t.nextSlot type).index name) (t.withSlot type) fun _ => False := by
  have hfound : (t.withSlot type).slot? (t.nextSlot type).index = some (t.nextSlot type) := by
    refine slot?_nextSlot type ?_
    simp only [withSlot, List.length_append, List.length_singleton]
    omega
  have hunnamed : (t.nextSlot type).named = false := rfl
  intro e u he
  unfold nameSlot checkName at he
  by_cases hsame : (t.nextSlot type).name = name
  · simp [hname, hfound, hsame] at he
  · have hnone : (t.withSlot type).slotNamed? name = none := by
      simp only [slotNamed?, withSlot, List.find?_append]
      rw [show t.slots.find? (·.name == name) = none from hfree]
      simp [hsame]
    simp [hname, hfound, hsame, hunnamed, hnone] at he

theorem checkpoint_eq_iff {t u : Symbols} :
    u.checkpoint = t.checkpoint ↔ u.slots = t.slots ∧ u.labels = t.labels := by
  rw [checkpoint, checkpoint, Checkpoint.mk.injEq]

theorem checkpoint_withSlot_ne (t : Symbols) (type : Ty) :
    (t.withSlot type).checkpoint ≠ t.checkpoint := by
  intro h
  have hlen := congrArg (·.slots.length) h
  simp [checkpoint, withSlot] at hlen

theorem getOrCreateSlot_refuses (type : Option Ty) (name : Option String) (t : Symbols) :
    Refuses (getOrCreateSlot type name) t fun u =>
      u.checkpoint = t.checkpoint ↔ ¬(SymbolCommand.getOrCreateSlot type name).Strays t := by
  unfold getOrCreateSlot
  refine .get ?_
  split
  · rename_i wanted hf
    split
    · exact .pure _
    · refine .throw ?_
      rw [Option.bind_some] at hf
      simp [SymbolCommand.Strays, Overflows, hf]
  · exact .pure _
  · rename_i name type hf
    rw [Option.bind_some] at hf
    unfold checkName
    cases hname : memberNameFault? name with
    | some fault => exact .of_error rfl (by simp [SymbolCommand.Strays, Overflows, hname])
    | none =>
      by_cases hlen : t.slots.length < 65536
      · exact .mono (nameSlot_nextSlot type hf hname hlen) fun _ => False.elim
      · -- the name is given to an older slot, or to none
        refine .mono (nameSlot_refuses (t.nextSlot type).index name (t.withSlot type)) ?_
        intro u hu
        rw [hu]
        have hstrays : t.Overflows name := ⟨hf, hname, Nat.le_of_not_lt hlen⟩
        exact iff_of_false (checkpoint_withSlot_ne t type) (not_not_intro hstrays)
  · exact .of_ok rfl
  · exact .throw (by simp [SymbolCommand.Strays])
  · exact .throw (by simp [SymbolCommand.Strays])

theorem slotOfType_refuses (type : Ty) (name : Option String) (skipped : Nat) (t : Symbols) :
    Refuses (slotOfType type name skipped) t (· = t) := by
  unfold slotOfType
  refine .get ?_
  split
  · split
    · exact nameSlot_refuses _ _ t
    · split
      · exact .pure _
      · exact .throw rfl
  · exact .throw rfl

theorem nameLabel_refuses (label : Label) (name : String) (t : Symbols) :
    Refuses (nameLabel label name) t (· = t) := by
  obtain ⟨e, h⟩ | ⟨_, h⟩ := nameLabel_cases label name t
  · exact .of_error h rfl
  · exact .of_ok h

theorem nameLabel_new (hnew : t.place? label = none) (hfree : t.labelNamed? name = none)
    (hname : memberNameFault? name = none) :
    nameLabel label name (t.registerLabel label false) = (.ok ⟨⟩,
      (t.registerLabel label false).modifyLabel label fun entry => { entry with name }) := by
  have hplace : (t.registerLabel label false).place? label = some t.labels.length := by
    rw [registerLabel_of_new hnew]
    exact List.lookup_cons_self
  have hother :
      ((t.registerLabel label false).labelNamed? name).any (·.label != label) = false := by
    rw [registerLabel_of_new hnew, labelNamed?, List.find?_append,
      show t.labels.find? (·.name == name) = none from hfree, List.find?_singleton]
    split <;> simp
  unfold nameLabel checkName
  simp [hname, hplace, hother]

theorem nameLabel_of_fault (hname : memberNameFault? name ≠ none) (label : Label) (t : Symbols) :
    ∃ e, nameLabel label name t = (.error e, t) := by
  obtain ⟨fault, hf⟩ := Option.ne_none_iff_exists'.1 hname
  exact ⟨.invalidName fault, by simp [nameLabel, checkName, hf]⟩

theorem checkpoint_minted_ne (hnew : t.place? t.source.next = none) :
    t.minted.checkpoint ≠ t.checkpoint := by
  intro h
  have hlen := congrArg (·.labels.length) h
  rw [minted, registerLabel_of_new (t := t.drawn) hnew] at hlen
  simp [checkpoint, drawn] at hlen

theorem getOrCreateLabel_refuses (name : Option String) (t : Symbols) :
    Refuses (getOrCreateLabel name) t fun u =>
      u.checkpoint = t.checkpoint ↔ ¬(SymbolCommand.getOrCreateLabel name).Strays t := by
  unfold getOrCreateLabel
  refine .get ?_
  split
  · exact .pure _
  · rename_i hf
    obtain ⟨hknown, h⟩ | ⟨hnew, h⟩ := createLabel_cases t
    · refine .bind (.of_error h (iff_of_true rfl fun hstrays => ?_)) fun _ _ hu => ?_
      · cases name with
        | none => exact hstrays
        | some name => exact hknown hstrays.2.1
      · cases h.symm.trans hu
    · refine .bind (.of_ok h) fun _ _ hu => ?_
      cases h.symm.trans hu
      cases name with
      | none => exact .pure _
      | some name =>
        rw [Option.bind_some] at hf
        refine .bind ?_ fun _ _ _ => .pure _
        by_cases hname : memberNameFault? name = none
        · exact .of_ok (nameLabel_new (t := t.drawn) hnew hf hname)
        · -- the label is in the table by the time the name is refused
          obtain ⟨e, he⟩ := nameLabel_of_fault hname t.source.next t.minted
          have hstrays : t.Misnames name := ⟨hf, hnew, hname⟩
          exact .of_error he (iff_of_false (checkpoint_minted_ne hnew) (not_not_intro hstrays))

end Symbols

namespace SymbolCommand

open Edit Symbols

/-- Slots and labels are left as they were, unless the command strays. -/
theorem refuses_run (command : SymbolCommand) (t : Symbols) :
    Refuses command.run t fun u => u.checkpoint = t.checkpoint ↔ ¬command.Strays t := by
  have hkept {u : Symbols} (hu : u = t) : u.checkpoint = t.checkpoint ↔ ¬False := by simp [hu]
  cases command with
  | slot | slotNamed | slotFor | label | labelNamed => exact .get (.pure _)
  | declareSlot type => exact .of_ok rfl
  | getOrCreateSlot type name =>
    exact .bind (getOrCreateSlot_refuses type name t) fun _ _ _ => .pure _
  | nameSlot index name =>
    exact .bind ((nameSlot_refuses index name t).mono fun _ => hkept) fun _ _ _ => .pure _
  | slotOfType type name skipped =>
    exact .bind ((slotOfType_refuses type name skipped t).mono fun _ => hkept) fun _ _ _ => .pure _
  | createLabel =>
    refine .bind ?_ fun _ _ _ => .pure _
    obtain ⟨_, h⟩ | ⟨_, h⟩ := createLabel_cases t
    · exact .of_error h (iff_of_true rfl id)
    · exact .of_ok h
  | getOrCreateLabel name => exact .bind (getOrCreateLabel_refuses name t) fun _ _ _ => .pure _
  | nameLabel l name =>
    exact .bind ((nameLabel_refuses l name t).mono fun _ => hkept) fun _ _ _ => .pure _

end SymbolCommand

namespace Session

open Edit

variable {s s' : Session} {α : Type}

/-- Code and cursor are as before, and so are slots and labels unless the command strays. -/
structure Left (strays : Prop) (s s' : Session) : Prop where
  code : s'.code = s.code
  cursor : s'.cursor = s.cursor
  table : s'.symbols.checkpoint = s.symbols.checkpoint ↔ ¬strays

theorem Left.of_same {strays : Prop} (h : ¬strays) (hs : s' = s) : Left strays s s' := by
  subst hs
  exact ⟨rfl, rfl, iff_of_true rfl h⟩

theorem Restored.left (h : s.Restored s') : Left False s s' where
  code := h.code
  cursor := h.cursor
  table := iff_of_true (by rw [Symbols.checkpoint, h.slots, h.labels]; rfl) id

theorem left_of_drawn {strays : Prop} (h : ¬strays) :
    Left strays s { s with symbols := s.symbols.drawn } := ⟨rfl, rfl, iff_of_true rfl h⟩

theorem attachLabelAt_refuses (hs : Synced s.code s.symbols) {position : Nat}
    (hp : position < s.length) (hnew : s.symbols.place? s.symbols.source.next = none)
    {symbols : Symbols} (hl : symbols.status s.symbols.source.next ≠ none) {Q : Session → Prop} :
    Refuses (attachLabelAt position s.symbols.source.next) { s with symbols } Q :=
  .of_ok (attachLabelAt_new hs hp (hs.regular.status_eq_none_iff_place?.2 hnew) hl)

/-- A label for a free name is made at an instruction. Only a name that is not allowed leaves the
label behind. -/
theorem makeNamed_refuses (hs : Synced s.code s.symbols) {position : Nat} (hp : position < s.length)
    {name : String} (hf : s.symbols.labelNamed? name = none) :
    Refuses (do
      let label ← onSymbols Symbols.createLabel
      onSymbols (Symbols.nameLabel label name)
      attachLabelAt position label
      return label) s (s.Left (s.symbols.Misnames name)) := by
  obtain ⟨hknown, h⟩ | ⟨hnew, h⟩ := onSymbols_createLabel_cases s
  · refine .bind (.of_error h (left_of_drawn fun hstrays => hknown hstrays.2.1)) fun _ _ hu => ?_
    cases h.symm.trans hu
  refine .bind (.of_ok h) fun _ _ hu => ?_
  cases h.symm.trans hu
  by_cases hname : memberNameFault? name = none
  · have hnamed : onSymbols (Symbols.nameLabel s.symbols.source.next name)
        { s with symbols := s.symbols.minted } = (.ok ⟨⟩, { s with
          symbols := s.symbols.minted.modifyLabel s.symbols.source.next
            fun entry => { entry with name } }) := by
      rw [onSymbols, Symbols.minted, Symbols.nameLabel_new (t := s.symbols.drawn) hnew hf hname]
    refine .bind (.of_ok hnamed) fun _ _ hu => ?_
    cases hnamed.symm.trans hu
    refine .bind (attachLabelAt_refuses hs hp hnew ?_) fun _ _ _ => .pure _
    have hregular := (Symbols.extends_minted hnew).regular hs.regular
    rw [hregular.known_modifyLabel, hs.regular.known_minted]
    exact .inl rfl
  · obtain ⟨e, he⟩ := Symbols.nameLabel_of_fault hname s.symbols.source.next s.symbols.minted
    have hrefused : onSymbols (Symbols.nameLabel s.symbols.source.next name)
        { s with symbols := s.symbols.minted } =
          (.error e, { s with symbols := s.symbols.minted }) := by
      rw [onSymbols, he]
    have hstrays : s.symbols.Misnames name := ⟨hf, hnew, hname⟩
    refine .bind (.of_error hrefused ⟨rfl, rfl, ?_⟩) fun _ _ hu => ?_
    · exact iff_of_false (Symbols.checkpoint_minted_ne hnew) (not_not_intro hstrays)
    · cases hrefused.symm.trans hu

theorem labelAt_refuses (hs : Synced s.code s.symbols) (position : Nat) (name : Option String)
    (make : Bool) :
    Refuses (labelAt position name make) s
      (s.Left ((SessionCommand.labelAt position name make).Strays s)) := by
  unfold labelAt
  refine .get (.lift (fun e he => .of_same (fun hstrays => ?_) rfl) fun i hi => ?_)
  · cases name with
    | none => exact hstrays
    | some name =>
      rw [Code.at?_eq_ok_iff.2 (List.getElem?_eq_getElem hstrays.2.1)] at he
      cases he
  have hp : position < s.length := (List.getElem?_eq_some_iff.1 (Code.at?_eq_ok_iff.1 hi)).1
  cases name with
  | none =>
    dsimp only
    split
    · exact .pure _
    · split
      · exact .throw (.of_same id rfl)
      · obtain ⟨_, h⟩ | ⟨hnew, h⟩ := onSymbols_createLabel_cases s
        · exact .bind (.of_error h (left_of_drawn id)) fun _ _ hu => by cases h.symm.trans hu
        · refine .bind (.of_ok h) fun _ _ hu => ?_
          cases h.symm.trans hu
          refine .bind (attachLabelAt_refuses hs hp hnew ?_) fun _ _ _ => .pure _
          exact (hs.regular.known_minted _).2 (.inl rfl)
  | some name =>
    dsimp only
    split
    · rename_i entry hf
      split
      · exact .pure _
      · refine .throw (.of_same (fun hstrays => ?_) rfl)
        cases hf.symm.trans hstrays.2.2.1
    · rename_i hf
      cases make with
      | false => exact .throw (.of_same (fun hstrays => by cases hstrays.1) rfl)
      | true =>
        refine .mono (makeNamed_refuses hs hp hf) fun t ht => ⟨ht.code, ht.cursor, ?_⟩
        rw [ht.table]
        exact not_congr ⟨fun h => ⟨rfl, hp, h⟩, fun h => h.2.2⟩

theorem seek_refuses (holds : Session → Bool) (s : Session) :
    Refuses (seek holds) s (· = s) := by
  obtain ⟨e, h⟩ | ⟨position, _, h⟩ := seek_cases holds s
  · exact .of_error h rfl
  · exact .of_ok h

theorem rewind_refuses (holds : Session → Bool) (s : Session) :
    Refuses (rewind holds) s (· = s) := by
  obtain ⟨e, h⟩ | ⟨position, _, h⟩ := rewind_cases holds s
  · exact .of_error h rfl
  · exact .of_ok h

theorem seekChain_refuses (toStart : Bool) (chain : List (Session → Bool)) (s : Session) :
    Refuses (seekChain toStart chain) s (· = s) := by
  obtain ⟨e, h⟩ | ⟨position, _, h⟩ := seekChain_cases toStart chain s
  · exact .of_error h rfl
  · exact .of_ok h

theorem targetLabel_refuses (s : Session) : Refuses targetLabel s (· = s) := by
  refine .get ?_
  split
  · exact .pure _
  · exact .throw rfl

theorem attachLabel_refuses (label : Label) (s : Session) :
    Refuses (attachLabel label) s (· = s) := by
  obtain ⟨e, h⟩ | ⟨code, _, _, h⟩ := attachLabelAt_cases s.cursor label s
  · exact .of_error h rfl
  · exact .of_ok h

theorem nameCurrentSlot_refuses (name : String) (s : Session) :
    Refuses (nameCurrentSlot name) s (· = s) := by
  refine .get ?_
  split
  · refine refuses_onSymbols ((Symbols.nameSlot_refuses _ name s.symbols).mono fun _ hu => ?_)
    rw [hu]
  · exact .throw rfl

theorem rewrite_refuses (opcode : Opcode) (operand : Operand) (s : Session) :
    Refuses (rewrite opcode operand) s (· = s) := by
  obtain ⟨e, h⟩ | ⟨i, _, _, h⟩ := rewrite_cases opcode operand s
  · exact .of_error h rfl
  · exact .of_ok h

theorem insertBefore_refuses (i : Instruction) (s : Session) :
    Refuses (insertBefore i) s (· = s) := by
  obtain ⟨e, h⟩ | ⟨_, _, _, h⟩ := insertBefore_cases i s
  · exact .of_error h rfl
  · exact .of_ok h

theorem insertAfter_refuses (i : Instruction) (s : Session) :
    Refuses (insertAfter i) s (· = s) := by
  obtain ⟨e, h⟩ | ⟨_, _, _, h⟩ := insertAfter_cases i s
  · exact .of_error h rfl
  · exact .of_ok h

theorem removeCurrent_refuses (s : Session) : Refuses removeCurrent s (· = s) := by
  obtain ⟨e, h⟩ | ⟨removed, code, _, _, h⟩ := removeCurrent_cases s
  · exact .of_error h rfl
  · exact .of_ok h

end Session

namespace SessionCommand

open Edit Session Workbench

theorem find_refuses (direction : Direction) (holds : Session → Bool) (s : Session) :
    Refuses (find direction holds) s (· = s) := by
  cases direction with
  | forward => exact seek_refuses holds s
  | backward => exact rewind_refuses holds s

/-- What a refused command leaves, one case for each command. -/
theorem refuses_run (command : SessionCommand) {w : Workbench} (hs : w.session.Sound) :
    Refuses command.run w fun w' => w.session.Left (command.Strays w.session) w'.session := by
  have hsame {α : Type} {op : Edit Session α} (h : Refuses op w.session (· = w.session))
      (answer : α → Answer) : Refuses (onSession op >>= fun a => pure (answer a)) w fun w' =>
        w.session.Left False w'.session :=
    refuses_answer (h.mono fun _ => .of_same id) answer
  cases command with
  | length | look | instructionAt | check | slotAt | unplacedLabels | positionOf | argumentIndex =>
    exact .get (.pure _)
  | moveTo | moveBy | moveToFirst | moveToLast => exact .of_ok rfl
  | search direction holds => exact hsame (find_refuses direction holds _) _
  | searchMember direction member =>
    refine refuses_chosen member (.of_same id rfl) fun member chosen heq => refuses_answer ?_ _
    exact (find_refuses direction _ chosen.session).mono fun _ h => .of_same id (h.trans heq)
  | seekChain toStart chain => exact hsame (seekChain_refuses toStart chain _) _
  | checkMember member =>
    exact refuses_chosen member (.of_same id rfl) fun _ _ _ => .get (.pure _)
  | labelAt position name make =>
    exact refuses_answer (labelAt_refuses hs.synced position name make) _
  | currentLabel make => exact refuses_answer (labelAt_refuses hs.synced _ none make) _
  | targetLabel => exact hsame (targetLabel_refuses _) _
  | attachLabel l => exact hsame (attachLabel_refuses l _) _
  | nameCurrentSlot name => exact hsame (nameCurrentSlot_refuses name _) _
  | rewrite opcode operand => exact hsame (rewrite_refuses opcode operand _) _
  | insertBefore i => exact hsame (insertBefore_refuses i _) _
  | insertAfter i => exact hsame (insertAfter_refuses i _) _
  | removeCurrent => exact hsame (removeCurrent_refuses _) _
  | blankCurrent =>
    refine hsame ?_ _
    rw [blankCurrent_eq_rewrite]
    exact rewrite_refuses .nop .none _
  | symbols command =>
    refine refuses_onSession (refuses_onSymbols ?_)
    exact (command.refuses_run w.session.symbols).mono fun _ h => ⟨rfl, rfl, h⟩
  | _ => exact fun e w' he => (restored_of_run rfl hs he).left

end SessionCommand

namespace Session

/-- Whatever its arguments, a refused command of a symbol table leaves slots and labels as they were
exactly if it does not stray. A refused command of a session leaves code and cursor as they were in
any case, and slots and labels exactly if it does not stray. -/
theorem left_by_refused (t : Symbols) {s : Session} (hs : s.Reachable) :
    (∀ (command : SymbolCommand) (u : Symbols) (e : EditError), command.run t = (.error e, u) →
      ((u.slots = t.slots ∧ u.labels = t.labels) ↔ ¬command.Strays t)) ∧
    ∀ (command : SessionCommand) (resolver : Resolver) (w : Workbench) (e : EditError),
      command.run ⟨resolver, s⟩ = (.error e, w) →
        w.session.code = s.code ∧ w.session.cursor = s.cursor ∧
        ((w.session.symbols.slots = s.symbols.slots ∧
          w.session.symbols.labels = s.symbols.labels) ↔ ¬command.Strays s) := by
  refine ⟨fun command u e he => ?_, fun command resolver w e he => ?_⟩
  · rw [← Symbols.checkpoint_eq_iff]
    exact command.refuses_run t e u he
  · have hleft := command.refuses_run (w := ⟨resolver, s⟩) hs.sound e w he
    rw [← Symbols.checkpoint_eq_iff]
    exact ⟨hleft.code, hleft.cursor, hleft.table⟩

/-- Naming a slot that is not there, and placing a label that is not known. -/
theorem left_by_refused_in_sample :
    ∃ u w,
      (SymbolCommand.nameSlot 0 "count").run Sample.session.symbols =
        (.error (.unknownLocal (.index 0)), u) ∧
      u.labels = Sample.session.symbols.labels ∧
      (SessionCommand.attachLabel ⟨7⟩).run ⟨{}, Sample.session⟩ =
        (.error (.unknownLabel (.label ⟨7⟩)), w) ∧
      w.session.symbols.labels = Sample.session.symbols.labels := by
  obtain ⟨htable, hsession⟩ := left_by_refused Sample.session.symbols Sample.reachable_session
  obtain ⟨u, hu⟩ : ∃ u, (SymbolCommand.nameSlot 0 "count").run Sample.session.symbols =
      (.error (.unknownLocal (.index 0)), u) := ⟨_, rfl⟩
  obtain ⟨w, hw⟩ : ∃ w, (SessionCommand.attachLabel ⟨7⟩).run ⟨{}, Sample.session⟩ =
      (.error (.unknownLabel (.label ⟨7⟩)), w) := ⟨_, rfl⟩
  have hnamed := htable _ _ _ hu
  have hattached := hsession _ _ _ _ hw
  exact ⟨u, w, hu, (hnamed.2 id).2, hw, (hattached.2.2.2 id).2⟩

/-- With a name that is not allowed, a label is made and stays, though the command is refused. -/
theorem label_stays_though_refused :
    ∃ fault u w,
      (SymbolCommand.getOrCreateLabel (some "two words")).run Sample.session.symbols =
        (.error (.invalidName fault), u) ∧
      u.labels ≠ Sample.session.symbols.labels ∧
      (SessionCommand.labelAt 1 (some "two words") true).run ⟨{}, Sample.session⟩ =
        (.error (.invalidName fault), w) ∧
      w.session.symbols.labels ≠ Sample.session.symbols.labels :=
  ⟨_, _, _, rfl, by decide, rfl, by decide⟩

end Session

end MethodEdit
