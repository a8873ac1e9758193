import MethodEdit.Proofs.Symbols.Names

/-!
Going back to a checkpoint. Slots and labels are saved and the index is made anew, so the table is
what it was, except that the source goes on from where it is. Whoever asks the source for nothing
cannot tell the difference, and whoever does gets labels that nobody had before.
-/
namespace MethodEdit.Symbols

open Edit

variable {t u : Symbols} {label : Label}

/-- The index is the one that would be made anew. -/
def Tidy (t : Symbols) : Prop := t.index = indexOf t.labels

theorem indexOf_eq (labels : List LabelEntry) :
    indexOf labels = (labels.map (·.label)).zipIdx.reverse := by
  rw [indexOf, List.zipIdx_map]
  rfl

theorem Tidy.modifyLabel (h : t.Tidy) (label : Label) {f : LabelEntry → LabelEntry}
    (hf : ∀ entry, (f entry).label = entry.label) : (t.modifyLabel label f).Tidy := by
  rw [Tidy, index_modifyLabel, h, indexOf_eq, indexOf_eq, map_modifyLabel t label hf]

theorem Tidy.registerLabel (h : t.Tidy) (label : Label) (attached : Bool) :
    (t.registerLabel label attached).Tidy := by
  cases hp : t.place? label with
  | some place =>
    rw [registerLabel_of_known hp]
    split
    · exact h.modifyLabel label fun _ => rfl
    · exact h
  | none =>
    rw [registerLabel_of_new hp, Tidy, indexOf_append, h]

theorem Tidy.registerEach (h : t.Tidy) (labels : List Label) (attached : Label → Bool) :
    (t.registerEach labels attached).Tidy := by
  induction labels generalizing t with
  | nil => exact h
  | cons label rest ih => exact ih (h.registerLabel label (attached label))

/-- The table goes on with the same stems and the same source, which does not go back, and its index
stays in order. -/
structure Continues (t u : Symbols) : Prop where
  slotStem : u.slotStem = t.slotStem
  labelStem : u.labelStem = t.labelStem
  labels : u.source.labels = t.source.labels
  used : t.source.used ≤ u.source.used
  tidy : t.Tidy → u.Tidy

theorem Continues.refl (t : Symbols) : t.Continues t := ⟨rfl, rfl, rfl, Nat.le_refl _, id⟩

theorem Continues.trans {v : Symbols} (h₁ : t.Continues u) (h₂ : u.Continues v) :
    t.Continues v where
  slotStem := h₂.slotStem.trans h₁.slotStem
  labelStem := h₂.labelStem.trans h₁.labelStem
  labels := h₂.labels.trans h₁.labels
  used := Nat.le_trans h₁.used h₂.used
  tidy h := h₂.tidy (h₁.tidy h)

theorem Grows.continues (h : t.Grows u) (htidy : t.Tidy → u.Tidy) : t.Continues u :=
  ⟨h.slotStem, h.labelStem, h.source.1, h.source.2, htidy⟩

theorem continues_registerLabel (t : Symbols) (label : Label) (attached : Bool) :
    t.Continues (t.registerLabel label attached) :=
  (grows_registerLabel t label attached).continues fun h => h.registerLabel label attached

theorem continues_markAttached (t : Symbols) (label : Label) :
    t.Continues (t.markAttached label) :=
  (grows_markAttached t label).continues fun h => h.modifyLabel label fun _ => rfl

theorem continues_rollback (t : Symbols) (c : Checkpoint) : t.Continues (t.rollback c) :=
  ⟨rfl, rfl, rfl, Nat.le_refl _, fun _ => rfl⟩

def withSource (t : Symbols) (source : LabelSource) : Symbols := { t with source }

theorem Continues.rollback_eq (h : t.Continues u) (ht : t.Tidy) :
    u.rollback t.checkpoint = t.withSource u.source := by
  have hindex : indexOf t.labels = t.index := ht.symm
  simp only [rollback, checkpoint, withSource, h.slotStem, h.labelStem, hindex]

/-- The labels that become known are those that the source has handed out meanwhile. -/
structure Mints (t u : Symbols) : Prop extends t.Continues u where
  ids : ∀ label ∈ u.ids, label ∈ t.ids ∨
    ∃ n, t.source.used ≤ n ∧ n < u.source.used ∧ label = t.source.labels n

theorem Continues.mints (h : t.Continues u) (hids : u.ids = t.ids) : t.Mints u :=
  ⟨h, fun _ hl => .inl (hids ▸ hl)⟩

instance : IsPreorder Symbols Mints where
  refl t := (Continues.refl t).mints rfl
  trans t u v h₁ h₂ := by
    refine ⟨h₁.toContinues.trans h₂.toContinues, fun label hv => ?_⟩
    have hu := h₁.used
    have hv' := h₂.used
    obtain hl | ⟨n, hle, hlt, hlabel⟩ := h₂.ids label hv
    · obtain hl | ⟨n, hle, hlt, hlabel⟩ := h₁.ids label hl
      · exact .inl hl
      · exact .inr ⟨n, hle, by omega, hlabel⟩
    · exact .inr ⟨n, by omega, hlt, by rw [hlabel, h₁.labels]⟩

theorem mints_declareSlot (type : Ty) : Moves Mints (declareSlot type) := by
  intro t
  have hgrows : t.Grows (t.withSlot type) := (extends_withSlot t type).toGrows
  exact (hgrows.continues id).mints rfl

theorem mints_nameSlot (index : UInt16) (name : String) : Moves Mints (nameSlot index name) := by
  intro t
  obtain ⟨hextends, slots, heq⟩ := reslots_nameSlot index name t
  rw [heq] at hextends ⊢
  exact (hextends.toGrows.continues id).mints rfl

theorem mints_drawn (t : Symbols) : t.Mints t.drawn :=
  ((extends_drawn t).toGrows.continues id).mints rfl

theorem mints_createLabel : Moves Mints createLabel := by
  intro t
  obtain ⟨_, hrun⟩ | ⟨hnew, hrun⟩ := createLabel_cases t
  · rw [hrun]
    exact mints_drawn t
  · rw [hrun]
    have hcontinues := (mints_drawn t).toContinues.trans
      (continues_registerLabel t.drawn t.source.next false)
    refine ⟨hcontinues, fun label hl => ?_⟩
    have hids : t.minted.ids = t.ids ++ [t.source.next] :=
      ids_registerLabel_of_new (t := t.drawn) hnew false
    obtain hl | hl := List.mem_append.1 (hids ▸ hl)
    · exact .inl hl
    · have hused : t.minted.source.used = t.source.used + 1 := by
        rw [source_minted, LabelSource.advance]
      exact .inr ⟨t.source.used, Nat.le_refl _, by rw [hused]; omega, List.mem_singleton.1 hl⟩

theorem mints_nameLabel (label : Label) (name : String) : Moves Mints (nameLabel label name) := by
  intro t
  obtain ⟨e, hrun⟩ | ⟨-, hrun⟩ := nameLabel_cases label name t
  · rw [hrun]
    exact refl_of Mints t
  · rw [hrun]
    have hgrows : t.Grows (t.modifyLabel label fun entry => { entry with name }) :=
      grows_modifyLabel t label (fun _ => rfl) fun _ h => h
    have hcontinues := hgrows.continues fun h => h.modifyLabel label fun _ => rfl
    exact hcontinues.mints (ids_modifyLabel t label fun _ => rfl)

theorem mints_run (command : SymbolCommand) : Moves Mints command.run :=
  command.moves_run_of mints_declareSlot mints_nameSlot mints_createLabel mints_nameLabel

/-- The operation does the same whatever source the table has, and leaves the source alone. -/
def Blind {α : Type} (op : Edit Symbols α) (t : Symbols) : Prop :=
  ∀ source, op (t.withSource source) = ((op t).1, (op t).2.withSource source)

namespace Blind

variable {α β : Type} {op : Edit Symbols α} {next : α → Edit Symbols β}

theorem pure (a : α) : Blind (Pure.pure a) t := fun _ => rfl

theorem throw (e : EditError) : Blind (MonadExcept.throw e : Edit Symbols α) t := fun _ => rfl

theorem bind (h : Blind op t) (hn : ∀ a u, op t = (.ok a, u) → Blind (next a) u) :
    Blind (op >>= next) t := by
  intro source
  rw [run_bind, run_bind, h source]
  cases heq : op t with
  | mk result u =>
    cases result with
    | error e => rfl
    | ok a => exact hn a u heq source

theorem get {next : Symbols → Edit Symbols β}
    (hsame : ∀ source, next (t.withSource source) = next t) (h : Blind (next t) t) :
    Blind (MonadState.get >>= next) t := by
  intro source
  rw [run_bind, run_bind, run_get, run_get]
  exact (congrFun (hsame source) _).trans (h source)

end Blind

theorem blind_checkName (name : String) (t : Symbols) : Blind (checkName name) t := by
  unfold checkName
  split
  · exact .throw _
  · exact .pure _

theorem blind_declareSlot (type : Ty) (t : Symbols) : Blind (declareSlot type) t := fun _ => rfl

theorem slot?_withSource (t : Symbols) (source : LabelSource) (index : UInt16) :
    (t.withSource source).slot? index = t.slot? index := rfl

theorem slotNamed?_withSource (t : Symbols) (source : LabelSource) (name : String) :
    (t.withSource source).slotNamed? name = t.slotNamed? name := rfl

theorem place?_withSource (t : Symbols) (source : LabelSource) (label : Label) :
    (t.withSource source).place? label = t.place? label := rfl

theorem labelNamed?_withSource (t : Symbols) (source : LabelSource) (name : String) :
    (t.withSource source).labelNamed? name = t.labelNamed? name := rfl

theorem modifyLabel_withSource (t : Symbols) (source : LabelSource) (label : Label)
    (f : LabelEntry → LabelEntry) :
    (t.withSource source).modifyLabel label f = (t.modifyLabel label f).withSource source := by
  unfold modifyLabel
  rw [place?_withSource]
  split <;> rfl

theorem registerLabel_withSource (t : Symbols) (source : LabelSource) (label : Label)
    (attached : Bool) :
    (t.withSource source).registerLabel label attached =
      (t.registerLabel label attached).withSource source := by
  unfold registerLabel
  rw [place?_withSource]
  split
  · split
    · exact modifyLabel_withSource t source label _
    · rfl
  · rfl

theorem blind_nameSlot (index : UInt16) (name : String) (t : Symbols) :
    Blind (nameSlot index name) t := by
  unfold nameSlot
  refine .bind (blind_checkName name t) fun _ u _ source => ?_
  simp only [run_bind, run_get, slot?_withSource]
  cases u.slot? index with
  | none => rfl
  | some slot =>
    by_cases hsame : slot.name = name
    · simp [hsame]
    · by_cases hnamed : slot.named = true
      · simp [hsame, hnamed]
      · by_cases htaken : (u.slotNamed? name).isSome = true
        · simp [hsame, hnamed, slotNamed?_withSource, htaken]
        · simp [hsame, hnamed, slotNamed?_withSource, htaken]
          rfl

theorem blind_nameLabel (label : Label) (name : String) (t : Symbols) :
    Blind (nameLabel label name) t := by
  unfold nameLabel
  refine .bind (blind_checkName name t) fun _ u _ source => ?_
  simp only [run_bind, run_get, place?_withSource, labelNamed?_withSource]
  by_cases hunknown : (u.place? label).isNone = true
  · simp [hunknown]
  · by_cases htaken : (u.labelNamed? name).any (·.label != label) = true
    · simp [hunknown, htaken]
    · simp [hunknown, htaken, modifyLabel_withSource]

theorem blind_getOrCreateSlot (type : Option Ty) (name : Option String) (t : Symbols) :
    Blind (getOrCreateSlot type name) t := by
  unfold getOrCreateSlot
  refine .get (fun _ => rfl) ?_
  split
  · split
    · exact .pure _
    · exact .throw _
  · exact .pure _
  · refine .bind (blind_checkName _ t) fun _ u _ => ?_
    exact .bind (blind_declareSlot _ u) fun slot v _ => blind_nameSlot slot.index _ v
  · exact blind_declareSlot _ t
  · exact .throw _
  · exact .throw _

theorem blind_slotOfType (type : Ty) (name : Option String) (skipped : Nat) (t : Symbols) :
    Blind (slotOfType type name skipped) t := by
  unfold slotOfType
  refine .get (fun _ => rfl) ?_
  split
  · split
    · exact blind_nameSlot _ _ t
    · split
      · exact .pure _
      · exact .throw _
  · exact .throw _

theorem lt_used_createLabel (t : Symbols) : t.source.used < (createLabel t).2.source.used := by
  obtain ⟨_, hrun⟩ | ⟨_, hrun⟩ := createLabel_cases t
  · rw [hrun]
    exact Nat.lt_succ_self _
  · rw [hrun, source_minted]
    exact Nat.lt_succ_self _

theorem lt_used_getOrCreateLabel {name : Option String} (h : name.bind t.labelNamed? = none) :
    t.source.used < (getOrCreateLabel name t).2.source.used := by
  unfold getOrCreateLabel
  rw [run_bind, run_get]
  simp only [h]
  have hcreate := lt_used_createLabel t
  refine Nat.lt_of_lt_of_le hcreate (rel_after (R := Mints) (fun label => ?_) t).used
  split
  · exact .bind (mints_nameLabel label _) fun _ => .pure label
  · exact .pure label

theorem blind_getOrCreateLabel (name : Option String) (t : Symbols)
    (h : (getOrCreateLabel name t).2.source.used = t.source.used) :
    Blind (getOrCreateLabel name) t := by
  cases hfound : name.bind t.labelNamed? with
  | some entry =>
    unfold getOrCreateLabel
    refine .get (fun _ => rfl) ?_
    rw [hfound]
    exact .pure _
  | none =>
    have hlt := lt_used_getOrCreateLabel hfound
    omega

theorem blind_run (command : SymbolCommand) (t : Symbols)
    (h : (command.run t).2.source.used = t.source.used) : Blind command.run t := by
  cases command with
  | slot | slotNamed | slotFor | label | labelNamed => exact fun _ => rfl
  | declareSlot type => exact .bind (blind_declareSlot type t) fun _ _ _ => .pure _
  | getOrCreateSlot type name =>
    exact .bind (blind_getOrCreateSlot type name t) fun _ _ _ => .pure _
  | nameSlot index name => exact .bind (blind_nameSlot index name t) fun _ _ _ => .pure _
  | slotOfType type name skipped =>
    exact .bind (blind_slotOfType type name skipped t) fun _ _ _ => .pure _
  | createLabel =>
    have hlt := lt_used_createLabel t
    rw [SymbolCommand.run, snd_bind_pure] at h
    omega
  | getOrCreateLabel name =>
    rw [SymbolCommand.run, snd_bind_pure] at h
    exact .bind (blind_getOrCreateLabel name t h) fun _ _ _ => .pure _
  | nameLabel label name => exact .bind (blind_nameLabel label name t) fun _ _ _ => .pure _

namespace History

variable {h : History}

def withSource (h : History) (source : LabelSource) : History :=
  { h with table := h.table.withSource source }

def answer? (h : History) : Step → Option (Except EditError Answer)
  | .command command => some (command.run h.table).1
  | _ => none

def created (h : History) : Step → List Label
  | .command command => (command.run h.table).2.ids.filter (· ∉ h.table.ids)
  | _ => []

def answersAlong (h : History) : List Step → List (Except EditError Answer)
  | [] => []
  | step :: rest => (h.answer? step).toList ++ (h.step step).answersAlong rest

def createdAlong (h : History) : List Step → List Label
  | [] => []
  | step :: rest => h.created step ++ (h.step step).createdAlong rest

theorem continues_step (h : History) (step : Step) :
    h.table.Continues (h.step step).table := by
  cases step with
  | command command => exact (mints_run command h.table).toContinues
  | register label attached => exact continues_registerLabel h.table label attached
  | attach label => exact continues_markAttached h.table label
  | save => exact .refl h.table
  | restore number =>
    simp only [History.step]
    split
    · exact continues_rollback h.table _
    · exact .refl h.table

theorem continues_run (h : History) (steps : List Step) :
    h.table.Continues (h.run steps).table := by
  induction steps generalizing h with
  | nil => exact .refl h.table
  | cons step rest ih => exact (h.continues_step step).trans (ih (h.step step))

theorem step_withSource (step : Step)
    (hused : (h.step step).table.source.used = h.table.source.used) (source : LabelSource) :
    (h.withSource source).step step = (h.step step).withSource source ∧
      (h.withSource source).answer? step = h.answer? step := by
  cases step with
  | command command =>
    have hrun := blind_run command h.table hused source
    simp only [History.step, answer?, withSource, hrun, and_self]
  | register label attached =>
    exact ⟨congrArg (History.mk · h.saved) (registerLabel_withSource h.table source label attached),
      rfl⟩
  | attach label =>
    exact ⟨congrArg (History.mk · h.saved) (modifyLabel_withSource h.table source label _), rfl⟩
  | save => exact ⟨rfl, rfl⟩
  | restore number =>
    refine ⟨?_, rfl⟩
    simp only [History.step, withSource]
    split <;> rfl

theorem run_withSource (steps : List Step)
    (hused : (h.run steps).table.source.used = h.table.source.used) (source : LabelSource) :
    (h.withSource source).run steps = (h.run steps).withSource source ∧
      (h.withSource source).answersAlong steps = h.answersAlong steps := by
  induction steps generalizing h with
  | nil => exact ⟨rfl, rfl⟩
  | cons step rest ih =>
    -- the source never goes back, so it stands still in every single step
    have hfirst := (h.continues_step step).used
    have hrest := ((h.step step).continues_run rest).used
    have hused' : ((h.step step).run rest).table.source.used = h.table.source.used := hused
    obtain ⟨hstep, hanswer⟩ := step_withSource (h := h) step (by omega) source
    obtain ⟨hrun, hanswers⟩ := ih (h := h.step step) (by omega)
    constructor
    · calc
        (h.withSource source).run (step :: rest)
          = ((h.withSource source).step step).run rest := rfl
        _ = ((h.step step).withSource source).run rest := by rw [hstep]
        _ = (h.run (step :: rest)).withSource source := hrun
    · rw [answersAlong, answersAlong, hstep, hanswer, hanswers]

/-- What is created along the way comes out of the source, in this stretch of it. -/
theorem exists_of_mem_createdAlong {steps : List Step} (hl : label ∈ h.createdAlong steps) :
    ∃ n, h.table.source.used ≤ n ∧ n < (h.run steps).table.source.used ∧
      label = h.table.source.labels n := by
  induction steps generalizing h with
  | nil => simp [createdAlong] at hl
  | cons step rest ih =>
    have hstep := h.continues_step step
    have hrest := (h.step step).continues_run rest
    have hlater : ((h.step step).run rest).table.source.used =
      (h.run (step :: rest)).table.source.used := rfl
    have hused := hrest.used
    obtain hl | hl := List.mem_append.1 hl
    · cases step with
      | command command =>
        obtain ⟨hafter, hbefore⟩ := List.mem_filter.1 hl
        obtain hknown | ⟨n, hle, hlt, heq⟩ := (mints_run command h.table).ids label hafter
        · simp [hknown] at hbefore
        · exact ⟨n, hle, Nat.lt_of_lt_of_le hlt hused, heq⟩
      | _ => simp [created] at hl
    · obtain ⟨n, hle, hlt, heq⟩ := ih hl
      exact ⟨n, Nat.le_trans hstep.used hle, hlt, by rw [heq, hstep.labels]⟩

/-- The table after a checkpoint, anything in between, and the way back to the checkpoint. -/
def returned (h : History) (between : List Step) : Symbols :=
  ((h.step .save).run between).table.rollback h.table.checkpoint

theorem returned_eq (ht : h.table.Tidy) (between : List Step) :
    h.returned between = h.table.withSource ((h.step .save).run between).table.source :=
  ((h.step .save).continues_run between).rollback_eq ht

theorem source_returned (h : History) (steps between : List Step) :
    ((h.run steps).returned between).source =
      (h.run (steps ++ .save :: between)).table.source := by
  simp [returned, rollback, run]

theorem created_once {first : Label} (hsource : h.table.source = .countingFrom first)
    (steps between later : List Step) (saved : List Checkpoint)
    (hbefore : label ∈ h.createdAlong (steps ++ .save :: between)) :
    label ∉ createdAlong ⟨(h.run steps).returned between, saved⟩ later := by
  intro hafter
  have hcontinues := h.continues_run (steps ++ .save :: between)
  have hback := h.source_returned steps between
  obtain ⟨n, -, hlt, hn⟩ := exists_of_mem_createdAlong hbefore
  obtain ⟨m, hle, -, hm⟩ := exists_of_mem_createdAlong hafter
  simp only [hback, hcontinues.labels, hsource] at hn hle hm
  have hsame : first.id + n = first.id + m := congrArg Label.id (hn.symm.trans hm)
  omega

end History

/-- The other table has the slots and the labels of this one and answers in the same way, and
whatever is done to it without asking the source gives the same results. -/
structure Resembles (t u : Symbols) : Prop where
  slots : u.slots = t.slots
  labels : u.labels = t.labels
  slot? : ∀ index, u.slot? index = t.slot? index
  slotNamed? : ∀ name, u.slotNamed? name = t.slotNamed? name
  label? : ∀ label, u.label? label = t.label? label
  labelNamed? : ∀ name, u.labelNamed? name = t.labelNamed? name
  later : ∀ saved later, (History.run ⟨t, saved⟩ later).table.source.used = t.source.used →
    History.answersAlong ⟨u, saved⟩ later = History.answersAlong ⟨t, saved⟩ later ∧
    History.run ⟨u, saved⟩ later = (History.run ⟨t, saved⟩ later).withSource u.source

theorem resembles_withSource (t : Symbols) (source : LabelSource) :
    t.Resembles (t.withSource source) where
  slots := rfl
  labels := rfl
  slot? _ := rfl
  slotNamed? _ := rfl
  label? _ := rfl
  labelNamed? _ := rfl
  later saved later hused :=
    (History.run_withSource (h := ⟨t, saved⟩) later hused source).symm

theorem tidy_ofTypes (types : List Ty) (source : LabelSource) (settings : Settings) :
    (ofTypes types source settings).Tidy :=
  ofTypes_induction rfl fun _ _ ht => ht

def History.ofTypes (types : List Ty) (source : LabelSource) (settings : Settings) : History :=
  ⟨Symbols.ofTypes types source settings, []⟩

/-- Going back to a checkpoint undoes everything that was done since, nested checkpoints included,
except that the source goes on: with a source that counts, what is created after that was never
created before. -/
theorem rollback_undoes (types : List Ty) (source : LabelSource) (settings : Settings)
    (steps between : List Step) :
    ((History.ofTypes types source settings).run steps).table.Resembles
      (((History.ofTypes types source settings).run steps).returned between) ∧
    ∀ first, source = .countingFrom first → ∀ saved later,
      ∀ label ∈ (History.ofTypes types source settings).createdAlong (steps ++ .save :: between),
        label ∉ History.createdAlong
          ⟨((History.ofTypes types source settings).run steps).returned between, saved⟩ later := by
  have hcontinues := (History.ofTypes types source settings).continues_run steps
  have htidy := hcontinues.tidy (tidy_ofTypes types source settings)
  constructor
  · rw [History.returned_eq htidy]
    exact resembles_withSource _ _
  · intro first hsource saved later label hbefore
    have hstart : (History.ofTypes types source settings).table.source = .countingFrom first :=
      (source_ofTypes types source settings).trans hsource
    exact History.created_once hstart steps between later saved hbefore

namespace Sample

def blank : History := .ofTypes [] (.countingFrom ⟨0⟩) {}

def labelling : List Step :=
  [.command .createLabel, .save, .command .createLabel, .restore 0]

end Sample

/-- Labels 0 and 1 are gone but not made again; a search for the name of the first finds nothing, as
at the checkpoint. -/
theorem rollback_undoes_labelling :
    Sample.blank.createdAlong ([] ++ .save :: Sample.labelling) = [⟨0⟩, ⟨1⟩] ∧
    (∀ label ∈ [⟨0⟩, ⟨1⟩], label ∉ History.createdAlong
      ⟨Sample.blank.returned Sample.labelling, []⟩ [.command .createLabel]) ∧
    History.answersAlong ⟨Sample.blank.returned Sample.labelling, []⟩
      [.command (.labelNamed "L_0")] = [.ok (.entry none)] := by
  have hcreated : Sample.blank.createdAlong ([] ++ .save :: Sample.labelling) = [⟨0⟩, ⟨1⟩] := by
    decide +kernel
  obtain ⟨hresembles, hfresh⟩ := rollback_undoes [] (.countingFrom ⟨0⟩) {} [] Sample.labelling
  refine ⟨hcreated, fun label hlabel => ?_, ?_⟩
  · exact hfresh ⟨0⟩ rfl [] _ label (hcreated ▸ hlabel)
  · exact (hresembles.later [] [.command (.labelNamed "L_0")] rfl).1

end MethodEdit.Symbols
