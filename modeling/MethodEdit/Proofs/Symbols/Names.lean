import MethodEdit.Proofs.Symbols.Growth
import MethodEdit.Proofs.Symbols.Placeholders

/-!
Names tell slots apart, and labels too. A placeholder is always free, and a chosen name is only
accepted if it is free. So names, labels and the index stay in order however the table is used, also
when it goes back to a checkpoint.
-/
namespace MethodEdit

namespace Symbols

open Edit

variable {t u : Symbols}

/-- The names of the slots differ from each other, and so do those of the labels. -/
structure Distinct (t : Symbols) : Prop extends t.Regular where
  slotNames : (t.slots.map (·.name)).Nodup
  labelNames : (t.labels.map (·.name)).Nodup

theorem name_ne_of_slotNamed? {name : String} {slot : Slot} (h : t.slotNamed? name = none)
    (hs : slot ∈ t.slots) : slot.name ≠ name := by
  simpa using List.find?_eq_none.1 h slot hs

namespace Distinct

theorem withSlot (h : t.Distinct) (type : Ty) : (t.withSlot type).Distinct where
  toRegular := (extends_withSlot t type).regular h.toRegular
  slotNames := by
    have hfree := placeholder_notMem t.slotStem t.slots.length (t.slots.map (·.name))
    simpa [Symbols.withSlot, nextSlot] using h.slotNames.concat hfree
  labelNames := h.labelNames

theorem ofTypes (types : List Ty) (source : LabelSource) (settings : Settings) :
    (ofTypes types source settings).Distinct :=
  ofTypes_induction ⟨regular_ofTypes [] source settings, List.nodup_nil, List.nodup_nil⟩
    fun _ type ht => ht.withSlot type

theorem rename (h : t.Distinct) {place : Nat} {slot : Slot} (hs : t.slots[place]? = some slot)
    (hu : slot.named = false) {name : String} (hfree : t.slotNamed? name = none) :
    { t with slots := t.slots.set place { slot with name, named := true } }.Distinct where
  toRegular := (extends_set_slot hs hu name).regular h.toRegular
  slotNames := by
    have hnew : name ∉ t.slots.map (·.name) := by
      simpa [slotNamed?, List.find?_eq_none] using hfree
    simpa [List.map_set] using h.slotNames.set hnew
  labelNames := h.labelNames

theorem markAttached (h : t.Distinct) (label : Label) : (t.markAttached label).Distinct where
  toRegular := h.toRegular.markAttached label
  slotNames := by
    rw [Symbols.markAttached, slots_modifyLabel]
    exact h.slotNames
  labelNames := by
    have hnames := map_modifyLabel (g := (·.name))
      (f := fun entry => { entry with attached := true }) t label fun _ => rfl
    rw [Symbols.markAttached, hnames]
    exact h.labelNames

theorem registerLabel (h : t.Distinct) (label : Label) (attached : Bool) :
    (t.registerLabel label attached).Distinct := by
  cases hp : t.place? label with
  | some place =>
    rw [registerLabel_of_known hp]
    split
    · exact h.markAttached label
    · exact h
  | none =>
    have hregular := h.toRegular.registerLabel label attached
    rw [registerLabel_of_new hp] at hregular ⊢
    have hfree := placeholder_notMem t.labelStem t.labels.length (t.labels.map (·.name))
    exact ⟨hregular, h.slotNames, by simpa using h.labelNames.concat hfree⟩

theorem set_eq_self {names : List String} {place : Nat} {name : String}
    (h : names[place]? = some name) : names.set place name = names := by
  obtain ⟨hlt, rfl⟩ := List.getElem?_eq_some_iff.1 h
  exact List.set_getElem_self hlt

/-- A label gets a name that no other label has. It may have that name already. -/
theorem renameLabel (h : t.Distinct) {label : Label} {name : String}
    (hother : ∀ entry, t.labelNamed? name = some entry → entry.label = label) :
    (t.modifyLabel label fun entry => { entry with name }).Distinct where
  toRegular := h.toRegular.modifyLabel label fun _ => rfl
  slotNames := by
    rw [slots_modifyLabel]
    exact h.slotNames
  labelNames := by
    cases hp : t.place? label with
    | none => simpa [modifyLabel, hp] using h.labelNames
    | some place =>
      have hid := h.toRegular.place?_eq_some_iff.1 hp
      rw [ids, List.getElem?_map, Option.map_eq_some_iff] at hid
      obtain ⟨entry, he, hlabel⟩ := hid
      simp only [modifyLabel, hp, List.modify_eq_set_getElem?, he, Option.map_eq_map,
        Option.map_some, Option.getD_some, List.map_set]
      cases hf : t.labelNamed? name with
      | none =>
        have hnew : name ∉ t.labels.map (·.name) := by
          simpa [labelNamed?, List.find?_eq_none] using hf
        exact h.labelNames.set hnew
      | some found =>
        -- the label has the name already, so the names are what they were
        have hname : found.name = name := by simpa using List.find?_some hf
        have hfound := h.toRegular.label?_eq_some_iff.2
          ⟨List.mem_of_find?_eq_some hf, hother found hf⟩
        have hentry := h.toRegular.label?_eq_some_iff.2 ⟨List.mem_of_getElem? he, hlabel⟩
        cases hfound.symm.trans hentry
        rw [set_eq_self (by simp [he, hname])]
        exact h.labelNames

theorem rollback (h : t.Distinct) (u : Symbols) : (u.rollback t.checkpoint).Distinct where
  toRegular := h.toRegular.rollback u
  slotNames := h.slotNames
  labelNames := h.labelNames

end Distinct

def KeepsDistinct (t u : Symbols) : Prop := t.Distinct → u.Distinct

instance : IsPreorder Symbols KeepsDistinct where
  refl _ := id
  trans _ _ _ h₁ h₂ h := h₂ (h₁ h)

theorem distinct_declareSlot (type : Ty) : Moves KeepsDistinct (declareSlot type) :=
  fun _ h => h.withSlot type

theorem distinct_nameSlot (index : UInt16) (name : String) :
    Moves KeepsDistinct (nameSlot index name) := by
  intro t h
  obtain ⟨e, hrun⟩ | ⟨slot, _, _, hrun⟩ | ⟨slot, hs, hu, hfree, hrun⟩ := nameSlot_cases index name t
  · simpa [hrun] using h
  · simpa [hrun] using h
  · simpa [hrun] using h.rename hs hu hfree

theorem distinct_createLabel : Moves KeepsDistinct createLabel := by
  intro t h
  have hdrawn : t.drawn.Distinct :=
    ⟨(extends_drawn t).regular h.toRegular, h.slotNames, h.labelNames⟩
  obtain ⟨_, hrun⟩ | ⟨_, hrun⟩ := createLabel_cases t
  · simpa [hrun] using hdrawn
  · simpa [hrun, minted] using hdrawn.registerLabel t.source.next false

theorem distinct_nameLabel (label : Label) (name : String) :
    Moves KeepsDistinct (nameLabel label name) := by
  intro t h
  obtain ⟨e, hrun⟩ | ⟨hother, hrun⟩ := nameLabel_cases label name t
  · simpa [hrun] using h
  · simpa [hrun] using h.renameLabel hother

inductive Step where
  | command (command : SymbolCommand)
  | register (label : Label) (attached : Bool)
  | attach (label : Label)
  | save
  /-- Back to a checkpoint, the latest one being number 0. Nothing happens if there is none. -/
  | restore (number : Nat)

structure History where
  table : Symbols
  saved : List Checkpoint := []

namespace History

def step (h : History) : Step → History
  | .command command => { h with table := (command.run h.table).2 }
  | .register label attached => { h with table := h.table.registerLabel label attached }
  | .attach label => { h with table := h.table.markAttached label }
  | .save => { h with saved := h.table.checkpoint :: h.saved }
  | .restore number =>
    match h.saved[number]? with
    | some checkpoint => { h with table := h.table.rollback checkpoint }
    | none => h

def run (h : History) (steps : List Step) : History := steps.foldl step h

structure Orderly (h : History) : Prop where
  table : h.table.Distinct
  saved : ∀ checkpoint ∈ h.saved, ∃ t : Symbols, t.Distinct ∧ t.checkpoint = checkpoint

theorem Orderly.step {h : History} (ho : h.Orderly) (step : Step) : (h.step step).Orderly := by
  cases step with
  | command command =>
    have hkeeps := command.moves_run_of distinct_declareSlot distinct_nameSlot distinct_createLabel
      distinct_nameLabel
    exact ⟨hkeeps h.table ho.table, ho.saved⟩
  | register label attached => exact ⟨ho.table.registerLabel label attached, ho.saved⟩
  | attach label => exact ⟨ho.table.markAttached label, ho.saved⟩
  | save =>
    refine ⟨ho.table, fun checkpoint hc => ?_⟩
    obtain rfl | hc := List.mem_cons.1 hc
    · exact ⟨h.table, ho.table, rfl⟩
    · exact ho.saved checkpoint hc
  | restore number =>
    simp only [History.step]
    split
    · rename_i checkpoint hc
      obtain ⟨t, ht, rfl⟩ := ho.saved checkpoint (List.mem_of_getElem? hc)
      exact ⟨ht.rollback h.table, ho.saved⟩
    · exact ho

theorem Orderly.run {h : History} (ho : h.Orderly) (steps : List Step) : (h.run steps).Orderly := by
  induction steps generalizing h with
  | nil => exact ho
  | cons step rest ih => exact ih (ho.step step)

end History

/-- What names, labels and the index say is never ambiguous. -/
structure Unambiguous (t : Symbols) : Prop where
  slotNames : (t.slots.map (·.name)).Nodup
  labelNames : (t.labels.map (·.name)).Nodup
  labels : (t.labels.map (·.label)).Nodup
  /-- The index leads to each label at its place in the list, and to nothing else. -/
  place? : ∀ label place, t.place? label = some place ↔
    ∃ entry, t.labels[place]? = some entry ∧ entry.label = label
  label? : ∀ label entry, t.label? label = some entry ↔ entry ∈ t.labels ∧ entry.label = label
  unknown : ∀ label, t.label? label = none ↔ ∀ entry ∈ t.labels, entry.label ≠ label

theorem Distinct.unambiguous (h : t.Distinct) : t.Unambiguous where
  slotNames := h.slotNames
  labelNames := h.labelNames
  labels := h.indexed.nodup
  place? label place := by
    rw [h.toRegular.place?_eq_some_iff, ids, List.getElem?_map, Option.map_eq_some_iff]
  label? _ _ := h.toRegular.label?_eq_some_iff
  unknown label := by
    simp [Option.eq_none_iff_forall_ne_some, h.toRegular.label?_eq_some_iff]

/-- A table is unambiguous whatever is done to it over time, under any names and stems. -/
theorem unambiguous_over_time (types : List Ty) (source : LabelSource) (settings : Settings)
    (steps : List Step) :
    (History.run ⟨ofTypes types source settings, []⟩ steps).table.Unambiguous := by
  have hstart : History.Orderly ⟨ofTypes types source settings, []⟩ :=
    ⟨.ofTypes types source settings, by simp⟩
  exact (hstart.run steps).table.unambiguous

end Symbols

end MethodEdit
