import MethodEdit.Proofs.Symbols.Names

/-!
Chosen names last. Once a slot counts as named, it is found under its name over any later history
short of going back, and it takes no other name. A slot that is asked to take the name which it has
already as its placeholder does not count as named, so this choice is the only one that does not
last.
-/
namespace MethodEdit.Symbols

open Edit

variable {t u : Symbols} {index : UInt16} {name : String} {slot : Slot}

/-- The slot of the index, and no other one, is found under the name, and it takes no other name. -/
structure Holds (t : Symbols) (index : UInt16) (name : String) : Prop where
  found : ∃ slot, t.slotNamed? name = some slot ∧ t.slot? index = some slot ∧ slot.index = index
  refused : ∀ other, other ≠ name → memberNameFault? other = none →
    nameSlot index other t = (.error (.localAlreadyNamed index name), t)

def Step.isRestore : Step → Bool
  | restore _ => true
  | _ => false

/-- The slot holds the name for good, whatever is done later short of going back. -/
def Final (t : Symbols) (index : UInt16) (name : String) : Prop :=
  ∀ saved later, (∀ step ∈ later, step.isRestore = false) →
    (History.run ⟨t, saved⟩ later).table.Holds index name

def HasPlaceholder (t : Symbols) (index : UInt16) (name : String) : Prop :=
  ∃ slot, t.slot? index = some slot ∧ slot.name = name ∧ slot.named = false

theorem Regular.index_of_slot? (h : t.Regular) (hs : t.slot? index = some slot) :
    slot.index = index := by
  rw [h.numbered index.toNat slot hs]
  exact UInt16.ofNat_toNat

theorem Distinct.slotNamed?_eq (h : t.Distinct) (hs : slot ∈ t.slots) :
    t.slotNamed? slot.name = some slot := by
  cases hf : t.slotNamed? slot.name with
  | none => exact absurd rfl (name_ne_of_slotNamed? hf hs)
  | some found =>
    have hname : found.name = slot.name := by simpa using List.find?_some hf
    have hsame := List.inj_on_of_nodup_map h.slotNames (List.mem_of_find?_eq_some hf) hs hname
    rw [hsame]

theorem nameSlot_of_named (hs : t.slot? index = some slot) (hn : slot.named = true)
    {other : String} (hne : slot.name ≠ other) (hv : memberNameFault? other = none) :
    nameSlot index other t = (.error (.localAlreadyNamed index slot.name), t) := by
  simp [nameSlot, checkName, hv, hs, hne, hn]

theorem nameSlot_of_unnamed (hs : t.slot? index = some slot) (hn : slot.named = false)
    {other : String} (hne : slot.name ≠ other) (hv : memberNameFault? other = none) :
    nameSlot index other t ≠ (.error (.localAlreadyNamed index slot.name), t) := by
  by_cases htaken : (t.slotNamed? other).isSome = true
  · simp [nameSlot, checkName, hv, hs, hne, hn, htaken]
  · simp [nameSlot, checkName, hv, hs, hne, hn, htaken]

theorem Distinct.holds_iff (h : t.Distinct) (hs : t.slot? index = some slot) :
    t.Holds index slot.name ↔ slot.named = true := by
  constructor
  · intro hh
    by_contra hn
    -- one of two names is another one than that of the slot
    obtain ⟨other, hne, hv⟩ : ∃ other, slot.name ≠ other ∧ memberNameFault? other = none := by
      by_cases hx : slot.name = "x"
      · exact ⟨"y", by rw [hx]; decide, by decide⟩
      · exact ⟨"x", hx, by decide⟩
    exact nameSlot_of_unnamed hs (by simpa using hn) hne hv (hh.refused other (Ne.symm hne) hv)
  · intro hn
    refine ⟨⟨slot, ?_, hs, h.toRegular.index_of_slot? hs⟩, fun other hne hv => ?_⟩
    · exact h.slotNamed?_eq (List.mem_of_getElem? hs)
    · exact nameSlot_of_named hs hn (Ne.symm hne) hv

namespace History

theorem forward_step (h : History) {step : Step} (hs : step.isRestore = false) :
    h.table.Grows (h.step step).table ∧ KeepsDistinct h.table (h.step step).table := by
  cases step with
  | command command =>
    have hdistinct := command.moves_run_of distinct_declareSlot distinct_nameSlot
      distinct_createLabel distinct_nameLabel
    exact ⟨(command.moves_run h.table).toGrows, hdistinct h.table⟩
  | register label attached =>
    exact ⟨grows_registerLabel h.table label attached, fun hd => hd.registerLabel label attached⟩
  | attach label => exact ⟨grows_markAttached h.table label, fun hd => hd.markAttached label⟩
  | save => exact ⟨.refl h.table, id⟩
  | restore number => cases hs

theorem forward_run (h : History) {steps : List Step}
    (hs : ∀ step ∈ steps, step.isRestore = false) :
    h.table.Grows (h.run steps).table ∧ KeepsDistinct h.table (h.run steps).table := by
  induction steps generalizing h with
  | nil => exact ⟨.refl h.table, id⟩
  | cons step rest ih =>
    have hstep := h.forward_step (hs step List.mem_cons_self)
    have hrest := ih (h.step step) fun other ho => hs other (List.mem_cons_of_mem _ ho)
    exact ⟨hstep.1.trans hrest.1, fun hd => hrest.2 (hstep.2 hd)⟩

end History

theorem Grows.slot?_of_named (h : t.Grows u) (hs : t.slot? index = some slot)
    (hn : slot.named = true) : u.slot? index = some slot := by
  obtain ⟨later, hl, hb⟩ := h.slots index.toNat slot hs
  obtain rfl | ⟨hu, -⟩ := hb.name
  · exact hl
  · simp [hn] at hu

theorem Distinct.final_iff (h : t.Distinct) (hs : t.slot? index = some slot) :
    t.Final index slot.name ↔ slot.named = true := by
  constructor
  · intro hf
    exact (h.holds_iff hs).1 (hf [] [] (by simp))
  · intro hn saved later hl
    obtain ⟨hgrows, hkept⟩ := History.forward_run ⟨t, saved⟩ hl
    exact ((hkept h).holds_iff (hgrows.slot?_of_named hs hn)).2 hn

/-- A slot that took a name has it, and counts as named unless the name was its placeholder. -/
theorem nameSlot_eq_ok (h : nameSlot index name t = (.ok slot, u)) :
    u.slot? index = some slot ∧ slot.name = name ∧
      (slot.named = true ↔ ¬t.HasPlaceholder index name) := by
  obtain ⟨e, hrun⟩ | ⟨old, hs, hname, hrun⟩ | ⟨old, hs, hu, hfree, hrun⟩ :=
    nameSlot_cases index name t
  · cases hrun.symm.trans h
  · cases hrun.symm.trans h
    refine ⟨hs, hname, ?_⟩
    rw [← Bool.not_eq_false, not_iff_not]
    constructor
    · exact fun hn => ⟨slot, hs, hname, hn⟩
    · rintro ⟨held, hheld, -, hn⟩
      cases hs.symm.trans hheld
      exact hn
  · cases hrun.symm.trans h
    have hlt := (List.getElem?_eq_some_iff.1 hs).1
    refine ⟨List.getElem?_set_self hlt, rfl, iff_of_true rfl ?_⟩
    rintro ⟨held, hheld, hname, -⟩
    cases hs.symm.trans hheld
    exact name_ne_of_slotNamed? hfree (List.mem_of_getElem? hs) hname

theorem Distinct.final_of_nameSlot (h : t.Distinct) (hn : nameSlot index name t = (.ok slot, u)) :
    slot.index = index ∧ slot.name = name ∧
      (u.Final index name ↔ ¬t.HasPlaceholder index name) := by
  have hu : u.Distinct := by
    have hkept := distinct_nameSlot index name t h
    rwa [hn] at hkept
  obtain ⟨hs, rfl, hnamed⟩ := nameSlot_eq_ok hn
  exact ⟨hu.toRegular.index_of_slot? hs, rfl, (hu.final_iff hs).trans hnamed⟩

theorem nameSlot_of_getOrCreateSlot {type : Ty} (hfree : t.slotNamed? name = none)
    (h : getOrCreateSlot (some type) (some name) t = (.ok slot, u)) :
    nameSlot (t.nextSlot type).index name (t.withSlot type) = (.ok slot, u) := by
  unfold getOrCreateSlot checkName at h
  rw [run_bind, run_get] at h
  simp only [Option.bind_some, hfree] at h
  cases hv : memberNameFault? name with
  | some fault => simp [hv] at h
  | none => simpa [hv, declareSlot] using h

theorem eq_nextSlot_of_name {type : Ty} (hfree : t.slotNamed? name = none)
    (hs : slot ∈ (t.withSlot type).slots) (hname : slot.name = name) : slot = t.nextSlot type := by
  obtain hs | hs := List.mem_append.1 hs
  · exact absurd hname (name_ne_of_slotNamed? hfree hs)
  · exact List.mem_singleton.1 hs

theorem hasPlaceholder_withSlot_iff {type : Ty} (hfree : t.slotNamed? name = none)
    (hn : nameSlot (t.nextSlot type).index name (t.withSlot type) = (.ok slot, u)) :
    (t.withSlot type).HasPlaceholder (t.nextSlot type).index name ↔
      (t.nextSlot type).name = name := by
  constructor
  · rintro ⟨held, hs, hname, -⟩
    rw [← eq_nextSlot_of_name hfree (List.mem_of_getElem? hs) hname]
    exact hname
  · intro hname
    obtain ⟨e, hrun⟩ | ⟨old, hs, hold, -⟩ | ⟨-, -, -, hnone, -⟩ :=
      nameSlot_cases (t.nextSlot type).index name (t.withSlot type)
    · cases hrun.symm.trans hn
    · have hnew := eq_nextSlot_of_name hfree (List.mem_of_getElem? hs) hold
      exact ⟨old, hs, hold, by rw [hnew]; rfl⟩
    · -- the new slot has the name, so it was not free any more
      have hmem : t.nextSlot type ∈ (t.withSlot type).slots := by simp [withSlot]
      exact absurd hname (name_ne_of_slotNamed? hnone hmem)

/-- However a table was used before, the name that a slot takes is held by it for good exactly if it
is not the placeholder that the slot has already; and a slot that is made for a name holds it for
good exactly if the name is not the placeholder that it gets anyway. -/
theorem chosen_name_final_iff (types : List Ty) (source : LabelSource) (settings : Settings)
    (steps : List Step) :
    let t := (History.run ⟨ofTypes types source settings, []⟩ steps).table
    (∀ index name slot u, nameSlot index name t = (.ok slot, u) →
      slot.index = index ∧ slot.name = name ∧
        (u.Final index name ↔ ¬t.HasPlaceholder index name)) ∧
    (∀ type name slot u, t.slotNamed? name = none →
      getOrCreateSlot (some type) (some name) t = (.ok slot, u) →
      slot.name = name ∧ (u.Final slot.index name ↔ (t.nextSlot type).name ≠ name)) := by
  intro t
  have hstart : History.Orderly ⟨ofTypes types source settings, []⟩ :=
    ⟨.ofTypes types source settings, by simp⟩
  have ht : t.Distinct := (hstart.run steps).table
  refine ⟨fun index name slot u => ht.final_of_nameSlot, fun type name slot u hfree hmade => ?_⟩
  have hnamed := nameSlot_of_getOrCreateSlot hfree hmade
  obtain ⟨hindex, hname, hfinal⟩ := (ht.withSlot type).final_of_nameSlot hnamed
  rw [hasPlaceholder_withSlot_iff hfree hnamed] at hfinal
  exact ⟨hname, hindex ▸ hfinal⟩

namespace Sample

def number : Ty := .named "System.Int32" .valueType none []

def numbers (count : Nat) : Symbols :=
  .ofTypes (List.replicate count number) (.countingFrom ⟨0⟩) {}

def rivals : List Step :=
  [.command (.nameSlot 0 "total"), .save, .command (.getOrCreateSlot (some number) (some "V_0"))]

end Sample

/-- The first slot is named and keeps its name against others; so does a second one that is made for
its name. -/
theorem chosen_name_final_in_sample :
    (∃ slot u, nameSlot 0 "count" (Sample.numbers 1) = (.ok slot, u) ∧
      (History.run ⟨u, []⟩ Sample.rivals).table.Holds 0 "count") ∧
    ∃ slot u, getOrCreateSlot (some Sample.number) (some "sum") (Sample.numbers 1) = (.ok slot, u) ∧
      (History.run ⟨u, []⟩ Sample.rivals).table.Holds slot.index "sum" := by
  obtain ⟨hnamed, hmade⟩ := chosen_name_final_iff [Sample.number] (.countingFrom ⟨0⟩) {} []
  have hforward : ∀ step ∈ Sample.rivals, step.isRestore = false := by
    simp [Sample.rivals, Step.isRestore]
  constructor
  · obtain ⟨-, -, hfinal⟩ := hnamed 0 "count" _ _ rfl
    refine ⟨_, _, rfl, hfinal.2 ?_ [] Sample.rivals hforward⟩
    rintro ⟨slot, hs, hname, -⟩
    cases hs
    exact absurd hname (by decide)
  · obtain ⟨-, hfinal⟩ := hmade Sample.number "sum" _ _ rfl rfl
    exact ⟨_, _, rfl, hfinal.2 (by decide) [] Sample.rivals hforward⟩

/-- A slot that is named as its placeholder, or that is made for the name which it gets anyway,
gives the name up for another one. -/
theorem placeholder_given_up :
    (∃ slot u renamed v, nameSlot 0 "V_0" (Sample.numbers 1) = (.ok slot, u) ∧
      nameSlot 0 "count" u = (.ok renamed, v) ∧ v.slotNamed? "V_0" = none) ∧
    ∃ slot u renamed v, (Sample.numbers 0).slotNamed? "V_0" = none ∧
      getOrCreateSlot (some Sample.number) (some "V_0") (Sample.numbers 0) = (.ok slot, u) ∧
      slot.index = 0 ∧ nameSlot 0 "count" u = (.ok renamed, v) ∧ v.slotNamed? "V_0" = none :=
  ⟨⟨_, _, _, _, rfl, rfl, rfl⟩, _, _, _, _, rfl, rfl, rfl, rfl, rfl⟩

end MethodEdit.Symbols
