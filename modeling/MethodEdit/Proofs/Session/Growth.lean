import MethodEdit.Proofs.Session.AllOrNothing

/-!
Slots and labels last. Whatever happens to a session, its slots and labels stay where they are, with
their indices, types and identities; a placeholder may give way to a chosen name, and a label may
come to stand somewhere, and neither is undone. Edits that are taken back do not matter, as they
take back no more than they did.
-/
namespace MethodEdit

theorem forall₂_take_of_getElem? {α : Type} {R : α → α → Prop} {old new : List α}
    (h : ∀ (place : Nat) (a : α), old[place]? = some a → ∃ b, new[place]? = some b ∧ R a b) :
    List.Forall₂ R old (new.take old.length) := by
  induction old generalizing new with
  | nil => simp
  | cons a rest ih =>
    obtain ⟨b, hb, hab⟩ := h 0 a rfl
    cases new with
    | nil => simp at hb
    | cons first others =>
      have hfirst : first = b := by simpa using hb
      have hrest : List.Forall₂ R rest (others.take rest.length) :=
        ih fun place c hc => h (place + 1) c hc
      simpa [hfirst] using And.intro hab hrest

structure Slot.Lasts (old new : Slot) : Prop where
  index : new.index = old.index
  type : new.type = old.type
  /-- Only a placeholder gives way, and only to a chosen name. -/
  name : new.name ≠ old.name → old.named = false ∧ new.named = true
  named : old.named = true → new.named = true

theorem Slot.Becomes.lasts {old new : Slot} (h : old.Becomes new) : old.Lasts new where
  index := h.index
  type := h.type
  name hne := by
    obtain rfl | hnamed := h.name
    · simp at hne
    · exact hnamed
  named hold := by
    obtain rfl | ⟨hnot, _⟩ := h.name
    · exact hold
    · simp [hold] at hnot

structure LabelEntry.Lasts (old new : LabelEntry) : Prop where
  label : new.label = old.label
  attached : old.attached = true → new.attached = true

namespace Session

variable {s s' : Session}

/-- The second state of a session comes after the first: commands lead to it, refused ones included.
Each comes with any description to resolve its queries in. -/
inductive Later (s : Session) : Session → Prop where
  | refl : Later s s
  | step {t : Session} (h : Later s t) (resolver : Resolver) (command : SessionCommand) :
      Later s (command.run ⟨resolver, t⟩).2.session

theorem Later.grows (h : s.Later s') : s.symbols.Grows s'.symbols := by
  induction h with
  | refl => exact .refl s.symbols
  | @step t _ resolver command ih => exact ih.trans (command.moves_run ⟨resolver, t⟩).symbols

theorem Later.runAll {t : Session} (h : s.Later t) (commands : List SessionCommand)
    (resolver : Resolver) : s.Later (SessionCommand.runAll commands ⟨resolver, t⟩).session := by
  induction commands generalizing t resolver with
  | nil => exact h
  | cons command rest ih => exact ih (h.step resolver command) _

/-- The slots of a session are, entry by entry, the first slots of any later state, and so are its
labels. -/
theorem symbols_last (h : s.Later s') :
    List.Forall₂ Slot.Lasts s.symbols.slots
      (s'.symbols.slots.take s.symbols.slots.length) ∧
    List.Forall₂ LabelEntry.Lasts s.symbols.labels
      (s'.symbols.labels.take s.symbols.labels.length) := by
  have hg := h.grows
  constructor
  · refine forall₂_take_of_getElem? fun place slot hs => ?_
    obtain ⟨later, hl, hb⟩ := hg.slots place slot hs
    exact ⟨later, hl, hb.lasts⟩
  · refine forall₂_take_of_getElem? fun place entry he => ?_
    obtain ⟨later, hl, hlabel, hattached⟩ := hg.labels place entry he
    exact ⟨later, hl, hlabel, hattached⟩

namespace Sample

def slotted : Session :=
  (SessionCommand.runAll [.symbols (.declareSlot int32)] ⟨{}, session⟩).session

def afterSlotted : List SessionCommand :=
  [.symbols (.nameSlot 0 "total"), .insertCall unbindable true,
    .insertReturn (method boolean) false]

end Sample

theorem symbols_last_in_sample :
    ∃ s' : Session, Sample.slotted.Later s' ∧
      Sample.slotted.symbols.slots.map (·.name) = ["V_0"] ∧
      s'.symbols.slots.map (·.name) = ["total"] ∧
      Sample.slotted.symbols.labels.length = 1 ∧ s'.symbols.labels.length = 2 ∧
      List.Forall₂ Slot.Lasts Sample.slotted.symbols.slots
        (s'.symbols.slots.take Sample.slotted.symbols.slots.length) ∧
      List.Forall₂ LabelEntry.Lasts Sample.slotted.symbols.labels
        (s'.symbols.labels.take Sample.slotted.symbols.labels.length) := by
  have hlater := (Later.refl (s := Sample.slotted)).runAll Sample.afterSlotted {}
  refine ⟨_, hlater, ?_, ?_, ?_, ?_, symbols_last hlater⟩ <;> decide +kernel

end Session

end MethodEdit
