import MethodEdit.Command.Symbols
import MethodEdit.Proofs.Symbols.Index

/-!
Symbol tables only grow. Slots keep their types, labels stay known, and the operations of the table
itself attach no label. What an operation hands back is in the table afterwards.
-/
namespace MethodEdit

/-- A slot keeps its index and type, and its name once that was chosen. -/
structure Slot.Becomes (a b : Slot) : Prop where
  index : b.index = a.index
  type : b.type = a.type
  name : b = a ∨ a.named = false ∧ b.named = true

theorem Slot.Becomes.refl (a : Slot) : a.Becomes a := ⟨rfl, rfl, .inl rfl⟩

theorem Slot.Becomes.trans {a b c : Slot} (h₁ : a.Becomes b) (h₂ : b.Becomes c) : a.Becomes c where
  index := h₂.index.trans h₁.index
  type := h₂.type.trans h₁.type
  name := by
    obtain rfl | ⟨hb, hc⟩ := h₂.name
    · exact h₁.name
    · obtain rfl | ⟨_, hb'⟩ := h₁.name
      · exact .inr ⟨hb, hc⟩
      · simp [hb] at hb'

namespace Symbols

open Edit

variable {t u : Symbols}

/-- Slots and labels are kept at their places, and the source of labels does not go back. -/
structure Grows (t u : Symbols) : Prop where
  slots : ∀ (place : Nat) (slot : Slot), t.slots[place]? = some slot →
    ∃ later, u.slots[place]? = some later ∧ slot.Becomes later
  labels : ∀ (place : Nat) (entry : LabelEntry), t.labels[place]? = some entry →
    ∃ later, u.labels[place]? = some later ∧ later.label = entry.label ∧
      (entry.attached = true → later.attached = true)
  slotStem : u.slotStem = t.slotStem
  labelStem : u.labelStem = t.labelStem
  source : u.source.labels = t.source.labels ∧ t.source.used ≤ u.source.used

theorem Grows.refl (t : Symbols) : t.Grows t where
  slots _ slot h := ⟨slot, h, .refl slot⟩
  labels _ entry h := ⟨entry, h, rfl, id⟩
  slotStem := rfl
  labelStem := rfl
  source := ⟨rfl, Nat.le_refl _⟩

theorem Grows.trans {v : Symbols} (h₁ : t.Grows u) (h₂ : u.Grows v) : t.Grows v where
  slots place slot h := by
    obtain ⟨later, hl, hb⟩ := h₁.slots place slot h
    obtain ⟨last, hlast, hb'⟩ := h₂.slots place later hl
    exact ⟨last, hlast, hb.trans hb'⟩
  labels place entry h := by
    obtain ⟨later, hl, hid, ha⟩ := h₁.labels place entry h
    obtain ⟨last, hlast, hid', ha'⟩ := h₂.labels place later hl
    exact ⟨last, hlast, hid'.trans hid, fun h => ha' (ha h)⟩
  slotStem := h₂.slotStem.trans h₁.slotStem
  labelStem := h₂.labelStem.trans h₁.labelStem
  source := ⟨h₂.source.1.trans h₁.source.1, Nat.le_trans h₁.source.2 h₂.source.2⟩

theorem Grows.slots_length_le (h : t.Grows u) : t.slots.length ≤ u.slots.length := by
  by_contra hlt
  have hin : u.slots.length < t.slots.length := Nat.lt_of_not_le hlt
  obtain ⟨later, hl, _⟩ := h.slots _ _ (List.getElem?_eq_getElem hin)
  rw [List.getElem?_eq_none (Nat.le_refl _)] at hl
  cases hl

theorem grows_rollback (h : t.Grows u) : t.Grows (u.rollback t.checkpoint) where
  slots := (Grows.refl t).slots
  labels := (Grows.refl t).labels
  slotStem := h.slotStem
  labelStem := h.labelStem
  source := h.source

/-- What the operations of the table can do to it: the labels that they add are attached nowhere. -/
structure Extends (t u : Symbols) : Prop extends t.Grows u where
  regular : t.Regular → u.Regular
  status : t.Regular → ∀ label,
    u.status label = t.status label ∨ t.status label = none ∧ u.status label = some false

instance : IsPreorder Symbols Extends where
  refl t := ⟨.refl t, id, fun _ _ => .inl rfl⟩
  trans t u v h₁ h₂ := by
    refine ⟨h₁.toGrows.trans h₂.toGrows, fun h => h₂.regular (h₁.regular h), fun h label => ?_⟩
    obtain hv | ⟨hu, hv⟩ := h₂.status (h₁.regular h) label
    · rw [hv]
      exact h₁.status h label
    · obtain hu' | ⟨_, hu'⟩ := h₁.status h label
      · exact .inr ⟨hu'.symm.trans hu, hv⟩
      · simp [hu] at hu'

def Reslots (t u : Symbols) : Prop := t.Extends u ∧ ∃ slots, u = { t with slots }

instance : IsPreorder Symbols Reslots where
  refl t := ⟨refl_of Extends t, t.slots, rfl⟩
  trans := by
    rintro t _ _ ⟨h₁, _, rfl⟩ ⟨h₂, slots, rfl⟩
    exact ⟨trans_of Extends h₁ h₂, slots, rfl⟩

theorem Extends.of_slots {slots : List Slot}
    (hs : ∀ (place : Nat) (slot : Slot), t.slots[place]? = some slot →
      ∃ later, slots[place]? = some later ∧ slot.Becomes later)
    (hn : t.Regular → ∀ (place : Nat) (slot : Slot),
      slots[place]? = some slot → slot.index = place.toUInt16) :
    t.Extends { t with slots } where
  slots := hs
  labels := (Grows.refl t).labels
  slotStem := rfl
  labelStem := rfl
  source := ⟨rfl, Nat.le_refl _⟩
  regular h := ⟨h.indexed, hn h⟩
  status _ _ := .inl rfl

theorem extends_withSlot (t : Symbols) (type : Ty) : t.Extends (t.withSlot type) := by
  refine .of_slots (fun place slot h => ⟨slot, ?_, .refl slot⟩) fun hr place slot h => ?_
  · rw [List.getElem?_append_left (List.getElem?_eq_some_iff.1 h).1]
    exact h
  · rw [List.getElem?_append] at h
    split at h
    · exact hr.numbered place slot h
    · rename_i hge
      rw [List.getElem?_singleton] at h
      split at h
      · cases h
        have hplace : place = t.slots.length := by omega
        simp [nextSlot, hplace]
      · cases h

theorem ofTypes_induction {P : Symbols → Prop} {types : List Ty} {source : LabelSource}
    {settings : Settings} (hempty : P (empty source settings))
    (hstep : ∀ t type, P t → P (t.withSlot type)) : P (ofTypes types source settings) :=
  List.foldlRecOn types withSlot hempty fun t ht type _ => hstep t type ht

theorem regular_ofTypes (types : List Ty) (source : LabelSource) (settings : Settings) :
    (ofTypes types source settings).Regular := by
  have hempty : (empty source settings).Regular :=
    ⟨fun _ _ => by simp [empty, ids], by simp [empty]⟩
  exact ofTypes_induction hempty fun t type ht => (extends_withSlot t type).regular ht

theorem status_ofTypes (types : List Ty) (source : LabelSource) (settings : Settings)
    (label : Label) : (ofTypes types source settings).status label = none :=
  ofTypes_induction (P := fun t => t.status label = none) rfl fun _ _ ht => ht

theorem source_ofTypes (types : List Ty) (source : LabelSource) (settings : Settings) :
    (ofTypes types source settings).source = source :=
  ofTypes_induction (P := fun t => t.source = source) rfl fun _ _ ht => ht

theorem slotStem_ofTypes (types : List Ty) (source : LabelSource) (settings : Settings) :
    (ofTypes types source settings).slotStem = settings.slotStem :=
  ofTypes_induction (P := fun t => t.slotStem = settings.slotStem) rfl fun _ _ ht => ht

theorem extends_set_slot {place : Nat} {slot : Slot} (hs : t.slots[place]? = some slot)
    (hu : slot.named = false) (name : String) :
    t.Extends { t with slots := t.slots.set place { slot with name, named := true } } := by
  have hlt := (List.getElem?_eq_some_iff.1 hs).1
  refine .of_slots (fun other old h => ?_) fun hr other later h => ?_
  · by_cases heq : place = other
    · subst heq
      cases hs.symm.trans h
      exact ⟨_, List.getElem?_set_self hlt, rfl, rfl, .inr ⟨hu, rfl⟩⟩
    · exact ⟨old, by rw [List.getElem?_set_ne heq]; exact h, .refl old⟩
  · by_cases heq : place = other
    · subst heq
      rw [List.getElem?_set_self hlt] at h
      cases h
      exact hr.numbered place slot hs
    · rw [List.getElem?_set_ne heq] at h
      exact hr.numbered other later h

theorem moves_checkName {R : Symbols → Symbols → Prop} [IsPreorder Symbols R] (name : String) :
    Moves R (checkName name) := by
  unfold checkName
  split
  · exact .throw _
  · exact .pure _

theorem reslots_declareSlot (type : Ty) : Moves Reslots (declareSlot type) :=
  fun t => ⟨extends_withSlot t type, _, rfl⟩

def Given (slot : Slot) (t : Symbols) : Prop := slot ∈ t.slots

theorem declareSlot_given (type : Ty) (t : Symbols) : Yields (declareSlot type) t Given := by
  refine .of_ok rfl ?_
  simp [Given, withSlot]

/-- Naming a slot is refused, finds the name in place, or gives a free name to an unnamed slot. -/
theorem nameSlot_cases (index : UInt16) (name : String) (t : Symbols) :
    (∃ e, nameSlot index name t = (.error e, t)) ∨
    (∃ slot, t.slot? index = some slot ∧ slot.name = name ∧
      nameSlot index name t = (.ok slot, t)) ∨
    ∃ slot, t.slot? index = some slot ∧ slot.named = false ∧ t.slotNamed? name = none ∧
      nameSlot index name t =
        (.ok { slot with name, named := true },
          { t with slots := t.slots.set index.toNat { slot with name, named := true } }) := by
  unfold nameSlot checkName
  cases memberNameFault? name with
  | some fault => exact .inl ⟨_, rfl⟩
  | none =>
    cases hs : t.slot? index with
    | none => exact .inl ⟨.unknownLocal (.index index), by simp [hs]⟩
    | some slot =>
      by_cases hsame : slot.name = name
      · exact .inr (.inl ⟨slot, rfl, hsame, by simp [hs, hsame]⟩)
      · by_cases hnamed : slot.named = true
        · exact .inl ⟨.localAlreadyNamed index slot.name, by simp [hs, hsame, hnamed]⟩
        · by_cases htaken : (t.slotNamed? name).isSome = true
          · exact .inl ⟨.nameCollision name, by simp [hs, hsame, hnamed, htaken]⟩
          · exact .inr (.inr ⟨slot, rfl, by simpa using hnamed, by simpa using htaken, by
              simp [hs, hsame, hnamed, htaken]⟩)

theorem reslots_nameSlot (index : UInt16) (name : String) :
    Moves Reslots (nameSlot index name) := by
  intro t
  obtain ⟨e, h⟩ | ⟨slot, _, _, h⟩ | ⟨slot, hs, hu, _, h⟩ := nameSlot_cases index name t
  · rw [h]
    exact refl_of Reslots t
  · rw [h]
    exact refl_of Reslots t
  · rw [h]
    exact ⟨extends_set_slot hs hu name, _, rfl⟩

theorem nameSlot_given (index : UInt16) (name : String) (t : Symbols) :
    Yields (nameSlot index name) t Given := by
  obtain ⟨e, h⟩ | ⟨found, hs, _, h⟩ | ⟨found, hs, _, _, h⟩ := nameSlot_cases index name t
  · exact .of_error h
  · exact .of_ok h (List.mem_of_getElem? hs)
  · exact .of_ok h (List.mem_set (List.getElem?_eq_some_iff.1 hs).1 _)

theorem nameSlot_type (index : UInt16) (name : String) (t : Symbols) :
    Yields (nameSlot index name) t fun slot u => ∃ old, t.slot? index = some old ∧
      slot.type = old.type ∧ u.slots.length = t.slots.length := by
  obtain ⟨e, h⟩ | ⟨found, hs, _, h⟩ | ⟨found, hs, _, _, h⟩ := nameSlot_cases index name t
  · exact .of_error h
  · exact .of_ok h ⟨found, hs, rfl, rfl⟩
  · exact .of_ok h ⟨found, hs, rfl, List.length_set⟩

theorem moves_getOrCreateSlot_of {R : Symbols → Symbols → Prop} [IsPreorder Symbols R]
    (hd : ∀ type, Moves R (declareSlot type)) (hn : ∀ index name, Moves R (nameSlot index name))
    (type : Option Ty) (name : Option String) : Moves R (getOrCreateSlot type name) := by
  unfold getOrCreateSlot
  refine .bind .get fun t => ?_
  split
  · split
    · exact .pure _
    · exact .throw _
  · exact .pure _
  · refine .bind (moves_checkName _) fun _ => ?_
    exact .bind (hd _) fun _ => hn _ _
  · exact hd _
  · exact .throw _
  · exact .throw _

theorem reslots_getOrCreateSlot (type : Option Ty) (name : Option String) :
    Moves Reslots (getOrCreateSlot type name) :=
  moves_getOrCreateSlot_of reslots_declareSlot reslots_nameSlot type name

theorem given_of_slotNamed? {name : String} {slot : Slot} (h : t.slotNamed? name = some slot) :
    Given slot t := List.mem_of_find?_eq_some h

theorem getOrCreateSlot_given (type : Option Ty) (name : Option String) (t : Symbols) :
    Yields (getOrCreateSlot type name) t Given := by
  unfold getOrCreateSlot
  refine .get ?_
  split
  · rename_i hf
    split
    · exact .pure (given_of_slotNamed? hf)
    · exact .throw _
  · rename_i hf
    obtain ⟨name, -, hf⟩ := Option.bind_eq_some_iff.1 hf
    exact .pure (given_of_slotNamed? hf)
  · refine .bind .trivial fun _ _ _ => ?_
    exact .bind .trivial fun slot u _ => nameSlot_given slot.index _ u
  · exact declareSlot_given _ t
  · exact .throw _
  · exact .throw _

theorem slot?_nextSlot (type : Ty) (h : (t.withSlot type).slots.length ≤ 65536) :
    (t.withSlot type).slot? (t.nextSlot type).index = some (t.nextSlot type) := by
  simp only [withSlot, List.length_append, List.length_singleton] at h
  have hindex : (t.nextSlot type).index.toNat = t.slots.length := by
    simp [nextSlot]
    omega
  rw [slot?, hindex, withSlot, List.getElem?_concat_length]

/-- A slot of the name is handed back as it is, if it can be used as the type. If there is none, the
slot is new and of exactly the type. -/
theorem getOrCreateSlot_type (type : Ty) (name : String) (t : Symbols) :
    Yields (getOrCreateSlot (some type) (some name)) t fun slot u =>
      (t.slotNamed? name = some slot ∧ Ty.assignable type slot.type = true) ∨
      (t.slotNamed? name = none ∧ (u.slots.length ≤ 65536 → slot.type = type)) := by
  unfold getOrCreateSlot
  refine .get ?_
  cases hf : t.slotNamed? name with
  | some slot =>
    simp only [Option.bind_some, hf]
    split
    · rename_i ha
      exact .pure (.inl ⟨rfl, ha⟩)
    · exact .throw _
  | none =>
    simp only [Option.bind_some, hf]
    have hname : Yields (checkName name) t fun _ u => u = t := by
      unfold checkName
      split
      · exact .throw _
      · exact .pure rfl
    have hdeclare : Yields (declareSlot type) t fun slot u =>
        slot = t.nextSlot type ∧ u = t.withSlot type := .of_ok rfl ⟨rfl, rfl⟩
    refine .bind hname fun _ _ ht => ?_
    rw [ht]
    refine .bind hdeclare fun _ _ hu => ?_
    rw [hu.1, hu.2]
    refine .mono (nameSlot_type _ name _) fun slot u h => .inr ⟨trivial, fun hn => ?_⟩
    obtain ⟨found, hs, htype, hlen⟩ := h
    rw [hlen] at hn
    rw [slot?_nextSlot type hn] at hs
    cases hs
    exact htype

theorem moves_slotOfType_of {R : Symbols → Symbols → Prop} [IsPreorder Symbols R]
    (hn : ∀ index name, Moves R (nameSlot index name)) (type : Ty) (name : Option String)
    (skipped : Nat) : Moves R (slotOfType type name skipped) := by
  unfold slotOfType
  refine .bind .get fun t => ?_
  split
  · split
    · exact hn _ _
    · split
      · exact .pure _
      · exact .throw _
  · exact .throw _

theorem reslots_slotOfType (type : Ty) (name : Option String) (skipped : Nat) :
    Moves Reslots (slotOfType type name skipped) :=
  moves_slotOfType_of reslots_nameSlot type name skipped

theorem slotOfType_given (type : Ty) (name : Option String) (skipped : Nat) (t : Symbols) :
    Yields (slotOfType type name skipped) t Given := by
  unfold slotOfType
  refine .get ?_
  split
  · split
    · exact nameSlot_given _ _ t
    · split
      · rename_i hf
        exact .pure (List.mem_of_getElem? hf)
      · exact .throw _
  · exact .throw _

theorem grows_modifyLabel (t : Symbols) (label : Label) {f : LabelEntry → LabelEntry}
    (hl : ∀ entry, (f entry).label = entry.label)
    (ha : ∀ entry, entry.attached = true → (f entry).attached = true) :
    t.Grows (t.modifyLabel label f) := by
  unfold modifyLabel
  split
  · refine ⟨(Grows.refl t).slots, fun place entry h => ?_, rfl, rfl, rfl, Nat.le_refl _⟩
    rw [List.getElem?_modify, h]
    refine ⟨_, rfl, ?_⟩
    split
    · exact ⟨hl entry, ha entry⟩
    · exact ⟨rfl, id⟩
  · exact .refl t

theorem grows_markAttached (t : Symbols) (label : Label) : t.Grows (t.markAttached label) :=
  grows_modifyLabel t label (fun _ => rfl) fun _ _ => rfl

theorem grows_registerLabel (t : Symbols) (label : Label) (attached : Bool) :
    t.Grows (t.registerLabel label attached) := by
  unfold registerLabel
  split
  · split
    · exact grows_markAttached t label
    · exact .refl t
  · refine ⟨(Grows.refl t).slots, fun place entry h => ⟨entry, ?_, rfl, id⟩, rfl, rfl, rfl,
      Nat.le_refl _⟩
    rw [List.getElem?_append_left (List.getElem?_eq_some_iff.1 h).1]
    exact h

theorem grows_registerLabels (t : Symbols) (labels : List Label) (attached : Bool) :
    t.Grows (t.registerLabels labels attached) := by
  induction labels generalizing t with
  | nil => exact .refl t
  | cons label rest ih => exact (grows_registerLabel t label attached).trans (ih _)

theorem extends_modifyLabel (t : Symbols) (label : Label) {f : LabelEntry → LabelEntry}
    (hl : ∀ entry, (f entry).label = entry.label)
    (ha : ∀ entry, (f entry).attached = entry.attached) : t.Extends (t.modifyLabel label f) where
  toGrows := grows_modifyLabel t label hl fun entry h => (ha entry).trans h
  regular h := h.modifyLabel label hl
  status h other := by
    left
    rw [status, h.label?_modifyLabel, status]
    split
    · rename_i heq
      rw [heq, Option.map_map]
      congr 1
      exact funext ha
    · rfl

theorem nameLabel_cases (label : Label) (name : String) (t : Symbols) :
    (∃ e, nameLabel label name t = (.error e, t)) ∨
    ((∀ entry, t.labelNamed? name = some entry → entry.label = label) ∧
      nameLabel label name t =
        (.ok ⟨⟩, t.modifyLabel label fun entry => { entry with name })) := by
  unfold nameLabel checkName
  cases memberNameFault? name with
  | some fault => exact .inl ⟨.invalidName fault, rfl⟩
  | none =>
    by_cases hp : t.place? label = none
    · exact .inl ⟨.unknownLabel (.label label), by simp [hp]⟩
    · by_cases hc : (t.labelNamed? name).any (·.label != label) = true
      · exact .inl ⟨.nameCollision name, by simp [hp, hc]⟩
      · refine .inr ⟨fun entry he => ?_, by simp [hp, hc]⟩
        simpa [he] using hc

theorem moves_nameLabel (label : Label) (name : String) : Moves Extends (nameLabel label name) := by
  intro t
  obtain ⟨e, h⟩ | ⟨_, h⟩ := nameLabel_cases label name t
  · rw [h]
    exact refl_of Extends t
  · rw [h]
    exact extends_modifyLabel t label (fun _ => rfl) fun _ => rfl

theorem extends_registerLabel_of_new {label : Label} (hnew : t.place? label = none) :
    t.Extends (t.registerLabel label false) where
  toGrows := grows_registerLabel t label false
  regular h := h.registerLabel label false
  status h other := by
    rw [h.status_registerLabel]
    split
    · rename_i heq
      have hnone : t.status other = none := by
        rw [h.status_eq_none_iff_place?, heq]
        exact hnew
      refine .inr ⟨hnone, ?_⟩
      rw [← heq, hnone]
      rfl
    · exact .inl rfl

def drawn (t : Symbols) : Symbols := { t with source := t.source.advance }

def minted (t : Symbols) : Symbols := t.drawn.registerLabel t.source.next false

theorem extends_drawn (t : Symbols) : t.Extends t.drawn where
  toGrows := { Grows.refl t with source := ⟨rfl, Nat.le_succ _⟩ }
  regular h := ⟨h.indexed, h.numbered⟩
  status _ _ := .inl rfl

theorem extends_minted (hnew : t.place? t.source.next = none) : t.Extends t.minted :=
  trans_of Extends (extends_drawn t) (extends_registerLabel_of_new (t := t.drawn) hnew)

theorem Regular.known_minted (h : t.Regular) (label : Label) :
    t.minted.status label ≠ none ↔ label = t.source.next ∨ t.status label ≠ none := by
  have hknown := ((extends_drawn t).regular h).known_registerLabels [t.source.next] false label
  rw [List.mem_singleton] at hknown
  exact hknown

theorem source_minted (t : Symbols) : t.minted.source = t.source.advance :=
  source_registerLabel t.drawn t.source.next false

theorem createLabel_cases (t : Symbols) :
    (t.place? t.source.next ≠ none ∧
      createLabel t = (.error (.duplicateLabel t.source.next), t.drawn)) ∨
    (t.place? t.source.next = none ∧ createLabel t = (.ok t.source.next, t.minted)) := by
  have hplace : { t with source := t.source.advance }.place? t.source.next =
      t.place? t.source.next := rfl
  unfold createLabel
  cases h : t.place? t.source.next with
  | some place => exact .inl ⟨nofun, by simp [hplace, h, drawn]⟩
  | none => exact .inr ⟨rfl, by simp [hplace, h, minted, drawn]⟩

theorem moves_createLabel : Moves Extends createLabel := by
  intro t
  obtain ⟨_, h⟩ | ⟨hnew, h⟩ := createLabel_cases t
  · rw [h]
    exact extends_drawn t
  · rw [h]
    exact extends_minted hnew

theorem createLabel_new (ht : t.Regular) :
    Yields createLabel t fun label _ => t.status label = none := by
  obtain ⟨_, h⟩ | ⟨hnew, h⟩ := createLabel_cases t
  · exact .of_error h
  · exact .of_ok h (ht.status_eq_none_iff_place?.2 hnew)

theorem moves_getOrCreateLabel_of {R : Symbols → Symbols → Prop} [IsPreorder Symbols R]
    (hc : Moves R createLabel) (hn : ∀ label name, Moves R (nameLabel label name))
    (name : Option String) : Moves R (getOrCreateLabel name) := by
  unfold getOrCreateLabel
  refine .bind .get fun t => ?_
  split
  · exact .pure _
  · refine .bind hc fun label => ?_
    split
    · exact .bind (hn label _) fun _ => .pure label
    · exact .pure label

end Symbols

namespace SymbolCommand

open Edit Symbols

def isSlotwise : SymbolCommand → Bool
  | createLabel | getOrCreateLabel _ | nameLabel .. => false
  | _ => true

theorem reslots_run {command : SymbolCommand} (h : command.isSlotwise = true) :
    Moves Reslots command.run := by
  cases command with
  | slot | slotNamed | slotFor | label | labelNamed => exact .bind .get fun _ => .pure _
  | declareSlot type => exact .bind (reslots_declareSlot type) fun _ => .pure _
  | getOrCreateSlot type name => exact .bind (reslots_getOrCreateSlot type name) fun _ => .pure _
  | nameSlot index name => exact .bind (reslots_nameSlot index name) fun _ => .pure _
  | slotOfType type name skipped =>
    exact .bind (reslots_slotOfType type name skipped) fun _ => .pure _
  | createLabel | getOrCreateLabel | nameLabel => cases h

theorem moves_run_of {R : Symbols → Symbols → Prop} [IsPreorder Symbols R]
    (hd : ∀ type, Moves R (Symbols.declareSlot type))
    (hn : ∀ index name, Moves R (Symbols.nameSlot index name)) (hc : Moves R Symbols.createLabel)
    (hl : ∀ label name, Moves R (Symbols.nameLabel label name))
    (command : SymbolCommand) : Moves R command.run := by
  cases command with
  | slot | slotNamed | slotFor | label | labelNamed => exact .bind .get fun _ => .pure _
  | declareSlot type => exact .bind (hd type) fun _ => .pure _
  | getOrCreateSlot type name =>
    exact .bind (moves_getOrCreateSlot_of hd hn type name) fun _ => .pure _
  | nameSlot index name => exact .bind (hn index name) fun _ => .pure _
  | slotOfType type name skipped =>
    exact .bind (moves_slotOfType_of hn type name skipped) fun _ => .pure _
  | createLabel => exact .bind hc fun _ => .pure _
  | getOrCreateLabel name => exact .bind (moves_getOrCreateLabel_of hc hl name) fun _ => .pure _
  | nameLabel label name => exact .bind (hl label name) fun _ => .pure _

theorem moves_run (command : SymbolCommand) : Moves Extends command.run := by
  refine command.moves_run_of (fun type => ?_) (fun index name => ?_) moves_createLabel
    moves_nameLabel
  · exact (reslots_declareSlot type).mono fun _ _ h => h.1
  · exact (reslots_nameSlot index name).mono fun _ _ h => h.1

end SymbolCommand

end MethodEdit
