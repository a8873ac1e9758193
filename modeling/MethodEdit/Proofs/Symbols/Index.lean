import Mathlib.Data.List.Induction
import Mathlib.Data.List.Nodup
import MethodEdit.Proofs.Edit
import MethodEdit.Symbols.Labels

/-!
The index of labels. It leads to each known label at its place in the list and to nothing else, so
the table answers for a label exactly what the list says about it. Seen from outside, a label is
unknown, known, or known and attached.
-/
namespace MethodEdit.Symbols

variable {t u : Symbols} {label other : Label} {place : Nat}

def ids (t : Symbols) : List Label := t.labels.map (·.label)

def Finds (index : List (Label × Nat)) (ids : List Label) : Prop :=
  ∀ label place, index.lookup label = some place ↔ ids[place]? = some label

theorem Finds.nodup {index : List (Label × Nat)} {ids : List Label} (h : Finds index ids) :
    ids.Nodup := by
  refine List.nodup_iff_getElem?_ne_getElem?.2 fun p q hpq hq heq => ?_
  have hq' : ids[q]? = some ids[q] := List.getElem?_eq_getElem hq
  have h₁ := (h _ p).2 (heq.trans hq')
  have h₂ := (h _ q).2 hq'
  rw [h₁] at h₂
  have : p = q := Option.some.inj h₂
  omega

theorem Finds.push {index : List (Label × Nat)} {ids : List Label} (h : Finds index ids)
    (hnew : label ∉ ids) : Finds ((label, ids.length) :: index) (ids ++ [label]) := by
  intro other place
  rw [List.lookup_cons, List.getElem?_append]
  by_cases heq : other = label
  · subst heq
    have hne : ids[place]? ≠ some other := fun hp => hnew (List.mem_of_getElem? hp)
    by_cases hlt : place < ids.length
    · rw [if_pos hlt]
      simp only [beq_self_eq_true, Option.some.injEq, hne, iff_false]
      omega
    · simp [hlt, List.getElem?_singleton]
      omega
  · have hb : (other == label) = false := by simpa using heq
    rw [hb]
    by_cases hlt : place < ids.length
    · rw [if_pos hlt]
      exact h other place
    · have hnone : ids[place]? = none := List.getElem?_eq_none (by omega)
      rw [if_neg hlt]
      simp [h other place, hnone, List.getElem?_singleton, Ne.symm heq]

theorem indexOf_append (labels : List LabelEntry) (entry : LabelEntry) :
    indexOf (labels ++ [entry]) = (entry.label, labels.length) :: indexOf labels := by
  simp [indexOf, List.zipIdx_append]

theorem finds_indexOf (labels : List LabelEntry) (h : (labels.map (·.label)).Nodup) :
    Finds (indexOf labels) (labels.map (·.label)) := by
  induction labels using List.reverseRecOn with
  | nil => intro label place; simp [indexOf]
  | append_singleton labels entry ih =>
    rw [List.map_append, List.nodup_append] at h
    rw [indexOf_append, List.map_append]
    have hnew : entry.label ∉ labels.map (·.label) := fun hm => h.2.2 _ hm _ (by simp) rfl
    simpa using (ih h.1).push hnew

/-- The index leads to the labels of the list, and the slots have their places as indices, as far as
16 bits hold them. -/
structure Regular (t : Symbols) : Prop where
  indexed : Finds t.index t.ids
  numbered : ∀ (place : Nat) (slot : Slot), t.slots[place]? = some slot →
    slot.index = place.toUInt16

namespace Regular

theorem place?_eq_some_iff (h : t.Regular) :
    t.place? label = some place ↔ t.ids[place]? = some label := h.indexed label place

theorem place?_eq_none_iff (h : t.Regular) : t.place? label = none ↔ label ∉ t.ids := by
  rw [List.mem_iff_getElem?, Option.eq_none_iff_forall_ne_some]
  simp [h.place?_eq_some_iff]

theorem label?_eq_some_iff (h : t.Regular) {entry : LabelEntry} :
    t.label? label = some entry ↔ entry ∈ t.labels ∧ entry.label = label := by
  simp only [label?, Option.bind_eq_some_iff, h.place?_eq_some_iff, ids, List.getElem?_map,
    Option.map_eq_some_iff, List.mem_iff_getElem?]
  constructor
  · rintro ⟨place, ⟨found, hf, rfl⟩, he⟩
    cases hf.symm.trans he
    exact ⟨⟨place, hf⟩, rfl⟩
  · rintro ⟨⟨place, he⟩, rfl⟩
    exact ⟨place, ⟨entry, he, rfl⟩, he⟩

end Regular

/-- Whether a label is attached, if it is known at all. -/
def status (t : Symbols) (label : Label) : Option Bool := (t.label? label).map (·.attached)

theorem status_eq_none_iff_label? : t.status label = none ↔ t.label? label = none :=
  Option.map_eq_none_iff

theorem isSome_label?_iff : (t.label? label).isSome = true ↔ t.status label ≠ none := by
  rw [Option.isSome_iff_ne_none, Ne, Ne, status_eq_none_iff_label?]

theorem Regular.status_eq_none_iff (h : t.Regular) : t.status label = none ↔ label ∉ t.ids := by
  rw [status, Option.map_eq_none_iff, Option.eq_none_iff_forall_ne_some]
  simp only [ne_eq, h.label?_eq_some_iff, ids, List.mem_map]
  exact ⟨fun hn ⟨entry, he⟩ => hn entry he, fun hn entry he => hn ⟨entry, he⟩⟩

theorem Regular.status_eq_none_iff_place? (h : t.Regular) :
    t.status label = none ↔ t.place? label = none := by
  rw [h.status_eq_none_iff, h.place?_eq_none_iff]

section

variable {f : LabelEntry → LabelEntry}

theorem map_modifyLabel {α : Type} {g : LabelEntry → α} (t : Symbols) (label : Label)
    (hf : ∀ entry, g (f entry) = g entry) :
    (t.modifyLabel label f).labels.map g = t.labels.map g := by
  unfold modifyLabel
  split
  · refine List.ext_getElem? fun place => ?_
    simp only [List.getElem?_map, List.getElem?_modify, Option.map_eq_map, Option.map_map]
    congr 1
    funext entry
    simp only [Function.comp_apply]
    split
    · exact hf entry
    · rfl
  · rfl

theorem ids_modifyLabel (t : Symbols) (label : Label)
    (hf : ∀ entry, (f entry).label = entry.label) : (t.modifyLabel label f).ids = t.ids :=
  map_modifyLabel t label hf

theorem index_modifyLabel (t : Symbols) (label : Label) (f : LabelEntry → LabelEntry) :
    (t.modifyLabel label f).index = t.index := by
  unfold modifyLabel
  split <;> rfl

theorem slots_modifyLabel (t : Symbols) (label : Label) (f : LabelEntry → LabelEntry) :
    (t.modifyLabel label f).slots = t.slots := by
  unfold modifyLabel
  split <;> rfl

theorem source_modifyLabel (t : Symbols) (label : Label) (f : LabelEntry → LabelEntry) :
    (t.modifyLabel label f).source = t.source := by
  unfold modifyLabel
  split <;> rfl

theorem Regular.modifyLabel (h : t.Regular) (label : Label)
    (hf : ∀ entry, (f entry).label = entry.label) : (t.modifyLabel label f).Regular where
  indexed := by
    rw [index_modifyLabel, ids_modifyLabel t label hf]
    exact h.indexed
  numbered := by
    rw [slots_modifyLabel]
    exact h.numbered

theorem Regular.label?_modifyLabel (h : t.Regular) (label other : Label)
    (f : LabelEntry → LabelEntry) :
    (t.modifyLabel label f).label? other =
      if other = label then (t.label? label).map f else t.label? other := by
  have hplace : (t.modifyLabel label f).place? other = t.place? other := by
    rw [place?, index_modifyLabel, place?]
  rw [label?, hplace, label?, label?]
  by_cases heq : other = label
  · subst heq
    cases hp : t.place? other with
    | none => simp
    | some place => simp [Symbols.modifyLabel, hp, List.getElem?_modify]
  · rw [if_neg heq]
    cases ho : t.place? other with
    | none => rfl
    | some place =>
      cases hp : t.place? label with
      | none => simp [Symbols.modifyLabel, hp]
      | some changed =>
        -- a place holds one label only
        have hne : changed ≠ place := by
          rintro rfl
          have h₁ := h.place?_eq_some_iff.1 ho
          have h₂ := h.place?_eq_some_iff.1 hp
          exact heq (Option.some.inj (h₁.symm.trans h₂))
        simp [Symbols.modifyLabel, hp, List.getElem?_modify, hne]

end

theorem Regular.markAttached (h : t.Regular) (label : Label) : (t.markAttached label).Regular :=
  h.modifyLabel label fun _ => rfl

theorem Regular.status_markAttached (h : t.Regular) (label other : Label) :
    (t.markAttached label).status other =
      if other = label then (t.status label).map fun _ => true else t.status other := by
  rw [status, Symbols.markAttached, h.label?_modifyLabel]
  split
  · simp [status, Function.comp_def]
  · rfl

theorem registerLabel_of_known (h : t.place? label = some place) (attached : Bool) :
    t.registerLabel label attached = if attached then t.markAttached label else t := by
  simp [registerLabel, h]

theorem registerLabel_of_new (h : t.place? label = none) (attached : Bool) :
    t.registerLabel label attached =
      { t with
        labels := t.labels ++
          [⟨label, placeholder t.labelStem t.labels.length (t.labels.map (·.name)), attached⟩]
        index := (label, t.labels.length) :: t.index } := by
  simp [registerLabel, h]

theorem source_registerLabel (t : Symbols) (label : Label) (attached : Bool) :
    (t.registerLabel label attached).source = t.source := by
  unfold registerLabel
  split
  · split
    · exact source_modifyLabel t label _
    · rfl
  · rfl

theorem ids_registerLabel_of_new (h : t.place? label = none) (attached : Bool) :
    (t.registerLabel label attached).ids = t.ids ++ [label] := by
  simp [registerLabel, h, ids]

theorem Regular.registerLabel (h : t.Regular) (label : Label) (attached : Bool) :
    (t.registerLabel label attached).Regular := by
  cases hp : t.place? label with
  | some place =>
    rw [registerLabel_of_known hp]
    split
    · exact h.markAttached label
    · exact h
  | none =>
    constructor
    · have hnew := h.place?_eq_none_iff.1 hp
      have hlen : t.labels.length = t.ids.length := by simp [ids]
      rw [ids_registerLabel_of_new hp]
      simpa [Symbols.registerLabel, hp, hlen] using h.indexed.push hnew
    · simpa [Symbols.registerLabel, hp] using h.numbered

/-- A label that is registered is known, and attached if it was or is said to be. -/
theorem Regular.status_registerLabel (h : t.Regular) (label : Label) (attached : Bool)
    (other : Label) :
    (t.registerLabel label attached).status other =
      if other = label then some (t.status label == some true || attached) else t.status other := by
  cases hp : t.place? label with
  | some place =>
    have hknown : t.status label ≠ none := by
      rw [Ne, h.status_eq_none_iff_place?, hp]
      simp
    obtain ⟨b, hb⟩ := Option.ne_none_iff_exists'.1 hknown
    rw [registerLabel_of_known hp]
    cases attached with
    | true => simp [h.status_markAttached, hb]
    | false =>
      by_cases heq : other = label
      · subst heq
        cases b <;> simp [hb]
      · simp [heq]
  | none =>
    have hr := h.registerLabel label attached
    have hold : t.status label = none := h.status_eq_none_iff_place?.2 hp
    by_cases heq : other = label
    · subst heq
      have hfound : (t.registerLabel other attached).label? other = some ⟨other,
          placeholder t.labelStem t.labels.length (t.labels.map (·.name)), attached⟩ := by
        rw [hr.label?_eq_some_iff]
        simp [Symbols.registerLabel, hp]
      rw [hold, status, hfound]
      simp
    · have hsame : (t.registerLabel label attached).label? other = t.label? other := by
        refine Option.ext fun entry => ?_
        rw [hr.label?_eq_some_iff, h.label?_eq_some_iff]
        simp only [Symbols.registerLabel, hp, List.mem_append, List.mem_singleton]
        constructor
        · rintro ⟨hm | rfl, he⟩
          · exact ⟨hm, he⟩
          · exact absurd he.symm heq
        · rintro ⟨hm, he⟩
          exact ⟨.inl hm, he⟩
      simp [status, hsame, heq]

def registerEach (t : Symbols) (labels : List Label) (attached : Label → Bool) : Symbols :=
  labels.foldl (fun t label => t.registerLabel label (attached label)) t

theorem source_registerEach (t : Symbols) (labels : List Label) (attached : Label → Bool) :
    (t.registerEach labels attached).source = t.source := by
  induction labels generalizing t with
  | nil => rfl
  | cons label rest ih => exact (ih _).trans (source_registerLabel t label (attached label))

theorem source_registerLabels (t : Symbols) (labels : List Label) (attached : Bool) :
    (t.registerLabels labels attached).source = t.source :=
  source_registerEach t labels fun _ => attached

theorem Regular.registerEach (h : t.Regular) (labels : List Label) (attached : Label → Bool) :
    (t.registerEach labels attached).Regular := by
  induction labels generalizing t with
  | nil => exact h
  | cons label rest ih => exact ih (h.registerLabel label (attached label))

theorem Regular.status_registerEach (h : t.Regular) (labels : List Label) (attached : Label → Bool)
    (other : Label) :
    (t.registerEach labels attached).status other =
      if other ∈ labels then some (t.status other == some true || attached other)
      else t.status other := by
  induction labels generalizing t with
  | nil => simp [Symbols.registerEach]
  | cons label rest ih =>
    have hstep : t.registerEach (label :: rest) attached =
        (t.registerLabel label (attached label)).registerEach rest attached := rfl
    rw [hstep, ih (h.registerLabel label (attached label)), h.status_registerLabel]
    by_cases heq : other = label
    · subst heq
      cases t.status other == some true <;> cases attached other <;> simp
    · simp [heq]

theorem Regular.registerLabels (h : t.Regular) (labels : List Label) (attached : Bool) :
    (t.registerLabels labels attached).Regular := h.registerEach labels fun _ => attached

theorem Regular.status_registerLabels (h : t.Regular) (labels : List Label) (attached : Bool)
    (other : Label) :
    (t.registerLabels labels attached).status other =
      if other ∈ labels then some (t.status other == some true || attached)
      else t.status other := h.status_registerEach labels (fun _ => attached) other

theorem Regular.known_registerLabels (h : t.Regular) (labels : List Label) (attached : Bool)
    (other : Label) :
    (t.registerLabels labels attached).status other ≠ none ↔
      other ∈ labels ∨ t.status other ≠ none := by
  rw [h.status_registerLabels]
  split
  · rename_i hm
    simp [hm]
  · rename_i hm
    simp [hm]

theorem Regular.known_modifyLabel (h : t.Regular) (label : Label) (f : LabelEntry → LabelEntry)
    (other : Label) :
    (t.modifyLabel label f).status other ≠ none ↔ t.status other ≠ none := by
  rw [status, h.label?_modifyLabel, status]
  split
  · rename_i heq
    simp [heq]
  · exact Iff.rfl

theorem Regular.place?_rollback (h : t.Regular) (u : Symbols) (label : Label) :
    (u.rollback t.checkpoint).place? label = t.place? label := by
  have hfresh := finds_indexOf t.labels h.indexed.nodup
  refine Option.ext fun place => ?_
  rw [h.place?_eq_some_iff]
  exact hfresh label place

theorem Regular.label?_rollback (h : t.Regular) (u : Symbols) (label : Label) :
    (u.rollback t.checkpoint).label? label = t.label? label := by
  rw [label?, h.place?_rollback]
  rfl

theorem Regular.rollback (h : t.Regular) (u : Symbols) : (u.rollback t.checkpoint).Regular where
  indexed := finds_indexOf t.labels h.indexed.nodup
  numbered := h.numbered

end MethodEdit.Symbols
