import MethodEdit.Proofs.Session.Reachable
import MethodEdit.Proofs.Symbols.Names

/-!
Indices of slots and arguments have sixteen bits. A slot has its place as its index, and a parameter
its position, only as far as these go: beyond that the index leads to an earlier slot or argument,
and a name that is meant for a new slot goes to an older one.
-/
namespace MethodEdit

theorem toNat_toUInt16 (n : Nat) : n.toUInt16.toNat = n % 65536 := by simp

namespace Symbols

open Edit

variable {t u : Symbols} {slot : Slot} {place : Nat} {type : Ty} {name : String}

def Numbered (t : Symbols) : Prop :=
  ∀ (place : Nat) (slot : Slot), t.slots[place]? = some slot → slot.index.toNat = place

theorem Regular.toNat_index (h : t.Regular) (hs : t.slots[place]? = some slot) :
    slot.index.toNat = place % 65536 := by
  rw [h.numbered place slot hs, toNat_toUInt16]

theorem Regular.numbered_iff (h : t.Regular) : t.Numbered ↔ t.slots.length ≤ 65536 := by
  constructor
  · intro hall
    by_contra hlen
    have hin : 65536 < t.slots.length := Nat.lt_of_not_le hlen
    have hlast := List.getElem?_eq_getElem hin
    have hwrapped := h.toNat_index hlast
    rw [hall 65536 _ hlast] at hwrapped
    omega
  · intro hlen place slot hs
    have hin := (List.getElem?_eq_some_iff.1 hs).1
    rw [h.toNat_index hs, Nat.mod_eq_of_lt (by omega)]

theorem Regular.slot?_index_iff (h : t.Regular) (hs : slot ∈ t.slots) :
    t.slot? slot.index = some slot ↔ slot ∈ t.slots.take 65536 := by
  obtain ⟨place, hplace⟩ := List.mem_iff_getElem?.1 hs
  rw [slot?, List.mem_iff_getElem?]
  constructor
  · intro hfound
    have hreached : slot.index.toNat < 65536 := UInt16.toNat_lt slot.index
    exact ⟨slot.index.toNat, by rw [List.getElem?_take_of_lt hreached, hfound]⟩
  · rintro ⟨reached, htake⟩
    have hlt : reached < 65536 := by
      have hin := (List.getElem?_eq_some_iff.1 htake).1
      rw [List.length_take] at hin
      omega
    rw [List.getElem?_take_of_lt hlt] at htake
    rw [h.toNat_index htake, Nat.mod_eq_of_lt hlt, htake]

theorem length_ofTypes (types : List Ty) (source : LabelSource) (settings : Settings) :
    (ofTypes types source settings).slots.length = types.length := by
  have hall (t : Symbols) :
      (types.foldl withSlot t).slots.length = t.slots.length + types.length := by
    induction types generalizing t with
    | nil => rfl
    | cons type rest ih =>
      rw [List.foldl_cons, ih, withSlot, List.length_append, List.length_singleton,
        List.length_cons]
      omega
  exact (hall (empty source settings)).trans (Nat.zero_add _)

theorem prefix_ofTypes (front types : List Ty) (source : LabelSource) (settings : Settings) :
    (ofTypes front source settings).slots <+: (ofTypes (front ++ types) source settings).slots := by
  have hall := List.foldlRecOn types withSlot
    (motive := fun t => (ofTypes front source settings).slots <+: t.slots) (List.prefix_refl _)
    fun t ht type _ => ht.trans (List.prefix_append t.slots [t.nextSlot type])
  rwa [ofTypes, ofTypes, List.foldl_append]

/-- A slot that was only declared has a name that begins with the stem. -/
def Declared (stem : String) (slot : Slot) : Prop :=
  slot.named = false ∧ ∃ more, slot.name = stem ++ more

theorem declared_nextSlot (t : Symbols) (type : Ty) : Declared t.slotStem (t.nextSlot type) := by
  obtain ⟨more, hmore⟩ := placeholder_eq_append t.slotStem t.slots.length (t.slots.map (·.name))
  exact ⟨rfl, Nat.repr t.slots.length ++ more, hmore.trans (String.append_assoc ..)⟩

theorem declared_ofTypes (types : List Ty) (source : LabelSource) (settings : Settings) :
    ∀ slot ∈ (ofTypes types source settings).slots, Declared settings.slotStem slot := by
  have hall : (ofTypes types source settings).slotStem = settings.slotStem ∧
      ∀ slot ∈ (ofTypes types source settings).slots, Declared settings.slotStem slot := by
    refine ofTypes_induction (P := fun t => t.slotStem = settings.slotStem ∧
      ∀ slot ∈ t.slots, Declared settings.slotStem slot) ⟨rfl, by simp [empty]⟩ ?_
    intro t type h
    have hnew := h.1 ▸ t.declared_nextSlot type
    exact ⟨h.1, List.forall_mem_append.2 ⟨h.2, List.forall_mem_singleton.2 hnew⟩⟩
  exact hall.2

def after (types : List Ty) (source : LabelSource) (settings : Settings) (steps : List Step) :
    Symbols := (History.run ⟨ofTypes types source settings, []⟩ steps).table

theorem regular_after (types : List Ty) (source : LabelSource) (settings : Settings)
    (steps : List Step) : (after types source settings steps).Regular := by
  have hstart : History.Orderly ⟨ofTypes types source settings, []⟩ :=
    ⟨.ofTypes types source settings, by simp⟩
  exact (hstart.run steps).table.toRegular

theorem toNat_index_nextSlot (t : Symbols) (type : Ty) :
    (t.nextSlot type).index.toNat = t.slots.length % 65536 := toNat_toUInt16 t.slots.length

theorem nameSlot_nextSlot_within (hlen : t.slots.length < 65536) :
    Yields (nameSlot (t.nextSlot type).index name) (t.withSlot type) fun slot u =>
      u.slots = t.slots ++ [slot] ∧ slot.name = name := by
  have hindex : (t.nextSlot type).index.toNat = t.slots.length :=
    (t.toNat_index_nextSlot type).trans (Nat.mod_eq_of_lt hlen)
  have hnew {slot : Slot} (hs : (t.withSlot type).slot? (t.nextSlot type).index = some slot) :
      slot = t.nextSlot type := by
    rw [slot?, hindex, withSlot, List.getElem?_concat_length] at hs
    exact (Option.some.inj hs).symm
  obtain ⟨e, hrun⟩ | ⟨slot, hs, hname, hrun⟩ | ⟨slot, hs, -, -, hrun⟩ :=
    nameSlot_cases (t.nextSlot type).index name (t.withSlot type)
  · exact .of_error hrun
  · refine .of_ok hrun ⟨?_, hname⟩
    rw [hnew hs, withSlot]
  · refine .of_ok hrun ⟨?_, rfl⟩
    simp only [hindex, withSlot]
    simp

theorem slot?_nextSlot_beyond (hlen : 65536 ≤ t.slots.length) :
    (t.withSlot type).slot? (t.nextSlot type).index = t.slots[t.slots.length % 65536]? := by
  rw [slot?, toNat_index_nextSlot, withSlot, List.getElem?_append_left (by omega)]

theorem slot?_nextSlot_ne (hlen : 65536 ≤ t.slots.length) :
    (t.withSlot type).slot? (t.nextSlot type).index ≠ some (t.nextSlot type) := by
  rw [slot?_nextSlot_beyond hlen]
  intro hfound
  -- an older slot would have the placeholder that was free
  have htaken := List.mem_map_of_mem (f := (·.name)) (List.mem_of_getElem? hfound)
  exact placeholder_notMem t.slotStem t.slots.length (t.slots.map (·.name)) htaken

theorem nameSlot_nextSlot_beyond (hfree : t.slotNamed? name = none)
    (hlen : 65536 ≤ t.slots.length) :
    Yields (nameSlot (t.nextSlot type).index name) (t.withSlot type) fun slot u =>
      ∃ old, t.slots[t.slots.length % 65536]? = some old ∧ old.name ≠ name ∧
        slot = { old with name, named := true } ∧
        u.slots = (t.slots ++ [t.nextSlot type]).set (t.slots.length % 65536) slot := by
  have hold {slot : Slot} (hs : (t.withSlot type).slot? (t.nextSlot type).index = some slot) :
      t.slots[t.slots.length % 65536]? = some slot ∧ slot.name ≠ name := by
    rw [slot?_nextSlot_beyond hlen] at hs
    exact ⟨hs, name_ne_of_slotNamed? hfree (List.mem_of_getElem? hs)⟩
  obtain ⟨e, hrun⟩ | ⟨slot, hs, hname, hrun⟩ | ⟨slot, hs, -, -, hrun⟩ :=
    nameSlot_cases (t.nextSlot type).index name (t.withSlot type)
  · exact .of_error hrun
  · exact absurd hname (hold hs).2
  · refine .of_ok hrun ⟨slot, (hold hs).1, (hold hs).2, rfl, ?_⟩
    rw [toNat_index_nextSlot, withSlot]

theorem slotNamed?_withSlot_eq_none_iff :
    (t.withSlot type).slotNamed? name = none ↔
      (∀ slot ∈ t.slots, slot.name ≠ name) ∧ (t.nextSlot type).name ≠ name := by
  simp [slotNamed?, withSlot, List.find?_append, List.find?_eq_none]

theorem nameSlot_accepted {index : UInt16} (hs : t.slot? index = some slot)
    (hu : slot.named = false) (hv : memberNameFault? name = none)
    (hfree : t.slotNamed? name = none) :
    nameSlot index name t =
      (.ok { slot with name, named := true },
        { t with slots := t.slots.set index.toNat { slot with name, named := true } }) := by
  have hne := name_ne_of_slotNamed? hfree (List.mem_of_getElem? hs)
  simp [nameSlot, checkName, hv, hs, hu, hne, hfree]

theorem getOrCreateSlot_beyond (hlen : 65536 ≤ t.slots.length)
    (hs : t.slots[t.slots.length % 65536]? = some slot) (hu : slot.named = false)
    (hv : memberNameFault? name = none) (hfree : (t.withSlot type).slotNamed? name = none) :
    ∃ u, getOrCreateSlot (some type) (some name) t = (.ok { slot with name, named := true }, u) ∧
      u.slotStem = t.slotStem ∧
      u.slots = (t.slots ++ [t.nextSlot type]).set (t.slots.length % 65536)
        { slot with name, named := true } := by
  have hnone : t.slotNamed? name = none := by
    simpa [slotNamed?, List.find?_eq_none] using (slotNamed?_withSlot_eq_none_iff.1 hfree).1
  have hmade : getOrCreateSlot (some type) (some name) t =
      nameSlot (t.nextSlot type).index name (t.withSlot type) := by
    simp [getOrCreateSlot, checkName, hnone, hv, declareSlot]
  rw [hmade, nameSlot_accepted ((slot?_nextSlot_beyond hlen).trans hs) hu hv hfree,
    toNat_index_nextSlot]
  exact ⟨_, rfl, rfl, rfl⟩

theorem getOrCreateSlot_new (type : Ty) (hfree : t.slotNamed? name = none) :
    Yields (getOrCreateSlot (some type) (some name)) t fun slot u =>
      if t.slots.length < 65536 then u.slots = t.slots ++ [slot] ∧ slot.name = name
      else ∃ old, t.slots[t.slots.length % 65536]? = some old ∧ old.name ≠ name ∧
        slot = { old with name, named := true } ∧
        u.slots = (t.slots ++ [t.nextSlot type]).set (t.slots.length % 65536) slot := by
  unfold getOrCreateSlot
  refine .get ?_
  simp only [Option.bind_some, hfree]
  unfold checkName
  cases memberNameFault? name with
  | some fault => exact .of_error rfl
  | none =>
    by_cases hlen : t.slots.length < 65536
    · simp only [if_pos hlen]
      exact nameSlot_nextSlot_within hlen
    · simp only [if_neg hlen]
      exact nameSlot_nextSlot_beyond hfree (Nat.le_of_not_lt hlen)

end Symbols

namespace SymbolCommand

open Edit Symbols

theorem run_given (command : SymbolCommand) (t : Symbols) :
    Yields command.run t fun answer u => ∀ slot, answer = .slot (some slot) → slot ∈ u.slots := by
  have hgiven {op : Edit Symbols Slot} (h : Yields op t Given) :
      Yields (op >>= fun slot => pure (Answer.slot (some slot))) t fun answer u =>
        ∀ slot, answer = .slot (some slot) → slot ∈ u.slots := by
    refine .bind h fun slot u hs => .pure ?_
    rintro _ ⟨⟩
    exact hs
  cases command with
  | slot index =>
    refine .get (.pure fun slot h => ?_)
    exact List.mem_of_getElem? (Answer.slot.inj h)
  | slotNamed name =>
    refine .get (.pure fun slot h => ?_)
    exact List.mem_of_find?_eq_some (Answer.slot.inj h)
  | slotFor i =>
    refine .get (.pure fun slot h => ?_)
    have hfor := Answer.slot.inj h
    unfold slotFor? at hfor
    split at hfor
    · obtain ⟨index, -, hs⟩ := Option.bind_eq_some_iff.1 hfor
      exact List.mem_of_getElem? hs
    · cases hfor
  | declareSlot type => exact hgiven (declareSlot_given type t)
  | getOrCreateSlot type name => exact hgiven (getOrCreateSlot_given type name t)
  | nameSlot index name => exact hgiven (nameSlot_given index name t)
  | slotOfType type name skipped => exact hgiven (slotOfType_given type name skipped t)
  | label | labelNamed | createLabel | getOrCreateLabel | nameLabel =>
    refine .bind .trivial fun _ _ _ => .pure ?_
    rintro _ ⟨⟩

end SymbolCommand

namespace Session

def firstArgument (s : Session) : Nat := if s.method.isStatic then 0 else 1

theorem toNat_argumentIndex (s : Session) (k : Nat) :
    (s.argumentIndex k).toNat = (k + s.firstArgument) % 65536 := toNat_toUInt16 _

theorem argumentIndex_exact_iff (s : Session) :
    (∀ k < s.method.parameters.length, (s.argumentIndex k).toNat = k + s.firstArgument) ↔
      s.method.parameters.length + s.firstArgument ≤ 65536 := by
  simp only [toNat_argumentIndex]
  generalize s.method.parameters.length = count
  have hfirst : s.firstArgument ≤ 1 := by
    unfold firstArgument
    split <;> omega
  constructor
  · intro hall
    by_contra hlen
    -- the last parameter is the first to go wrong
    have hlast := hall (count - 1) (by omega)
    omega
  · intro hlen k hk
    exact Nat.mod_eq_of_lt (by omega)

theorem argumentIndex_injective_iff (s : Session) :
    (∀ j < s.method.parameters.length, ∀ k < s.method.parameters.length,
      s.argumentIndex j = s.argumentIndex k → j = k) ↔ s.method.parameters.length ≤ 65536 := by
  simp only [← UInt16.toNat_inj, toNat_argumentIndex]
  constructor
  · intro hall
    by_contra hlen
    have hsame := hall 0 (by omega) 65536 (by omega) (by omega)
    omega
  · intro hlen j hj k hk hsame
    omega

end Session

/-- However a table is used, the index of a slot is its place modulo 65536, so all slots are
numbered right exactly if there are no more than 65536. A slot that a command answers is found under
its index exactly if it is among the first 65536. A slot that is made for a name gets it, with no
other slot changed, if there were fewer than 65536; beyond that the name goes to an older slot. The
same limit holds for the indices of the arguments of a method, and for telling its parameters apart
by them. -/
theorem Session.numbered_up_to_limit (types : List Ty) (source : LabelSource) (settings : Settings)
    (steps : List Symbols.Step) (s : Session) :
    let t := Symbols.after types source settings steps
    (∀ place slot, t.slots[place]? = some slot → slot.index.toNat = place % 65536) ∧
    (t.Numbered ↔ t.slots.length ≤ 65536) ∧
    (∀ (command : SymbolCommand) slot u, command.run t = (.ok (.slot (some slot)), u) →
      (u.slot? slot.index = some slot ↔ slot ∈ u.slots.take 65536)) ∧
    (∀ type name slot u, t.slotNamed? name = none →
      Symbols.getOrCreateSlot (some type) (some name) t = (.ok slot, u) →
      if t.slots.length < 65536 then u.slots = t.slots ++ [slot] ∧ slot.name = name
      else ∃ old, t.slots[t.slots.length % 65536]? = some old ∧ old.name ≠ name ∧
        slot = { old with name, named := true } ∧
        u.slots = (t.slots ++ [t.nextSlot type]).set (t.slots.length % 65536) slot) ∧
    (∀ k, (s.argumentIndex k).toNat = (k + s.firstArgument) % 65536) ∧
    ((∀ k < s.method.parameters.length, (s.argumentIndex k).toNat = k + s.firstArgument) ↔
      s.method.parameters.length + s.firstArgument ≤ 65536) ∧
    ((∀ j < s.method.parameters.length, ∀ k < s.method.parameters.length,
      s.argumentIndex j = s.argumentIndex k → j = k) ↔ s.method.parameters.length ≤ 65536) := by
  intro t
  have ht : t.Regular := Symbols.regular_after types source settings steps
  refine ⟨fun _ _ => ht.toNat_index, ht.numbered_iff, ?_, ?_, s.toNat_argumentIndex,
    s.argumentIndex_exact_iff, s.argumentIndex_injective_iff⟩
  · intro command slot u hrun
    obtain ⟨hextends, hgiven⟩ := (command.run_given t).moved command.moves_run _ _ hrun
    exact (hextends.regular ht).slot?_index_iff (hgiven slot rfl)
  · intro type name slot u hfree
    exact Symbols.getOrCreateSlot_new type hfree slot u

/-- In a table of two slots, a third one that is made for a name gets it and leaves the others. -/
theorem Session.numbered_in_sample :
    ∃ t slot u, t = Symbols.after [Sample.int32] (LabelSource.after []) {}
        [.command (.declareSlot Sample.boolean)] ∧
      Symbols.getOrCreateSlot (some Sample.int32) (some "total") t = (.ok slot, u) ∧
      t.Numbered ∧ u.slots = t.slots ++ [slot] ∧ u.slot? slot.index = some slot ∧
      (Sample.session.argumentIndex 0).toNat = 0 := by
  obtain ⟨-, hnumbered, hanswered, hmade, hargument, -, -⟩ := numbered_up_to_limit [Sample.int32]
    (LabelSource.after []) {} [.command (.declareSlot Sample.boolean)] Sample.session
  refine ⟨_, _, _, rfl, rfl, hnumbered.2 (by decide), ?_, ?_, hargument 0⟩
  · exact (hmade Sample.int32 "total" _ _ rfl rfl).1
  · refine (hanswered (.getOrCreateSlot (some Sample.int32) (some "total")) _ _ rfl).2 ?_
    exact List.mem_of_getElem? (i := 2) rfl

def Session.Sample.crowded : Method where
  owner := object
  name := ⟨"Gather", by decide⟩
  parameters := List.replicate 65536 count
  returns := void
  flags := ⟨0x0006⟩

/-- A slot beyond the indices is not found again: the index leads to the first slot. And the last
parameter has the index of the instance. -/
theorem Session.indices_run_out :
    (∃ slot u, Symbols.declareSlot Sample.int32 (Symbols.ofTypes (List.replicate 65536 Sample.int32)
          (LabelSource.after []) {}) = (.ok slot, u) ∧
      u.slots[65536]? = some slot ∧ slot.index.toNat = 0 ∧ u.slot? slot.index ≠ some slot) ∧
    ∃ s, Session.startFresh Sample.crowded Sample.core [] [.ret] {} = .ok s ∧
      s.method.isStatic = false ∧ 65535 < s.method.parameters.length ∧
      (s.argumentIndex 65535).toNat = 0 := by
  constructor
  · have hlen :=
      Symbols.length_ofTypes (List.replicate 65536 Sample.int32) (LabelSource.after []) {}
    rw [List.length_replicate] at hlen
    generalize Symbols.ofTypes _ _ _ = t at hlen
    refine ⟨_, _, rfl, ?_, ?_, Symbols.slot?_nextSlot_ne (Nat.le_of_eq hlen.symm)⟩
    · rw [← hlen, Symbols.withSlot, List.getElem?_concat_length]
    · rw [Symbols.toNat_index_nextSlot, hlen]
  · refine ⟨_, rfl, rfl, ?_, rfl⟩
    exact Nat.lt_of_lt_of_eq (by decide) List.length_replicate.symm

end MethodEdit
