import MethodEdit.Proofs.Injection.Binding
import MethodEdit.Proofs.Session.Numbering

/-!
Binding the parameters of a procedure once more. The slots that the first binding asked for are
there by then, so nothing is made and the loads are the same. This holds as long as every slot that
was made has an index of its own: beyond the indices a new slot hands its name to an older one.
-/
namespace MethodEdit

open Edit

namespace Symbols

variable {t u v : Symbols} {index : UInt16} {name : String} {type : Ty} {slot : Slot}

/-- All slots that were made on the way got indices of their own. -/
def Numbers (t u : Symbols) : Prop :=
  u.slots.length ≤ 65536 ∨ u.slots.length = t.slots.length

theorem Numbers.split (h : t.Numbers v) (htu : t.slots.length ≤ u.slots.length)
    (huv : u.slots.length ≤ v.slots.length) : t.Numbers u ∧ u.Numbers v := by
  unfold Numbers at h ⊢
  omega

theorem slot?_of_prefix (hp : t.slots <+: u.slots) (h : t.slot? index = some slot) :
    u.slot? index = some slot := by
  obtain ⟨more, hmore⟩ := hp
  unfold slot? at h ⊢
  rw [← hmore, List.getElem?_append_left (List.getElem?_eq_some_iff.1 h).1, h]

theorem slotNamed?_of_prefix (hp : t.slots <+: u.slots) (h : t.slotNamed? name = some slot) :
    u.slotNamed? name = some slot := by
  obtain ⟨more, hmore⟩ := hp
  unfold slotNamed? at h ⊢
  rw [← hmore, List.find?_append, h, Option.some_or]

theorem getOrCreateSlot_of_named (hf : t.slotNamed? name = some slot)
    (ha : Ty.assignable type slot.type = true) :
    getOrCreateSlot (some type) (some name) t = (.ok slot, t) := by
  simp [getOrCreateSlot, hf, ha]

/-- A slot that was made for a name is the one that is found under it. -/
theorem getOrCreateSlot_named (h : getOrCreateSlot (some type) (some name) t = (.ok slot, u))
    (hn : t.Numbers u) :
    t.slots <+: u.slots ∧ u.slotNamed? name = some slot ∧
      Ty.assignable type slot.type = true := by
  obtain ⟨hf, ha⟩ | ⟨hf, hexact⟩ := getOrCreateSlot_type type name t slot u h
  · cases (getOrCreateSlot_of_named hf ha).symm.trans h
    exact ⟨List.prefix_refl _, hf, ha⟩
  · have hnew := getOrCreateSlot_new type hf slot u h
    split at hnew
    · rename_i hlen
      obtain ⟨hslots, hname⟩ := hnew
      have hlast : u.slotNamed? name = some slot := by
        unfold slotNamed? at hf ⊢
        rw [hslots, List.find?_append, hf, Option.none_or]
        simp [hname]
      have htype : slot.type = type := by
        refine hexact ?_
        rw [hslots, List.length_append]
        exact hlen
      refine ⟨hslots ▸ List.prefix_append _ _, hlast, ?_⟩
      rw [htype]
      exact Ty.assignable_self type
    · rename_i hlen
      obtain ⟨_, _, _, _, hslots⟩ := hnew
      have hmore : u.slots.length = t.slots.length + 1 := by simp [hslots]
      unfold Numbers at hn
      omega

theorem slotOfType_eq_ok_iff {skipped : Nat} :
    slotOfType type none skipped t = (.ok slot, u) ↔
      u = t ∧ ∃ found, (t.slots.filter (·.type == type))[skipped]? = some found ∧
        t.slot? found.index = some slot := by
  cases hf : (t.slots.filter (·.type == type))[skipped]? with
  | none => simp [slotOfType, hf]
  | some found =>
    cases hs : t.slot? found.index with
    | none => simp [slotOfType, hf, hs]
    | some other => simp [slotOfType, hf, hs, and_comm, eq_comm]

theorem slotOfType_of_prefix {skipped : Nat} (hp : t.slots <+: v.slots)
    (h : slotOfType type none skipped t = (.ok slot, u)) :
    slotOfType type none skipped v = (.ok slot, v) := by
  obtain ⟨_, found, hf, hs⟩ := slotOfType_eq_ok_iff.1 h
  refine slotOfType_eq_ok_iff.2 ⟨rfl, found, ?_, slot?_of_prefix hp hs⟩
  obtain ⟨more, hmore⟩ := hp
  rw [← hmore, List.filter_append, List.getElem?_append_left (List.getElem?_eq_some_iff.1 hf).1, hf]

end Symbols

namespace Session

variable {s t u : Session} {procedure : Method} {p : Parameter}

theorem onSymbols_eq_ok_iff {α : Type} {op : Edit Symbols α} {a : α} :
    onSymbols op s = (.ok a, t) ↔
      ∃ symbols, op s.symbols = (.ok a, symbols) ∧ t = { s with symbols } := by
  unfold onSymbols
  cases op s.symbols with
  | mk result symbols => simp [eq_comm]

def OffSlots (s : Session) : Prop := s.current.loadsSlot = false ∧ s.current.storesSlot = false

theorem pickSlot_again {pick : Pick} {slot : Slot} (h : pickSlot p pick s = (.ok slot, t))
    (hn : s.symbols.Numbers t.symbols) (hoff : s.OffSlots) :
    s.symbols.slots <+: t.symbols.slots ∧
      ∀ u : Session, t.symbols.slots <+: u.symbols.slots → pickSlot p pick u = (.ok slot, u) := by
  cases pick with
  | named name type =>
    obtain ⟨symbols, hop, rfl⟩ := onSymbols_eq_ok_iff.1 h
    obtain ⟨hlonger, hnamed, ha⟩ := Symbols.getOrCreateSlot_named hop hn
    refine ⟨hlonger, fun u hu => ?_⟩
    have hfound := Symbols.slotNamed?_of_prefix hu hnamed
    exact onSymbols_eq_ok_iff.2 ⟨u.symbols, Symbols.getOrCreateSlot_of_named hfound ha, rfl⟩
  | index index =>
    cases hs : s.symbols.slot? index with
    | none => simp [pickSlot, hs] at h
    | some found =>
      simp only [pickSlot, run_bind, run_get, hs, run_pure, Prod.mk.injEq, Except.ok.injEq] at h
      obtain ⟨rfl, rfl⟩ := h
      exact ⟨List.prefix_refl _, fun u hu => by simp [pickSlot, Symbols.slot?_of_prefix hu hs]⟩
  | ofType type skipped =>
    obtain ⟨symbols, hop, rfl⟩ := onSymbols_eq_ok_iff.1 h
    obtain ⟨rfl, _⟩ := Symbols.slotOfType_eq_ok_iff.1 hop
    refine ⟨List.prefix_refl _, fun u hu => ?_⟩
    exact onSymbols_eq_ok_iff.2 ⟨u.symbols, Symbols.slotOfType_of_prefix hu hop, rfl⟩
  | current =>
    exfalso
    cases hi : s.code[s.cursor]? with
    | none => simp [pickSlot, Code.at?, hi] at h
    | some i =>
      have hnone : s.symbols.slotFor? i = none := by
        unfold OffSlots at hoff
        rw [current_eq hi] at hoff
        simp [Symbols.slotFor?, hoff]
      simp [pickSlot, Code.at?, hi, hnone] at h

theorem argumentNamed?_congr (hm : u.method = s.method) (hs : u.settings = s.settings)
    (name : MemberName) : u.argumentNamed? name = s.argumentNamed? name := by
  simp [argumentNamed?, argumentIndex, hm, hs]

theorem sourceFor_again {source : Source} (h : sourceFor procedure p s = (.ok source, t))
    (hn : s.symbols.Numbers t.symbols) (hoff : s.OffSlots) :
    s.symbols.slots <+: t.symbols.slots ∧
      ∀ u : Session, u.method = s.method → u.settings = s.settings →
        t.symbols.slots <+: u.symbols.slots → sourceFor procedure p u = (.ok source, u) := by
  cases hhint : p.hint with
  | argument other =>
    cases ha : s.argumentNamed? (other.getD p.name) with
    | error e => simp [sourceFor, hhint, ha] at h
    | ok found =>
      cases found with
      | none => simp [sourceFor, hhint, ha] at h
      | some found =>
        simp only [sourceFor, run_bind, run_get, hhint, run_lift, ha, run_pure, Prod.mk.injEq,
          Except.ok.injEq] at h
        obtain ⟨rfl, rfl⟩ := h
        refine ⟨List.prefix_refl _, fun u hm hs _ => ?_⟩
        simp [sourceFor, hhint, argumentNamed?_congr hm hs, ha]
  | slot pick =>
    simp only [sourceFor, hhint] at h
    obtain ⟨_, _, hget, h⟩ := run_bind_eq_ok_iff.1 h
    cases hget
    obtain ⟨slot, v, hpick, hpure⟩ := run_bind_eq_ok_iff.1 h
    cases hpure
    obtain ⟨hlonger, hagain⟩ := pickSlot_again hpick hn hoff
    exact ⟨hlonger, fun u _ _ hu => by simp [sourceFor, hhint, hagain u hu]⟩
  | byName =>
    cases ha : s.argumentNamed? p.name with
    | error e => simp [sourceFor, hhint, ha] at h
    | ok found =>
      cases found with
      | some found =>
        simp only [sourceFor, run_bind, run_get, hhint, run_lift, ha, run_pure, Prod.mk.injEq,
          Except.ok.injEq] at h
        obtain ⟨rfl, rfl⟩ := h
        refine ⟨List.prefix_refl _, fun u hm hs _ => ?_⟩
        simp [sourceFor, hhint, argumentNamed?_congr hm hs, ha]
      | none =>
        cases hf : s.symbols.slotNamed? p.name.text with
        | none => simp [sourceFor, hhint, ha, hf] at h
        | some slot =>
          simp only [sourceFor, run_bind, run_get, hhint, run_lift, ha, hf, run_pure,
            Prod.mk.injEq, Except.ok.injEq] at h
          obtain ⟨rfl, rfl⟩ := h
          refine ⟨List.prefix_refl _, fun u hm hs hu => ?_⟩
          simp [sourceFor, hhint, argumentNamed?_congr hm hs, ha,
            Symbols.slotNamed?_of_prefix hu hf]

theorem bindParameter_again {load : Instruction}
    (h : bindParameter procedure p s = (.ok load, t)) (hn : s.symbols.Numbers t.symbols)
    (hoff : s.OffSlots) :
    s.symbols.slots <+: t.symbols.slots ∧
      ∀ u : Session, u.method = s.method → u.settings = s.settings →
        t.symbols.slots <+: u.symbols.slots → bindParameter procedure p u = (.ok load, u) := by
  obtain ⟨source, v, hsource, hload⟩ := run_bind_eq_ok_iff.1 h
  cases hfit : p.type.fitSource source.type with
  | error mismatch => simp [hfit] at hload
  | ok fit =>
    simp only [hfit, run_pure, Prod.mk.injEq, Except.ok.injEq] at hload
    obtain ⟨rfl, rfl⟩ := hload
    obtain ⟨hlonger, hagain⟩ := sourceFor_again hsource hn hoff
    refine ⟨hlonger, fun u hm hs hu => ?_⟩
    simp [bindParameter, hagain u hm hs hu, hfit]

/-- What was bound once is bound to the same again, and nothing is made for it. -/
theorem bindAll_again {formals : List Parameter} {loads : Code}
    (h : bindAll procedure formals s = (.ok loads, t)) (hn : s.symbols.Numbers t.symbols)
    (hoff : s.OffSlots) :
    s.symbols.slots <+: t.symbols.slots ∧
      ∀ u : Session, u.method = s.method → u.settings = s.settings →
        t.symbols.slots <+: u.symbols.slots → bindAll procedure formals u = (.ok loads, u) := by
  induction formals generalizing s loads with
  | nil =>
    cases h
    exact ⟨List.prefix_refl _, fun u _ _ _ => rfl⟩
  | cons p rest ih =>
    obtain ⟨load, mid, hload, h⟩ := run_bind_eq_ok_iff.1 h
    obtain ⟨more, last, hmore, hpure⟩ := run_bind_eq_ok_iff.1 h
    cases hpure
    have hfirst := slots_bindParameter procedure p s
    have hsecond := slots_bindAll procedure rest mid
    rw [hload] at hfirst
    rw [hmore] at hsecond
    obtain ⟨hn₁, hn₂⟩ := hn.split hfirst.tableOnly.edits.symbols.slots_length_le
      hsecond.tableOnly.edits.symbols.slots_length_le
    obtain ⟨symbols, _, rfl⟩ := hfirst
    obtain ⟨hlonger₁, hagain₁⟩ := bindParameter_again hload hn₁ hoff
    obtain ⟨hlonger₂, hagain₂⟩ := ih hmore hn₂ hoff
    refine ⟨hlonger₁.trans hlonger₂, fun u hm hs hu => ?_⟩
    simp [bindAll, hagain₁ u hm hs (hlonger₂.trans hu), hagain₂ u hm hs hu]

end Session

end MethodEdit
