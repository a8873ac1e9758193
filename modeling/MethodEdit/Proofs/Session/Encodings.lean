import Mathlib.Logic.Basic
import MethodEdit.Proofs.Edit
import MethodEdit.Session.Search

/-!
Short and general encodings of loads and stores. Whatever encoding is chosen for a constant, a slot
or an argument, it is valid and stands for what was encoded; and every valid load of a 32-bit
constant and every valid access of a slot is decoded. So a search does not miss an instruction for
the form that it has.
-/
namespace MethodEdit

theorem Operand.isBetween_iff {low high : Int} {value : Int64} :
    isBetween low high value = true ↔ low ≤ value.toInt ∧ value.toInt ≤ high := by
  simp [isBetween]

namespace Instruction

variable {i : Instruction} {index : UInt16} {value : Int64}

/-- Decoded as this integer, and found by searches for it and for no other. -/
structure ShowsInteger (i : Instruction) (value : Int64) : Prop where
  decoded : i.integer? = some value
  sought : ∀ s : Session, s.current = i →
    ∀ other, s.satisfies (.integer other) = true ↔ other = value

/-- Decoded as this slot, looked up as this slot, and found by searches for its loads or stores and
for those of no other slot. -/
structure ShowsSlot (i : Instruction) (index : UInt16) : Prop where
  decoded : i.slotIndex? = some index
  lookedUp : ∀ t : Symbols, t.slotFor? i = t.slot? index
  soughtLoad : ∀ s : Session, s.current = i →
    ∀ other, s.satisfies (.loadsSlot other) = true ↔ i.loadsSlot = true ∧ other = index
  soughtStore : ∀ s : Session, s.current = i →
    ∀ other, s.satisfies (.storesSlot other) = true ↔ i.storesSlot = true ∧ other = index

theorem showsInteger_iff : i.ShowsInteger value ↔ i.integer? = some value := by
  refine ⟨fun h => h.decoded, fun h => ⟨h, fun s hs other => ?_⟩⟩
  rw [Session.satisfies, hs, loadsInteger, beq_iff_eq, h, Option.some_inj, eq_comm]

theorem showsSlot_iff (ha : i.loadsSlot = true ∨ i.storesSlot = true) :
    i.ShowsSlot index ↔ i.slotIndex? = some index := by
  refine ⟨fun h => h.decoded, fun h => ⟨h, fun t => ?_, fun s hs other => ?_, fun s hs other => ?_⟩⟩
  · rw [Symbols.slotFor?, if_pos (by simpa using ha), h, Option.bind_some]
  · rw [Session.satisfies, Session.loadsSlot, hs, h, Bool.and_eq_true, beq_iff_eq, Option.some_inj,
      eq_comm (a := index)]
  · rw [Session.satisfies, Session.storesSlot, hs, h, Bool.and_eq_true, beq_iff_eq, Option.some_inj,
      eq_comm (a := index)]

structure SlotAccess (load : Bool) (index : UInt16) (i : Instruction) : Prop where
  valid : i.validate = .ok ()
  loads : i.loadsSlot = load
  stores : i.storesSlot = !load
  shown : i.ShowsSlot index

theorem SlotAccess.of_isValid {load : Bool} (hv : i.isValid = true) (hl : i.loadsSlot = load)
    (hs : i.storesSlot = !load) (hi : i.slotIndex? = some index) : i.SlotAccess load index := by
  have ha : i.loadsSlot = true ∨ i.storesSlot = true := by
    rw [hl, hs]
    cases load <;> simp
  exact ⟨validate_eq_ok_iff.2 hv, hl, hs, (showsSlot_iff ha).2 hi⟩

theorem indexed_induction {P : UInt16 → Instruction → Prop} {fixed : Fin 4 → Opcode}
    {general : Opcode} {operand : UInt16 → Operand}
    (hfixed : ∀ k : Fin 4, P k.val.toUInt16 { opcode := fixed k })
    (hgeneral : ∀ index, P index { opcode := general, operand := operand index })
    (index : UInt16) : P index (indexed fixed general operand index) := by
  unfold indexed
  split
  · rename_i h
    simpa using hfixed ⟨index.toNat, h⟩
  · exact hgeneral index

theorem slotAccess_loadSlot (index : UInt16) : (loadSlot index).SlotAccess true index :=
  indexed_induction (P := fun index i => i.SlotAccess true index)
    (fun _ => .of_isValid rfl rfl rfl rfl) (fun _ => .of_isValid rfl rfl rfl rfl) index

theorem slotAccess_storeSlot (index : UInt16) : (storeSlot index).SlotAccess false index :=
  indexed_induction (P := fun index i => i.SlotAccess false index)
    (fun _ => .of_isValid rfl rfl rfl rfl) (fun _ => .of_isValid rfl rfl rfl rfl) index

theorem argumentAccess_loadArgument (index : UInt16) :
    (loadArgument index).validate = .ok () ∧ (loadArgument index).argumentIndex? = some index :=
  indexed_induction (P := fun index i => i.validate = .ok () ∧ i.argumentIndex? = some index)
    (fun _ => ⟨rfl, rfl⟩) (fun _ => ⟨rfl, rfl⟩) index

theorem isValid_loadInt32 (value : Int32) : (loadInt32 value).isValid = true := by
  unfold loadInt32
  split
  · rfl
  · split
    · rename_i h
      refine Operand.isBetween_iff.2 ?_
      rwa [Int32.toInt_toInt64]
    · refine Operand.isBetween_iff.2 ?_
      have hlow := value.le_toInt
      have hhigh := value.toInt_lt
      rw [Int32.toInt_toInt64]
      omega

theorem isInt32Constant_loadInt32 (value : Int32) :
    (loadInt32 value).opcode.isInt32Constant = true := by
  unfold loadInt32
  split
  · rfl
  · split <;> rfl

theorem integer?_ldcFixed (k : Fin 10) (operand : Operand) (labels : List Label) :
    integer? ⟨.ldcFixed k, operand, labels⟩ = some (Int64.ofInt ((k.val : Int) - 1)) := rfl

theorem integer?_loadInt32 (value : Int32) :
    (loadInt32 value).integer? = some value.toInt64 := by
  unfold loadInt32
  split
  · rename_i h
    have hk : ((value.toInt + 1).toNat : Int) - 1 = value.toInt := by omega
    rw [integer?_ldcFixed]
    simp only [hk, Int64.ofInt_int32ToInt]
  · split <;> rfl

theorem exists_toInt64_eq {low high : Int} (h : Operand.isBetween low high value = true)
    (hlow : -2147483648 ≤ low) (hhigh : high ≤ 2147483647) :
    ∃ narrow : Int32, value = narrow.toInt64 := by
  have hbetween := Operand.isBetween_iff.1 h
  refine ⟨Int32.ofInt value.toInt, ?_⟩
  rw [← Int64.toInt_inj, Int32.toInt_toInt64, Int32.toInt_ofInt_of_le (by omega) (by omega)]

/-- Each form of a 32-bit load, if it is valid, holds a value of 32 bits. -/
theorem exists_integer?_eq (hv : i.isValid = true) (hc : i.opcode.isInt32Constant = true) :
    ∃ value : Int32, i.integer? = some value.toInt64 := by
  have hfixed : ∀ k : Fin 10,
      Int64.ofInt ((k.val : Int) - 1) = (Int32.ofInt ((k.val : Int) - 1)).toInt64 := by decide
  obtain ⟨opcode, operand, labels⟩ := i
  -- the opcode fixes the kind of the operand, so for other operands `hv` is false
  cases opcode with
  | ldcFixed k => exact ⟨_, by rw [integer?_ldcFixed, hfixed k]⟩
  | ldcI4S =>
    cases operand with
    | int value =>
      have hbetween : Operand.isBetween (-128) 127 value = true := hv
      obtain ⟨narrow, rfl⟩ := exists_toInt64_eq hbetween (by decide) (by decide)
      exact ⟨narrow, rfl⟩
    | _ => cases hv
  | ldcI4 =>
    cases operand with
    | int value =>
      have hbetween : Operand.isBetween (-2147483648) 2147483647 value = true := hv
      obtain ⟨narrow, rfl⟩ := exists_toInt64_eq hbetween (by decide) (by decide)
      exact ⟨narrow, rfl⟩
    | _ => cases hv
  | _ => cases hc

theorem exists_slotIndex?_eq (hv : i.isValid = true)
    (ha : i.loadsSlot = true ∨ i.storesSlot = true) : ∃ index, i.slotIndex? = some index := by
  obtain ⟨opcode, operand, labels⟩ := i
  cases opcode with
  | ldlocFixed k => exact ⟨_, rfl⟩
  | stlocFixed k => exact ⟨_, rfl⟩
  | ldloc | ldloca | stloc =>
    cases operand with
    | slot index => exact ⟨index, rfl⟩
    | _ => cases hv
  | _ => simp [loadsSlot, storesSlot, Opcode.loadsSlot, Opcode.storesSlot] at ha

/-- Constants, slots and arguments are encoded as valid instructions that are decoded to them, and
every valid load of a 32-bit constant and every valid load or store of a slot is decoded. Searches
by value and by slot see all of them. -/
theorem every_encoding_seen :
    (∀ value : Int32, (loadInt32 value).validate = .ok () ∧
      (loadInt32 value).opcode.isInt32Constant = true ∧
      (loadInt32 value).ShowsInteger value.toInt64) ∧
    (∀ value : Int64, (loadInt64 value).validate = .ok () ∧
      (loadInt64 value).opcode.isInt32Constant = false ∧ (loadInt64 value).ShowsInteger value) ∧
    (∀ index, (loadSlot index).SlotAccess true index ∧
      (loadSlotAddress index).SlotAccess true index ∧ (storeSlot index).SlotAccess false index) ∧
    (∀ index,
      ((loadArgument index).validate = .ok () ∧ (loadArgument index).argumentIndex? = some index) ∧
      (loadArgumentAddress index).validate = .ok () ∧
      (loadArgumentAddress index).argumentIndex? = some index) ∧
    (∀ i : Instruction, i.validate = .ok () → i.opcode.isInt32Constant = true →
      ∃ value : Int32, i.ShowsInteger value.toInt64) ∧
    ∀ i : Instruction, i.validate = .ok () → i.loadsSlot = true ∨ i.storesSlot = true →
      ∃ index, i.ShowsSlot index := by
  refine ⟨fun value => ⟨?_, isInt32Constant_loadInt32 value, ?_⟩, fun value => ⟨rfl, rfl, ?_⟩,
    fun index => ⟨slotAccess_loadSlot index, .of_isValid rfl rfl rfl rfl,
      slotAccess_storeSlot index⟩,
    fun index => ⟨argumentAccess_loadArgument index, rfl, rfl⟩, fun i hv hc => ?_,
    fun i hv ha => ?_⟩
  · exact validate_eq_ok_iff.2 (isValid_loadInt32 value)
  · exact showsInteger_iff.2 (integer?_loadInt32 value)
  · exact showsInteger_iff.2 rfl
  · obtain ⟨value, hvalue⟩ := exists_integer?_eq (validate_eq_ok_iff.1 hv) hc
    exact ⟨value, showsInteger_iff.2 hvalue⟩
  · obtain ⟨index, hindex⟩ := exists_slotIndex?_eq (validate_eq_ok_iff.1 hv) ha
    exact ⟨index, (showsSlot_iff ha).2 hindex⟩

/-- Longer forms than needed: five with an operand byte, and slot 2 in the general form. -/
theorem every_encoding_seen_of_five :
    (∃ value : Int32, value.toInt64 = 5 ∧
      ShowsInteger { opcode := .ldcI4S, operand := .int 5 } value.toInt64) ∧
    ShowsSlot { opcode := .stloc, operand := .slot 2 } 2 := by
  obtain ⟨-, -, -, -, hinteger, hslot⟩ := every_encoding_seen
  obtain ⟨value, hvalue⟩ := hinteger { opcode := .ldcI4S, operand := .int 5 } rfl rfl
  obtain ⟨index, hindex⟩ := hslot { opcode := .stloc, operand := .slot 2 } rfl (.inr rfl)
  have hfive : some 5 = some value.toInt64 := hvalue.decoded
  have htwo : some 2 = some index := hindex.decoded
  obtain rfl := Option.some.inj htwo
  exact ⟨⟨value, (Option.some.inj hfive).symm, hvalue⟩, hindex⟩

end Instruction

end MethodEdit
