import MethodEdit.Graph.Core
import MethodEdit.Graph.Lookup
import MethodEdit.Proofs.Types.Climbing

/-!
What a declaration does to a graph. It stores at most one more type, or one more member, at the end,
so what is there stays, and the names of the types stay apart.
-/
namespace MethodEdit.Graph

variable {g : Graph} {t u : Ty}

theorem addType_cases (g : Graph) (t : Ty) :
    (∃ stored ∈ g.types, stored.name = t.name ∧ g.addType t = (stored, g)) ∨
      (∀ u ∈ g.types, u.name ≠ t.name) ∧
        g.addType t = (t, { g with types := g.types ++ [t] }) := by
  unfold addType
  cases h : g.type? t.name with
  | some stored =>
    have hname : stored.name = t.name := by simpa using List.find?_some h
    exact .inl ⟨stored, List.mem_of_find?_eq_some h, hname, rfl⟩
  | none => exact .inr ⟨by simpa [type?] using h, rfl⟩

theorem addType_mem (g : Graph) (t : Ty) : (g.addType t).1 ∈ (g.addType t).2.types := by
  obtain ⟨stored, hmem, -, heq⟩ | ⟨-, heq⟩ := addType_cases g t
  · rwa [heq]
  · simp [heq]

theorem mem_types_addType (h : u ∈ g.types) : u ∈ (g.addType t).2.types := by
  obtain ⟨stored, -, -, heq⟩ | ⟨-, heq⟩ := addType_cases g t
  · rwa [heq]
  · simp [heq, h]

theorem apart_addType (h : Ty.Apart g.types) (t : Ty) : Ty.Apart (g.addType t).2.types := by
  obtain ⟨stored, -, -, heq⟩ | ⟨hnew, heq⟩ := addType_cases g t
  · rwa [heq]
  · rw [heq]
    intro a ha b hb hname
    simp only [List.mem_append, List.mem_singleton] at ha hb
    obtain ha | rfl := ha <;> obtain hb | rfl := hb
    · exact h a ha b hb hname
    · exact absurd hname (hnew a ha)
    · exact absurd hname.symm (hnew b hb)
    · rfl

theorem family_addType (h : Ty.Family g.types) (ht : ∀ u ∈ t.supertypes true, u ∈ g.types) :
    Ty.Family (g.addType t).2.types where
  apart := apart_addType h.apart t
  supertypes_mem a ha b hb := by
    obtain ⟨stored, -, -, heq⟩ | ⟨-, heq⟩ := addType_cases g t
    · rw [heq] at ha ⊢
      exact h.supertypes_mem a ha b hb
    · simp only [heq, List.mem_append, List.mem_singleton] at ha ⊢
      obtain ha | rfl := ha
      · exact .inl (h.supertypes_mem a ha b hb)
      · exact .inl (ht b hb)

theorem forall_supertypes_leaf {name : String} {kind : Kind} {base : Option Ty} {Q : Ty → Prop} :
    (∀ u ∈ (Ty.named name kind base []).supertypes true, Q u) ↔ ∀ u, base = some u → Q u := by
  simp [Ty.mem_supertypes, Ty.base, Ty.interfaces]

/-- The core types are declared one by one, each after its base. -/
theorem addCoreTypes_induction {P : Graph → Prop} (h : P g)
    (hadd : ∀ (g : Graph) (t : Ty), P g → (∀ u ∈ t.supertypes true, u ∈ g.types) →
      P (g.addType t).2) : P g.addCoreTypes.2 := by
  have hroot := hadd g (.named Ty.rootName .classType none []) h (by simp [forall_supertypes_leaf])
  have hobject := addType_mem g (.named Ty.rootName .classType none [])
  simp only [addCoreTypes]
  generalize g.addType (.named Ty.rootName .classType none []) = declared at hroot hobject ⊢
  obtain ⟨object, g⟩ := declared
  have hbase := hadd g (.named "System.ValueType" .classType (some object) []) hroot
    (by simpa [forall_supertypes_leaf] using hobject)
  have hvalue := addType_mem g (.named "System.ValueType" .classType (some object) [])
  have hobject := mem_types_addType (t := .named "System.ValueType" .classType (some object) [])
    hobject
  generalize g.addType (.named "System.ValueType" .classType (some object) []) = declared
    at hbase hvalue hobject ⊢
  obtain ⟨valueType, g⟩ := declared
  -- from here on only these two are extended, and both stay
  have hnext (g : Graph) (name : String) (kind : Kind) (base : Option Ty)
      (hg : P g ∧ object ∈ g.types ∧ valueType ∈ g.types)
      (hb : ∀ u, base = some u → u = object ∨ u = valueType) :
      P (g.addType (.named name kind base [])).2 ∧
        object ∈ (g.addType (.named name kind base [])).2.types ∧
        valueType ∈ (g.addType (.named name kind base [])).2.types := by
    obtain ⟨hp, ho, hv⟩ := hg
    refine ⟨hadd g _ hp ?_, mem_types_addType ho, mem_types_addType hv⟩
    rw [forall_supertypes_leaf]
    intro u hu
    obtain rfl | rfl := hb u hu
    · exact ho
    · exact hv
  have hvoid := hnext g "System.Void" .voidType none ⟨hbase, hobject, hvalue⟩ (by simp)
  have hboolean := hnext _ "System.Boolean" .valueType (some valueType) hvoid (by simp)
  have hint32 := hnext _ "System.Int32" .valueType (some valueType) hboolean (by simp)
  have hint64 := hnext _ "System.Int64" .valueType (some valueType) hint32 (by simp)
  have hsingle := hnext _ "System.Single" .valueType (some valueType) hint64 (by simp)
  have hdouble := hnext _ "System.Double" .valueType (some valueType) hsingle (by simp)
  exact (hnext _ "System.String" .classType (some object) hdouble (by simp)).1

end MethodEdit.Graph
