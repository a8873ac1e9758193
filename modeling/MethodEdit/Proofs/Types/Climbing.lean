import Mathlib.Logic.Relation
import MethodEdit.Types.Assignable

/-!
The walk over the supertypes of a type finds exactly what can be reached from it link by link. Types
are marked by name, so this holds among types whose names tell them apart and whose supertypes are
among them.
-/
namespace MethodEdit.Ty

variable {withInterfaces : Bool} {types todo : List Ty} {seen : List String} {s t u target : Ty}

/-- The second type is the base of the first or, if these are wanted, one of its interfaces. -/
def Extends (withInterfaces : Bool) (t u : Ty) : Prop := u ∈ t.supertypes withInterfaces

/-- The second type is reached from the first link by link. -/
def Climbs (withInterfaces : Bool) : Ty → Ty → Prop :=
  Relation.ReflTransGen (Extends withInterfaces)

theorem mem_supertypes : u ∈ t.supertypes withInterfaces ↔
    t.base = some u ∨ withInterfaces = true ∧ u ∈ t.interfaces := by
  cases withInterfaces <;> simp [supertypes, eq_comm]

theorem mem_supertypes_true (h : u ∈ t.supertypes withInterfaces) : u ∈ t.supertypes true := by
  rw [mem_supertypes] at h ⊢
  exact h.imp_right fun hi => ⟨rfl, hi.2⟩

theorem Climbs.with_interfaces (h : Climbs withInterfaces s t) : Climbs true s t :=
  Relation.ReflTransGen.mono (fun _ _ => mem_supertypes_true) s t h

theorem Extends.sizeOf_lt (h : Extends withInterfaces t u) : sizeOf u < sizeOf t := by
  have hlinks := sizeOf_links t
  obtain hbase | ⟨-, hi⟩ := mem_supertypes.1 h
  · simp only [hbase, Option.toList_some, List.cons.sizeOf_spec] at hlinks
    omega
  · have hlt := List.sizeOf_lt_of_mem hi
    omega

theorem sizeOf_lt_of_transGen (h : Relation.TransGen (Extends withInterfaces) t u) :
    sizeOf u < sizeOf t := by
  induction h with
  | single hlink => exact hlink.sizeOf_lt
  | tail _ hlink ih => exact Nat.lt_trans hlink.sizeOf_lt ih

def Apart (types : List Ty) : Prop := ∀ t ∈ types, ∀ u ∈ types, t.name = u.name → t = u

/-- Names tell the types apart, and the supertypes of each are among them. -/
structure Family (types : List Ty) : Prop where
  apart : Apart types
  supertypes_mem : ∀ t ∈ types, ∀ u ∈ t.supertypes true, u ∈ types

theorem Family.climbs_mem (hf : Family types) (ht : t ∈ types) (h : Climbs withInterfaces t u) :
    u ∈ types := by
  induction h with
  | refl => exact ht
  | tail _ hlink ih => exact hf.supertypes_mem _ ih _ (mem_supertypes_true hlink)

theorem mem_of_mem_unseen (h : t ∈ (unseen seen types).1) : t ∈ types := by
  induction types generalizing seen with
  | nil => simp [unseen] at h
  | cons first rest ih =>
    simp only [unseen] at h
    split at h
    · exact List.mem_cons_of_mem first (ih h)
    · obtain rfl | h := List.mem_cons.1 h
      · exact List.mem_cons_self
      · exact List.mem_cons_of_mem first (ih h)

theorem mem_seen_unseen {name : String} :
    name ∈ (unseen seen types).2 ↔ name ∈ seen ∨ ∃ t ∈ types, t.name = name := by
  induction types generalizing seen with
  | nil => simp [unseen]
  | cons first rest ih =>
    simp only [unseen]
    split
    · rename_i hseen
      have hfirst : first.name ∈ seen := by simpa using hseen
      rw [ih]
      grind
    · rw [ih]
      grind

theorem exists_found_of_mem_seen {name : String} (h : name ∈ (unseen seen types).2)
    (hnew : name ∉ seen) : ∃ t ∈ (unseen seen types).1, t.name = name := by
  induction types generalizing seen with
  | nil => exact absurd h hnew
  | cons first rest ih =>
    simp only [unseen] at h ⊢
    by_cases hseen : seen.contains first.name = true
    · rw [if_pos hseen] at h ⊢
      exact ih h hnew
    · rw [if_neg hseen] at h ⊢
      by_cases heq : first.name = name
      · exact ⟨first, List.mem_cons_self, heq⟩
      · obtain ⟨t, ht, hname⟩ := ih h (by simp [Ne.symm heq, hnew])
        exact ⟨t, List.mem_cons_of_mem first ht, hname⟩

theorem exists_climbs_of_walk (h : walk withInterfaces target seen todo = true) :
    ∃ t ∈ todo, ∃ u, Climbs withInterfaces t u ∧ u.name = target.name := by
  fun_induction walk withInterfaces target seen todo with
  | case1 => simp at h
  | case2 seen t rest heq => exact ⟨t, List.mem_cons_self, t, .refl, beq_iff.1 heq⟩
  | case3 seen t rest hne found ih =>
    obtain ⟨v, hv, u, hu, hname⟩ := ih h
    obtain hv | hv := List.mem_append.1 hv
    · have hlink := mem_of_mem_unseen (List.mem_reverse.1 hv)
      exact ⟨t, List.mem_cons_self, u, .head hlink hu, hname⟩
    · exact ⟨v, List.mem_cons_of_mem t hv, u, hu, hname⟩

/-- How far the walk has come: each marked type is still to be visited, or it is not the target and
its supertypes are marked too. -/
structure Marked (withInterfaces : Bool) (target : Ty) (types : List Ty) (seen : List String)
    (todo : List Ty) : Prop where
  todo_mem : ∀ t ∈ todo, t ∈ types
  visited : ∀ t ∈ types, t.name ∈ seen →
    t ∈ todo ∨ t.name ≠ target.name ∧ ∀ u ∈ t.supertypes withInterfaces, u.name ∈ seen

theorem Marked.visit (hf : Family types) {rest : List Ty}
    (h : Marked withInterfaces target types seen (t :: rest)) (hne : t.name ≠ target.name) :
    Marked withInterfaces target types (unseen seen (t.supertypes withInterfaces)).2
      ((unseen seen (t.supertypes withInterfaces)).1.reverse ++ rest) where
  todo_mem v hv := by
    obtain hv | hv := List.mem_append.1 hv
    · have hlink := mem_supertypes_true (mem_of_mem_unseen (List.mem_reverse.1 hv))
      exact hf.supertypes_mem t (h.todo_mem t List.mem_cons_self) v hlink
    · exact h.todo_mem v (List.mem_cons_of_mem t hv)
  visited v hv hmarked := by
    by_cases hold : v.name ∈ seen
    · obtain hv | ⟨hne, hup⟩ := h.visited v hv hold
      · obtain rfl | hv := List.mem_cons.1 hv
        · exact .inr ⟨hne, fun u hu => mem_seen_unseen.2 (.inr ⟨u, hu, rfl⟩)⟩
        · exact .inl (List.mem_append_right _ hv)
      · exact .inr ⟨hne, fun u hu => mem_seen_unseen.2 (.inl (hup u hu))⟩
    · -- the type was marked just now, so it is among those found
      obtain ⟨found, hfound, hname⟩ := exists_found_of_mem_seen hmarked hold
      have hlink := mem_supertypes_true (mem_of_mem_unseen hfound)
      have hmem := hf.supertypes_mem t (h.todo_mem t List.mem_cons_self) found hlink
      obtain rfl := hf.apart found hmem v hv hname
      exact .inl (List.mem_append_left _ (List.mem_reverse.2 hfound))

theorem Marked.not_climbs (hf : Family types) (h : Marked withInterfaces target types seen todo)
    (hw : walk withInterfaces target seen todo = false) (ht : t ∈ types) (hs : t.name ∈ seen)
    (hu : Climbs withInterfaces t u) : u.name ≠ target.name := by
  fun_induction walk withInterfaces target seen todo with
  | case1 seen =>
    have hdone (v : Ty) (hv : v ∈ types) (hm : v.name ∈ seen) : v.name ≠ target.name ∧
        ∀ u ∈ v.supertypes withInterfaces, u.name ∈ seen := by
      simpa using h.visited v hv hm
    have hmarked : u.name ∈ seen := by
      induction hu with
      | refl => exact hs
      | tail hclimb hlink ih => exact (hdone _ (hf.climbs_mem ht hclimb) ih).2 _ hlink
    exact (hdone u (hf.climbs_mem ht hu) hmarked).1
  | case2 => simp at hw
  | case3 seen v rest hne found ih =>
    have hne : v.name ≠ target.name := fun heq => hne (beq_iff.2 heq)
    exact ih (h.visit hf hne) hw (mem_seen_unseen.2 (.inl hs))

theorem walk_eq_true_iff (hf : Family types) (hs : s ∈ types) (ht : target ∈ types) :
    walk withInterfaces target [s.name] [s] = true ↔ Climbs withInterfaces s target := by
  constructor
  · intro hw
    obtain ⟨t, hm, u, hu, hname⟩ := exists_climbs_of_walk hw
    obtain rfl := List.mem_singleton.1 hm
    obtain rfl := hf.apart u (hf.climbs_mem hs hu) target ht hname
    exact hu
  · intro hclimb
    have hstart : Marked withInterfaces target types [s.name] [s] := by
      refine ⟨fun t hm => ?_, fun t hm hseen => .inl ?_⟩
      · rw [List.mem_singleton.1 hm]
        exact hs
      · rw [hf.apart t hm s hs (List.mem_singleton.1 hseen)]
        exact List.mem_cons_self
    cases hw : walk withInterfaces target [s.name] [s] with
    | true => rfl
    | false => exact absurd rfl (hstart.not_climbs hf hw hs (by simp) hclimb)

end MethodEdit.Ty
