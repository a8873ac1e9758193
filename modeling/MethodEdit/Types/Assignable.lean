import MethodEdit.Types.Basic

/-!
Which values can be used where a given type is expected. Value types, void and by-reference types
fit only themselves. A reference type fits everything it reaches through its bases and, if the
target is an interface, through interfaces too; and every reference type fits the root of all
classes.
-/
namespace MethodEdit.Ty

def rootName : String := "System.Object"

def supertypes (withInterfaces : Bool) (t : Ty) : List Ty :=
  t.base.toList ++ if withInterfaces then t.interfaces else []

/-- Those of `types` whose names are not in `seen` yet, once each, and the names seen then. -/
def unseen (seen : List String) : List Ty → List Ty × List String
  | [] => ([], seen)
  | t :: rest =>
    if seen.contains t.name then unseen seen rest
    else
      let (others, seen) := unseen (t.name :: seen) rest
      (t :: others, seen)

theorem sizeOf_unseen (seen : List String) (types : List Ty) :
    sizeOf (unseen seen types).1 ≤ sizeOf types := by
  induction types generalizing seen with
  | nil => simp [unseen]
  | cons t rest ih =>
    simp only [unseen]
    split
    · have := ih seen
      simp only [List.cons.sizeOf_spec]
      omega
    · have := ih (t.name :: seen)
      simp only [List.cons.sizeOf_spec]
      omega

theorem sizeOf_append (a b : List Ty) : sizeOf (a ++ b) + 1 = sizeOf a + sizeOf b := by
  induction a with
  | nil => simp; omega
  | cons t rest ih => simp only [List.cons_append, List.cons.sizeOf_spec]; omega

theorem sizeOf_reverse (types : List Ty) : sizeOf types.reverse = sizeOf types := by
  induction types with
  | nil => rfl
  | cons t rest ih =>
    have h := sizeOf_append rest.reverse [t]
    simp only [List.reverse_cons, List.cons.sizeOf_spec, List.nil.sizeOf_spec] at h ⊢
    omega

theorem sizeOf_toList (base : Option Ty) : sizeOf base.toList ≤ sizeOf base + 1 := by
  cases base with
  | none => simp only [Option.toList_none, List.nil.sizeOf_spec, Option.none.sizeOf_spec]; omega
  | some t =>
    simp only [Option.toList_some, List.cons.sizeOf_spec, List.nil.sizeOf_spec,
      Option.some.sizeOf_spec]
    omega

theorem sizeOf_links (t : Ty) : sizeOf t.base.toList + sizeOf t.interfaces ≤ sizeOf t := by
  cases t with
  | named name kind base interfaces =>
    have hbase := sizeOf_toList base
    simp only [Ty.base, Ty.interfaces, Ty.named.sizeOf_spec]
    omega
  | byRef pointer =>
    obtain ⟨name, element, base, interfaces⟩ := pointer
    have hbase := sizeOf_toList base
    simp only [Ty.base, Ty.interfaces, Ty.byRef.sizeOf_spec, Pointer.mk.sizeOf_spec]
    omega

theorem sizeOf_supertypes (withInterfaces : Bool) (t : Ty) :
    sizeOf (supertypes withInterfaces t) ≤ sizeOf t + 1 := by
  have hlinks := sizeOf_links t
  have happend := sizeOf_append t.base.toList (if withInterfaces then t.interfaces else [])
  have hwanted : sizeOf (if withInterfaces then t.interfaces else []) ≤ sizeOf t.interfaces := by
    cases withInterfaces with
    | true => exact Nat.le_refl _
    | false => cases t.interfaces <;> simp +arith
  rw [supertypes]
  omega

/-- Depth-first walk over the types still to visit, the one found last first. Names are marked when
their type is found, so each is visited once. -/
def walk (withInterfaces : Bool) (target : Ty) (seen : List String) : List Ty → Bool
  | [] => false
  | t :: rest =>
    if t == target then true
    else
      let found := unseen seen (t.supertypes withInterfaces)
      walk withInterfaces target found.2 (found.1.reverse ++ rest)
termination_by toVisit => sizeOf toVisit
decreasing_by
  have h1 := sizeOf_unseen seen (t.supertypes withInterfaces)
  have h2 := sizeOf_supertypes withInterfaces t
  have h3 := sizeOf_append (unseen seen (t.supertypes withInterfaces)).1.reverse rest
  rw [sizeOf_reverse] at h3
  simp only [List.cons.sizeOf_spec]
  omega

/-- A value of type `source` can be used where `target` is expected. -/
def assignable (target source : Ty) : Bool :=
  if source == target then true
  else if !source.isReference || !target.isReference then false
  else if target.name == rootName then true
  else walk target.isInterface target [source.name] [source]

theorem assignable_self (t : Ty) : assignable t t = true := by
  simp [assignable, beq_iff]

end MethodEdit.Ty
