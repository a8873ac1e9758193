import MethodEdit.Proofs.Graph.Identity

/-!
By-reference types and their elements. The by-reference type of a type is found by its name, and
the same name can be given to a declared type: to one that is no pointer, or to one that points at
something else. As long as that is not done, taking the by-reference type and taking the element
undo each other; once it is done, they do not.
-/
namespace MethodEdit

namespace TypeName

variable {name : String}

theorem byRef_inj {a b : String} : byRef a = byRef b ↔ a = b := String.append_left_inj "&"

theorem isByRef_byRef (name : String) : isByRef (byRef name) = true := by
  simp [isByRef, byRef]

theorem isByRef_iff : isByRef name = true ↔ ∃ front, name = front ++ "&" := by
  constructor
  · intro h
    obtain ⟨front, hfront⟩ := List.getLast?_eq_some_iff.1 (beq_iff_eq.1 h)
    refine ⟨String.ofList front, ?_⟩
    rw [← String.toList_inj, hfront]
    simp
  · rintro ⟨front, rfl⟩
    exact isByRef_byRef front

end TypeName

namespace Ty

variable {t : Ty} {name : String}

/-- The type is by-reference to the type of this name. A name stands for one type. -/
def PointsAt (t : Ty) (name : String) : Prop := t.element.map Ty.name = some name

/-- If the type has the name of a by-reference type, it points at the type of the rest. -/
def RightlyNamed (t : Ty) : Prop := ∀ name, t.name = TypeName.byRef name → t.PointsAt name

theorem rightlyNamed_of_plain (h : TypeName.isByRef t.name = false) : t.RightlyNamed := by
  intro name hname
  rw [hname, TypeName.isByRef_byRef] at h
  cases h

theorem pointsAt_pointerTo (element : Ty) : (pointerTo element).PointsAt element.name := rfl

theorem rightlyNamed_pointerTo (element : Ty) : (pointerTo element).RightlyNamed := by
  intro name hname
  obtain rfl := TypeName.byRef_inj.1 hname
  exact pointsAt_pointerTo element

theorem rightlyNamed_iff : t.RightlyNamed ↔
    (TypeName.isByRef t.name = true → ∃ name, t.name = TypeName.byRef name ∧ t.PointsAt name) := by
  constructor
  · intro h hends
    obtain ⟨name, hname⟩ := TypeName.isByRef_iff.1 hends
    exact ⟨name, hname, h name hname⟩
  · intro h name hname
    obtain ⟨other, hother, hpoints⟩ := h (hname ▸ TypeName.isByRef_byRef name)
    obtain rfl := TypeName.byRef_inj.1 (hname.symm.trans hother)
    exact hpoints

end Ty

namespace Graph

variable {g : Graph} {t u : Ty} {P : Ty → Prop}

theorem forall_types_addType (h : ∀ u ∈ g.types, P u) (ht : P t) :
    ∀ u ∈ (g.addType t).2.types, P u := by
  obtain ⟨stored, -, -, heq⟩ | ⟨-, heq⟩ := addType_cases g t
  · rwa [heq]
  · rw [heq]
    exact List.forall_mem_append.2 ⟨h, by simpa using ht⟩

theorem forall_types_addCoreTypes (h : ∀ u ∈ g.types, P u)
    (hplain : ∀ u : Ty, TypeName.isByRef u.name = false → P u) :
    ∀ u ∈ g.addCoreTypes.2.types, P u := by
  have hadd {g : Graph} (hg : ∀ u ∈ g.types, P u) (name : String) (kind : Kind) (base : Option Ty)
      (hname : TypeName.isByRef name = false) :
      ∀ u ∈ (g.addType (.named name kind base [])).2.types, P u :=
    forall_types_addType hg (hplain _ hname)
  -- nine types, none of them with an ampersand
  simp only [Graph.addCoreTypes]
  iterate 9 refine hadd ?_ _ _ _ (by decide)
  exact h

/-- What an action stores under the name of a by-reference type is that type, unless the action
declares something else. -/
theorem forall_types_act {action : Action} (h : ∀ u ∈ g.types, P u)
    (hdeclared : ∀ u, action = .type u → P u) (hright : ∀ u : Ty, u.RightlyNamed → P u) :
    ∀ u ∈ (g.act action).types, P u := by
  cases action with
  | type t => exact forall_types_addType h (hdeclared t rfl)
  | byRef element => exact forall_types_addType h (hright _ (Ty.rightlyNamed_pointerTo element))
  | core =>
    rw [Graph.act]
    exact forall_types_addCoreTypes h fun u hu => hright u (Ty.rightlyNamed_of_plain hu)
  | method m =>
    rw [Graph.act, types_addMethod]
    exact h
  | field f =>
    rw [Graph.act, types_addField]
    exact h
  | member q =>
    simp only [Graph.act]
    split
    · rename_i found hfind
      rw [types_findMember hfind]
      exact h
    · exact h
  | setter q => exact h

theorem declared_or_rightlyNamed {actions : List Action} :
    ∀ u ∈ (ofActions actions).types, .type u ∈ actions ∨ u.RightlyNamed := by
  induction actions using List.reverseRecOn with
  | nil => simp [ofActions, run, empty]
  | append_singleton actions action ih =>
    rw [ofActions_concat]
    refine forall_types_act (fun u hu => ?_) (fun u hu => ?_) fun u hu => .inr hu
    · exact (ih u hu).imp_left (List.mem_append_left [action])
    · exact .inl (by simp [hu])

theorem pointsAt_byRef_iff (hg : g.Distinct) (t : Ty) :
    (g.byRef t).1.PointsAt t.name ↔
      ∀ u ∈ g.types, u.name = TypeName.byRef t.name → u.PointsAt t.name := by
  obtain ⟨stored, hmem, hname, heq⟩ | ⟨hnew, heq⟩ := addType_cases g (.pointerTo t)
  · rw [byRef, heq]
    constructor
    · intro hpoints u hu hsame
      obtain rfl := List.inj_on_of_nodup_map hg.types hu hmem (hsame.trans hname.symm)
      exact hpoints
    · exact fun hall => hall stored hmem hname
  · rw [byRef, heq]
    exact ⟨fun _ u hu hsame => absurd hsame (hnew u hu), fun _ => Ty.pointsAt_pointerTo t⟩

theorem byRef_run (hg : g.Distinct) (t : Ty) (actions : List Action) :
    ((g.byRef t).2.run actions).byRef t = ((g.byRef t).1, (g.byRef t).2.run actions) := by
  have hlater : ((g.byRef t).2.run actions).Distinct := (hg.act (.byRef t)).run actions
  have hmem := (kept_run (g.byRef t).2 actions).types.subset (addType_mem g (.pointerTo t))
  exact (interns_of_distinct hlater).1.again _ hmem _ (name_addType g (.pointerTo t)).symm

/-- After any history, the by-reference type of a type stays the same, and different types have
different ones. It points at its type exactly if no stored type that has its name does otherwise.
Over all types, by-reference types and elements are the inverse of each other exactly if every type
that the history declared under the name of a by-reference type, and that was stored, points at the
type of the rest of the name. -/
theorem byRef_inverse_iff (actions others : List Action) :
    (∀ t ∈ (ofActions actions).types, (((ofActions actions).byRef t).2.run others).byRef t =
      (((ofActions actions).byRef t).1, ((ofActions actions).byRef t).2.run others)) ∧
    (∀ t ∈ (ofActions actions).types, ∀ u ∈ (ofActions actions).types, t ≠ u →
      ((ofActions actions).byRef t).1.name ≠ (((ofActions actions).byRef t).2.byRef u).1.name) ∧
    (∀ t ∈ (ofActions actions).types, ((ofActions actions).byRef t).1.PointsAt t.name ↔
      ∀ u ∈ (ofActions actions).types, u.name = TypeName.byRef t.name → u.PointsAt t.name) ∧
    ((∀ t ∈ (ofActions actions).types, ((ofActions actions).byRef t).1.PointsAt t.name) ∧
      (∀ u ∈ (ofActions actions).types, TypeName.isByRef u.name = true →
        ∃ name, u.name = TypeName.byRef name ∧ u.PointsAt name) ↔
      ∀ t, .type t ∈ actions → t ∈ (ofActions actions).types → t.RightlyNamed) := by
  have hg := distinct_ofActions actions
  refine ⟨fun t _ => byRef_run hg t others, fun t ht u hu hne hsame => ?_,
    fun t _ => pointsAt_byRef_iff hg t, fun hlaw t _ ht => ?_, fun hdeclared => ?_⟩
  · rw [byRef, byRef, name_addType, name_addType] at hsame
    exact hne (List.inj_on_of_nodup_map hg.types ht hu (TypeName.byRef_inj.1 hsame))
  · exact Ty.rightlyNamed_iff.2 (hlaw.2 t ht)
  · have hright : ∀ u ∈ (ofActions actions).types, u.RightlyNamed := fun u hu =>
      (declared_or_rightlyNamed u hu).elim (fun hu' => hdeclared u hu' hu) id
    refine ⟨fun t _ => (pointsAt_byRef_iff hg t).2 fun u hu => hright u hu t.name, ?_⟩
    exact fun u hu => Ty.rightlyNamed_iff.1 (hright u hu)

end Graph

namespace Sample

def box : Ty := .named "Game.Box" .classType (some Graph.empty.addCoreTypes.1.object) []

def boxPointer : Ty := .byRef { name := "Game.Box&", element := box }

def boxImpostor : Ty := .named "Game.Box&" .classType none []

def boxMisleader : Ty :=
  .byRef { name := "Game.Box&", element := Graph.empty.addCoreTypes.1.int32 }

def boxing : List Action := [.core, .type box, .type boxPointer]

def takenFirst (taken : Ty) : List Action := [.core, .type taken, .type box]

end Sample

theorem Graph.byRef_inverse_of_box :
    (∀ t, .type t ∈ Sample.boxing → t ∈ (ofActions Sample.boxing).types → t.RightlyNamed) ∧
    Sample.box ∈ (ofActions Sample.boxing).types ∧
    ((ofActions Sample.boxing).byRef Sample.box).1.PointsAt Sample.box.name := by
  have hright : ∀ t, .type t ∈ Sample.boxing → t ∈ (ofActions Sample.boxing).types →
      t.RightlyNamed := by
    intro t ht _
    obtain rfl | rfl : t = Sample.box ∨ t = Sample.boxPointer := by simpa [Sample.boxing] using ht
    · exact Ty.rightlyNamed_of_plain (by decide)
    · exact Ty.rightlyNamed_pointerTo Sample.box
  have hmem : Sample.box ∈ (ofActions Sample.boxing).types :=
    List.mem_of_getElem? (i := 9) rfl
  obtain ⟨-, -, -, hinverse⟩ := byRef_inverse_iff Sample.boxing []
  exact ⟨hright, hmem, (hinverse.2 hright).1 Sample.box hmem⟩

/-- The name is accepted for a class and for other pointers, and then the by-reference type is that
class, or points at something else. -/
theorem Graph.byRef_taken :
    TypeName.fault? "Game.Box&" = none ∧
    (Sample.box ∈ (ofActions (Sample.takenFirst Sample.boxImpostor)).types ∧
      ((ofActions (Sample.takenFirst Sample.boxImpostor)).byRef Sample.box).1 =
        Sample.boxImpostor ∧
      Sample.boxImpostor.isByRef = false ∧ ¬ Sample.boxImpostor.PointsAt Sample.box.name) ∧
    Sample.box ∈ (ofActions (Sample.takenFirst Sample.boxMisleader)).types ∧
      ((ofActions (Sample.takenFirst Sample.boxMisleader)).byRef Sample.box).1 =
        Sample.boxMisleader ∧
      Sample.boxMisleader.PointsAt "System.Int32" ∧
      ¬ Sample.boxMisleader.PointsAt Sample.box.name := by
  refine ⟨by decide +kernel, ⟨List.mem_of_getElem? (i := 10) rfl, rfl, rfl, ?_⟩,
    List.mem_of_getElem? (i := 10) rfl, rfl, rfl, ?_⟩
  · unfold Ty.PointsAt
    decide
  · unfold Ty.PointsAt
    decide

end MethodEdit
