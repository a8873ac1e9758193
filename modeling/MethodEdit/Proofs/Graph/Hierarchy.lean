import MethodEdit.Proofs.Graph.Declaration

/-!
Assignability orders the types of a graph. In a graph that respects the rules for interfaces and for
the root, a value fits exactly the root and what its type climbs to, so nothing is lost by leaving
out interfaces on the way to a class.
-/
namespace MethodEdit

namespace Graph

variable {g : Graph}

/-- The graph is made of types alone. Each is declared after those that it extends. -/
inductive Built : Graph → Prop
  | empty : Built Graph.empty
  | addType {g : Graph} (h : Built g) {t : Ty} (ht : ∀ u ∈ t.supertypes true, u ∈ g.types) :
    Built (g.addType t).2
  | byRef {g : Graph} (h : Built g) (element : Ty) : Built (g.byRef element).2
  | addCoreTypes {g : Graph} (h : Built g) : Built g.addCoreTypes.2

theorem Built.family (h : g.Built) : Ty.Family g.types := by
  induction h with
  | empty => exact ⟨by simp [Ty.Apart, Graph.empty], by simp [Graph.empty]⟩
  | addType _ ht ih => exact family_addType ih ht
  | byRef _ element ih =>
    refine family_addType ih ?_
    simp [Ty.mem_supertypes, Ty.pointerTo, Ty.base, Ty.interfaces]
  | addCoreTypes _ ih =>
    exact addCoreTypes_induction (P := fun g => Ty.Family g.types) ih fun _ _ => family_addType

/-- Only interfaces are implemented, an interface extends at most the root, and the root extends
nothing. -/
structure Hierarchical (g : Graph) : Prop where
  interfaces : ∀ t ∈ g.types, ∀ u ∈ t.interfaces, u.isInterface = true
  interface_base : ∀ t ∈ g.types, t.isInterface = true → ∀ u ∈ t.base, u.name = Ty.rootName
  root : ∀ t ∈ g.types, t.name = Ty.rootName → t.base = none ∧ t.interfaces = []

end Graph

namespace Ty

variable {g : Graph} {withInterfaces : Bool} {s t u : Ty}

theorem eq_of_climbs_root (hg : g.Hierarchical) (ht : t ∈ g.types) (hroot : t.name = rootName)
    (h : Climbs withInterfaces t u) : t = u := by
  obtain rfl | ⟨v, hlink, -⟩ := h.cases_head
  · rfl
  · obtain ⟨hbase, hnone⟩ := hg.root t ht hroot
    have hlink := mem_supertypes.1 hlink
    simp [hbase, hnone] at hlink

theorem eq_of_climbs_climbs (h : Climbs withInterfaces s t) (h' : Climbs withInterfaces t s) :
    s = t := by
  obtain rfl | hup := Relation.reflTransGen_iff_eq_or_transGen.1 h
  · rfl
  · have hlt := sizeOf_lt_of_transGen (hup.trans_left h')
    omega

/-- An interface or the root. Only such types are above it. -/
def IsTop (t : Ty) : Prop := t.isInterface = true ∨ t.name = rootName

section Ordered

variable (hf : Family g.types) (hg : g.Hierarchical)

include hf hg

theorem IsTop.of_climbs (hs : s ∈ g.types) (htop : s.IsTop) (h : Climbs withInterfaces s t) :
    t.IsTop := by
  induction h with
  | refl => exact htop
  | @tail v u hclimb hlink ih =>
    have hv := hf.climbs_mem hs hclimb
    obtain hbase | ⟨-, hi⟩ := mem_supertypes.1 hlink
    · obtain hv' | hroot := ih
      · exact .inr (hg.interface_base v hv hv' u hbase)
      · simp [(hg.root v hv hroot).1] at hbase
    · exact .inl (hg.interfaces v hv u hi)

theorem climbs_bases_of_not_isTop (hs : s ∈ g.types) (ht : ¬ t.IsTop) (h : Climbs true s t) :
    Climbs false s t := by
  induction h using Relation.ReflTransGen.head_induction_on with
  | refl => exact .refl
  | @head s v hlink hclimb ih =>
    have hv := hf.supertypes_mem s hs v hlink
    obtain hbase | ⟨-, hi⟩ := mem_supertypes.1 hlink
    · exact .head (mem_supertypes.2 (.inl hbase)) (ih hv)
    · have htop : v.IsTop := .inl (hg.interfaces s hs v hi)
      exact absurd (htop.of_climbs hf hg hv hclimb) ht

/-- For reference types, a value fits the root and all that its type climbs to. -/
theorem assignable_iff_climbs (hs : s ∈ g.types) (ht : t ∈ g.types)
    (hsr : s.isReference = true) (htr : t.isReference = true) :
    assignable t s = true ↔ t.name = rootName ∨ Climbs true s t := by
  have hdef : assignable t s = true ↔
      s.name = t.name ∨ t.name = rootName ∨ Climbs t.isInterface s t := by
    simp [assignable, hsr, htr, beq_iff, walk_eq_true_iff hf hs ht]
  rw [hdef]
  constructor
  · rintro (hname | hroot | hclimb)
    · rw [hf.apart s hs t ht hname]
      exact .inr .refl
    · exact .inl hroot
    · exact .inr hclimb.with_interfaces
  · rintro (hroot | hclimb)
    · exact .inr (.inl hroot)
    · by_cases htop : t.IsTop
      · obtain hi | hroot := htop
        · rw [hi]
          exact .inr (.inr hclimb)
        · exact .inr (.inl hroot)
      · have hclass : t.isInterface = false := by simpa using fun hi => htop (.inl hi)
        rw [hclass]
        exact .inr (.inr (climbs_bases_of_not_isTop hf hg hs htop hclimb))

theorem assignable_iff (hs : s ∈ g.types) (ht : t ∈ g.types) : assignable t s = true ↔
    s = t ∨ s.isReference = true ∧ t.isReference = true ∧
      (t.name = rootName ∨ Climbs true s t) := by
  by_cases hrefs : s.isReference = true ∧ t.isReference = true
  · obtain ⟨hsr, htr⟩ := hrefs
    rw [assignable_iff_climbs hf hg hs ht hsr htr]
    constructor
    · exact fun h => .inr ⟨hsr, htr, h⟩
    · rintro (rfl | ⟨-, -, h⟩)
      · exact .inr .refl
      · exact h
  · constructor
    · intro h
      by_cases hname : s.name = t.name
      · exact .inl (hf.apart s hs t ht hname)
      · simp_all [assignable, beq_iff]
    · rintro (rfl | ⟨hsr, htr, -⟩)
      · exact assignable_self s
      · exact absurd ⟨hsr, htr⟩ hrefs

theorem assignable_trans (hs : s ∈ g.types) (ht : t ∈ g.types) (hu : u ∈ g.types)
    (hst : assignable t s = true) (htu : assignable u t = true) : assignable u s = true := by
  rw [assignable_iff hf hg hs ht] at hst
  rw [assignable_iff hf hg ht hu] at htu
  rw [assignable_iff hf hg hs hu]
  obtain rfl | ⟨hsr, htr, hst⟩ := hst
  · exact htu
  obtain rfl | ⟨-, hur, htu⟩ := htu
  · exact .inr ⟨hsr, htr, hst⟩
  refine .inr ⟨hsr, hur, ?_⟩
  obtain hroot | htu := htu
  · exact .inl hroot
  obtain hroot | hst := hst
  · rw [← eq_of_climbs_root hg ht hroot htu]
    exact .inl hroot
  · exact .inr (hst.trans htu)

theorem assignable_antisymm (hs : s ∈ g.types) (ht : t ∈ g.types)
    (hst : assignable t s = true) (hts : assignable s t = true) : s = t := by
  rw [assignable_iff hf hg hs ht] at hst
  rw [assignable_iff hf hg ht hs] at hts
  obtain rfl | ⟨-, -, hst⟩ := hst
  · rfl
  obtain rfl | ⟨-, -, hts⟩ := hts
  · rfl
  obtain hroot | hst := hst <;> obtain hroot' | hts := hts
  · exact hf.apart s hs t ht (hroot'.trans hroot.symm)
  · exact (eq_of_climbs_root hg ht hroot hts).symm
  · exact eq_of_climbs_root hg hs hroot' hst
  · exact eq_of_climbs_climbs hst hts

end Ordered

/-- In a graph that respects the rules for interfaces and the root, the links never lead back,
assignability is a partial order, and among reference types it is the root or a way over any links,
whether or not the target is an interface. -/
theorem assignable_order (hb : g.Built) (hg : g.Hierarchical) :
    (∀ t ∈ g.types, ∀ u, Relation.TransGen (Extends true) t u → u.name ≠ t.name) ∧
    (∀ t ∈ g.types, assignable t t = true) ∧
    (∀ s ∈ g.types, ∀ t ∈ g.types, ∀ u ∈ g.types,
      assignable t s = true → assignable u t = true → assignable u s = true) ∧
    (∀ s ∈ g.types, ∀ t ∈ g.types,
      assignable t s = true → assignable s t = true → s.name = t.name) ∧
    ∀ s ∈ g.types, ∀ t ∈ g.types, s.isReference = true → t.isReference = true →
      (assignable t s = true ↔ t.name = rootName ∨ Climbs true s t) := by
  have hf := hb.family
  refine ⟨fun t ht u hup hname => ?_, fun t _ => assignable_self t,
    fun s hs t ht u hu => assignable_trans hf hg hs ht hu,
    fun s hs t ht hst hts => congrArg name (assignable_antisymm hf hg hs ht hst hts),
    fun s hs t ht => assignable_iff_climbs hf hg hs ht⟩
  have hsame := hf.apart u (hf.climbs_mem ht hup.to_reflTransGen) t ht hname
  have hlt := sizeOf_lt_of_transGen hup
  rw [hsame] at hlt
  omega

end Ty

namespace Sample

def damageable : Ty :=
  .named "Game.IDamageable" .interfaceType (some Graph.empty.addCoreTypes.1.object) []

def player : Ty :=
  .named "Game.Player" .classType (some Graph.empty.addCoreTypes.1.object) [damageable]

def game : Graph := ((Graph.empty.addCoreTypes.2.addType damageable).2.addType player).2

theorem object_mem : Graph.empty.addCoreTypes.1.object ∈ Graph.empty.addCoreTypes.2.types :=
  List.mem_of_getElem? (i := 0) rfl

theorem damageable_mem : damageable ∈ (Graph.empty.addCoreTypes.2.addType damageable).2.types :=
  List.mem_of_getElem? (i := 9) rfl

theorem built_game : game.Built := by
  have hdamageable : (Graph.empty.addCoreTypes.2.addType damageable).2.Built := by
    refine .addType (.addCoreTypes .empty) ?_
    simpa [damageable, Graph.forall_supertypes_leaf] using object_mem
  refine .addType hdamageable fun u hu => ?_
  obtain hbase | ⟨-, hi⟩ := Ty.mem_supertypes.1 hu
  · obtain rfl : Graph.empty.addCoreTypes.1.object = u := Option.some.inj hbase
    exact Graph.mem_types_addType object_mem
  · obtain rfl := List.mem_singleton.1 hi
    exact damageable_mem

theorem hierarchical_game : game.Hierarchical := by
  constructor
  · decide +kernel
  · decide +kernel
  · decide +kernel

end Sample

theorem Ty.assignable_order_of_game :
    Sample.game.Built ∧ Sample.game.Hierarchical ∧
      Climbs true Sample.player Sample.damageable ∧
      ¬ Climbs true Sample.damageable Sample.player := by
  have hd : Sample.damageable ∈ Sample.game.types := Graph.mem_types_addType Sample.damageable_mem
  have hp : Sample.player ∈ Sample.game.types := List.mem_of_getElem? (i := 10) rfl
  obtain ⟨-, -, -, -, hiff⟩ := assignable_order Sample.built_game Sample.hierarchical_game
  refine ⟨Sample.built_game, Sample.hierarchical_game, ?_, fun hclimb => ?_⟩
  · have hfits : assignable Sample.damageable Sample.player = true := by decide +kernel
    exact ((hiff _ hp _ hd rfl rfl).1 hfits).resolve_left (by decide)
  · have hfits := (hiff _ hd _ hp rfl rfl).2 (.inr hclimb)
    revert hfits
    decide +kernel

end MethodEdit
