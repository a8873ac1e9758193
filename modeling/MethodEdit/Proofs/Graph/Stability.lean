import MethodEdit.Proofs.Graph.Declaration

/-!
A look-up that has succeeded once gives the same member ever after, as long as nothing but types and
instantiations are added. Instantiations stand in the list that later look-ups search, but none of
these takes one for a definition, a getter or a setter.
-/
namespace MethodEdit

theorem Ty.beq_list_iff {a b : List Ty} : (a == b) = true ↔ a.map name = b.map name := by
  induction a generalizing b with
  | nil => cases b <;> simp
  | cons t rest ih =>
    cases b with
    | nil => simp
    | cons u others => simp [List.cons_beq_cons, ih, beq_iff]

def Method.IsInstance (m : Method) : Prop := m.generics ≠ [] ∧ m.arity ≠ 0

namespace Query

variable {p q : Query} {m : Method}

theorem key_eq_iff : q.key = p.key ↔ q.owner.name = p.owner.name ∧ q.name = p.name ∧
    q.parameters.map (·.map Ty.name) = p.parameters.map (·.map Ty.name) ∧
    q.generics.map Ty.name = p.generics.map Ty.name := by
  simp [key]

theorem takes_congr (h : q.key = p.key) : q.takes = p.takes := by
  obtain ⟨-, -, hparameters, -⟩ := key_eq_iff.1 h
  funext m
  unfold takes
  cases hq : q.parameters <;> cases hp : p.parameters <;> simp [hq, hp] at hparameters ⊢
  rw [Bool.eq_iff_iff, Ty.beq_list_iff, Ty.beq_list_iff, hparameters]

theorem length_generics_congr (h : q.key = p.key) : q.generics.length = p.generics.length := by
  obtain ⟨-, -, -, hgenerics⟩ := key_eq_iff.1 h
  simpa using congrArg List.length hgenerics

theorem matchesMethod_congr (h : q.key = p.key) : q.matchesMethod = p.matchesMethod := by
  obtain ⟨-, hname, -⟩ := key_eq_iff.1 h
  funext m
  simp only [matchesMethod, hname, length_generics_congr h, takes_congr h]

theorem matchesGetter_congr (h : q.key = p.key) : q.matchesGetter = p.matchesGetter := by
  obtain ⟨-, hname, -⟩ := key_eq_iff.1 h
  funext m
  simp only [matchesGetter, hname]

theorem matchesSetter_congr (h : q.key = p.key) : q.matchesSetter = p.matchesSetter := by
  obtain ⟨-, hname, -⟩ := key_eq_iff.1 h
  funext m
  simp only [matchesSetter, hname, takes_congr h]

theorem admitsProperty_congr (h : q.key = p.key) : q.admitsProperty = p.admitsProperty := by
  have hnames (q : Query) : q.admitsProperty = ((q.generics.map Ty.name).isEmpty &&
      (q.parameters.map (·.map Ty.name)).all List.isEmpty) := by
    cases hq : q.parameters <;> simp [admitsProperty, hq]
  obtain ⟨-, -, hparameters, hgenerics⟩ := key_eq_iff.1 h
  rw [hnames, hnames, hparameters, hgenerics]

theorem matchesMethod_of_isInstance (q : Query) (h : m.IsInstance) : q.matchesMethod m = false := by
  simp [matchesMethod, h.1]

theorem matchesGetter_of_isInstance (q : Query) (h : m.IsInstance) : q.matchesGetter m = false := by
  simp [matchesGetter, h.2]

theorem matchesSetter_of_isInstance (q : Query) (h : m.IsInstance) : q.matchesSetter m = false := by
  simp [matchesSetter, h.2]

end Query

namespace Graph

variable {g g' : Graph} {chain : List Ty} {p q : Query} {m n : Method} {member : Member}

/-- The later graph may have more types, and instantiations after the methods of the earlier one. -/
structure Grown (g g' : Graph) : Prop where
  types : ∀ t ∈ g.types, t ∈ g'.types
  methods : ∃ added, g'.methods = g.methods ++ added ∧ ∀ m ∈ added, m.IsInstance
  fields : g'.fields = g.fields

theorem Grown.refl (g : Graph) : Grown g g := ⟨fun _ h => h, ⟨[], by simp⟩, rfl⟩

theorem grown_addType (g : Graph) (t : Ty) : Grown g (g.addType t).2 where
  types _ h := mem_types_addType h
  methods := by
    obtain ⟨stored, -, -, heq⟩ | ⟨-, heq⟩ := addType_cases g t <;> exact ⟨[], by simp [heq]⟩
  fields := by
    obtain ⟨stored, -, -, heq⟩ | ⟨-, heq⟩ := addType_cases g t <;> simp [heq]

theorem addMethod_cases (g : Graph) (m : Method) :
    (∃ stored, g.methods.find? (·.signature == m.signature) = some stored ∧
      g.addMethod m = (stored, g)) ∨
      g.methods.find? (·.signature == m.signature) = none ∧
        g.addMethod m = (m, { g with methods := g.methods ++ [m] }) := by
  unfold addMethod
  cases h : g.methods.find? (·.signature == m.signature) with
  | some stored => exact .inl ⟨stored, rfl, rfl⟩
  | none => exact .inr ⟨rfl, rfl⟩

theorem grown_addMethod (g : Graph) (h : m.IsInstance) : Grown g (g.addMethod m).2 := by
  obtain ⟨stored, -, heq⟩ | ⟨-, heq⟩ := addMethod_cases g m
  · rw [heq]
    exact .refl g
  · rw [heq]
    exact ⟨fun _ h => h, ⟨[m], by simpa using h⟩, rfl⟩

theorem addMethod_eq_self_iff : g.addMethod m = (n, g) ↔
    g.methods.find? (·.signature == m.signature) = some n := by
  obtain ⟨stored, hfind, heq⟩ | ⟨hfind, heq⟩ := addMethod_cases g m
  · simp [heq, hfind]
  · rw [heq, hfind]
    refine ⟨fun h => ?_, fun h => by cases h⟩
    have hmethods := congrArg (·.2.methods) h
    simp at hmethods

theorem addMethod_idem (g : Graph) (m : Method) :
    (g.addMethod m).2.addMethod m = g.addMethod m := by
  refine addMethod_eq_self_iff.2 ?_
  obtain ⟨stored, hfind, heq⟩ | ⟨hfind, heq⟩ := addMethod_cases g m
  · rw [heq, hfind]
  · simp [heq, List.find?_append, hfind]

theorem methodAlong_of_grown (h : Grown g g') {matching : Method → Bool}
    (hm : ∀ m : Method, m.IsInstance → matching m = false) :
    g'.methodAlong chain matching = g.methodAlong chain matching := by
  obtain ⟨added, hadded, hinstances⟩ := h.methods
  unfold methodAlong
  congr 1
  funext owner
  have hnone : added.find? (fun m => m.owner == owner && matching m) = none := by
    rw [List.find?_eq_none]
    intro m hmem
    simp [hm m (hinstances m hmem)]
  rw [hadded, List.find?_append, hnone, Option.or_none]

theorem fieldAlong_of_grown (h : Grown g g') {matching : Field → Bool} :
    g'.fieldAlong chain matching = g.fieldAlong chain matching := by
  simp only [fieldAlong, h.fields]

theorem instantiate_eq_self_iff {definition : Method} {generics : List Ty} :
    g.instantiate definition generics = (n, g) ↔
      if generics.isEmpty then definition = n
      else g.methods.find? (·.signature == { definition with generics }.signature) = some n := by
  unfold instantiate
  split
  · simp
  · exact addMethod_eq_self_iff

theorem instantiate_idem (g : Graph) (definition : Method) (generics : List Ty) :
    (g.instantiate definition generics).2.instantiate definition generics =
      g.instantiate definition generics := by
  unfold instantiate
  split
  · rfl
  · exact addMethod_idem g { definition with generics }

theorem instantiate_of_append {definition : Method} {generics : List Ty} {added : List Method}
    (hadded : g'.methods = g.methods ++ added)
    (hg : g.instantiate definition generics = (n, g)) :
    g'.instantiate definition generics = (n, g') := by
  rw [instantiate_eq_self_iff] at hg ⊢
  split
  · rwa [if_pos ‹_›] at hg
  · rw [if_neg ‹_›] at hg
    rw [hadded, List.find?_append, hg, Option.some_or]

theorem instantiate_of_grown (h : Grown g g') {definition : Method} {generics : List Ty}
    (hg : g.instantiate definition generics = (n, g)) :
    g'.instantiate definition generics = (n, g') := by
  obtain ⟨added, hadded, -⟩ := h.methods
  exact instantiate_of_append hadded hg

theorem instantiate_congr {definition : Method} {generics others : List Ty}
    (hnames : generics.map Ty.name = others.map Ty.name)
    (hg : g.instantiate definition generics = (n, g)) :
    g.instantiate definition others = (n, g) := by
  have hempty : generics.isEmpty = others.isEmpty := by
    simpa using congrArg List.isEmpty hnames
  rw [instantiate_eq_self_iff] at hg ⊢
  simpa [Method.signature, hnames, hempty, Method.isStatic] using hg

theorem grown_instantiate (g : Graph) {definition : Method} {generics : List Ty}
    (harity : definition.arity = generics.length) :
    Grown g (g.instantiate definition generics).2 := by
  unfold instantiate
  split
  · exact .refl g
  · rename_i hne
    refine grown_addMethod g ⟨by simpa using hne, ?_⟩
    simpa [harity] using hne

theorem matching_of_methodAlong {matching : Method → Bool}
    (h : g.methodAlong chain matching = some m) : matching m = true := by
  obtain ⟨owner, -, hfind⟩ := List.exists_of_findSome?_eq_some h
  have hm := List.find?_some hfind
  simp only [Bool.and_eq_true] at hm
  exact hm.2

def property? (g : Graph) (q : Query) : Option Member :=
  if q.admitsProperty then
    ((g.methodAlong q.owner.baseChain q.matchesGetter).map .method).or
      ((g.fieldAlong q.owner.baseChain (·.name == q.name)).map .field)
  else none

theorem findMember_eq_ok_iff : g.findMember q = .ok (member, g') ↔
    (∃ definition m, g.methodAlong q.owner.baseChain q.matchesMethod = some definition ∧
      g.instantiate definition q.generics = (m, g') ∧ member = .method m) ∨
    g.methodAlong q.owner.baseChain q.matchesMethod = none ∧ g.property? q = some member ∧
      g' = g := by
  simp only [findMember, property?]
  cases g.methodAlong q.owner.baseChain q.matchesMethod with
  | some definition =>
    constructor
    · rintro ⟨⟩
      exact .inl ⟨definition, _, rfl, rfl, rfl⟩
    · rintro (⟨_, m, ⟨⟩, hinst, rfl⟩ | ⟨⟨⟩, -⟩)
      simp [hinst]
  | none =>
    by_cases hp : q.admitsProperty = true
    · cases g.methodAlong q.owner.baseChain q.matchesGetter <;>
        cases g.fieldAlong q.owner.baseChain (·.name == q.name) <;>
        simp [hp, eq_comm]
    · simp [hp]

theorem grown_findMember (h : g.findMember q = .ok (member, g')) : Grown g g' := by
  obtain ⟨definition, m, hdef, hinst, -⟩ | ⟨-, -, rfl⟩ := findMember_eq_ok_iff.1 h
  · have hm := matching_of_methodAlong hdef
    have harity : definition.arity = q.generics.length := by
      simp only [Query.matchesMethod, Bool.and_eq_true, beq_iff_eq] at hm
      exact hm.1.2
    have hgrown := grown_instantiate g harity
    rwa [hinst] at hgrown
  · exact .refl g'

theorem property?_of_grown (h : Grown g g') : g'.property? q = g.property? q := by
  simp only [property?, methodAlong_of_grown h fun _ => q.matchesGetter_of_isInstance,
    fieldAlong_of_grown h]

theorem findMember_transfer (hg : Grown g g') {found : Graph}
    (h : g.findMember q = .ok (member, found))
    (hinst : ∀ definition m, g.instantiate definition q.generics = (m, found) →
      g'.instantiate definition q.generics = (m, g')) :
    g'.findMember q = .ok (member, g') := by
  rw [findMember_eq_ok_iff] at h ⊢
  rw [methodAlong_of_grown hg fun _ => q.matchesMethod_of_isInstance, property?_of_grown hg]
  obtain ⟨definition, m, hdef, hm, hmember⟩ | ⟨hnone, hproperty, -⟩ := h
  · exact .inl ⟨definition, m, hdef, hinst definition m hm, hmember⟩
  · exact .inr ⟨hnone, hproperty, rfl⟩

theorem findMember_of_grown (hg : Grown g g') (h : g.findMember q = .ok (member, g)) :
    g'.findMember q = .ok (member, g') :=
  findMember_transfer hg h fun _ _ => instantiate_of_grown hg

theorem findMember_idem (h : g.findMember q = .ok (member, g')) :
    g'.findMember q = .ok (member, g') := by
  refine findMember_transfer (grown_findMember h) h fun definition m hinst => ?_
  have hidem := instantiate_idem g definition q.generics
  rwa [hinst] at hidem

theorem findMember_congr (howner : q.owner = p.owner) (hkey : q.key = p.key)
    (h : g.findMember q = .ok (member, g)) : g.findMember p = .ok (member, g) := by
  obtain ⟨-, hname, -, hgenerics⟩ := Query.key_eq_iff.1 hkey
  have hproperty : g.property? q = g.property? p := by
    simp only [property?, howner, hname, Query.matchesGetter_congr hkey,
      Query.admitsProperty_congr hkey]
  rw [findMember_eq_ok_iff, howner, Query.matchesMethod_congr hkey, hproperty] at h
  rw [findMember_eq_ok_iff]
  obtain ⟨definition, m, hdef, hinst, hm⟩ | hproperty := h
  · exact .inl ⟨definition, m, hdef, instantiate_congr hgenerics hinst, hm⟩
  · exact .inr hproperty

theorem findSetter_eq_ok_iff : g.findSetter q = .ok m ↔
    g.methodAlong q.owner.baseChain q.matchesSetter = some m := by
  unfold findSetter
  cases g.methodAlong q.owner.baseChain q.matchesSetter <;> simp

theorem findSetter_of_grown (hg : Grown g g') (h : g.findSetter q = .ok m) :
    g'.findSetter q = .ok m := by
  rw [findSetter_eq_ok_iff] at h ⊢
  rw [methodAlong_of_grown hg fun _ => q.matchesSetter_of_isInstance, h]

theorem findSetter_congr (howner : q.owner = p.owner) (hkey : q.key = p.key)
    (h : g.findSetter q = .ok m) : g.findSetter p = .ok m := by
  rw [findSetter_eq_ok_iff] at h ⊢
  rw [← howner, ← Query.matchesSetter_congr hkey, h]

end Graph

end MethodEdit
