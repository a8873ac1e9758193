import Mathlib.Data.List.Induction
import Mathlib.Data.List.Nodup
import MethodEdit.Proofs.Graph.Caching

/-!
Nothing is stored twice. However declarations and look-ups alternate, types differ by name and
members by signature, and an equal one that is declared later gives back the one that is stored. An
instantiation is made once, from its definition, and found ever after.
-/
namespace MethodEdit

section Intern

variable {α κ : Type} [BEq κ] {key : α → κ} {entries : List α} {a b : α}

def intern (key : α → κ) (entries : List α) (a : α) : α × List α :=
  match entries.find? (key · == key a) with
  | some stored => (stored, entries)
  | none => (a, entries ++ [a])

theorem intern_mem (key : α → κ) (entries : List α) (a : α) :
    (intern key entries a).1 ∈ (intern key entries a).2 := by
  unfold intern
  split
  · rename_i stored h
    exact List.mem_of_find?_eq_some h
  · simp

theorem prefix_intern (key : α → κ) (entries : List α) (a : α) :
    entries <+: (intern key entries a).2 := by
  unfold intern
  split
  · exact List.prefix_rfl
  · exact List.prefix_append entries [a]

variable [LawfulBEq κ]

theorem key_intern (key : α → κ) (entries : List α) (a : α) :
    key (intern key entries a).1 = key a := by
  unfold intern
  split
  · rename_i stored h
    simpa using List.find?_some h
  · rfl

theorem nodup_intern (h : (entries.map key).Nodup) (a : α) :
    ((intern key entries a).2.map key).Nodup := by
  unfold intern
  split
  · exact h
  · rename_i hnone
    have hnew : key a ∉ entries.map key := by simpa using hnone
    simpa using h.concat hnew

theorem intern_of_mem (h : (entries.map key).Nodup) (ha : a ∈ entries) (hb : key b = key a) :
    intern key entries b = (a, entries) := by
  unfold intern
  split
  · rename_i stored hfind
    have hkey : key stored = key b := by simpa using List.find?_some hfind
    have hstored := List.mem_of_find?_eq_some hfind
    rw [List.inj_on_of_nodup_map h hstored ha (hkey.trans hb)]
  · rename_i hnone
    have hne := List.find?_eq_none.1 hnone a ha
    simp [hb] at hne

end Intern

inductive Action where
  | type (t : Ty)
  | byRef (element : Ty)
  | core
  | method (m : Method)
  | field (f : Field)
  /-- A look-up, which may instantiate what it finds. -/
  | member (q : Query)
  | setter (q : Query)

def Action.declaresMember : Action → Bool
  | method _ | field _ => true
  | _ => false

namespace Graph

def act (g : Graph) : Action → Graph
  | .type t => (g.addType t).2
  | .byRef element => (g.byRef element).2
  | .core => g.addCoreTypes.2
  | .method m => (g.addMethod m).2
  | .field f => (g.addField f).2
  | .member q =>
    match g.findMember q with
    | .ok (_, found) => found
    | .error _ => g
  | .setter _ => g

def run (g : Graph) (actions : List Action) : Graph := actions.foldl act g

def ofActions (actions : List Action) : Graph := empty.run actions

variable {g g' : Graph} {q : Query} {m n : Method} {member : Member} {action : Action}

theorem ofActions_concat (actions : List Action) (action : Action) :
    ofActions (actions ++ [action]) = (ofActions actions).act action := by
  simp [ofActions, run]

theorem addType_eq_intern (g : Graph) (t : Ty) :
    g.addType t =
      ((intern Ty.name g.types t).1, { g with types := (intern Ty.name g.types t).2 }) := by
  unfold addType type? intern
  split <;> rename_i h <;> simp [h]

theorem addMethod_eq_intern (g : Graph) (m : Method) :
    g.addMethod m =
      ((intern Method.signature g.methods m).1,
        { g with methods := (intern Method.signature g.methods m).2 }) := by
  unfold addMethod intern
  split <;> rename_i h <;> simp [h]

theorem addField_eq_intern (g : Graph) (f : Field) :
    g.addField f =
      ((intern Field.signature g.fields f).1,
        { g with fields := (intern Field.signature g.fields f).2 }) := by
  unfold addField intern
  split <;> rename_i h <;> simp [h]

theorem mem_of_methodAlong {chain : List Ty} {matching : Method → Bool}
    (h : g.methodAlong chain matching = some m) : m ∈ g.methods := by
  obtain ⟨owner, -, hfind⟩ := List.exists_of_findSome?_eq_some h
  exact List.mem_of_find?_eq_some hfind

theorem findMember_graph (h : g.findMember q = .ok (member, g')) :
    g' = g ∨ ∃ definition ∈ g.methods, definition.generics = [] ∧
      g' = (g.addMethod { definition with generics := q.generics }).2 := by
  obtain ⟨definition, m, hdef, hinst, -⟩ | ⟨-, -, rfl⟩ := findMember_eq_ok_iff.1 h
  · unfold instantiate at hinst
    split at hinst
    · exact .inl (congrArg Prod.snd hinst).symm
    · have hm := matching_of_methodAlong hdef
      simp only [Query.matchesMethod, Bool.and_eq_true, List.isEmpty_iff] at hm
      exact .inr ⟨definition, mem_of_methodAlong hdef, hm.1.1.2, (congrArg Prod.snd hinst).symm⟩
  · exact .inl rfl

/-- Whatever an action does is made up of declarations: of types, of one method, or of one field. A
method that is not declared by the action itself is made from a definition. -/
theorem act_induction {P : Graph → Prop} (action : Action)
    (htype : ∀ (g : Graph) (t : Ty), P g → P (g.addType t).2)
    (hmethod : ∀ m, (action = .method m ∨ ∃ definition ∈ g.methods, definition.generics = [] ∧
      m = { definition with generics := m.generics }) → P (g.addMethod m).2)
    (hfield : ∀ f, P (g.addField f).2) (h : P g) : P (g.act action) := by
  cases action with
  | type t => exact htype g t h
  | byRef element => exact htype g (.pointerTo element) h
  | core => exact addCoreTypes_induction h fun g t hg _ => htype g t hg
  | method m => exact hmethod m (.inl rfl)
  | field f => exact hfield f
  | member q =>
    simp only [act]
    split
    · rename_i found hfind
      obtain rfl | ⟨definition, hmem, hnone, rfl⟩ := findMember_graph hfind
      · exact h
      · exact hmethod _ (.inr ⟨definition, hmem, hnone, rfl⟩)
    · exact h
  | setter q => exact h

structure Distinct (g : Graph) : Prop where
  types : (g.types.map Ty.name).Nodup
  methods : (g.methods.map Method.signature).Nodup
  fields : (g.fields.map Field.signature).Nodup

theorem Distinct.act (h : g.Distinct) (action : Action) : (g.act action).Distinct := by
  refine act_induction action (fun g t hg => ?_) (fun m _ => ?_) (fun f => ?_) h
  · rw [addType_eq_intern]
    exact ⟨nodup_intern hg.types t, hg.methods, hg.fields⟩
  · rw [addMethod_eq_intern]
    exact ⟨h.types, nodup_intern h.methods m, h.fields⟩
  · rw [addField_eq_intern]
    exact ⟨h.types, h.methods, nodup_intern h.fields f⟩

theorem Distinct.run (h : g.Distinct) (actions : List Action) : (g.run actions).Distinct := by
  induction actions generalizing g with
  | nil => exact h
  | cons action rest ih => exact ih (h.act action)

theorem distinct_ofActions (actions : List Action) : (ofActions actions).Distinct := by
  have hempty : Graph.empty.Distinct := ⟨by simp [empty], by simp [empty], by simp [empty]⟩
  exact hempty.run actions

structure Kept (g g' : Graph) : Prop where
  types : g.types <+: g'.types
  methods : g.methods <+: g'.methods
  fields : g.fields <+: g'.fields

theorem Kept.refl (g : Graph) : g.Kept g := ⟨List.prefix_rfl, List.prefix_rfl, List.prefix_rfl⟩

theorem Kept.trans {g'' : Graph} (h₁ : g.Kept g') (h₂ : g'.Kept g'') : g.Kept g'' :=
  ⟨h₁.types.trans h₂.types, h₁.methods.trans h₂.methods, h₁.fields.trans h₂.fields⟩

theorem kept_act (g : Graph) (action : Action) : g.Kept (g.act action) := by
  refine act_induction action (fun g' t hg => ?_) (fun m _ => ?_) (fun f => ?_) (Kept.refl g)
  · rw [addType_eq_intern]
    exact ⟨hg.types.trans (prefix_intern Ty.name g'.types t), hg.methods, hg.fields⟩
  · rw [addMethod_eq_intern]
    exact { Kept.refl g with methods := prefix_intern Method.signature g.methods m }
  · rw [addField_eq_intern]
    exact { Kept.refl g with fields := prefix_intern Field.signature g.fields f }

theorem kept_run (g : Graph) (actions : List Action) : g.Kept (g.run actions) := by
  induction actions generalizing g with
  | nil => exact .refl g
  | cons action rest ih => exact (kept_act g action).trans (ih (g.act action))

/-- A declaration of entries that differ by their keys. What is declared is stored, and an equal one
that is declared again gives back the one that is stored and changes nothing. -/
structure Interns {α κ : Type} (g : Graph) (key : α → κ) (entries : Graph → List α)
    (declare : Graph → α → α × Graph) : Prop where
  nodup : ((entries g).map key).Nodup
  stored : ∀ a, (declare g a).1 ∈ entries (declare g a).2 ∧ key (declare g a).1 = key a
  again : ∀ a ∈ entries g, ∀ b, key b = key a → declare g b = (a, g)

theorem Interns.of_store {α κ : Type} [BEq κ] [LawfulBEq κ] {key : α → κ}
    {entries : Graph → List α} {declare : Graph → α → α × Graph} (store : List α → Graph)
    (hn : ((entries g).map key).Nodup)
    (hd : ∀ a, declare g a = ((intern key (entries g) a).1, store (intern key (entries g) a).2))
    (hget : ∀ all, entries (store all) = all) (hset : store (entries g) = g) :
    g.Interns key entries declare where
  nodup := hn
  stored a := by
    rw [hd, hget]
    exact ⟨intern_mem key (entries g) a, key_intern key (entries g) a⟩
  again a ha b hb := by rw [hd, intern_of_mem hn ha hb, hset]

theorem interns_of_distinct (h : g.Distinct) :
    g.Interns Ty.name types addType ∧ g.Interns Method.signature methods addMethod ∧
      g.Interns Field.signature fields addField := by
  refine ⟨?_, ?_, ?_⟩
  · exact .of_store (fun types => { g with types }) h.types (addType_eq_intern g)
      (fun _ => rfl) rfl
  · exact .of_store (fun methods => { g with methods }) h.methods (addMethod_eq_intern g)
      (fun _ => rfl) rfl
  · exact .of_store (fun fields => { g with fields }) h.fields (addField_eq_intern g)
      (fun _ => rfl) rfl

/-- The method was declared in the history, or is made from a definition of the graph. -/
def Originates (actions : List Action) (g : Graph) (m : Method) : Prop :=
  Action.method m ∈ actions ∨ ∃ definition ∈ g.methods, definition.generics = [] ∧
    m = { definition with generics := m.generics }

theorem Originates.mono {earlier later : List Action} (hactions : earlier ⊆ later)
    (hmethods : g.methods ⊆ g'.methods) (h : Originates earlier g m) : Originates later g' m := by
  obtain hdeclared | ⟨definition, hmem, hmade⟩ := h
  · exact .inl (hactions hdeclared)
  · exact .inr ⟨definition, hmethods hmem, hmade⟩

theorem originates_ofActions (actions : List Action) :
    ∀ m ∈ (ofActions actions).methods, Originates actions (ofActions actions) m := by
  induction actions using List.reverseRecOn with
  | nil => simp [ofActions, run, empty]
  | append_singleton actions action ih =>
    rw [ofActions_concat]
    generalize ofActions actions = g at ih
    have hactions : actions ⊆ actions ++ [action] := List.subset_append_left actions [action]
    have hold : ∀ m ∈ g.methods, Originates (actions ++ [action]) g m :=
      fun m hm => (ih m hm).mono hactions (List.Subset.refl _)
    refine act_induction
      (P := fun g => ∀ m ∈ g.methods, Originates (actions ++ [action]) g m) action
      (fun g t hg => ?_) (fun n hn m hm => ?_) (fun f => ?_) hold
    · rw [addType_eq_intern]
      exact hg
    · obtain ⟨stored, -, heq⟩ | ⟨-, heq⟩ := addMethod_cases g n
      · rw [heq] at hm ⊢
        exact hold m hm
      · rw [heq] at hm ⊢
        have hmethods : g.methods ⊆ g.methods ++ [n] := List.subset_append_left g.methods [n]
        obtain hm | hm := List.mem_append.1 hm
        · exact (hold m hm).mono (List.Subset.refl _) hmethods
        · obtain rfl := List.mem_singleton.1 hm
          obtain rfl | ⟨definition, hmem, hmade⟩ := hn
          · exact .inl (by simp)
          · exact .inr ⟨definition, hmethods hmem, hmade⟩
    · rw [addField_eq_intern]
      exact hold

theorem Grown.trans {g'' : Graph} (h₁ : Grown g g') (h₂ : Grown g' g'') : Grown g g'' where
  types t ht := h₂.types t (h₁.types t ht)
  methods := by
    obtain ⟨first, hfirst, hfirst'⟩ := h₁.methods
    obtain ⟨second, hsecond, hsecond'⟩ := h₂.methods
    refine ⟨first ++ second, by rw [hsecond, hfirst, List.append_assoc], fun m hm => ?_⟩
    exact (List.mem_append.1 hm).elim (hfirst' m) (hsecond' m)
  fields := h₂.fields.trans h₁.fields

theorem grown_act (g : Graph) (h : action.declaresMember = false) : Grown g (g.act action) := by
  cases action with
  | type t => exact grown_addType g t
  | byRef element => exact grown_addType g (.pointerTo element)
  | core =>
    exact addCoreTypes_induction (P := Grown g) (.refl g) fun g t hg _ =>
      hg.trans (grown_addType g t)
  | method m => cases h
  | field f => cases h
  | member q =>
    simp only [act]
    split
    · rename_i found hfind
      exact grown_findMember hfind
    · exact .refl g
  | setter q => exact .refl g

theorem grown_run (g : Graph) {actions : List Action}
    (h : ∀ action ∈ actions, action.declaresMember = false) : Grown g (g.run actions) := by
  induction actions generalizing g with
  | nil => exact .refl g
  | cons action rest ih =>
    obtain ⟨haction, hrest⟩ := List.forall_mem_cons.1 h
    exact (grown_act g haction).trans (ih (g.act action) hrest)

theorem findMember_of_generics (hq : q.generics ≠ []) (h : g.findMember q = .ok (member, g')) :
    ∃ definition m, g.methodAlong q.owner.baseChain q.matchesMethod = some definition ∧
      g.addMethod { definition with generics := q.generics } = (m, g') ∧ member = .method m := by
  obtain ⟨definition, m, hdef, hinst, hmember⟩ | ⟨-, hproperty, -⟩ := findMember_eq_ok_iff.1 h
  · refine ⟨definition, m, hdef, ?_, hmember⟩
    simpa [instantiate, hq] using hinst
  · simp [property?, Query.admitsProperty, hq] at hproperty

/-- An instantiation that was not declared is its definition with other generic arguments. -/
theorem eq_of_instantiated {actions : List Action} {definition : Method} {generics : List Ty}
    (hdef : definition ∈ (ofActions actions).methods) (hnone : definition.generics = [])
    (hm : ((ofActions actions).addMethod { definition with generics }).1 = m)
    (hundeclared : ∀ n, .method n ∈ actions →
      n.signature ≠ { definition with generics }.signature) :
    m = { definition with generics := m.generics } := by
  have hsignature := signature_addMethod (ofActions actions) { definition with generics }
  rw [hm] at hsignature
  obtain ⟨stored, hfind, heq⟩ | ⟨-, heq⟩ :=
    addMethod_cases (ofActions actions) { definition with generics }
  · obtain rfl : stored = m := by rw [← hm, heq]
    obtain hdeclared | ⟨origin, horigin, hnone', hmade⟩ :=
      originates_ofActions actions stored (List.mem_of_find?_eq_some hfind)
    · exact absurd hsignature (hundeclared stored hdeclared)
    · -- both definitions have the signature without generic arguments, and there is only one
      have hsame : origin.signature = definition.signature := by
        rw [hmade] at hsignature
        simp only [Method.signature, Method.isStatic, Signature.mk.injEq] at hsignature ⊢
        obtain ⟨howner, hname, hstatic, -, hparameters⟩ := hsignature
        exact ⟨howner, hname, hstatic, by rw [hnone, hnone'], hparameters⟩
      have hmethods := (distinct_ofActions actions).methods
      rwa [List.inj_on_of_nodup_map hmethods horigin hdef hsame] at hmade
  · obtain rfl : { definition with generics } = m := by rw [← hm, heq]
    rfl

/-- After any history, types differ by name and members by signature, whatever is stored stays, and
declaring an equal one gives back the one that is stored and changes nothing. What a query with
generic arguments finds has these arguments, is otherwise its definition unless a method of that
signature was declared, and is found again as long as no further members are declared. -/
theorem stored_once (actions others : List Action) :
    ((ofActions actions).Interns Ty.name types addType ∧
      (ofActions actions).Interns Method.signature methods addMethod ∧
      (ofActions actions).Interns Field.signature fields addField) ∧
    (ofActions actions).Kept ((ofActions actions).run others) ∧
    ∀ (q : Query) (member : Member) (g : Graph), q.generics ≠ [] →
      (ofActions actions).findMember q = .ok (member, g) →
      ∃ definition m,
        (ofActions actions).methodAlong q.owner.baseChain q.matchesMethod = some definition ∧
        member = .method m ∧ m.generics.map Ty.name = q.generics.map Ty.name ∧
        ((∀ n, .method n ∈ actions →
          n.signature ≠ { definition with generics := q.generics }.signature) →
            m = { definition with generics := m.generics }) ∧
        ((∀ action ∈ others, action.declaresMember = false) →
          (g.run others).findMember q = .ok (member, g.run others)) := by
  refine ⟨interns_of_distinct (distinct_ofActions actions), kept_run _ others, ?_⟩
  intro q member g hq hfind
  obtain ⟨definition, m, hdef, hinst, hmember⟩ := findMember_of_generics hq hfind
  have hm : ((ofActions actions).addMethod { definition with generics := q.generics }).1 = m := by
    rw [hinst]
  have hsignature := signature_addMethod (ofActions actions)
    { definition with generics := q.generics }
  rw [hm] at hsignature
  have hmatching := matching_of_methodAlong hdef
  simp only [Query.matchesMethod, Bool.and_eq_true, List.isEmpty_iff] at hmatching
  refine ⟨definition, m, hdef, hmember, congrArg Signature.generics hsignature, ?_, ?_⟩
  · exact eq_of_instantiated (mem_of_methodAlong hdef) hmatching.1.1.2 hm
  · exact fun hothers => findMember_of_grown (grown_run g hothers) (findMember_idem hfind)

end Graph

namespace Sample

def creation : List Action := [.core, .method create]

def createdString : Method := { create with generics := [Graph.empty.addCoreTypes.1.string] }

def otherCreations : List Action :=
  [.member { createString with generics := [Graph.empty.addCoreTypes.1.object] },
    .member createString]

end Sample

theorem Graph.stored_once_while_creating :
    (ofActions Sample.creation).findMember Sample.createString =
      .ok (.method Sample.createdString, Sample.creating.graph) ∧
    (∀ n, .method n ∈ Sample.creation → n.signature ≠ Sample.createdString.signature) ∧
    (Sample.creating.graph.run Sample.otherCreations).methods.length = 3 ∧
    (Sample.creating.graph.run Sample.otherCreations).findMember Sample.createString =
      .ok (.method Sample.createdString, Sample.creating.graph.run Sample.otherCreations) := by
  have hfind : (ofActions Sample.creation).findMember Sample.createString =
      .ok (.method Sample.createdString, Sample.creating.graph) := rfl
  obtain ⟨-, -, hgeneric⟩ := stored_once Sample.creation Sample.otherCreations
  obtain ⟨definition, m, -, -, -, -, hagain⟩ := hgeneric _ _ _ (by simp [Sample.createString]) hfind
  refine ⟨hfind, fun n hn => ?_, by decide +kernel, hagain (by decide)⟩
  obtain rfl : n = Sample.create := by simpa [Sample.creation] using hn
  decide +kernel

end MethodEdit
