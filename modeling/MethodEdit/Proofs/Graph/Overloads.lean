import MethodEdit.Proofs.Graph.Identity

/-!
Which methods can be found again after they were declared. Signatures leave the number of generic
parameters out and look-ups go by it, so of two overloads that differ in nothing else only the first
is kept, and the query for the second finds nothing of its kind.
-/
namespace MethodEdit

namespace Method

/-- The owner, the name and the parameter types are the same. -/
def Namesake (n m : Method) : Prop :=
  n.owner.name = m.owner.name ∧ n.name = m.name ∧
    n.parameters.map (·.type.name) = m.parameters.map (·.type.name)

/-- A definition that only staticness, result and flags may tell from the other one. -/
def Defines (d m : Method) : Prop := d.generics = [] ∧ d.Namesake m ∧ d.arity = m.arity

instance (d m : Method) : Decidable (d.Defines m) :=
  decidable_of_iff (d.generics.isEmpty = true ∧
    (d.owner.name = m.owner.name ∧ d.name = m.name ∧
      d.parameters.map (·.type.name) = m.parameters.map (·.type.name)) ∧ d.arity = m.arity)
    (by simp [Defines, Namesake])

def query (m : Method) (generics : List Ty) : Query where
  owner := m.owner
  name := m.name
  parameters := some (m.parameters.map (·.type))
  generics := generics

variable {d m n : Method} {generics : List Ty}

theorem Namesake.of_signature (h : n.signature = { d with generics }.signature) :
    n.Namesake m ↔ d.Namesake m := by
  simp only [signature, Signature.mk.injEq] at h
  obtain ⟨howner, hname, -, -, hparameters⟩ := h
  rw [Namesake, Namesake, howner, hname, hparameters]

theorem getter_ne (name : MemberName) : name.getter ≠ name := by
  intro h
  have hlength := congrArg (fun name => name.text.length) h
  simp [MemberName.getter] at hlength

theorem matchesMethod_query_iff (hlen : generics.length = m.arity) :
    (d.owner == m.owner && (m.query generics).matchesMethod d) = true ↔ d.Defines m := by
  have hparameters : (m.parameters.map (·.type) == d.parameters.map (·.type)) = true ↔
      d.parameters.map (·.type.name) = m.parameters.map (·.type.name) := by
    rw [Ty.beq_list_iff, eq_comm]
    simp [Function.comp_def]
  simp only [query, Query.matchesMethod, Query.takes, Bool.and_eq_true, beq_iff_eq, Ty.beq_iff,
    List.isEmpty_iff, hparameters, hlen, Defines, Namesake]
  tauto

end Method

namespace Graph

variable {g g' : Graph} {d m n : Method} {generics : List Ty}

def Recalls (g : Graph) (m : Method) (generics : List Ty) : Prop :=
  ∃ n g', g.findMember (m.query generics) = .ok (.method n, g') ∧ n.Namesake m ∧ n.arity = m.arity

theorem methodAlong_query (hlen : generics.length = m.arity)
    (h : g.methods.find? (·.Defines m) = some d) :
    g.methodAlong m.owner.baseChain (m.query generics).matchesMethod = some d := by
  have hsame : (fun d : Method => d.owner == m.owner && (m.query generics).matchesMethod d) =
      fun d => decide (d.Defines m) := by
    funext d
    rw [Bool.eq_iff_iff, Method.matchesMethod_query_iff hlen, decide_eq_true_iff]
  rw [Ty.baseChain, methodAlong, List.findSome?_cons, hsame, h]

theorem instantiate_cases (hd : d ∈ g.methods) (hnone : d.generics = [])
    (h : g.instantiate d generics = (n, g')) :
    n.signature = { d with generics }.signature ∧
      (n ∈ g.methods ∨ n = { d with generics } ∧
        ∀ stored ∈ g.methods, stored.signature ≠ { d with generics }.signature) := by
  unfold instantiate at h
  split at h
  · rename_i hempty
    obtain rfl : generics = [] := by simpa using hempty
    cases h
    exact ⟨by simp [Method.signature, hnone, Method.isStatic], .inl hd⟩
  · obtain rfl : (g.addMethod { d with generics }).1 = n := by rw [h]
    refine ⟨signature_addMethod g _, ?_⟩
    obtain ⟨stored, hfind, heq⟩ | ⟨hfind, heq⟩ := addMethod_cases g { d with generics }
    · rw [heq]
      exact .inl (List.mem_of_find?_eq_some hfind)
    · rw [heq]
      exact .inr ⟨rfl, by simpa [List.find?_eq_none] using hfind⟩

theorem arity_instantiate_iff (hg : g.Distinct) (hd : d ∈ g.methods) (hnone : d.generics = [])
    (h : g.instantiate d generics = (n, g')) :
    n.arity = d.arity ↔ ∀ stored ∈ g.methods,
      stored.signature = { d with generics }.signature → stored.arity = d.arity := by
  obtain ⟨hsignature, hmem | ⟨rfl, hnew⟩⟩ := instantiate_cases hd hnone h
  · refine ⟨fun harity stored hstored hsame => ?_, fun hall => hall n hmem hsignature⟩
    rwa [List.inj_on_of_nodup_map hg.methods hstored hmem (hsame.trans hsignature.symm)]
  · exact ⟨fun _ stored hstored hsame => absurd hsame (hnew stored hstored), fun _ => rfl⟩

theorem name_of_property? {q : Query} (h : g.property? q = some (.method n)) :
    n.name = q.name.getter := by
  unfold property? at h
  split at h
  · cases hgetter : g.methodAlong q.owner.baseChain q.matchesGetter with
    | some getter =>
      obtain rfl : getter = n := by simpa [hgetter] using h
      have hmatching := matching_of_methodAlong hgetter
      simp only [Query.matchesGetter, Bool.and_eq_true, beq_iff_eq] at hmatching
      exact hmatching.1.1
    | none => simp [hgetter] at h
  · cases h

theorem recalls_iff (hg : g.Distinct) (hlen : generics.length = m.arity) :
    g.Recalls m generics ↔
      ∃ d, g.methods.find? (·.Defines m) = some d ∧ ∀ stored ∈ g.methods,
        stored.signature = { d with generics }.signature → stored.arity = m.arity := by
  constructor
  · rintro ⟨n, g', hfind, hname, harity⟩
    obtain ⟨d, n, halong, hinst, ⟨⟩⟩ | ⟨-, hproperty, -⟩ := findMember_eq_ok_iff.1 hfind
    · have hmem := mem_of_methodAlong halong
      have hmatching := matching_of_methodAlong halong
      simp only [Query.matchesMethod, Bool.and_eq_true, beq_iff_eq, List.isEmpty_iff] at hmatching
      obtain ⟨⟨⟨-, hnone⟩, hcount⟩, -⟩ := hmatching
      have hdarity : d.arity = m.arity := hcount.trans hlen
      have hsignature := (instantiate_cases hmem hnone hinst).1
      have hdefines : d.Defines m :=
        ⟨hnone, (Method.Namesake.of_signature hsignature).1 hname, hdarity⟩
      -- some definition stands on the owner itself, so the look-up has not gone beyond it
      obtain ⟨first, hfirst⟩ : ∃ first, g.methods.find? (·.Defines m) = some first := by
        rw [← Option.isSome_iff_exists, List.find?_isSome]
        exact ⟨d, hmem, by simpa using hdefines⟩
      obtain rfl : first = d := by
        have hquery := methodAlong_query hlen hfirst
        exact Option.some.inj (hquery.symm.trans halong)
      refine ⟨first, hfirst, fun stored hstored hsame => ?_⟩
      have hall := (arity_instantiate_iff hg hmem hnone hinst).1 (harity.trans hdarity.symm)
      exact (hall stored hstored hsame).trans hdarity
    · have hgetter := name_of_property? hproperty
      exact absurd (hgetter.symm.trans hname.2.1) (Method.getter_ne m.name)
  · rintro ⟨d, hfirst, hall⟩
    have hmem := List.mem_of_find?_eq_some hfirst
    obtain ⟨hnone, hname, hdarity⟩ : d.Defines m := by simpa using List.find?_some hfirst
    cases hinst : g.instantiate d generics with
    | mk n g' =>
      have hsignature := (instantiate_cases hmem hnone hinst).1
      refine ⟨n, g', ?_, (Method.Namesake.of_signature hsignature).2 hname, ?_⟩
      · exact findMember_eq_ok_iff.2 (.inl ⟨d, n, methodAlong_query hlen hfirst, hinst, rfl⟩)
      · refine Eq.trans ((arity_instantiate_iff hg hmem hnone hinst).2 fun stored hs hsame => ?_)
          hdarity
        exact (hall stored hs hsame).trans hdarity.symm

theorem recalls_of_namesakes (hg : g.Distinct) (hlen : generics.length = m.arity)
    (hmem : n ∈ g.methods) (hnone : n.generics = []) (hname : n.Namesake m)
    (harity : ∀ stored ∈ g.methods, stored.Namesake m → stored.arity = m.arity) :
    g.Recalls m generics := by
  rw [recalls_iff hg hlen]
  obtain ⟨d, hd⟩ : ∃ d, g.methods.find? (·.Defines m) = some d := by
    rw [← Option.isSome_iff_exists, List.find?_isSome]
    exact ⟨n, hmem, by simpa using ⟨hnone, hname, harity n hmem hname⟩⟩
  obtain ⟨-, hdname, -⟩ : d.Defines m := by simpa using List.find?_some hd
  refine ⟨d, hd, fun stored hstored hsame => harity stored hstored ?_⟩
  exact (Method.Namesake.of_signature hsame).2 hdname

theorem namesakes_addMethod (h : ∀ n ∈ g.methods, n.Namesake m → n.arity = m.arity) :
    ∀ n ∈ (g.addMethod m).2.methods, n.Namesake m → n.arity = m.arity := by
  obtain ⟨stored, -, heq⟩ | ⟨-, heq⟩ := addMethod_cases g m
  · rwa [heq]
  · rw [heq]
    intro n hn hname
    obtain hn | hn := List.mem_append.1 hn
    · exact h n hn hname
    · rw [List.mem_singleton.1 hn]

/-- A definition that has just been declared is found by its own query as long as no namesake of
another arity is stored. In general, it is found exactly if a definition of its arity is stored, and
the first such definition has no instantiation of another arity stored under these arguments. -/
theorem found_again_iff (actions : List Action) {m : Method} (hm : m.generics = [])
    {generics : List Ty} (hlen : generics.length = m.arity) :
    (((ofActions actions).addMethod m).2.Recalls m generics ↔
      ∃ d, ((ofActions actions).addMethod m).2.methods.find? (·.Defines m) = some d ∧
        ∀ stored ∈ ((ofActions actions).addMethod m).2.methods,
          stored.signature = { d with generics }.signature → stored.arity = m.arity) ∧
    ((∀ n ∈ (ofActions actions).methods, n.Namesake m → n.arity = m.arity) →
      ((ofActions actions).addMethod m).2.Recalls m generics) := by
  have hdistinct : ((ofActions actions).addMethod m).2.Distinct :=
    (distinct_ofActions actions).act (.method m)
  refine ⟨recalls_iff hdistinct hlen, fun hnamesakes => ?_⟩
  have hsignature := signature_addMethod (ofActions actions) m
  have hnone : ((ofActions actions).addMethod m).1.generics = [] := by
    simpa [Method.signature, hm] using congrArg Signature.generics hsignature
  have hname : ((ofActions actions).addMethod m).1.Namesake m :=
    (Method.Namesake.of_signature (d := m) hsignature).2 ⟨rfl, rfl, rfl⟩
  exact recalls_of_namesakes hdistinct hlen (addMethod_mem (ofActions actions) m) hnone hname
    (namesakes_addMethod hnamesakes)

end Graph

namespace Sample

def plainCreate : Method := { create with arity := 0 }

def instanceCreate : Method := { create with flags := ⟨0x0006⟩ }

end Sample

theorem Graph.found_again_beside_instance :
    Sample.create.generics = [] ∧ Sample.createString.generics.length = Sample.create.arity ∧
    (∀ n ∈ (ofActions [.core, .method Sample.instanceCreate]).methods,
      n.Namesake Sample.create → n.arity = Sample.create.arity) ∧
    ((ofActions [.core, .method Sample.instanceCreate]).addMethod Sample.create).2.Recalls
      Sample.create Sample.createString.generics := by
  have hnamesakes : ∀ n ∈ (ofActions [.core, .method Sample.instanceCreate]).methods,
      n.Namesake Sample.create → n.arity = Sample.create.arity := by
    intro n hn _
    obtain rfl : n = Sample.instanceCreate := List.mem_singleton.1 hn
    rfl
  exact ⟨rfl, rfl, hnamesakes,
    (found_again_iff [.core, .method Sample.instanceCreate] rfl rfl).2 hnamesakes⟩

/-- The generic overload of a plain method is declared, and lost. -/
theorem Graph.overload_lost :
    Sample.create.generics = [] ∧ Sample.createString.generics.length = Sample.create.arity ∧
    ((ofActions [.core, .method Sample.plainCreate]).addMethod Sample.create).2.findMember
      (Sample.create.query Sample.createString.generics) =
        .error (.missingMember (Sample.create.query Sample.createString.generics)) ∧
    ¬ ((ofActions [.core, .method Sample.plainCreate]).addMethod Sample.create).2.Recalls
      Sample.create Sample.createString.generics := by
  have hmissing :
      ((ofActions [.core, .method Sample.plainCreate]).addMethod Sample.create).2.findMember
        (Sample.create.query Sample.createString.generics) =
          .error (.missingMember (Sample.create.query Sample.createString.generics)) := rfl
  refine ⟨rfl, rfl, hmissing, fun ⟨n, g, hfind, _⟩ => ?_⟩
  rw [hmissing] at hfind
  cases hfind

end MethodEdit
