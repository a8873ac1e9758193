import MethodEdit.Graph.Cache
import MethodEdit.Proofs.Graph.Stability

/-!
The cache of a resolver cannot be noticed. Each entry is what a look-up in the graph would give, it
stays so while types and instantiations are added, and queries that share an entry would be answered
alike.
-/
namespace MethodEdit

/-- The graph is made by declarations and look-ups. -/
inductive Graph.Made : Graph → Prop
  | empty : Made Graph.empty
  | addType {g : Graph} (h : Made g) (t : Ty) : Made (g.addType t).2
  | addMethod {g : Graph} (h : Made g) (m : Method) : Made (g.addMethod m).2
  | addField {g : Graph} (h : Made g) (f : Field) : Made (g.addField f).2
  | findMember {g g' : Graph} (h : Made g) {q : Query} {member : Member}
    (hfind : g.findMember q = .ok (member, g')) : Made g'

namespace Graph

variable {g g' : Graph} {q : Query} {key : QueryKey} {member : Member}

theorem types_addMethod (g : Graph) (m : Method) : (g.addMethod m).2.types = g.types := by
  obtain ⟨stored, -, heq⟩ | ⟨-, heq⟩ := addMethod_cases g m <;> rw [heq]

theorem types_addField (g : Graph) (f : Field) : (g.addField f).2.types = g.types := by
  unfold addField
  split <;> rfl

theorem types_findMember (h : g.findMember q = .ok (member, g')) : g'.types = g.types := by
  obtain ⟨definition, m, -, hinst, -⟩ | ⟨-, -, rfl⟩ := findMember_eq_ok_iff.1 h
  · unfold instantiate at hinst
    split at hinst
    · cases hinst
      rfl
    · have htypes := types_addMethod g { definition with generics := q.generics }
      rwa [hinst] at htypes
  · rfl

theorem Made.apart (h : g.Made) : Ty.Apart g.types := by
  induction h with
  | empty => simp [Ty.Apart, Graph.empty]
  | addType _ t ih => exact apart_addType ih t
  | addMethod _ m ih => rwa [types_addMethod]
  | addField _ f ih => rwa [types_addField]
  | findMember _ hfind ih => rwa [types_findMember hfind]

theorem Made.addCoreTypes (h : g.Made) : g.addCoreTypes.2.Made :=
  addCoreTypes_induction (P := Made) h fun _ t hg _ => hg.addType t

/-- The member is what a look-up under the key gives, with nothing left to instantiate. -/
def Answers (g : Graph) (key : QueryKey) (member : Member) : Prop :=
  ∃ q : Query, q.owner ∈ g.types ∧
    (key = q.key ∧ g.findMember q = .ok (member, g) ∨
      key = q.setterKey ∧ ∃ setter, member = .method setter ∧ g.findSetter q = .ok setter)

theorem Answers.of_grown (hg : Grown g g') (h : g.Answers key member) : g'.Answers key member := by
  obtain ⟨q, howner, ⟨hkey, hfind⟩ | ⟨hkey, setter, hm, hfind⟩⟩ := h
  · exact ⟨q, hg.types _ howner, .inl ⟨hkey, findMember_of_grown hg hfind⟩⟩
  · exact ⟨q, hg.types _ howner, .inr ⟨hkey, setter, hm, findSetter_of_grown hg hfind⟩⟩

theorem Answers.findMember_eq (ha : Ty.Apart g.types) (hq : q.owner ∈ g.types)
    (h : g.Answers q.key member) : g.findMember q = .ok (member, g) := by
  obtain ⟨p, hp, ⟨hkey, hfind⟩ | ⟨hkey, -⟩⟩ := h
  · have howner := ha q.owner hq p.owner hp (Query.key_eq_iff.1 hkey).1
    exact findMember_congr howner.symm hkey.symm hfind
  · simp [Query.key, Query.setterKey] at hkey

theorem Answers.findSetter_eq (ha : Ty.Apart g.types) (hq : q.owner ∈ g.types)
    (h : g.Answers q.setterKey member) :
    ∃ setter, member = .method setter ∧ g.findSetter q = .ok setter := by
  obtain ⟨p, hp, ⟨hkey, -⟩ | ⟨hkey, setter, hm, hfind⟩⟩ := h
  · simp [Query.key, Query.setterKey] at hkey
  · have hkey : q.key = p.key := by simpa [Query.setterKey, Query.key] using hkey
    have howner := ha q.owner hq p.owner hp (Query.key_eq_iff.1 hkey).1
    exact ⟨setter, hm, findSetter_congr howner.symm hkey.symm hfind⟩

end Graph

theorem Cache.get?_insertIfNew {c : Cache} {key other : QueryKey} {member entry : Member}
    (h : (c.insertIfNew key member).get? other = some entry) :
    c.get? other = some entry ∨ other = key ∧ entry = member := by
  unfold insertIfNew at h
  split at h
  · exact .inl h
  · by_cases heq : other = key
    · rw [heq, get?_insert_self] at h
      exact .inr ⟨heq, (Option.some.inj h).symm⟩
    · rw [get?_insert_of_ne c member heq] at h
      exact .inl h

inductive Request where
  | member (q : Query)
  | setter (q : Query)
  /-- Only see what the cache holds. -/
  | peek (q : Query)
  | clear
  | declare (t : Ty)

/-- Queries are about types of the graph. Only the owner has to be: of the other types in a query
the names matter, not where they come from. -/
def Request.About (g : Graph) : Request → Prop
  | member q | setter q => q.owner ∈ g.types
  | peek _ | clear | declare _ => True

namespace Resolver

variable {g : Graph} {r r' : Resolver} {q : Query} {member : Member} {setter : Method}

def serve (r : Resolver) : Request → Resolver
  | .member q => match r.resolve q with
    | .ok (_, r') => r'
    | .error _ => r
  | .setter q => match r.resolveSetter q with
    | .ok (_, r') => r'
    | .error _ => r
  | .peek _ => r
  | .clear => { r with cache := .empty }
  | .declare t => { r with graph := (r.graph.addType t).2 }

/-- The resolver has served requests about its graph, starting with an empty cache. -/
inductive Served (g : Graph) : Resolver → Prop
  | start : Served g { graph := g }
  | step {r : Resolver} (h : Served g r) {request : Request} (ha : request.About r.graph) :
    Served g (r.serve request)

/-- Each entry of the cache is what its key stands for in the graph. -/
structure Faithful (r : Resolver) : Prop where
  apart : Ty.Apart r.graph.types
  answers : ∀ key member, r.cache.get? key = some member → r.graph.Answers key member

theorem Faithful.of_grown (h : r.Faithful) {g : Graph} (hg : r.graph.Grown g)
    (ha : Ty.Apart g.types) : Faithful { r with graph := g } :=
  ⟨ha, fun key member hentry => (h.answers key member hentry).of_grown hg⟩

theorem Faithful.insertIfNew (h : r.Faithful) {key : QueryKey} (hm : r.graph.Answers key member) :
    Faithful { r with cache := r.cache.insertIfNew key member } := by
  refine ⟨h.apart, fun other entry hentry => ?_⟩
  obtain hold | ⟨rfl, rfl⟩ := Cache.get?_insertIfNew hentry
  · exact h.answers other entry hold
  · exact hm

theorem resolve_cases (h : r.resolve q = .ok (member, r')) :
    r' = r ∨ ∃ g, r.graph.findMember q = .ok (member, g) ∧
      r' = { graph := g, cache := r.cache.insertIfNew q.key member } := by
  unfold resolve at h
  split at h
  · cases h
    exact .inl rfl
  · cases hfind : r.graph.findMember q with
    | error e =>
      rw [hfind] at h
      cases h
    | ok found =>
      rw [hfind] at h
      cases h
      exact .inr ⟨found.2, rfl, rfl⟩

theorem resolveSetter_cases (h : r.resolveSetter q = .ok (setter, r')) :
    r' = r ∨ r.graph.findSetter q = .ok setter ∧
      r' = { r with cache := r.cache.insertIfNew q.setterKey (.method setter) } := by
  unfold resolveSetter at h
  split at h
  · cases h
    exact .inl rfl
  · cases hfind : r.graph.findSetter q with
    | error e =>
      rw [hfind] at h
      cases h
    | ok found =>
      rw [hfind] at h
      cases h
      exact .inr ⟨rfl, rfl⟩

theorem Faithful.serve (h : r.Faithful) {request : Request} (ha : request.About r.graph) :
    (r.serve request).Faithful := by
  cases request with
  | member q =>
    simp only [Resolver.serve]
    split
    · rename_i found r' hres
      obtain rfl | ⟨g, hfind, rfl⟩ := resolve_cases hres
      · exact h
      · have hg := Graph.grown_findMember hfind
        have happart : Ty.Apart g.types := by
          rw [Graph.types_findMember hfind]
          exact h.apart
        refine (h.of_grown hg happart).insertIfNew ⟨q, hg.types _ ha, .inl ⟨rfl, ?_⟩⟩
        exact Graph.findMember_idem hfind
    · exact h
  | setter q =>
    simp only [Resolver.serve]
    split
    · rename_i found r' hres
      obtain rfl | ⟨hfind, rfl⟩ := resolveSetter_cases hres
      · exact h
      · exact h.insertIfNew ⟨q, ha, .inr ⟨rfl, found, rfl, hfind⟩⟩
    · exact h
  | peek q => exact h
  | clear => exact ⟨h.apart, by simp [Resolver.serve, Cache.get?, Cache.empty]⟩
  | declare t => exact h.of_grown (Graph.grown_addType r.graph t) (Graph.apart_addType h.apart t)

theorem Served.faithful (hg : g.Made) (h : Served g r) : r.Faithful := by
  induction h with
  | start => exact ⟨hg.apart, by simp [Cache.get?]⟩
  | step _ ha ih => exact ih.serve ha

theorem Faithful.resolve_eq (h : r.Faithful) (hq : q.owner ∈ r.graph.types) :
    (r.resolve q).map (fun (member, r') => (member, r'.graph)) = r.graph.findMember q := by
  unfold resolve
  split
  · rename_i member hentry
    exact ((h.answers _ _ hentry).findMember_eq h.apart hq).symm
  · cases r.graph.findMember q <;> rfl

theorem Faithful.resolveSetter_eq (h : r.Faithful) (hq : q.owner ∈ r.graph.types) :
    (r.resolveSetter q).map (fun (setter, r') => (setter, r'.graph)) =
      (r.graph.findSetter q).map fun setter => (setter, r.graph) := by
  unfold resolveSetter
  split
  · rename_i setter hentry
    obtain ⟨found, hm, hfind⟩ := (h.answers _ _ hentry).findSetter_eq h.apart hq
    cases hm
    rw [hfind]
    rfl
  · cases r.graph.findSetter q <;> rfl

/-- Whatever a resolver has served before, it resolves a query as its graph does at that moment, and
a failure leaves it as it is. -/
theorem cache_unnoticed (hg : g.Made) (h : Served g r) (hq : q.owner ∈ r.graph.types) :
    (r.resolve q).map (fun (member, r') => (member, r'.graph)) = r.graph.findMember q ∧
    (r.resolveSetter q).map (fun (setter, r') => (setter, r'.graph)) =
      (r.graph.findSetter q).map (fun setter => (setter, r.graph)) ∧
    (∀ e, r.resolve q = .error e → r.serve (.member q) = r) ∧
    ∀ e, r.resolveSetter q = .error e → r.serve (.setter q) = r := by
  have hf := h.faithful hg
  refine ⟨hf.resolve_eq hq, hf.resolveSetter_eq hq, fun e he => ?_, fun e he => ?_⟩
  · simp [serve, he]
  · simp [serve, he]

end Resolver

namespace Sample

def create : Method where
  owner := Graph.empty.addCoreTypes.1.object
  name := ⟨"Create", by decide⟩
  parameters := []
  returns := Graph.empty.addCoreTypes.1.object
  flags := .helper
  arity := 1

def factory : Graph := (Graph.empty.addCoreTypes.2.addMethod create).2

def createString : Query where
  owner := Graph.empty.addCoreTypes.1.object
  name := ⟨"Create", by decide⟩
  generics := [Graph.empty.addCoreTypes.1.string]

def creating : Resolver := Resolver.serve { graph := factory } (.member createString)

end Sample

theorem Resolver.cache_unnoticed_while_creating :
    Sample.factory.Made ∧ Served Sample.factory Sample.creating ∧
      Sample.creating.graph.methods.length = 2 ∧ Sample.creating.cache.size = 1 ∧
      (Sample.creating.resolve Sample.createString).map
        (fun (member, r') => (member, r'.graph)) =
          Sample.creating.graph.findMember Sample.createString := by
  have hmade : Sample.factory.Made := .addMethod (.addCoreTypes .empty) Sample.create
  have hserved : Served Sample.factory Sample.creating :=
    .step .start (List.mem_of_getElem? (i := 0) rfl)
  have howner : Sample.createString.owner ∈ Sample.creating.graph.types :=
    List.mem_of_getElem? (i := 0) rfl
  refine ⟨hmade, hserved, by decide +kernel, by decide +kernel, ?_⟩
  exact (cache_unnoticed hmade hserved howner).1

end MethodEdit
