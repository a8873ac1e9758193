import MethodEdit.Graph.Lookup

/-!
A cache of resolved queries in front of a graph. The first resolution of a query is kept; failures
are not.
-/
namespace MethodEdit

/-- Resolved members by key, each key once. -/
structure Cache where
  entries : List (QueryKey × Member) := []

namespace Cache

def empty : Cache := {}

def get? (c : Cache) (key : QueryKey) : Option Member :=
  (c.entries.find? (·.1 == key)).map (·.2)

def size (c : Cache) : Nat := c.entries.length

def insert (c : Cache) (key : QueryKey) (member : Member) : Cache :=
  ⟨c.entries.filter (·.1 != key) ++ [(key, member)]⟩

theorem get?_insert_self (c : Cache) (key : QueryKey) (member : Member) :
    (c.insert key member).get? key = some member := by
  have h : (c.entries.filter (·.1 != key)).find? (·.1 == key) = none := by
    simp [List.find?_eq_none]
  simp [get?, insert, List.find?_append, h]

theorem get?_insert_of_ne (c : Cache) {key other : QueryKey} (member : Member) (h : other ≠ key) :
    (c.insert key member).get? other = c.get? other := by
  obtain ⟨entries⟩ := c
  simp only [get?, insert, List.find?_append]
  induction entries with
  | nil => simp [Ne.symm h]
  | cons entry rest ih =>
    by_cases hk : entry.1 = key
    · simpa [hk, Ne.symm h] using ih
    · by_cases ho : entry.1 = other
      · simp [ho, h]
      · simpa [hk, ho] using ih

def insertIfNew (c : Cache) (key : QueryKey) (member : Member) : Cache :=
  if (c.get? key).isSome then c else c.insert key member

end Cache

structure Resolver where
  graph : Graph := {}
  cache : Cache := {}

namespace Resolver

def resolve (r : Resolver) (q : Query) : Except ModelError (Member × Resolver) :=
  match r.cache.get? q.key with
  | some member => .ok (member, r)
  | none => do
    let (member, graph) ← r.graph.findMember q
    return (member, { graph, cache := r.cache.insertIfNew q.key member })

/-- A cached field is no setter, so it does not answer. -/
def resolveSetter (r : Resolver) (q : Query) : Except ModelError (Method × Resolver) :=
  match r.cache.get? q.setterKey with
  | some (.method setter) => .ok (setter, r)
  | _ => do
    let setter ← r.graph.findSetter q
    return (setter, { r with cache := r.cache.insertIfNew q.setterKey (.method setter) })

end Resolver

end MethodEdit
