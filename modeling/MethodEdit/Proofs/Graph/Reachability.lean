import MethodEdit.Proofs.Graph.Hierarchy

/-!
Assignability in any graph of types, whatever its hierarchy looks like. A class may list a class
among its interfaces, an interface may have a base: the walk visits each type of the graph at most
once, and it decides which types are reached over which links.
-/
namespace MethodEdit

namespace Ty

variable {withInterfaces answer : Bool} {types found todo : List Ty} {seen : List String}
  {s t target : Ty} {rounds : Nat}

/-- The rounds of the walk, one for each type that is visited, and its answer. -/
inductive Visits (withInterfaces : Bool) (target : Ty) :
    List String → List Ty → Nat → Bool → Prop
  | exhausted (seen : List String) : Visits withInterfaces target seen [] 0 false
  | reached {seen : List String} {t : Ty} {rest : List Ty} (h : t.name = target.name) :
    Visits withInterfaces target seen (t :: rest) 1 true
  | further {seen : List String} {t : Ty} {rest : List Ty} {rounds : Nat} {answer : Bool}
    (h : t.name ≠ target.name)
    (hrest : Visits withInterfaces target (unseen seen (t.supertypes withInterfaces)).2
      ((unseen seen (t.supertypes withInterfaces)).1.reverse ++ rest) rounds answer) :
    Visits withInterfaces target seen (t :: rest) (rounds + 1) answer

theorem exists_visits (withInterfaces : Bool) (target : Ty) (seen : List String) (todo : List Ty) :
    ∃ rounds, Visits withInterfaces target seen todo rounds
      (walk withInterfaces target seen todo) := by
  fun_induction walk withInterfaces target seen todo with
  | case1 seen => exact ⟨0, .exhausted seen⟩
  | case2 seen t rest heq => exact ⟨1, .reached (beq_iff.1 heq)⟩
  | case3 seen t rest hne found ih =>
    obtain ⟨rounds, hrest⟩ := ih
    exact ⟨rounds + 1, .further (fun heq => hne (beq_iff.2 heq)) hrest⟩

def unmarked (types : List Ty) (seen : List String) : Nat :=
  types.countP fun t => decide (t.name ∉ seen)

theorem unmarked_cons (first : Ty) (rest : List Ty) (seen : List String) :
    unmarked (first :: rest) seen = unmarked rest seen + if first.name ∈ seen then 0 else 1 := by
  by_cases h : first.name ∈ seen <;> simp [unmarked, h]

theorem unmarked_mark_le (types : List Ty) (seen : List String) (name : String) :
    unmarked types (name :: seen) ≤ unmarked types seen := by
  refine List.countP_mono_left fun t _ h => ?_
  simp only [List.mem_cons, not_or, decide_eq_true_eq] at h ⊢
  exact h.2

theorem unmarked_mark_lt (ht : t ∈ types) (hnew : t.name ∉ seen) :
    unmarked types (t.name :: seen) < unmarked types seen := by
  induction types with
  | nil => simp at ht
  | cons first rest ih =>
    rw [unmarked_cons, unmarked_cons]
    by_cases hname : first.name = t.name
    · have hle := unmarked_mark_le rest seen t.name
      simp only [hname, List.mem_cons_self, if_true, hnew, if_false]
      omega
    · have hrest : t ∈ rest := (List.mem_cons.1 ht).resolve_left fun h => hname (h ▸ rfl)
      have hlt := ih hrest
      simp only [List.mem_cons, hname, false_or]
      omega

theorem length_unseen_add_unmarked (seen : List String) (h : ∀ t ∈ found, t ∈ types) :
    (unseen seen found).1.length + unmarked types (unseen seen found).2 ≤ unmarked types seen := by
  induction found generalizing seen with
  | nil => simp [unseen]
  | cons first rest ih =>
    have hrest (t : Ty) (ht : t ∈ rest) : t ∈ types := h t (List.mem_cons_of_mem first ht)
    by_cases hseen : first.name ∈ seen
    · simpa [unseen, hseen] using ih seen hrest
    · have hnext := ih (first.name :: seen) hrest
      have hlt := unmarked_mark_lt (h first List.mem_cons_self) hseen
      simp [unseen, hseen]
      omega

theorem Visits.rounds_le (hf : Family types) (htodo : ∀ t ∈ todo, t ∈ types)
    (h : Visits withInterfaces target seen todo rounds answer) :
    rounds ≤ todo.length + unmarked types seen := by
  induction h with
  | exhausted seen => omega
  | reached _ => simp; omega
  | @further seen t rest rounds answer _ _ ih =>
    have hup (u : Ty) (hu : u ∈ t.supertypes withInterfaces) : u ∈ types :=
      hf.supertypes_mem t (htodo t List.mem_cons_self) u (mem_supertypes_true hu)
    have hnext := ih fun u hu => by
      obtain hu | hu := List.mem_append.1 hu
      · exact hup u (mem_of_mem_unseen (List.mem_reverse.1 hu))
      · exact htodo u (List.mem_cons_of_mem t hu)
    have hmarked := length_unseen_add_unmarked seen hup
    rw [List.length_append, List.length_reverse] at hnext
    rw [List.length_cons]
    omega

theorem Visits.rounds_le_length (hf : Family types) (hs : s ∈ types)
    (h : Visits withInterfaces target [s.name] [s] rounds answer) : rounds ≤ types.length := by
  have htodo : ∀ t ∈ [s], t ∈ types := by simpa using hs
  calc
    rounds ≤ 1 + unmarked types [s.name] := h.rounds_le hf htodo
    _ ≤ unmarked types [] := by
      have hlt : unmarked types [s.name] < unmarked types [] := unmarked_mark_lt hs (by simp)
      omega
    _ ≤ types.length := List.countP_le_length

theorem climbs_true_iff : Climbs true s t ↔
    Relation.ReflTransGen (fun a b : Ty => a.base = some b ∨ b ∈ a.interfaces) s t := by
  have hlinks : Extends true = fun a b : Ty => a.base = some b ∨ b ∈ a.interfaces := by
    funext a b
    simp [Extends, mem_supertypes]
  rw [Climbs, hlinks]

theorem climbs_false_iff : Climbs false s t ↔
    Relation.ReflTransGen (fun a b : Ty => a.base = some b) s t := by
  have hlinks : Extends false = fun a b : Ty => a.base = some b := by
    funext a b
    simp [Extends, mem_supertypes]
  rw [Climbs, hlinks]

theorem assignable_iff_walk : assignable t s = true ↔
    s.name = t.name ∨ s.isReference = true ∧ t.isReference = true ∧
      (t.name = rootName ∨ walk t.isInterface t [s.name] [s] = true) := by
  by_cases hname : s.name = t.name
  · simp [assignable, beq_iff, hname]
  · cases hs : s.isReference <;> cases ht : t.isReference <;>
      simp [assignable, beq_iff, hname, hs, ht]

/-- In every graph of types the walk ends within one round for each type, and a value fits its own
type, and besides, among reference types, the root, each interface that is reached over bases and
interfaces, and each other type that is reached over bases alone. -/
theorem assignable_iff_reached {g : Graph} (hb : g.Built) :
    ∀ s ∈ g.types, ∀ t ∈ g.types,
      (∃ rounds ≤ g.types.length, Visits t.isInterface t [s.name] [s] rounds
        (walk t.isInterface t [s.name] [s])) ∧
      (assignable t s = true ↔
        s.name = t.name ∨ s.isReference = true ∧ t.isReference = true ∧
          (t.name = rootName ∨
            t.isInterface = true ∧
              Relation.ReflTransGen (fun a b : Ty => a.base = some b ∨ b ∈ a.interfaces) s t ∨
            t.isInterface = false ∧
              Relation.ReflTransGen (fun a b : Ty => a.base = some b) s t)) := by
  intro s hs t ht
  have hf := hb.family
  constructor
  · obtain ⟨rounds, hvisits⟩ := exists_visits t.isInterface t [s.name] [s]
    exact ⟨rounds, hvisits.rounds_le_length hf hs, hvisits⟩
  · rw [assignable_iff_walk, walk_eq_true_iff hf hs ht, ← climbs_true_iff, ← climbs_false_iff]
    cases hi : t.isInterface <;> simp

end Ty

namespace Sample

/-- A class that lists a class among its interfaces, against the rules of the hierarchy. -/
def ghost : Ty :=
  .named "Game.Ghost" .classType (some Graph.empty.addCoreTypes.1.object) [player]

theorem player_mem : player ∈ game.types := List.mem_of_getElem? (i := 10) rfl

theorem built_ghost : (game.addType ghost).2.Built := by
  refine .addType built_game fun u hu => ?_
  obtain hbase | ⟨-, hi⟩ := Ty.mem_supertypes.1 hu
  · obtain rfl : Graph.empty.addCoreTypes.1.object = u := Option.some.inj hbase
    exact Graph.mem_types_addType (Graph.mem_types_addType object_mem)
  · obtain rfl := List.mem_singleton.1 hi
    exact player_mem

end Sample

/-- Among types that break the rules, the two kinds of links tell apart what a class reaches: it
fits the interface of the class that it lists, but not that class. -/
theorem Ty.assignable_iff_reached_of_ghost :
    (Sample.game.addType Sample.ghost).2.Built ∧
    Relation.ReflTransGen (fun a b : Ty => a.base = some b ∨ b ∈ a.interfaces)
      Sample.ghost Sample.damageable ∧
    ¬ Relation.ReflTransGen (fun a b : Ty => a.base = some b) Sample.ghost Sample.player := by
  have hg : Sample.ghost ∈ (Sample.game.addType Sample.ghost).2.types :=
    List.mem_of_getElem? (i := 11) rfl
  have hp := Graph.mem_types_addType (t := Sample.ghost) Sample.player_mem
  have hd := Graph.mem_types_addType (t := Sample.ghost)
    (Graph.mem_types_addType (t := Sample.player) Sample.damageable_mem)
  have hiff := assignable_iff_reached Sample.built_ghost
  refine ⟨Sample.built_ghost, ?_, fun hreached => ?_⟩
  · have hfits : assignable Sample.damageable Sample.ghost = true := by decide +kernel
    have hreached := (hiff _ hg _ hd).2.1 hfits
    simpa [Sample.ghost, Sample.damageable, Ty.name, rootName, isInterface, isKind,
      isReference, isValue, isVoid, isByRef, element] using hreached
  · have hfits := (hiff _ hg _ hp).2.2 (.inr ⟨rfl, rfl, .inr (.inr ⟨rfl, hreached⟩)⟩)
    revert hfits
    decide +kernel

end MethodEdit
