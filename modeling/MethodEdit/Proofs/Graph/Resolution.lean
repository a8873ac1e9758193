import Mathlib.Data.Prod.Lex
import MethodEdit.Proofs.Graph.Hierarchy
import MethodEdit.Proofs.Graph.Overloads

/-!
A look-up picks the best of all candidates. These are ranked by their kind, by the depth of their
owner in the base chain and by the order of declaration. A candidate stays one however the graph
grows, so a query that succeeds once succeeds ever after, and only a better candidate that is
declared later changes its answer.
-/
namespace MethodEdit

section Nearest

variable {α : Type} {owner : α → Ty} {matching : α → Bool} {entries : List α} {chain : List Ty}
  {a b : α} {depth place : Nat}

/-- The entry is declared at this place, on the type at this depth of the chain. -/
structure DeclaredAt (owner : α → Ty) (entries : List α) (chain : List Ty) (a : α)
    (depth place : Nat) : Prop where
  declared : entries[place]? = some a
  owned : ∃ t, chain[depth]? = some t ∧ (owner a).name = t.name

def nearest (owner : α → Ty) (matching : α → Bool) (entries : List α) (chain : List Ty) :
    Option α :=
  chain.findSome? fun t => entries.find? fun a => owner a == t && matching a

theorem nearest_eq_none (h : nearest owner matching entries chain = none)
    (hb : DeclaredAt owner entries chain b depth place) : matching b = false := by
  obtain ⟨t, ht, hname⟩ := hb.owned
  have hfind := List.findSome?_eq_none_iff.1 h t (List.mem_of_getElem? ht)
  have hnot := List.find?_eq_none.1 hfind b (List.mem_of_getElem? hb.declared)
  simpa [Ty.beq_iff, hname] using hnot

/-- What is found is declared less deep than all else that matches, or as deep and no later. -/
theorem nearest_eq_some (h : nearest owner matching entries chain = some a) :
    ∃ depth place, DeclaredAt owner entries chain a depth place ∧ matching a = true ∧
      ∀ b depth' place', DeclaredAt owner entries chain b depth' place' → matching b = true →
        depth < depth' ∨ depth = depth' ∧ place ≤ place' := by
  induction chain with
  | nil => simp [nearest] at h
  | cons t rest ih =>
    cases hfind : entries.find? fun a => owner a == t && matching a with
    | some first =>
      obtain rfl : first = a := by simpa [nearest, hfind] using h
      obtain ⟨hfirst, place, hlt, hplace, hbefore⟩ := List.find?_eq_some_iff_getElem.1 hfind
      simp only [Bool.and_eq_true, Ty.beq_iff] at hfirst
      refine ⟨0, place, ⟨?_, t, rfl, hfirst.1⟩, hfirst.2, fun b depth' place' hb hmatch => ?_⟩
      · rw [List.getElem?_eq_getElem hlt, hplace]
      · cases depth' with
        | zero =>
          obtain ⟨u, hu, hname⟩ := hb.owned
          obtain rfl : t = u := Option.some.inj hu
          obtain ⟨hlt', hplace'⟩ := List.getElem?_eq_some_iff.1 hb.declared
          refine .inr ⟨rfl, Nat.le_of_not_lt fun hearlier => ?_⟩
          have hnot := hbefore place' hearlier
          rw [hplace', Ty.beq_iff.2 hname, hmatch] at hnot
          exact absurd hnot (by decide)
        | succ depth' => exact .inl (Nat.succ_pos depth')
    | none =>
      have hrest : nearest owner matching entries rest = some a := by
        simpa [nearest, hfind] using h
      obtain ⟨depth, place, hat, hmatch, hleast⟩ := ih hrest
      refine ⟨depth + 1, place, ⟨hat.declared, hat.owned⟩, hmatch, ?_⟩
      intro b depth' place' hb hmatch
      cases depth' with
      | zero =>
        obtain ⟨u, hu, hname⟩ := hb.owned
        obtain rfl : t = u := Option.some.inj hu
        have hnot := List.find?_eq_none.1 hfind b (List.mem_of_getElem? hb.declared)
        simp [Ty.beq_iff, hname, hmatch] at hnot
      | succ depth' =>
        have hle := hleast b depth' place' ⟨hb.declared, hb.owned⟩ hmatch
        omega

theorem DeclaredAt.append (h : DeclaredAt owner entries chain a depth place) (added : List α) :
    DeclaredAt owner (entries ++ added) chain a depth place where
  declared := by
    obtain ⟨hlt, -⟩ := List.getElem?_eq_some_iff.1 h.declared
    rw [List.getElem?_append_left hlt, h.declared]
  owned := h.owned

theorem DeclaredAt.of_append {added : List α}
    (h : DeclaredAt owner (entries ++ added) chain a depth place) :
    DeclaredAt owner entries chain a depth place ∨ a ∈ added := by
  have hdeclared := h.declared
  by_cases hlt : place < entries.length
  · rw [List.getElem?_append_left hlt] at hdeclared
    exact .inl ⟨hdeclared, h.owned⟩
  · rw [List.getElem?_append_right (Nat.le_of_not_lt hlt)] at hdeclared
    exact .inr (List.mem_of_getElem? hdeclared)

end Nearest

/-- Ranks are compared by kind, then by depth, then by place. -/
abbrev Rank := Lex (Nat × Lex (Nat × Nat))

def rank (kind depth place : Nat) : Rank := toLex (kind, toLex (depth, place))

theorem rank_le_iff {kind depth place kind' depth' place' : Nat} :
    rank kind depth place ≤ rank kind' depth' place' ↔
      kind < kind' ∨ kind = kind' ∧ (depth < depth' ∨ depth = depth' ∧ place ≤ place') := by
  simp [rank, Prod.Lex.toLex_le_toLex]

namespace Query

variable {q : Query} {m : Method}

/-- The method is a definition of the queried name, arity and, if given, parameter types. -/
def Defined (q : Query) (m : Method) : Prop :=
  m.name = q.name ∧ m.generics = [] ∧ m.arity = q.generics.length ∧
    ∀ types ∈ q.parameters, m.parameters.map (·.type.name) = types.map Ty.name

def Read (q : Query) (m : Method) : Prop :=
  m.name = q.name.getter ∧ m.parameters = [] ∧ m.arity = 0

/-- The query gives neither generic arguments nor parameter types, unless an empty list of these. -/
def Plain (q : Query) : Prop := q.generics = [] ∧ ∀ types ∈ q.parameters, types = []

theorem takes_iff : q.takes m = true ↔
    ∀ types ∈ q.parameters, m.parameters.map (·.type.name) = types.map Ty.name := by
  unfold takes
  cases q.parameters with
  | none => simp
  | some types =>
    rw [Ty.beq_list_iff, eq_comm]
    simp [Function.comp_def]

theorem matchesMethod_iff : q.matchesMethod m = true ↔ q.Defined m := by
  simp only [matchesMethod, Bool.and_eq_true, beq_iff_eq, List.isEmpty_iff, takes_iff, Defined,
    and_assoc]

theorem matchesGetter_iff : q.matchesGetter m = true ↔ q.Read m := by
  simp only [matchesGetter, Bool.and_eq_true, beq_iff_eq, List.isEmpty_iff, Read, and_assoc]

theorem admitsProperty_iff : q.admitsProperty = true ↔ q.Plain := by
  cases hq : q.parameters <;> simp [admitsProperty, Plain, hq]

end Query

def Member.declaration : Member → Action
  | method m => .method m
  | field f => .field f

namespace Graph

variable {g g' : Graph} {q : Query} {c c' member : Member} {r r' : Rank} {m : Method} {f : Field}
  {generics : List Ty} {actions others : List Action}

/-- What a query may stand for, with its rank: a definition, or else the getter of a property, or
else a field, on some type of the base chain. -/
inductive Candidate (g : Graph) (q : Query) : Member → Rank → Prop
  | method {m : Method} {depth place : Nat}
    (hs : DeclaredAt Method.owner g.methods q.owner.baseChain m depth place) (hm : q.Defined m) :
    Candidate g q (.method m) (rank 0 depth place)
  | getter {m : Method} {depth place : Nat} (hq : q.Plain)
    (hs : DeclaredAt Method.owner g.methods q.owner.baseChain m depth place) (hm : q.Read m) :
    Candidate g q (.method m) (rank 1 depth place)
  | field {f : Field} {depth place : Nat} (hq : q.Plain)
    (hs : DeclaredAt Field.owner g.fields q.owner.baseChain f depth place) (hf : f.name = q.name) :
    Candidate g q (.field f) (rank 2 depth place)

structure Best (g : Graph) (q : Query) (c : Member) (r : Rank) : Prop where
  candidate : g.Candidate q c r
  least : ∀ c' r', g.Candidate q c' r' → r ≤ r'

def memberAt? (g : Graph) (r : Rank) : Option Member :=
  if (ofLex r).1 = 2 then g.fields[(ofLex (ofLex r).2).2]?.map .field
  else g.methods[(ofLex (ofLex r).2).2]?.map .method

theorem Candidate.memberAt?_eq (h : g.Candidate q c r) : g.memberAt? r = some c := by
  cases h with
  | method hs _ => simp [memberAt?, rank, hs.declared]
  | getter _ hs _ => simp [memberAt?, rank, hs.declared]
  | field _ hs _ => simp [memberAt?, rank, hs.declared]

theorem Best.eq (h : g.Best q c r) (h' : g.Best q c' r') : c = c' := by
  obtain rfl : r = r' := le_antisymm (h.least c' r' h'.candidate) (h'.least c r h.candidate)
  exact Option.some.inj (h.candidate.memberAt?_eq.symm.trans h'.candidate.memberAt?_eq)

def candidate? (g : Graph) (q : Query) : Option Member :=
  ((g.methodAlong q.owner.baseChain q.matchesMethod).map .method).or (g.property? q)

theorem not_defined_of_methodAlong (h : g.methodAlong q.owner.baseChain q.matchesMethod = none)
    {depth place : Nat} (hs : DeclaredAt Method.owner g.methods q.owner.baseChain m depth place) :
    ¬ q.Defined m := by
  rw [← Query.matchesMethod_iff, nearest_eq_none h hs]
  exact Bool.false_ne_true

theorem not_read_of_methodAlong (h : g.methodAlong q.owner.baseChain q.matchesGetter = none)
    {depth place : Nat} (hs : DeclaredAt Method.owner g.methods q.owner.baseChain m depth place) :
    ¬ q.Read m := by
  rw [← Query.matchesGetter_iff, nearest_eq_none h hs]
  exact Bool.false_ne_true

theorem name_ne_of_fieldAlong (h : g.fieldAlong q.owner.baseChain (·.name == q.name) = none)
    {depth place : Nat} (hs : DeclaredAt Field.owner g.fields q.owner.baseChain f depth place) :
    f.name ≠ q.name := by
  simpa using nearest_eq_none h hs

theorem best_of_definition (h : g.methodAlong q.owner.baseChain q.matchesMethod = some m) :
    ∃ r, g.Best q (.method m) r := by
  obtain ⟨depth, place, hs, hmatch, hleast⟩ := nearest_eq_some h
  refine ⟨rank 0 depth place, .method hs (Query.matchesMethod_iff.1 hmatch), fun c' r' hc' => ?_⟩
  cases hc' with
  | method hs' hm' =>
    exact rank_le_iff.2 (.inr ⟨rfl, hleast _ _ _ hs' (Query.matchesMethod_iff.2 hm')⟩)
  | getter | field => exact rank_le_iff.2 (.inl (by decide))

theorem best_of_getter (hq : q.Plain)
    (hdef : g.methodAlong q.owner.baseChain q.matchesMethod = none)
    (h : g.methodAlong q.owner.baseChain q.matchesGetter = some m) :
    ∃ r, g.Best q (.method m) r := by
  obtain ⟨depth, place, hs, hmatch, hleast⟩ := nearest_eq_some h
  refine ⟨rank 1 depth place, .getter hq hs (Query.matchesGetter_iff.1 hmatch), fun c' r' hc' => ?_⟩
  cases hc' with
  | method hs' hm' => exact absurd hm' (not_defined_of_methodAlong hdef hs')
  | getter _ hs' hm' =>
    exact rank_le_iff.2 (.inr ⟨rfl, hleast _ _ _ hs' (Query.matchesGetter_iff.2 hm')⟩)
  | field => exact rank_le_iff.2 (.inl (by decide))

theorem best_of_field (hq : q.Plain)
    (hdef : g.methodAlong q.owner.baseChain q.matchesMethod = none)
    (hget : g.methodAlong q.owner.baseChain q.matchesGetter = none)
    (h : g.fieldAlong q.owner.baseChain (·.name == q.name) = some f) :
    ∃ r, g.Best q (.field f) r := by
  obtain ⟨depth, place, hs, hmatch, hleast⟩ := nearest_eq_some h
  refine ⟨rank 2 depth place, .field hq hs (by simpa using hmatch), fun c' r' hc' => ?_⟩
  cases hc' with
  | method hs' hm' => exact absurd hm' (not_defined_of_methodAlong hdef hs')
  | getter _ hs' hm' => exact absurd hm' (not_read_of_methodAlong hget hs')
  | field _ hs' hf' => exact rank_le_iff.2 (.inr ⟨rfl, hleast _ _ _ hs' (by simpa using hf')⟩)

/-- Three searches one after the other, and none of them passes a candidate of a smaller rank. -/
theorem best_of_candidate? (h : g.candidate? q = some c) : ∃ r, g.Best q c r := by
  unfold candidate? at h
  cases hdef : g.methodAlong q.owner.baseChain q.matchesMethod with
  | some m =>
    obtain rfl : .method m = c := by simpa [hdef] using h
    exact best_of_definition hdef
  | none =>
    have hproperty : g.property? q = some c := by simpa [hdef] using h
    unfold property? at hproperty
    split at hproperty
    · rename_i hplain
      rw [Query.admitsProperty_iff] at hplain
      cases hget : g.methodAlong q.owner.baseChain q.matchesGetter with
      | some m =>
        obtain rfl : .method m = c := by simpa [hget] using hproperty
        exact best_of_getter hplain hdef hget
      | none =>
        obtain ⟨f, hfield, rfl⟩ : ∃ f, g.fieldAlong q.owner.baseChain (·.name == q.name) = some f ∧
            .field f = c := by simpa [hget] using hproperty
        exact best_of_field hplain hdef hget hfield
    · cases hproperty

theorem candidate?_of_candidate (h : g.Candidate q c r) : ∃ c', g.candidate? q = some c' := by
  rw [← Option.isSome_iff_exists]
  unfold candidate? property?
  cases hdef : g.methodAlong q.owner.baseChain q.matchesMethod with
  | some m => simp
  | none =>
    cases h with
    | method hs hm => exact absurd hm (not_defined_of_methodAlong hdef hs)
    | getter hq hs hm =>
      cases hget : g.methodAlong q.owner.baseChain q.matchesGetter with
      | some m => simp [Query.admitsProperty_iff.2 hq]
      | none => exact absurd hm (not_read_of_methodAlong hget hs)
    | field hq hs hf =>
      cases hfield : g.fieldAlong q.owner.baseChain (·.name == q.name) with
      | some f => simp [Query.admitsProperty_iff.2 hq]
      | none => exact absurd hf (name_ne_of_fieldAlong hfield hs)

theorem candidate?_eq_some_iff : g.candidate? q = some c ↔ ∃ r, g.Best q c r := by
  refine ⟨best_of_candidate?, fun ⟨r, hbest⟩ => ?_⟩
  obtain ⟨c', hc'⟩ := candidate?_of_candidate hbest.candidate
  obtain ⟨r', hbest'⟩ := best_of_candidate? hc'
  rw [hc', hbest.eq hbest']

/-- The member that a candidate gives for the generic arguments. -/
def realize (g : Graph) (generics : List Ty) : Member → Member × Graph
  | .method m => (.method (g.instantiate m generics).1, (g.instantiate m generics).2)
  | .field f => (.field f, g)

theorem realize_nil (g : Graph) (c : Member) : g.realize [] c = (c, g) := by
  cases c <;> simp [realize, instantiate]

theorem generics_of_property? (h : g.property? q = some c) : q.generics = [] := by
  unfold property? at h
  split at h
  · rename_i hplain
    exact (Query.admitsProperty_iff.1 hplain).1
  · cases h

/-- A look-up settles on a candidate and gives what this is instantiated to. -/
theorem findMember_eq_ok_iff_realize : g.findMember q = .ok (member, g') ↔
    ∃ c, g.candidate? q = some c ∧ g.realize q.generics c = (member, g') := by
  rw [findMember_eq_ok_iff, candidate?]
  cases hdef : g.methodAlong q.owner.baseChain q.matchesMethod with
  | some d =>
    constructor
    · rintro (⟨_, m, ⟨⟩, hinst, rfl⟩ | ⟨⟨⟩, -⟩)
      exact ⟨.method d, rfl, by rw [realize, hinst]⟩
    · rintro ⟨_, ⟨⟩, hreal⟩
      cases hreal
      exact .inl ⟨d, _, rfl, rfl, rfl⟩
  | none =>
    rw [Option.map_none, Option.none_or]
    constructor
    · rintro (⟨_, _, ⟨⟩, -⟩ | ⟨-, hproperty, rfl⟩)
      exact ⟨member, hproperty, by rw [generics_of_property? hproperty, realize_nil]⟩
    · rintro ⟨c, hproperty, hreal⟩
      rw [generics_of_property? hproperty, realize_nil] at hreal
      cases hreal
      exact .inr ⟨rfl, hproperty, rfl⟩

theorem findMember_succeeds_iff :
    (∃ member g', g.findMember q = .ok (member, g')) ↔ ∃ c r, g.Candidate q c r := by
  constructor
  · rintro ⟨member, g', hfind⟩
    obtain ⟨c, hc, -⟩ := findMember_eq_ok_iff_realize.1 hfind
    obtain ⟨r, hbest⟩ := best_of_candidate? hc
    exact ⟨c, r, hbest.candidate⟩
  · rintro ⟨c, r, hcandidate⟩
    obtain ⟨best, hbest⟩ := candidate?_of_candidate hcandidate
    exact ⟨_, _, findMember_eq_ok_iff_realize.2 ⟨best, hbest, rfl⟩⟩

/-- What comes of a candidate: itself without generic arguments, and with these the stored method of
the signature, or else a method that is made from it and added at the end. -/
inductive Realizes (g : Graph) (generics : List Ty) : Member → Member → Graph → Prop
  | itself (h : generics = []) (c : Member) : Realizes g generics c c g
  | stored (h : generics ≠ []) {d n : Method} (hn : n ∈ g.methods)
    (hsignature : n.signature = { d with generics }.signature) :
    Realizes g generics (.method d) (.method n) g
  | made (h : generics ≠ []) {d : Method}
    (hnew : ∀ n ∈ g.methods, n.signature ≠ { d with generics }.signature) :
    Realizes g generics (.method d) (.method { d with generics })
      { g with methods := g.methods ++ [{ d with generics }] }

theorem Candidate.realizes (hc : g.Candidate q c r)
    (h : g.realize q.generics c = (member, g')) : g.Realizes q.generics c member g' := by
  by_cases hq : q.generics = []
  · rw [hq, realize_nil] at h
    cases h
    exact .itself hq c
  · cases hc with
    | @method d _ _ _ _ =>
      cases h
      simp only [instantiate, List.isEmpty_iff, hq, if_false]
      obtain ⟨n, hfind, heq⟩ | ⟨hfind, heq⟩ :=
        addMethod_cases g { d with generics := q.generics }
      · rw [heq]
        exact .stored hq (List.mem_of_find?_eq_some hfind) (by simpa using List.find?_some hfind)
      · rw [heq]
        exact .made hq (by simpa using hfind)
    | getter hplain _ _ => exact absurd hplain.1 hq
    | field hplain _ _ => exact absurd hplain.1 hq

theorem Candidate.eq_of_undeclared {d n : Method}
    (hc : (ofActions actions).Candidate q (.method d) r)
    (h : (ofActions actions).realize q.generics (.method d) = (.method n, g'))
    (hundeclared : ∀ m, .method m ∈ actions →
      m.signature ≠ { d with generics := q.generics }.signature) :
    n = { d with generics := n.generics } := by
  by_cases hq : q.generics = []
  · rw [hq, realize_nil] at h
    cases h
    rfl
  · cases hc with
    | method hs hm =>
      have hn : ((ofActions actions).addMethod { d with generics := q.generics }).1 = n := by
        simpa [realize, instantiate, hq] using congrArg Prod.fst h
      exact eq_of_instantiated (List.mem_of_getElem? hs.declared) hm.2.1 hn hundeclared
    | getter hplain _ _ => exact absurd hplain.1 hq

/-- The later graph has further members at the end: those that the actions declare, and
instantiations. -/
structure Adds (actions : List Action) (g g' : Graph) : Prop where
  methods : ∃ added, g'.methods = g.methods ++ added ∧
    ∀ m ∈ added, .method m ∈ actions ∨ m.IsInstance
  fields : ∃ added, g'.fields = g.fields ++ added ∧ ∀ f ∈ added, .field f ∈ actions

theorem Grown.adds (h : Grown g g') (actions : List Action) : Adds actions g g' := by
  obtain ⟨added, hadded, hinstances⟩ := h.methods
  exact ⟨⟨added, hadded, fun m hm => .inr (hinstances m hm)⟩, ⟨[], by simp [h.fields], by simp⟩⟩

theorem adds_act (g : Graph) (action : Action) : Adds [action] g (g.act action) := by
  cases hdeclares : action.declaresMember with
  | false => exact (grown_act g hdeclares).adds [action]
  | true =>
    cases action with
    | method m =>
      obtain ⟨stored, -, heq⟩ | ⟨-, heq⟩ := addMethod_cases g m
      · rw [act, heq]
        exact (Grown.refl g).adds _
      · rw [act, heq]
        exact ⟨⟨[m], rfl, by simp⟩, ⟨[], by simp, by simp⟩⟩
    | field f =>
      simp only [act, addField]
      split
      · exact (Grown.refl g).adds _
      · exact ⟨⟨[], by simp, by simp⟩, ⟨[f], rfl, by simp⟩⟩
    | _ => cases hdeclares

theorem Adds.trans {g'' : Graph} (h : Adds actions g g') (h' : Adds others g' g'') :
    Adds (actions ++ others) g g'' where
  methods := by
    obtain ⟨first, hfirst, hm⟩ := h.methods
    obtain ⟨second, hsecond, hm'⟩ := h'.methods
    refine ⟨first ++ second, by rw [hsecond, hfirst, List.append_assoc], ?_⟩
    simp only [List.mem_append]
    rintro m (hmem | hmem)
    · exact (hm m hmem).imp_left .inl
    · exact (hm' m hmem).imp_left .inr
  fields := by
    obtain ⟨first, hfirst, hf⟩ := h.fields
    obtain ⟨second, hsecond, hf'⟩ := h'.fields
    refine ⟨first ++ second, by rw [hsecond, hfirst, List.append_assoc], ?_⟩
    simp only [List.mem_append]
    rintro f (hmem | hmem)
    · exact .inl (hf f hmem)
    · exact .inr (hf' f hmem)

theorem adds_run (g : Graph) (actions : List Action) : Adds actions g (g.run actions) := by
  induction actions generalizing g with
  | nil => exact (Grown.refl g).adds []
  | cons action rest ih => exact (adds_act g action).trans (ih (g.act action))

theorem Candidate.of_adds (h : Adds actions g g') (hc : g.Candidate q c r) :
    g'.Candidate q c r := by
  obtain ⟨methods, hmethods, -⟩ := h.methods
  obtain ⟨fields, hfields, -⟩ := h.fields
  cases hc with
  | method hs hm => exact .method (hmethods ▸ hs.append methods) hm
  | getter hq hs hm => exact .getter hq (hmethods ▸ hs.append methods) hm
  | field hq hs hf => exact .field hq (hfields ▸ hs.append fields) hf

/-- A candidate was one before, or it has been declared since. Instantiations never are any. -/
theorem Candidate.before_or_declared (h : Adds actions g g') (hc : g'.Candidate q c r) :
    g.Candidate q c r ∨ c.declaration ∈ actions := by
  obtain ⟨methods, hmethods, hm'⟩ := h.methods
  obtain ⟨fields, hfields, hf'⟩ := h.fields
  cases hc with
  | method hs hm =>
    rw [hmethods] at hs
    obtain hs | hadded := hs.of_append
    · exact .inl (.method hs hm)
    · exact .inr ((hm' _ hadded).resolve_right fun hinst => hinst.1 hm.2.1)
  | getter hq hs hm =>
    rw [hmethods] at hs
    obtain hs | hadded := hs.of_append
    · exact .inl (.getter hq hs hm)
    · exact .inr ((hm' _ hadded).resolve_right fun hinst => hinst.2 hm.2.2)
  | field hq hs hf =>
    rw [hfields] at hs
    obtain hs | hadded := hs.of_append
    · exact .inl (.field hq hs hf)
    · exact .inr (hf' _ hadded)

theorem Best.of_grown (h : Grown g g') (hb : g.Best q c r) : g'.Best q c r where
  candidate := hb.candidate.of_adds (h.adds [])
  least c' r' hc' := by
    obtain hc | hdeclared := hc'.before_or_declared (h.adds [])
    · exact hb.least c' r' hc
    · simp at hdeclared

theorem realize_of_adds (h : Adds actions g g') (hg : g.realize generics c = (member, g)) :
    g'.realize generics c = (member, g') := by
  obtain ⟨added, hadded, -⟩ := h.methods
  cases c with
  | method d =>
    cases hinst : g.instantiate d generics with
    | mk n found =>
      rw [realize, hinst] at hg
      cases hg
      rw [realize, instantiate_of_append hadded hinst]
  | field f =>
    cases hg
    rfl

theorem findMember_of_adds (h : Adds others g g') (hfind : g.findMember q = .ok (member, g))
    (hb : g.Best q c r) :
    (∃ c' r', g'.Candidate q c' r' ∧ r' < r ∧ c'.declaration ∈ others) ∨
      g'.findMember q = .ok (member, g') := by
  have hstays := hb.candidate.of_adds h
  obtain ⟨c', hc'⟩ := candidate?_of_candidate hstays
  obtain ⟨r', hbest⟩ := best_of_candidate? hc'
  obtain hlt | rfl := (hbest.least c r hstays).lt_or_eq
  · refine .inl ⟨c', r', hbest.candidate, hlt, ?_⟩
    refine (hbest.candidate.before_or_declared h).resolve_left fun hearlier => ?_
    exact absurd (hb.least c' r' hearlier) (not_le_of_gt hlt)
  · obtain rfl : c = c' :=
      Option.some.inj (hstays.memberAt?_eq.symm.trans hbest.candidate.memberAt?_eq)
    obtain ⟨found, hfound, hreal⟩ := findMember_eq_ok_iff_realize.1 hfind
    obtain rfl : found = c :=
      Option.some.inj (hfound.symm.trans (candidate?_eq_some_iff.2 ⟨r', hb⟩))
    exact .inr (findMember_eq_ok_iff_realize.2 ⟨found, hc', realize_of_adds h hreal⟩)

/-- After any history, a query succeeds exactly if there is a candidate, and gives what the best one
is instantiated to, which adds at most this instantiation to the graph. After any further actions
the query still succeeds, and finds the same and changes nothing unless a candidate of a smaller
rank was declared among them. -/
theorem findMember_best (actions others : List Action) (q : Query) :
    ((∃ member g, (ofActions actions).findMember q = .ok (member, g)) ↔
      ∃ c r, (ofActions actions).Candidate q c r) ∧
    ∀ member g, (ofActions actions).findMember q = .ok (member, g) →
      ∃ c r, (ofActions actions).Best q c r ∧
        (ofActions actions).Realizes q.generics c member g ∧
        (∀ d n, c = .method d → member = .method n →
          (∀ m, .method m ∈ actions →
            m.signature ≠ { d with generics := q.generics }.signature) →
          n = { d with generics := n.generics }) ∧
        (∃ member' g', (g.run others).findMember q = .ok (member', g')) ∧
        ((∃ c' r', (g.run others).Candidate q c' r' ∧ r' < r ∧ c'.declaration ∈ others) ∨
          (g.run others).findMember q = .ok (member, g.run others)) := by
  refine ⟨findMember_succeeds_iff, fun member g hfind => ?_⟩
  obtain ⟨c, hc, hreal⟩ := findMember_eq_ok_iff_realize.1 hfind
  obtain ⟨r, hbest⟩ := best_of_candidate? hc
  have hbest' := hbest.of_grown (grown_findMember hfind)
  have hadds := adds_run g others
  refine ⟨c, r, hbest, hbest.candidate.realizes hreal, ?_, ?_, ?_⟩
  · rintro d n rfl rfl hundeclared
    exact hbest.candidate.eq_of_undeclared hreal hundeclared
  · exact findMember_succeeds_iff.2 ⟨c, r, hbest'.candidate.of_adds hadds⟩
  · exact findMember_of_adds hadds (findMember_idem hfind) hbest'

end Graph

namespace Sample

def health : Field where
  owner := player
  name := ⟨"Health", by decide⟩
  type := Graph.empty.addCoreTypes.1.object
  flags := ⟨0x0006⟩

def healthGetter : Method where
  owner := player
  name := ⟨"get_Health", by decide⟩
  parameters := []
  returns := Graph.empty.addCoreTypes.1.object
  flags := ⟨0x0006⟩

def playing : List Action := [.core, .type damageable, .type player, .field health]

def healthOfPlayer : Query where
  owner := player
  name := ⟨"Health", by decide⟩

end Sample

/-- A field gives way to a getter that is declared later. -/
theorem Graph.findMember_best_of_health :
    (ofActions Sample.playing).findMember Sample.healthOfPlayer =
      .ok (.field Sample.health, ofActions Sample.playing) ∧
    ∃ c r c' r', (ofActions Sample.playing).Best Sample.healthOfPlayer c r ∧
      ((ofActions Sample.playing).run [.method Sample.healthGetter]).Candidate
        Sample.healthOfPlayer c' r' ∧
      r' < r ∧ c' = .method Sample.healthGetter := by
  have hfind : (ofActions Sample.playing).findMember Sample.healthOfPlayer =
      .ok (.field Sample.health, ofActions Sample.playing) := rfl
  have hlater : ((ofActions Sample.playing).run [.method Sample.healthGetter]).findMember
      Sample.healthOfPlayer = .ok (.method Sample.healthGetter,
        (ofActions Sample.playing).run [.method Sample.healthGetter]) := rfl
  obtain ⟨c, r, hbest, -, -, -, hbetter | hsame⟩ :=
    (findMember_best Sample.playing [.method Sample.healthGetter] Sample.healthOfPlayer).2 _ _ hfind
  · obtain ⟨c', r', hcandidate, hlt, hdeclared⟩ := hbetter
    refine ⟨hfind, c, r, c', r', hbest, hcandidate, hlt, ?_⟩
    cases c' with
    | method m => simpa [Member.declaration] using hdeclared
    | field f => simp [Member.declaration] at hdeclared
  · rw [hlater] at hsame
    cases hsame

end MethodEdit
