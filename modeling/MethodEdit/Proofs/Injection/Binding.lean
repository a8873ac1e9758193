import MethodEdit.Proofs.Session.Operations

/-!
Where injected loads take their values from. Each parameter is bound to the instance, a parameter or
a slot of the edited method, and what is loaded fits the parameter. Slots that are made for later
parameters do not disturb the earlier ones.
-/
namespace MethodEdit

open Edit Session

variable {s s' : Session}

/-- The sources of the edited method. -/
inductive Source.Of (s : Session) : Source → Prop where
  | receiver (h : s.method.isStatic = false) : Of s (.argument 0 s.method.owner)
  | parameter {n : Nat} {p : Parameter} (h : s.method.parameters[n]? = some p) :
      Of s (.argument (s.argumentIndex n) p.type)
  | slot {slot : Slot} (h : slot ∈ s.symbols.slots) : Of s (.ofSlot slot)

theorem Source.Of.mono {source : Source} (h : source.Of s) (hm : s'.method = s.method)
    (hg : s.symbols.Grows s'.symbols) : source.Of s' := by
  cases h with
  | receiver h =>
    rw [← hm] at h ⊢
    exact .receiver h
  | parameter h =>
    rw [argumentIndex, ← hm, ← argumentIndex]
    rw [← hm] at h
    exact .parameter h
  | slot h =>
    obtain ⟨place, hp⟩ := List.mem_iff_getElem?.1 h
    obtain ⟨later, hl, hb⟩ := hg.slots place _ hp
    rw [Source.ofSlot, ← hb.index, ← hb.type, ← Source.ofSlot]
    exact .slot (List.mem_of_getElem? hl)

theorem Method.getElem?_of_parameter? {m : Method} {name : String} {n : Nat} {p : Parameter}
    (h : m.parameter? name = some (n, p)) : m.parameters[n]? = some p := by
  unfold parameter? at h
  obtain ⟨⟨p', n'⟩, hf, heq⟩ := Option.map_eq_some_iff.1 h
  cases heq
  exact List.mem_zipIdx_iff_getElem?.1 (List.mem_of_find?_eq_some hf)

theorem Method.parameter?_concat {m : Method} {front : List Parameter} {p : Parameter}
    (hp : m.parameters = front ++ [p]) (hf : ∀ q ∈ front, q.name.text ≠ p.name.text) :
    m.parameter? p.name.text = some (front.length, p) := by
  have hnone : front.zipIdx.find? (·.1.name.text == p.name.text) = none := by
    rw [List.find?_eq_none]
    rintro ⟨q, n⟩ hq
    simpa using hf q (List.fst_mem_of_mem_zipIdx hq)
  simp [parameter?, hp, List.zipIdx_append, List.find?_append, hnone]

namespace Session

theorem of_argumentNamed? {name : MemberName} {source : Source}
    (h : s.argumentNamed? name = .ok (some source)) : source.Of s := by
  unfold argumentNamed? at h
  split at h
  · split at h
    · cases h
    · rename_i hstatic
      cases h
      exact .receiver (by simpa using hstatic)
  · have hfound := Except.ok.inj h
    obtain ⟨⟨n, p⟩, hp, heq⟩ := Option.map_eq_some_iff.1 hfound
    cases heq
    exact .parameter (Method.getElem?_of_parameter? hp)

theorem yields_onSymbols {α : Type} {op : Edit Symbols α} {Q : α → Session → Prop}
    (h : Yields op s.symbols fun a symbols => Q a { s with symbols }) :
    Yields (onSymbols op) s Q := by
  intro a t ht
  unfold onSymbols at ht
  cases hop : op s.symbols with
  | mk result symbols =>
    rw [hop] at ht
    cases ht
    exact h a symbols hop

theorem pickSlot_mem (p : Parameter) (pick : Pick) (s : Session) :
    Yields (pickSlot p pick) s fun slot t => slot ∈ t.symbols.slots := by
  cases pick with
  | named name type =>
    exact yields_onSymbols
      (Symbols.getOrCreateSlot_given (some (type.getD p.valueType)) (some name) s.symbols)
  | index index =>
    refine .get ?_
    split
    · rename_i hf
      exact .pure (List.mem_of_getElem? hf)
    · exact .throw _
  | ofType type skipped =>
    exact yields_onSymbols
      (Symbols.slotOfType_given (type.getD p.valueType) none skipped s.symbols)
  | current =>
    refine .get (.lift fun i _ => ?_)
    split
    · rename_i hf
      unfold Symbols.slotFor? at hf
      split at hf
      · obtain ⟨index, _, hs⟩ := Option.bind_eq_some_iff.1 hf
        exact .pure (List.mem_of_getElem? hs)
      · cases hf
    · exact .throw _

theorem sourceFor_of (procedure : Method) (p : Parameter) (s : Session) :
    Yields (sourceFor procedure p) s fun source t => source.Of t := by
  unfold sourceFor
  refine .get ?_
  split
  · refine .lift fun found hf => ?_
    split
    · exact .pure (of_argumentNamed? hf)
    · exact .throw _
  · exact .bind (pickSlot_mem p _ s) fun slot t hs => .pure (.slot hs)
  · refine .lift fun found hf => ?_
    split
    · exact .pure (of_argumentNamed? hf)
    · rename_i hs
      exact .pure (.slot (Symbols.given_of_slotNamed? hs))
    · exact .throw _

/-- The instruction loads a value that fits the parameter, or the address of one. -/
def Bound (s : Session) (p : Parameter) (i : Instruction) : Prop :=
  ∃ source fit, Source.Of s source ∧ p.type.fitSource source.type = .ok fit ∧
    i = source.load fit.needsAddress

theorem Bound.mono {p : Parameter} {i : Instruction} (h : Bound s p i)
    (hm : s'.method = s.method) (hg : s.symbols.Grows s'.symbols) : Bound s' p i := by
  obtain ⟨source, fit, hs, hf, hi⟩ := h
  exact ⟨source, fit, hs.mono hm hg, hf, hi⟩

theorem bindParameter_named {procedure : Method} {p : Parameter} {name : String} {slot : Slot}
    {symbols : Symbols} (hh : p.hint = .slot (.named name none))
    (hs : Symbols.getOrCreateSlot (some p.valueType) (some name) s.symbols = (.ok slot, symbols))
    (hfit : p.type.fitSource slot.type = .ok ⟨true, false⟩) :
    bindParameter procedure p s = (.ok (.loadSlot slot.index), { s with symbols }) := by
  have hsource : sourceFor procedure p s = (.ok (.ofSlot slot), { s with symbols }) := by
    simp [sourceFor, hh, pickSlot, onSymbols, hs]
  rw [bindParameter, run_bind, hsource]
  simp [Source.ofSlot, Source.type, hfit, Source.load]

theorem bindParameter_bound (procedure : Method) (p : Parameter) (s : Session) :
    Yields (bindParameter procedure p) s fun i t => Bound t p i := by
  unfold bindParameter
  refine .bind (sourceFor_of procedure p s) fun source t hs => ?_
  split
  · rename_i fit hf
    exact .pure ⟨source, fit, hs, hf, rfl⟩
  · exact .throw _

theorem bindAll_bound (procedure : Method) (formals : List Parameter) (s : Session) :
    Yields (bindAll procedure formals) s fun loads t => List.Forall₂ (Bound t) formals loads := by
  induction formals generalizing s with
  | nil => exact .pure .nil
  | cons p rest ih =>
    refine .bind (bindParameter_bound procedure p s) fun load t hload => ?_
    refine .bind ((ih t).moved (slots_bindAll procedure rest)) fun loads u hu => ?_
    have hlater := hu.1.tableOnly.edits
    exact .pure (.cons (hload.mono hlater.method hlater.symbols) hu.2)

end Session

end MethodEdit
