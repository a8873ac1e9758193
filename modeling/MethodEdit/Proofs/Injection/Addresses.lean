import MethodEdit.Proofs.Injection.Contract

/-!
Addresses that injected code passes. An injected return passes the address of the result slot, which
is a slot of the type that is returned, or one that was there under the same name and can be used as
this type. A parameter that asks for an instance of a value type gets the first argument or its
address, although the argument holds an address already when the method is called.
-/
namespace MethodEdit

theorem MemberName.eq_of_text {a b : MemberName} (h : a.text = b.text) : a = b := by
  cases a
  cases b
  cases h
  rfl

theorem Instruction.loadArgumentAddress_ne : loadArgumentAddress 0 ≠ loadArgument 0 := by
  intro h
  cases congrArg opcode h

theorem Method.parameter?_eq_some {m : Method} {name : MemberName} {n : Nat} {p : Parameter}
    (h : m.parameter? name.text = some (n, p)) : m.parameters[n]? = some p ∧ p.name = name := by
  refine ⟨getElem?_of_parameter? h, ?_⟩
  obtain ⟨⟨p', n'⟩, hf, heq⟩ := Option.map_eq_some_iff.1 h
  cases heq
  exact MemberName.eq_of_text (by simpa using List.find?_some hf)

namespace Ty

variable {formal bound : Ty} {fit : Fit}

theorem element_of_isValue (h : bound.isValue = true) : bound.element = none := by
  cases bound with
  | named => rfl
  | byRef => cases h

theorem assignable_iff_of_isValue (h : bound.isValue = true) :
    assignable formal bound = true ↔ (formal == bound) = true := by
  constructor
  · intro ha
    have hsame := beq_of_assignable ha (by simp [isReference, h])
    exact beq_iff.2 (beq_iff.1 hsame).symm
  · intro hsame
    simp [assignable, beq_iff, beq_iff.1 hsame]

theorem fitSource_eq_ok_iff_of_isValue (h : bound.isValue = true) :
    formal.fitSource bound = .ok fit ↔
      (formal.valueType == bound) = true ∧ fit = ⟨true, formal.isByRef⟩ := by
  unfold fitSource valueType isByRef
  rw [element_of_isValue h]
  cases formal.element with
  | some wanted =>
    by_cases hsame : (wanted == bound) = true
    · simp [hsame, eq_comm]
    · simp [hsame]
  | none =>
    by_cases hsame : (formal == bound) = true
    · simp [fitPlain, (assignable_iff_of_isValue h).2 hsame, hsame, eq_comm]
    · have hno : ¬assignable formal bound = true := mt (assignable_iff_of_isValue h).1 hsame
      simp [fitPlain, hno, hsame]

theorem fitStack_address_eq_ok_iff :
    (∃ fit, formal.fitStack bound true = .ok fit) ↔
      formal.isByRef = true ∧ (formal.valueType == bound) = true := by
  unfold fitStack valueType isByRef
  cases formal.element with
  | none => simp
  | some wanted =>
    by_cases hsame : (wanted == bound) = true
    · simp [hsame]
    · simp [hsame]

end Ty

namespace Session

open Edit

variable {s s' : Session} {procedure : Method}

/-- The parameter at the position is meant for the address of the value that is returned. -/
structure TakesResult (s : Session) (procedure : Method) (position : Nat) (p : Parameter) :
    Prop where
  parameter : procedure.parameters[position]? = some p
  name : p.name = s.settings.resultName
  element : p.type.element.any (· == s.method.returns) = true

/-- There is a result parameter exactly if there is a result. -/
theorem resultParameter_cases {result : Option Nat} (h : s.resultParameter procedure = .ok result) :
    (s.method.returns.isVoid = true ∧ result = none) ∨
    s.method.returns.isVoid = false ∧ ∃ position p, result = some position ∧
      procedure.parameter? s.settings.resultName.text = some (position, p) ∧
      p.type.element.any (· == s.method.returns) = true := by
  unfold resultParameter at h
  dsimp only at h
  split at h
  · split at h
    · rename_i hvoid
      cases h
      exact .inl ⟨hvoid, rfl⟩
    · cases h
  · rename_i position p hfound
    split at h
    · cases h
    · rename_i hvoid
      split at h
      · cases h
      · rename_i element helement
        split at h
        · rename_i hsame
          cases h
          exact .inr ⟨by simpa using hvoid, position, p, rfl, hfound, by simp [helement, hsame]⟩
        · cases h

theorem resultParameter_eq_ok (hv : s.method.returns.isVoid = false) {result : Option Nat}
    (h : s.resultParameter procedure = .ok result) :
    ∃ position p, result = some position ∧ s.TakesResult procedure position p := by
  obtain ⟨hvoid, _⟩ | ⟨_, position, p, rfl, hfound, helement⟩ := resultParameter_cases h
  · rw [hv] at hvoid
    cases hvoid
  · obtain ⟨hparameter, hname⟩ := Method.parameter?_eq_some hfound
    exact ⟨position, p, rfl, hparameter, hname, helement⟩

theorem resultSlot_yields (hv : s.method.returns.isVoid = false) :
    Yields (resultSlot procedure) s fun result t =>
      ∃ position p slot, result = some (position, slot) ∧ s.TakesResult procedure position p ∧
        slot ∈ t.symbols.slots ∧
        ((s.symbols.slotNamed? s.settings.resultSlot.text = some slot ∧
            Ty.assignable s.method.returns slot.type = true) ∨
          (s.symbols.slotNamed? s.settings.resultSlot.text = none ∧
            (t.symbols.slots.length ≤ 65536 → slot.type = s.method.returns))) := by
  unfold resultSlot
  refine .get (.lift fun found hfound => ?_)
  obtain ⟨position, p, rfl, htakes⟩ := resultParameter_eq_ok hv hfound
  have hslot := Symbols.getOrCreateSlot_type s.method.returns s.settings.resultSlot.text s.symbols
  have hgiven := Symbols.getOrCreateSlot_given (some s.method.returns)
    (some s.settings.resultSlot.text) s.symbols
  refine .bind (yields_onSymbols fun slot symbols hrun => ?_) fun slot t ht =>
    .pure ⟨position, p, slot, rfl, htakes, ht⟩
  exact ⟨hgiven slot symbols hrun, hslot slot symbols hrun⟩

theorem getElem?_of_returnLoads {position : Nat} {slot : Slot} {p : Parameter} {loads : Code}
    (h : List.Forall₂ (ReturnLoad s (some (position, slot))) procedure.parameters.zipIdx loads)
    (hp : procedure.parameters[position]? = some p) :
    loads[position]? = some (.loadSlotAddress slot.index) := by
  have hlen := h.length_eq
  rw [List.length_zipIdx] at hlen
  have hin := (List.getElem?_eq_some_iff.1 hp).1
  have hload := h.get (by rw [List.length_zipIdx]; exact hin) (hlen ▸ hin)
  rw [List.getElem?_eq_getElem (hlen ▸ hin)]
  simp only [List.get_eq_getElem, List.getElem_zipIdx, Nat.zero_add] at hload
  generalize loads[position] = load at hload
  cases hload with
  | result heq =>
    cases heq
    rfl
  | bound hother _ => exact absurd rfl (hother slot)

/-- The result slot of an injected return. Its address is passed for the result parameter, and its
value is loaded right before the return. The slot can be used as the type that is returned, but it
is of exactly this type only if no slot of another type had the name of result slots before. -/
theorem result_slot_of_insertReturn (h : s.Reachable) (hv : s.method.returns.isVoid = false)
    {before : Bool} (hrun : insertReturn procedure before s = (.ok (), s'))
    (hn : s'.symbols.slots.length ≤ 65536) :
    ∃ position p slot loads guard, s.TakesResult procedure position p ∧
      s.Injects before (loads ++ [.call procedure] ++ guard ++ [.loadSlot slot.index, .ret]) s' ∧
      loads.length = procedure.parameters.length ∧
      loads[position]? = some (.loadSlotAddress slot.index) ∧
      s'.symbols.slot? slot.index = some slot ∧
      Ty.assignable s.method.returns slot.type = true ∧
      ((slot.type == s.method.returns) = true ↔
        ∀ old, s.symbols.slotNamed? s.settings.resultSlot.text = some old →
          (old.type == s.method.returns) = true) := by
  have hedits := (whole_insertReturn procedure before).moves s
  rw [hrun] at hedits
  obtain ⟨result, t, loads, guard, hresult, hgrows, hloads, _, hinj⟩ :=
    insertReturn_block h.sound procedure before _ _ hrun
  have hvoid : { s with editing := true }.method.returns.isVoid = false := hv
  obtain ⟨position, p, slot, rfl, htakes, hslot, htype⟩ := resultSlot_yields hvoid _ _ hresult
  have hload := getElem?_of_returnLoads hloads htakes.parameter
  have hlen := hloads.length_eq
  rw [List.length_zipIdx] at hlen
  -- other parameters may give slots their names, and nothing else
  obtain ⟨place, hplace⟩ := List.mem_iff_getElem?.1 hslot
  obtain ⟨later, hlater, hbecomes⟩ := hgrows.slots place slot hplace
  have hfound := getElem?_slots (h.sound.edits hedits).synced.regular hn
    (List.mem_of_getElem? hlater)
  have hblock : returnBlock procedure (some (position, slot)) loads guard =
      loads ++ [.call procedure] ++ guard ++ [.loadSlot later.index, .ret] := by
    simp [returnBlock, hbecomes.index]
  rw [hblock] at hinj
  rw [← hbecomes.index] at hload
  refine ⟨position, p, later, loads, guard, ⟨htakes.1, htakes.2, htakes.3⟩, hinj, hlen.symm, hload,
    hfound, ?_⟩
  rw [hbecomes.type]
  obtain ⟨hold, hassignable⟩ | ⟨hnone, hnew⟩ := htype
  · refine ⟨hassignable, fun hsame old hother => ?_, fun hall => hall slot hold⟩
    cases hold.symm.trans hother
    exact hsame
  · have hexact := hnew (Nat.le_trans hgrows.slots_length_le hn)
    rw [hexact]
    refine ⟨Ty.assignable_self _, fun _ old hother => ?_, fun _ => Ty.beq_iff.2 rfl⟩
    cases hnone.symm.trans hother

namespace Sample

def string : Ty := .named "System.String" .classType (some object) []

def answer : Method where
  owner := object
  name := ⟨"Answer", by decide⟩
  parameters := [{ name := .theResult, type := .pointerTo object }]
  returns := void
  flags := .helper

def fetchCode : Code := [{ opcode := .stack .ldnull }, .ret]

/-- The edited method returns an object, and has a slot for a string. -/
def fetching : Session where
  code := fetchCode
  symbols := Session.registerCode fetchCode (Symbols.ofTypes [string] (LabelSource.after []) {})
  method := { method object with parameters := [] }
  core := core
  settings := {}

theorem reachable_fetching : fetching.Reachable :=
  .start (show Session.startFresh fetching.method core [string] fetchCode {} = .ok fetching from
    rfl)

def fetchingNamed : Session :=
  (SessionCommand.run (.symbols (.nameSlot 0 "__result")) ⟨{}, fetching⟩).2.session

end Sample

theorem result_slot_of_fetching :
    ∃ s' slot, insertReturn Sample.answer true Sample.fetching = (.ok (), s') ∧
      s'.symbols.slot? slot.index = some slot ∧ (slot.type == Sample.object) = true := by
  have hrun : insertReturn Sample.answer true Sample.fetching =
      (.ok (), (insertReturn Sample.answer true Sample.fetching).2) := rfl
  obtain ⟨_, _, slot, _, _, _, _, _, _, hslot, _, hexact⟩ :=
    result_slot_of_insertReturn Sample.reachable_fetching rfl hrun (by decide)
  exact ⟨_, slot, hrun, hslot, hexact.2 nofun⟩

/-- The address of a slot for strings is passed where an object is to be stored. -/
theorem result_slot_of_other_type :
    Sample.fetchingNamed.Reachable ∧ Sample.fetchingNamed.method.returns = Sample.object ∧
      ∃ s' slot, insertReturn Sample.answer true Sample.fetchingNamed = (.ok (), s') ∧
        s'.code = [.loadSlotAddress slot.index, .call Sample.answer, .loadSlot slot.index, .ret] ++
          Sample.fetchCode ∧
        s'.symbols.slot? slot.index = some slot ∧ (slot.type == Sample.object) = false :=
  ⟨.step Sample.reachable_fetching {} _, rfl, _, ⟨0, Sample.string, "__result", true⟩, rfl, rfl,
    rfl, by decide⟩

/-- The parameter asks for the instance of the edited method, by its own name or by its hint. -/
def AsksInstance (s : Session) (p : Parameter) : Prop :=
  match p.hint with
  | .byName => p.name = s.settings.instanceName
  | .argument other => other.getD p.name = s.settings.instanceName
  | .slot _ => False

theorem sourceFor_of_asksInstance {p : Parameter} (hp : s.AsksInstance p)
    (hs : s.method.isStatic = false) :
    sourceFor procedure p s = (.ok (.argument 0 s.method.owner), s) := by
  have hargument : s.argumentNamed? s.settings.instanceName =
      .ok (some (.argument 0 s.method.owner)) := by
    simp [argumentNamed?, hs]
  unfold AsksInstance at hp
  unfold sourceFor
  cases hhint : p.hint with
  | byName =>
    rw [hhint] at hp
    simp [hp, hargument]
  | argument other =>
    rw [hhint] at hp
    simp [hp, hargument]
  | slot pick =>
    rw [hhint] at hp
    cases hp

theorem bindParameter_of_asksInstance {p : Parameter} (hp : s.AsksInstance p)
    (hs : s.method.isStatic = false) {i : Instruction} {t : Session} :
    bindParameter procedure p s = (.ok i, t) ↔
      t = s ∧ ∃ fit, p.type.fitSource s.method.owner = .ok fit ∧
        i = (Source.argument 0 s.method.owner).load fit.needsAddress := by
  simp only [bindParameter, run_bind, sourceFor_of_asksInstance hp hs, Source.type]
  cases p.type.fitSource s.method.owner with
  | ok fit => simp [eq_comm, and_comm]
  | error mismatch => simp

theorem bindParameter_of_isValue {p : Parameter} (hp : s.AsksInstance p)
    (hs : s.method.isStatic = false) (hv : s.method.owner.isValue = true) (i : Instruction)
    (t : Session) :
    bindParameter procedure p s = (.ok i, t) ↔
      t = s ∧ (p.valueType == s.method.owner) = true ∧
        i = if p.isByRef then .loadArgumentAddress 0 else .loadArgument 0 := by
  have hload : (Source.argument 0 s.method.owner).load p.isByRef =
      if p.isByRef then .loadArgumentAddress 0 else .loadArgument 0 := by
    cases p.isByRef with
    | true => rfl
    | false => rfl
  rw [bindParameter_of_asksInstance hp hs, ← hload]
  simp [Ty.fitSource_eq_ok_iff_of_isValue hv, Parameter.valueType, Parameter.isByRef, and_assoc]

/-- How an instance of a value type is passed to a parameter that asks for it. What is loaded is the
first argument for a parameter of the type itself, and the address of the argument for a reference
to the type. A call that is replaced by the procedure has the address of the instance on the stack,
and only a reference to the type is accepted for it. -/
theorem instance_passing_of_isValue (procedure : Method) {p : Parameter} (hp : s.AsksInstance p)
    (hs : s.method.isStatic = false) (hv : s.method.owner.isValue = true) :
    (∀ i t, bindParameter procedure p s = (.ok i, t) ↔
      t = s ∧ (p.valueType == s.method.owner) = true ∧
        i = if p.isByRef then .loadArgumentAddress 0 else .loadArgument 0) ∧
    ((∃ fit, p.type.fitStack s.method.owner true = .ok fit) ↔
      bindParameter procedure p s = (.ok (.loadArgumentAddress 0), s)) := by
  refine ⟨bindParameter_of_isValue hp hs hv, ?_⟩
  rw [bindParameter_of_isValue hp hs hv, Ty.fitStack_address_eq_ok_iff, ← Parameter.isByRef,
    ← Parameter.valueType]
  cases p.isByRef with
  | true => simp
  | false => simp [Instruction.loadArgumentAddress_ne]

namespace Sample

def copied : Parameter := { name := .theInstance, type := point }

def watched : Parameter := { name := .theInstance, type := .pointerTo point }

def moving : Session where
  code := [.ret]
  symbols := Session.registerCode [.ret] (Symbols.ofTypes [] (LabelSource.after []) {})
  method := scale
  core := core
  settings := {}

theorem reachable_moving : moving.Reachable :=
  .start (show Session.startFresh scale core [] [.ret] {} = .ok moving from rfl)

end Sample

theorem instance_passing_of_moving :
    bindParameter Sample.answer Sample.watched Sample.moving =
        (.ok (.loadArgumentAddress 0), Sample.moving) ∧
      ∃ fit, Sample.watched.type.fitStack Sample.point true = .ok fit := by
  have hasks : Sample.moving.AsksInstance Sample.watched := rfl
  obtain ⟨hbind, hstack⟩ := instance_passing_of_isValue Sample.answer hasks rfl rfl
  have hrun := (hbind (.loadArgumentAddress 0) Sample.moving).2 ⟨rfl, by decide, rfl⟩
  exact ⟨hrun, hstack.2 hrun⟩

/-- A parameter of the type itself is bound, although a replaced call does not accept it, and a
reference to the type gets the address of what is an address already. -/
theorem instance_passing_differs :
    Sample.moving.Reachable ∧ Sample.moving.method.isStatic = false ∧
      Sample.moving.method.owner.isValue = true ∧
      Sample.moving.AsksInstance Sample.copied ∧ Sample.moving.AsksInstance Sample.watched ∧
      (bindParameter Sample.answer Sample.copied Sample.moving).1 = .ok (.loadArgument 0) ∧
      Sample.copied.type.fitStack Sample.moving.method.owner true = .error .unexpectedByRef ∧
      Sample.watched.type.fitStack Sample.moving.method.owner true = .ok ⟨true, false⟩ ∧
      (bindParameter Sample.answer Sample.watched Sample.moving).1 =
        .ok (.loadArgumentAddress 0) ∧
      Instruction.loadArgumentAddress 0 ≠ .loadArgument 0 :=
  ⟨Sample.reachable_moving, rfl, rfl, rfl, rfl, rfl, rfl, rfl, rfl,
    Instruction.loadArgumentAddress_ne⟩

end Session

end MethodEdit
