import MethodEdit.Proofs.Injection.Block

/-!
The types on the stack while an injected block runs. Each load pushes what its parameter takes, and
the call takes all that was pushed, so the block leaves the stack as it found it, except that a
procedure can hand back the value on top of the stack.
-/
namespace MethodEdit

def Method.argumentTypes (m : Method) : List Ty :=
  (if m.isStatic then [] else [m.owner]) ++ m.parameters.map (·.type)

/-- The type of the argument or slot that an instruction loads, and whether it loads the address. -/
def Instruction.source? (m : Method) (slots : List Slot) (i : Instruction) : Option (Ty × Bool) :=
  match i.opcode, i.operand with
  | .ldargFixed index, _ => m.argumentTypes[index.val]?.map (·, false)
  | .ldarg, .argument index => m.argumentTypes[index.toNat]?.map (·, false)
  | .ldarga, .argument index => m.argumentTypes[index.toNat]?.map (·, true)
  | .ldlocFixed index, _ => slots[index.val]?.map (·.type, false)
  | .ldloc, .slot index => slots[index.toNat]?.map (·.type, false)
  | .ldloca, .slot index => slots[index.toNat]?.map (·.type, true)
  | _, _ => none

namespace Ty

def takes (formal actual : Ty) : Bool :=
  match formal.element, actual.element with
  | none, none => assignable formal actual
  | some wanted, some pointee => wanted == pointee
  | _, _ => false

/-- What is loaded suits the formal. A plain formal gets a plain value that is assignable to it. A
by-reference formal gets the address of a source of exactly its element type, or the value of a
source that points to this type. -/
def Suits (formal source : Ty) (address : Bool) : Prop :=
  match formal.element with
  | none => address = false ∧ source.element = none ∧ assignable formal source = true
  | some wanted =>
    (address = true ∧ source.element = none ∧ (wanted == source) = true) ∨
    (address = false ∧ ∃ pointee, source.element = some pointee ∧ (wanted == pointee) = true)

def loaded (source : Ty) (address : Bool) : Ty := if address then .pointerTo source else source

theorem Suits.takes {formal source : Ty} {address : Bool} (h : formal.Suits source address) :
    formal.takes (source.loaded address) = true := by
  unfold Suits at h
  unfold Ty.takes loaded
  cases hf : formal.element with
  | none =>
    rw [hf] at h
    obtain ⟨rfl, hs, ha⟩ := h
    simp [hs, ha]
  | some wanted =>
    rw [hf] at h
    obtain ⟨rfl, _, heq⟩ | ⟨rfl, pointee, hs, heq⟩ := h
    · simpa using heq
    · simpa [hs] using heq

theorem suits_of_fitSource {formal source : Ty} {fit : Fit}
    (h : formal.fitSource source = .ok fit) : formal.Suits source fit.needsAddress := by
  unfold fitSource at h
  unfold Suits
  split at h
  · cases h
  · rename_i wanted pointee hf hs
    split at h
    · rename_i heq
      cases h
      rw [hf]
      exact .inr ⟨rfl, pointee, hs, heq⟩
    · cases h
  · rename_i wanted hf hs
    split at h
    · rename_i heq
      cases h
      rw [hf]
      exact .inl ⟨rfl, hs, heq⟩
    · cases h
  · rename_i hf hs
    unfold fitPlain at h
    split at h
    · rename_i ha
      cases h
      rw [hf]
      exact ⟨rfl, hs, ha⟩
    · cases h

end Ty

def popAll : List Ty → List Ty → Option (List Ty)
  | [], stack => some stack
  | _ :: _, [] => none
  | formal :: rest, actual :: stack => if formal.takes actual then popAll rest stack else none

def TakeAll (formals actuals : List Ty) : Prop :=
  List.Forall₂ (fun formal actual => formal.takes actual = true) formals actuals

theorem popAll_append {formals actuals : List Ty} (h : TakeAll formals actuals)
    (stack : List Ty) : popAll formals (actuals ++ stack) = some stack := by
  induction h with
  | nil => rfl
  | cons hta _ ih =>
    rw [List.cons_append, popAll, if_pos hta]
    exact ih

namespace Session

open Edit

variable {s s' : Session}

/-- What an instruction of an injected block does to the types on the stack, if it does not go
wrong. -/
def exec (s : Session) (i : Instruction) (stack : List Ty) : Option (List Ty) :=
  match i.opcode, i.operand with
  | .call, .method callee =>
    (popAll callee.argumentTypes.reverse stack).map fun rest =>
      if callee.returnsVoid then rest else callee.returns :: rest
  | .branch .isTrue _, .target _ =>
    match stack with
    | condition :: rest => if condition == s.core.boolean then some rest else none
    | [] => none
  | _, _ =>
    (i.source? s.method s.symbols.slots).map fun (type, address) => type.loaded address :: stack

def execAll (s : Session) : Code → List Ty → Option (List Ty)
  | [], stack => some stack
  | i :: rest, stack => (s.exec i stack).bind (s.execAll rest)

theorem execAll_append (s : Session) (first second : Code) (stack : List Ty) :
    s.execAll (first ++ second) stack = (s.execAll first stack).bind (s.execAll second) := by
  induction first generalizing stack with
  | nil => rfl
  | cons i rest ih =>
    simp only [List.cons_append, execAll]
    cases s.exec i stack with
    | none => rfl
    | some next => exact ih next

theorem exec_of_source? {i : Instruction} {type : Ty} {address : Bool}
    (h : i.source? s.method s.symbols.slots = some (type, address)) (stack : List Ty) :
    s.exec i stack = some (type.loaded address :: stack) := by
  unfold exec
  split
  · rename_i ho _
    simp [Instruction.source?, ho] at h
  · rename_i ho _
    simp [Instruction.source?, ho] at h
  · rw [h]
    rfl

theorem source?_load_argument (m : Method) (slots : List Slot) (index : UInt16) (type : Ty)
    (address : Bool) :
    ((Source.argument index type).load address).source? m slots =
      m.argumentTypes[index.toNat]?.map (·, address) := by
  cases address with
  | true => rfl
  | false =>
    simp only [Source.load, Instruction.loadArgument, Instruction.indexed]
    split <;> rfl

theorem source?_load_slot (m : Method) (slots : List Slot) (index : UInt16) (type : Ty)
    (address : Bool) :
    ((Source.slot index type).load address).source? m slots =
      slots[index.toNat]?.map (·.type, address) := by
  cases address with
  | true => rfl
  | false =>
    simp only [Source.load, Instruction.loadSlot, Instruction.indexed]
    split <;> rfl

theorem getElem?_argumentTypes {n : Nat} {p : Parameter} (hp : s.method.parameters[n]? = some p)
    (hn : s.method.parameters.length ≤ 65535) :
    s.method.argumentTypes[(s.argumentIndex n).toNat]? = some p.type := by
  have hlt := (List.getElem?_eq_some_iff.1 hp).1
  cases hs : s.method.isStatic with
  | true =>
    have hindex : (s.argumentIndex n).toNat = n := by
      simp [argumentIndex, hs]
      omega
    rw [hindex]
    simp [Method.argumentTypes, hs, hp]
  | false =>
    have hindex : (s.argumentIndex n).toNat = n + 1 := by
      simp [argumentIndex, hs]
      omega
    rw [hindex]
    simp [Method.argumentTypes, hs, hp]

theorem getElem?_slots (hr : s.symbols.Regular) (hn : s.symbols.slots.length ≤ 65536) {slot : Slot}
    (hs : slot ∈ s.symbols.slots) : s.symbols.slots[slot.index.toNat]? = some slot := by
  obtain ⟨place, hp⟩ := List.mem_iff_getElem?.1 hs
  have hlt := (List.getElem?_eq_some_iff.1 hp).1
  have hindex : slot.index.toNat = place := by
    rw [hr.numbered place slot hp]
    simp
    omega
  rw [hindex]
  exact hp

/-- The load names an argument or a slot that is there, and what it pushes suits the parameter. -/
def Feeds (s : Session) (p : Parameter) (i : Instruction) : Prop :=
  ∃ type address, i.source? s.method s.symbols.slots = some (type, address) ∧
    p.type.Suits type address

theorem Bound.feeds {p : Parameter} {i : Instruction} (h : Bound s p i) (hr : s.symbols.Regular)
    (hp : s.method.parameters.length ≤ 65535) (hn : s.symbols.slots.length ≤ 65536) :
    s.Feeds p i := by
  obtain ⟨source, fit, hof, hfit, rfl⟩ := h
  refine ⟨source.type, fit.needsAddress, ?_, Ty.suits_of_fitSource hfit⟩
  cases hof with
  | receiver hstatic =>
    rw [source?_load_argument]
    simp [Method.argumentTypes, hstatic, Source.type]
  | parameter hparam =>
    rw [source?_load_argument, getElem?_argumentTypes hparam hp]
    rfl
  | slot hslot =>
    rw [Source.ofSlot, source?_load_slot, getElem?_slots hr hn hslot]
    rfl

theorem execAll_loads {formals : List Parameter} {loads : Code}
    (h : List.Forall₂ (Feeds s) formals loads) (stack : List Ty) :
    ∃ pushed, s.execAll loads stack = some (pushed.reverse ++ stack) ∧
      TakeAll (formals.map (·.type)) pushed := by
  induction h generalizing stack with
  | nil => exact ⟨[], rfl, .nil⟩
  | cons hfeed _ ih =>
    obtain ⟨type, address, hs, hsuits⟩ := hfeed
    obtain ⟨pushed, hexec, htakes⟩ := ih (type.loaded address :: stack)
    refine ⟨type.loaded address :: pushed, ?_, .cons hsuits.takes htakes⟩
    rw [execAll, exec_of_source? hs, Option.bind_some, hexec]
    simp

theorem exec_call {procedure : Method} {actuals : List Ty} (hs : procedure.isStatic = true)
    (h : TakeAll (procedure.parameters.map (·.type)) actuals) (stack : List Ty) :
    s.exec (.call procedure) (actuals.reverse ++ stack) =
      some (if procedure.returnsVoid then stack else procedure.returns :: stack) := by
  have hpop := popAll_append (List.forall₂_reverse_iff.2 h) stack
  simp only [exec, Instruction.call, Method.argumentTypes, hs, if_true, List.nil_append]
  rw [hpop]
  rfl

theorem execAll_call {procedure : Method} {taken formals : List Parameter} {loads : Code}
    {actuals : List Ty} (hs : procedure.isStatic = true)
    (hparams : procedure.parameters = taken ++ formals)
    (htaken : TakeAll (taken.map (·.type)) actuals)
    (h : List.Forall₂ (Feeds s) formals loads) (stack : List Ty) :
    s.execAll (loads ++ [.call procedure]) (actuals.reverse ++ stack) =
      some (if procedure.returnsVoid then stack else procedure.returns :: stack) := by
  obtain ⟨pushed, hexec, htakes⟩ := execAll_loads h (actuals.reverse ++ stack)
  have hall : TakeAll (procedure.parameters.map (·.type)) (actuals ++ pushed) := by
    rw [hparams, List.map_append]
    exact List.rel_append htaken htakes
  have hcall := exec_call (s := s) hs hall stack
  rw [List.reverse_append, List.append_assoc] at hcall
  rw [execAll_append, hexec, Option.bind_some, execAll, hcall]
  rfl

theorem execAll_jump {procedure : Method} {loads : Code} (hs : procedure.isStatic = true)
    (h : List.Forall₂ (Feeds s) procedure.parameters loads) (label : Label) (stack : List Ty) :
    s.execAll (loads ++ [.call procedure, .jumpIfTrue label]) stack =
      s.exec (.jumpIfTrue label)
        (if procedure.returnsVoid then stack else procedure.returns :: stack) := by
  have hcall := execAll_call hs (List.nil_append _).symm .nil h stack
  have hblock : loads ++ [.call procedure, .jumpIfTrue label] =
      (loads ++ [.call procedure]) ++ [.jumpIfTrue label] := by simp
  rw [List.reverse_nil, List.nil_append] at hcall
  rw [hblock, execAll_append, hcall, Option.bind_some, execAll]
  exact Option.bind_fun_some _

theorem exec_jump {condition : Ty} (h : (condition == s.core.boolean) = true) (label : Label)
    (stack : List Ty) : s.exec (.jumpIfTrue label) (condition :: stack) = some stack :=
  if_pos h

theorem callFormals_eq_ok {procedure : Method} {formals : List Parameter}
    (h : callFormals procedure = .ok formals) :
    (procedure.returnsVoid = true ∧ procedure.parameters = formals) ∨
    (procedure.returnsVoid = false ∧ ∃ first, procedure.parameters = first :: formals ∧
      (first.type == procedure.returns) = true) := by
  unfold callFormals at h
  split at h
  · rename_i hvoid
    exact .inl ⟨hvoid, Except.ok.inj h⟩
  · rename_i hvoid
    split at h
    · rename_i first rest hp
      split at h
      · rename_i heq
        cases h
        exact .inr ⟨by simpa using hvoid, first, hp, heq⟩
      · cases h
    · cases h

/-- Injected calls are well typed. Each parameter that is not taken from the stack is loaded, in
order, from an argument or slot that is there and suits it. On any stack, a procedure that returns
nothing leaves the stack as it was; one that returns a value puts a value of the same type in the
place of the one on top; and a jump uses up the condition that decides it. Only if the type of
conditions is itself declared as void, there is no condition, and the jump is on its own. -/
theorem stack_neutral_of_reachable (h : s.Reachable) (hp : s.method.parameters.length ≤ 65535) :
    (∀ procedure before s', insertCall procedure before s = (.ok (), s') →
      s'.symbols.slots.length ≤ 65536 →
      ∃ taken formals loads, procedure.parameters = taken ++ formals ∧
        s'.code = s.code.splice (s.entry before) (loads ++ [.call procedure]) ∧
        List.Forall₂ (Feeds s') formals loads ∧
        (procedure.returnsVoid = true → taken = [] ∧
          ∀ stack, s'.execAll (loads ++ [.call procedure]) stack = some stack) ∧
        (procedure.returnsVoid = false → ∃ p, taken = [p] ∧
          (p.type == procedure.returns) = true ∧
          ∀ top stack, p.type.takes top = true →
            s'.execAll (loads ++ [.call procedure]) (top :: stack) =
              some (procedure.returns :: stack))) ∧
    (∀ procedure label before s', insertJump procedure label before s = (.ok (), s') →
      s'.symbols.slots.length ≤ 65536 →
      ∃ loads,
        s'.code = s.code.splice (s.entry before) (loads ++ [.call procedure, .jumpIfTrue label]) ∧
        List.Forall₂ (Feeds s') procedure.parameters loads ∧
        (procedure.returns == s.core.boolean) = true ∧
        (procedure.returnsVoid = false → ∀ stack,
          s'.execAll (loads ++ [.call procedure, .jumpIfTrue label]) stack = some stack) ∧
        (procedure.returnsVoid = true → ∀ stack,
          s'.execAll (loads ++ [.call procedure, .jumpIfTrue label]) stack =
            s'.exec (.jumpIfTrue label) stack)) := by
  constructor
  · intro procedure before s' hrun hslots
    have hedits := (whole_insertCall procedure before).moves s
    rw [hrun] at hedits
    obtain ⟨formals, loads, hstatic, hf, hb, hsplice⟩ :=
      insertCall_yields h.sound procedure before _ _ hrun
    have hfeeds := hb.imp fun _ _ hb =>
      hb.feeds (h.sound.edits hedits).synced.regular (hedits.method ▸ hp) hslots
    obtain ⟨hvoid, hparams⟩ | ⟨hvoid, first, hparams, heq⟩ := callFormals_eq_ok hf
    · refine ⟨[], formals, loads, hparams, hsplice.1, hfeeds, fun _ => ⟨rfl, fun stack => ?_⟩, ?_⟩
      · have hall : procedure.parameters = [] ++ formals := hparams
        have hcall := execAll_call hstatic hall .nil hfeeds stack
        rw [hvoid] at hcall
        exact hcall
      · intro hnot
        rw [hvoid] at hnot
        cases hnot
    · refine ⟨[first], formals, loads, hparams, hsplice.1, hfeeds, fun hnot => ?_, fun _ => ?_⟩
      · rw [hvoid] at hnot
        cases hnot
      · refine ⟨first, rfl, heq, fun top stack htop => ?_⟩
        have htaken : TakeAll ([first].map (·.type)) [top] := .cons htop .nil
        have hcall := execAll_call hstatic hparams htaken hfeeds stack
        rw [hvoid] at hcall
        exact hcall
  · intro procedure label before s' hrun hslots
    have hedits := (whole_insertJump procedure label before).moves s
    rw [hrun] at hedits
    obtain ⟨loads, hstatic, hbool, hb, hsplice⟩ :=
      insertJump_yields h.sound procedure label before _ _ hrun
    have hfeeds := hb.imp fun _ _ hb =>
      hb.feeds (h.sound.edits hedits).synced.regular (hedits.method ▸ hp) hslots
    refine ⟨loads, hsplice.1, hfeeds, hbool, fun hvoid stack => ?_, fun hvoid stack => ?_⟩
    · rw [execAll_jump hstatic hfeeds, hvoid]
      rw [← hedits.core] at hbool
      exact exec_jump hbool label stack
    · rw [execAll_jump hstatic hfeeds, hvoid]
      rfl

theorem stack_neutral_of_sample :
    (∃ s' loads, insertCall (Sample.method Sample.void) true Sample.session = (.ok (), s') ∧
      s'.code = Sample.code.splice 0 (loads ++ [.call (Sample.method Sample.void)]) ∧
      ∀ stack, s'.execAll (loads ++ [.call (Sample.method Sample.void)]) stack = some stack) ∧
    (∃ s' loads, insertJump (Sample.method Sample.boolean) ⟨0⟩ false Sample.session = (.ok (), s') ∧
      s'.code = Sample.code.splice 1
        (loads ++ [.call (Sample.method Sample.boolean), .jumpIfTrue ⟨0⟩]) ∧
      ∀ stack, s'.execAll (loads ++ [.call (Sample.method Sample.boolean), .jumpIfTrue ⟨0⟩]) stack =
        some stack) := by
  obtain ⟨hcall, hjump⟩ := stack_neutral_of_reachable Sample.reachable_session (by decide)
  obtain ⟨s₁, h₁, hn₁⟩ : ∃ s', insertCall (Sample.method Sample.void) true Sample.session =
      (.ok (), s') ∧ s'.symbols.slots.length ≤ 65536 := ⟨_, rfl, Nat.zero_le _⟩
  obtain ⟨s₂, h₂, hn₂⟩ : ∃ s', insertJump (Sample.method Sample.boolean) ⟨0⟩ false Sample.session =
      (.ok (), s') ∧ s'.symbols.slots.length ≤ 65536 := ⟨_, rfl, Nat.zero_le _⟩
  obtain ⟨_, _, loads₁, _, hcode₁, _, hvoid, _⟩ := hcall _ _ _ h₁ hn₁
  obtain ⟨loads₂, hcode₂, _, _, hvalue, _⟩ := hjump _ _ _ _ h₂ hn₂
  exact ⟨⟨s₁, loads₁, h₁, hcode₁, (hvoid rfl).2⟩, ⟨s₂, loads₂, h₂, hcode₂, hvalue rfl⟩⟩

end Session

end MethodEdit
