import MethodEdit.Proofs.Injection.Addresses
import MethodEdit.Proofs.Injection.SingleEntry
import MethodEdit.Proofs.Session.Numbering

/-!
The control flow of an injected return. Control that comes to the block runs through the loads and
the call. From there it cannot but come to the return, unless the procedure decides to go on: then
it comes to the instruction that followed before.
-/
namespace MethodEdit

open Edit

theorem Instruction.passes_call (m : Method) (jump : Bool) : (call m).Passes jump := ⟨rfl, rfl⟩

theorem Instruction.passes_loadSlot (index : UInt16) (jump : Bool) :
    (loadSlot index).Passes jump := by
  unfold loadSlot indexed
  split <;> exact ⟨rfl, rfl⟩

theorem Source.passes_load (source : Source) (address jump : Bool) :
    (source.load address).Passes jump := by
  unfold load
  split
  · unfold Instruction.loadArgument Instruction.indexed
    split <;> exact ⟨rfl, rfl⟩
  · exact ⟨rfl, rfl⟩
  · exact Instruction.passes_loadSlot _ jump
  · exact ⟨rfl, rfl⟩

theorem Symbols.getOrCreateSlot_name (type : Ty) (name : String) (t : Symbols) :
    Yields (getOrCreateSlot (some type) (some name)) t fun slot _ => slot.name = name := by
  intro slot u hrun
  obtain ⟨hfound, _⟩ | ⟨hfree, _⟩ := getOrCreateSlot_type type name t slot u hrun
  · simpa using List.find?_some hfound
  · have hnew := getOrCreateSlot_new type hfree slot u hrun
    split at hnew
    · exact hnew.2
    · obtain ⟨old, _, _, rfl, _⟩ := hnew
      rfl

namespace Session

variable {s s' : Session} {procedure : Method} {before : Bool}

/-- How an injected return hands over the value: not at all if the edited method returns none, and
else through the slot of the given name, whose address the procedure takes at the given position. -/
inductive HandsOver (s s' : Session) (procedure : Method) : Option (Nat × Slot) → Prop where
  | nothing (hvoid : s.method.returns.isVoid = true) : HandsOver s s' procedure none
  | slot {position : Nat} {p : Parameter} {slot : Slot} (hvoid : s.method.returns.isVoid = false)
      (hp : procedure.parameter? s.settings.resultName.text = some (position, p))
      (hname : slot.name = s.settings.resultSlot.text) (hslot : Source.Of s' (.ofSlot slot)) :
      HandsOver s s' procedure (some (position, slot))

theorem HandsOver.mono {t : Session} {result : Option (Nat × Slot)}
    (h : HandsOver s t procedure result) (hm : s'.method = t.method)
    (hg : t.symbols.Grows s'.symbols) : HandsOver s s' procedure result := by
  cases h with
  | nothing hvoid => exact .nothing hvoid
  | slot hvoid hp hname hslot => exact .slot hvoid hp hname (hslot.mono hm hg)

theorem resultSlot_handsOver (s : Session) :
    Yields (resultSlot procedure) { s with editing := true } fun result t =>
      HandsOver s t procedure result := by
  unfold resultSlot
  refine .get (.lift fun found hfound => ?_)
  obtain ⟨hvoid, rfl⟩ | ⟨hvoid, position, p, rfl, hp, _⟩ := resultParameter_cases hfound
  · exact .pure (.nothing hvoid)
  · have hslot : Yields (onSymbols (Symbols.getOrCreateSlot (some s.method.returns)
        (some s.settings.resultSlot.text))) { s with editing := true } fun slot t =>
        slot.name = s.settings.resultSlot.text ∧ slot ∈ t.symbols.slots := by
      refine yields_onSymbols fun slot symbols hrun => ⟨?_, ?_⟩
      · exact Symbols.getOrCreateSlot_name _ _ s.symbols slot symbols hrun
      · exact Symbols.getOrCreateSlot_given _ _ s.symbols slot symbols hrun
    exact .bind hslot fun slot t ht => .pure (.slot hvoid hp ht.1 (.slot ht.2))

theorem ReturnLoad.passes {result : Option (Nat × Slot)} {formal : Parameter × Nat}
    {i : Instruction} (h : ReturnLoad s result formal i) (jump : Bool) : i.Passes jump := by
  cases h with
  | result _ => exact ⟨rfl, rfl⟩
  | bound _ h =>
    obtain ⟨source, fit, _, _, rfl⟩ := h
    exact source.passes_load fit.needsAddress jump

theorem passes_call {result : Option (Nat × Slot)} {formals : List (Parameter × Nat)} {loads : Code}
    (h : List.Forall₂ (ReturnLoad s result) formals loads) (jump : Bool) :
    ∀ i ∈ loads ++ [.call procedure], i.Passes jump := by
  refine List.forall_mem_append.2 ⟨forall_mem_of_forall₂ h fun _ _ hl => hl.passes jump, ?_⟩
  intro i hi
  rw [List.mem_singleton.1 hi]
  exact Instruction.passes_call procedure jump

theorem passes_value (result : Option (Nat × Slot)) (jump : Bool) :
    ∀ i ∈ (result.map fun (_, slot) => Instruction.loadSlot slot.index).toList, i.Passes jump := by
  intro i hi
  obtain ⟨value, _, rfl⟩ := Option.map_eq_some_iff.1 (Option.mem_toList.1 hi)
  exact Instruction.passes_loadSlot value.2.index jump

theorem Injects.holds {block : Code} (h : s.Injects before block s') (hs : s.cursor < s.length) :
    s'.code.Holds (s.entry before) block := by
  obtain ⟨mid, hmark, hcode, _⟩ := h
  have hstart : s.entry before ≤ mid.length := by
    rw [hmark.length]
    exact entry_le hs before
  intro n i hi
  rw [hcode, Code.getElem?_splice_block hstart (List.getElem?_eq_some_iff.1 hi).1, hi]

/-- A return was injected, in a block that ends at `stop`: one load for each parameter, the call, a
guard exactly if the procedure decides, the value if there is one, and the return. -/
structure ReturnInjected (procedure : Method) (before : Bool) (result : Option (Nat × Slot))
    (loads guard : Code) (stop : Nat) (s s' : Session) : Prop where
  stop_eq : stop = s.entry before + (returnBlock procedure result loads guard).length
  value : HandsOver s s' procedure result
  bound : List.Forall₂ (ReturnLoad s' result) procedure.parameters.zipIdx loads
  injected : s.Injected before (returnBlock procedure result loads guard).length s'
  block : s'.code.Holds (s.entry before) (returnBlock procedure result loads guard)
  unguarded : (procedure.returns == s.core.boolean) = false → guard = []
  guarded : (procedure.returns == s.core.boolean) = true → ∃ label, guard = [.jumpIfTrue label] ∧
    s'.code.positionOf? label = some stop

theorem insertReturn_returnInjected (hs : s.Sound) (procedure : Method) (before : Bool) :
    Yields (insertReturn procedure before) s fun _ s' =>
      ∃ result loads guard stop, ReturnInjected procedure before result loads guard stop s s' := by
  intro _ s' hrun
  have hedits := (whole_insertReturn procedure before).moves s
  rw [hrun] at hedits
  have hseparate := (hs.edits hedits).synced.separate
  obtain ⟨result, t, loads, guard, hresult, hgrows, hloads, hguard, hinj⟩ :=
    insertReturn_block hs procedure before _ _ hrun
  have hslots := slots_resultSlot procedure { s with editing := true }
  rw [hresult] at hslots
  obtain ⟨symbols, _, rfl⟩ := hslots
  have hvalue := (resultSlot_handsOver s _ _ hresult).mono hedits.method hgrows
  have hfree := @unlabelled_returnBlock _ procedure _ _ _ _ hloads hguard.unlabelled
  refine ⟨result, loads, guard, _, rfl, hvalue, hloads,
    hinj.injected hs hfree (by simp [returnBlock]), hinj.holds hs.inside, fun hno => ?_,
    fun hyes => ?_⟩
  · rw [hno] at hguard
    cases hguard
    rfl
  · rw [hyes] at hguard
    cases hguard with
    | jump hstands => exact ⟨_, rfl, hseparate.positionOf?_eq_some_iff.2 hstands⟩

namespace ReturnInjected

variable {result : Option (Nat × Slot)} {loads guard : Code} {stop : Nat}
  (h : ReturnInjected procedure before result loads guard stop s s')

include h

/-- If the guard does not jump, or if there is none, control comes to the return. -/
theorem arrives_ret {jump : Bool} (hjump : jump = false ∨ guard = []) :
    ∃ position, position + 1 = stop ∧ s'.code[position]? = some .ret ∧
      s'.code.Arrives jump (s.entry before) position := by
  have hguard : ∀ i ∈ guard, i.Passes jump := by
    obtain rfl | rfl := hjump
    · cases hbool : procedure.returns == s.core.boolean with
      | true =>
        obtain ⟨label, rfl, _⟩ := h.guarded hbool
        intro i hi
        rw [List.mem_singleton.1 hi]
        exact ⟨rfl, rfl⟩
      | false => simp [h.unguarded hbool]
    · simp
  let front := loads ++ [.call procedure] ++ guard ++
    (result.map fun (_, slot) => Instruction.loadSlot slot.index).toList
  have hfront : ∀ i ∈ front, i.Passes jump := List.forall_mem_append.2
    ⟨List.forall_mem_append.2 ⟨passes_call h.bound jump, hguard⟩, passes_value result jump⟩
  have hblock : s'.code.Holds (s.entry before) (front ++ [.ret]) := h.block
  have hlen : (returnBlock procedure result loads guard).length = front.length + 1 :=
    List.length_append
  refine ⟨s.entry before + front.length, ?_, hblock.getElem?, hblock.arrives hfront (by simp)⟩
  rw [h.stop_eq, hlen, Nat.add_assoc]

theorem arrives_stop (hbool : (procedure.returns == s.core.boolean) = true) :
    s'.code.Arrives true (s.entry before) stop := by
  obtain ⟨label, hguard, hlabel⟩ := h.guarded hbool
  obtain ⟨value, hblock⟩ : ∃ value, s'.code.Holds (s.entry before)
      (loads ++ [.call procedure] ++ .jumpIfTrue label :: value) := by
    have hall := h.block
    rw [returnBlock, hguard, List.append_assoc, List.append_assoc, List.singleton_append] at hall
    exact ⟨_, hall⟩
  have hguarded := hblock.arrives (passes_call h.bound true) (List.cons_ne_nil _ _)
  refine hguarded.trans (.step (fun r => ?_) (.here _))
  rw [Code.takes_true_iff hblock.getElem? rfl rfl, hlabel, Option.some.injEq, eq_comm]

theorem followed (hbool : (procedure.returns == s.core.boolean) = true) :
    ∃ i j, s.code[s.entry before]? = some i ∧ s'.code[stop]? = some j ∧
      j.opcode = i.opcode ∧ j.operand = i.operand := by
  obtain ⟨label, _, hlabel⟩ := h.guarded hbool
  obtain ⟨_, hstop, _⟩ := Code.stands_of_positionOf? hlabel
  have hlt := (List.getElem?_eq_some_iff.1 hstop).1
  rw [h.injected.widened.length, h.stop_eq] at hlt
  have hin : s.entry before < s.code.length := by omega
  have hi := List.getElem?_eq_getElem hin
  obtain ⟨j, hj, hsame⟩ := h.injected.widened.instruction _ _ True.intro hi
  rw [Code.shifted, if_neg (Nat.lt_irrefl _), ← h.stop_eq] at hj
  exact ⟨_, j, hi, hj, hsame⟩

end ReturnInjected

/-- An injected return does what it is meant to. Control that comes to the block gets to the return,
unless the procedure decides to go on: then it gets to the instruction that followed before. A
procedure that decides is refused where no instruction follows. -/
theorem injected_return_flow (h : s.Reachable) (procedure : Method) (before : Bool) :
    (∀ s', insertReturn procedure before s = (.ok (), s') →
      ∃ result loads guard stop, ReturnInjected procedure before result loads guard stop s s' ∧
        (∀ jump, jump = false ∨ guard = [] →
          ∃ position, position + 1 = stop ∧ s'.code[position]? = some .ret ∧
            s'.code.Arrives jump (s.entry before) position) ∧
        ((procedure.returns == s.core.boolean) = true →
          s'.code.Arrives true (s.entry before) stop ∧
          ∃ i j, s.code[s.entry before]? = some i ∧ s'.code[stop]? = some j ∧
            j.opcode = i.opcode ∧ j.operand = i.operand)) ∧
    ((procedure.returns == s.core.boolean) = true → s.code[s.entry before]? = none →
      ∃ e s', insertReturn procedure before s = (.error e, s')) := by
  have hyields := insertReturn_returnInjected h.sound procedure before
  refine ⟨fun s' hrun => ?_, fun hbool hnone => ?_⟩
  · obtain ⟨result, loads, guard, stop, hinj⟩ := hyields _ s' hrun
    exact ⟨result, loads, guard, stop, hinj, fun jump hjump => hinj.arrives_ret hjump,
      fun hbool => ⟨hinj.arrives_stop hbool, hinj.followed hbool⟩⟩
  · cases hrun : insertReturn procedure before s with
    | mk outcome s' =>
      cases outcome with
      | error e => exact ⟨e, s', rfl⟩
      | ok _ =>
        obtain ⟨result, loads, guard, stop, hinj⟩ := hyields _ s' hrun
        obtain ⟨i, _, hi, _⟩ := hinj.followed hbool
        cases hnone.symm.trans hi

theorem injected_return_flow_in_sample :
    (∃ s' stop position,
      insertReturn (Sample.method Sample.boolean) false Sample.session = (.ok (), s') ∧
      position + 1 = stop ∧ s'.code[position]? = some .ret ∧ s'.code.Arrives false 1 position ∧
      s'.code.Arrives true 1 stop) ∧
    ∃ e s', insertReturn (Sample.method Sample.boolean) false (Sample.session.withCursor 2) =
      (.error e, s') := by
  have hreach : (Sample.session.withCursor 2).Reachable :=
    .step Sample.reachable_session {} (.moveTo 2)
  obtain ⟨hflow, _⟩ :=
    injected_return_flow Sample.reachable_session (Sample.method Sample.boolean) false
  obtain ⟨_, hrefused⟩ := injected_return_flow hreach (Sample.method Sample.boolean) false
  obtain ⟨s', hrun⟩ : ∃ s', insertReturn (Sample.method Sample.boolean) false Sample.session =
      (.ok (), s') := ⟨_, rfl⟩
  obtain ⟨_, _, _, stop, _, hret, hnext⟩ := hflow s' hrun
  obtain ⟨position, hstop, hat, harrives⟩ := hret false (.inl rfl)
  exact ⟨⟨s', stop, position, hrun, hstop, hat, harrives, (hnext (by decide)).1⟩,
    hrefused (by decide) rfl⟩

end Session

end MethodEdit
