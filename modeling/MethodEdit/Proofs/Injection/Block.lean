import MethodEdit.Proofs.Code.Flow
import MethodEdit.Proofs.Injection.Binding
import MethodEdit.Proofs.Session.Reachable

/-!
Injected code is one block without labels, right in front of the current instruction or right behind
it. Instructions that are put in one after the other make up the block, and at most one label is
placed before, at the instruction that follows the block.
-/
namespace MethodEdit

open Edit

theorem Source.allLabels_load (source : Source) (address : Bool) :
    (source.load address).allLabels = [] := by
  unfold load
  split
  · unfold Instruction.loadArgument Instruction.indexed
    split <;> rfl
  · rfl
  · unfold Instruction.loadSlot Instruction.indexed
    split <;> rfl
  · rfl

theorem Source.isValid_load (source : Source) (address : Bool) :
    (source.load address).isValid = true := by
  unfold load
  split
  · unfold Instruction.loadArgument Instruction.indexed
    split <;> rfl
  · rfl
  · unfold Instruction.loadSlot Instruction.indexed
    split <;> rfl
  · rfl

theorem forall_mem_of_forall₂ {α β : Type} {R : α → β → Prop} {P : β → Prop} {as : List α}
    {bs : List β} (h : List.Forall₂ R as bs) (hP : ∀ a b, R a b → P b) : ∀ b ∈ bs, P b := by
  induction h with
  | nil => simp
  | cons hab _ ih => exact List.forall_mem_cons.2 ⟨hP _ _ hab, ih⟩

namespace Session

variable {s s' : Session}

theorem Bound.allLabels {p : Parameter} {i : Instruction} (h : Bound s p i) :
    i.allLabels = [] := by
  obtain ⟨source, fit, _, _, rfl⟩ := h
  exact source.allLabels_load fit.needsAddress

theorem allLabels_of_bound {formals : List Parameter} {loads : Code}
    (h : List.Forall₂ (Bound s) formals loads) : ∀ i ∈ loads, i.allLabels = [] :=
  forall_mem_of_forall₂ h fun _ _ hb => hb.allLabels

theorem isValid_of_bound {formals : List Parameter} {loads : Code}
    (h : List.Forall₂ (Bound s) formals loads) : ∀ i ∈ loads, i.isValid = true :=
  forall_mem_of_forall₂ h fun _ _ hb => by
    obtain ⟨source, fit, _, _, rfl⟩ := hb
    exact source.isValid_load fit.needsAddress

theorem unlabelled_of_bound {formals : List Parameter} {loads : Code}
    (h : List.Forall₂ (Bound s) formals loads) : ∀ i ∈ loads, i.labels = [] :=
  fun i hi => (List.append_eq_nil_iff.1 (allLabels_of_bound h i hi)).1

def entry (s : Session) (before : Bool) : Nat := if before then s.cursor else s.cursor + 1

theorem entry_le (h : s.cursor < s.length) (before : Bool) : s.entry before ≤ s.length := by
  unfold entry
  split <;> omega

theorem emit_yields (before : Bool) (i : Instruction) (s : Session) :
    Yields (emit before i) s fun _ t =>
      t.code = s.code.splice (s.entry before) [i] ∧ t.cursor = s.cursor + 1 := by
  cases before with
  | true =>
    obtain ⟨e, he⟩ | ⟨_, _, _, he⟩ := insertBefore_cases i s
    · exact .of_error he
    · exact .of_ok he ⟨rfl, rfl⟩
  | false =>
    obtain ⟨e, he⟩ | ⟨_, _, _, he⟩ := insertAfter_cases i s
    · exact .of_error he
    · exact .of_ok he ⟨rfl, rfl⟩

/-- The instructions end up one behind the other, and the cursor goes along. -/
theorem emitAll_yields (before : Bool) (block : Code) (h : s.cursor < s.length) :
    Yields (emitAll before block) s fun _ t =>
      t.code = s.code.splice (s.entry before) block ∧ t.cursor = s.cursor + block.length := by
  induction block generalizing s with
  | nil => exact .pure ⟨(Code.splice_nil _ _).symm, rfl⟩
  | cons i rest ih =>
    refine .bind (emit_yields before i s) fun _ t ht => ?_
    obtain ⟨hcode, hcursor⟩ := ht
    have hlen : t.length = s.length + 1 := by
      rw [length, hcode, Code.length_splice]
      rfl
    have hentry : t.entry before = s.entry before + [i].length := by
      unfold entry
      rw [hcursor]
      split <;> rfl
    refine .mono (ih (by omega)) fun _ u hu => ?_
    obtain ⟨hcode', hcursor'⟩ := hu
    constructor
    · rw [hcode', hcode, hentry, Code.splice_splice (entry_le h before)]
      rfl
    · rw [hcursor', hcursor, List.length_cons]
      omega

/-- The code got a block at the entry, and the cursor moved by its length. -/
def Spliced (before : Bool) (block : Code) (s s' : Session) : Prop :=
  s'.code = s.code.splice (s.entry before) block ∧ s'.cursor = s.cursor + block.length

/-- The same, after a label may have been placed at the entry. -/
def Injects (before : Bool) (block : Code) (s s' : Session) : Prop :=
  ∃ mid, Code.Marked s.code mid (s.entry before) ∧
    s'.code = mid.splice (s.entry before) block ∧ s'.cursor = s.cursor + block.length

theorem Spliced.injects {before : Bool} {block : Code} (h : s.Spliced before block s') :
    s.Injects before block s' := ⟨s.code, .inl rfl, h.1, h.2⟩

theorem checkStatic_yields {α : Type} {procedure : Method} {op : Edit Session α}
    {Q : α → Session → Prop} (h : procedure.isStatic = true → Yields op s Q) :
    Yields (do checkStatic procedure; op) s Q := by
  unfold checkStatic
  split
  · rename_i hstatic
    exact h hstatic
  · exact nofun

theorem bindAll_emitAll_yields (procedure : Method) (formals : List Parameter) (before : Bool)
    (tail : Code) (h : s.cursor < s.length) :
    Yields (do
      let loads ← bindAll procedure formals
      emitAll before (loads ++ tail)) s fun _ t =>
        ∃ loads, List.Forall₂ (Bound t) formals loads ∧ s.Spliced before (loads ++ tail) t := by
  refine .bind ((bindAll_bound procedure formals s).moved (slots_bindAll procedure formals))
    fun loads t ht => ?_
  obtain ⟨⟨symbols, _, rfl⟩, hbound⟩ := ht
  have hin : { s with symbols }.cursor < { s with symbols }.length := h
  refine .mono ((emitAll_yields before (loads ++ tail) hin).moved (moves_emitAll before _))
    fun _ u hu => ?_
  obtain ⟨hedits, hcode, hcursor⟩ := hu
  exact ⟨loads, hbound.imp fun _ _ hb => hb.mono hedits.method hedits.symbols, hcode, hcursor⟩

theorem insertCall_yields (hs : s.Sound) (procedure : Method) (before : Bool) :
    Yields (insertCall procedure before) s fun _ s' =>
      ∃ formals loads, procedure.isStatic = true ∧ callFormals procedure = .ok formals ∧
        List.Forall₂ (Bound s') formals loads ∧
        s.Spliced before (loads ++ [.call procedure]) s' := by
  refine checkStatic_yields fun hstatic => ?_
  refine transaction_yields hs.resting (.lift fun formals hf => ?_)
  refine .mono (bindAll_emitAll_yields procedure formals before [.call procedure] hs.inside)
    fun _ t ht => ?_
  obtain ⟨loads, hbound, hsplice⟩ := ht
  exact ⟨formals, loads, hstatic, hf, hbound.imp fun _ _ hb => hb.mono rfl (.refl _), hsplice⟩

theorem insertJump_yields (hs : s.Sound) (procedure : Method) (label : Label) (before : Bool) :
    Yields (insertJump procedure label before) s fun _ s' =>
      ∃ loads, procedure.isStatic = true ∧ (procedure.returns == s.core.boolean) = true ∧
        List.Forall₂ (Bound s') procedure.parameters loads ∧
        s.Spliced before (loads ++ [.call procedure, .jumpIfTrue label]) s' := by
  refine checkStatic_yields fun hstatic => .get ?_
  dsimp only
  split
  · exact .throw _
  · rename_i hbool
    split
    · exact .throw _
    · split
      · exact .throw _
      · refine transaction_yields hs.resting ?_
        refine .mono (bindAll_emitAll_yields procedure procedure.parameters before
          [.call procedure, .jumpIfTrue label] hs.inside) fun _ t ht => ?_
        obtain ⟨loads, hbound, hsplice⟩ := ht
        refine ⟨loads, hstatic, by simpa [bne] using hbool, ?_, hsplice⟩
        exact hbound.imp fun _ _ hb => hb.mono rfl (.refl _)

/-- If no label stands at a position, one that is new to the code is placed there. -/
theorem labelAt_yields (hs : Synced s.code s.symbols) (position : Nat) :
    Yields (labelAt position none true) s fun label t =>
      Code.Marked s.code t.code position ∧ t.cursor = s.cursor ∧ t.code.Stands label position := by
  refine .get (.lift fun i hi => ?_)
  dsimp only
  split
  · rename_i label rest hl
    exact .pure ⟨.inl rfl, rfl, i, Code.at?_eq_ok_iff.1 hi, by simp [hl]⟩
  · have hnew : Yields (onSymbols Symbols.createLabel) s fun label t =>
        s.symbols.status label = none ∧ t.code = s.code ∧ t.cursor = s.cursor :=
      yields_onSymbols (.mono (Symbols.createLabel_new hs.regular) fun _ _ h => ⟨h, rfl, rfl⟩)
    refine .bind hnew fun label t ht => ?_
    obtain ⟨hnone, hcode, hcursor⟩ := ht
    have hattach : Yields (attachLabelAt position label) t fun _ u =>
        t.code.attachLabel position label = .ok u.code ∧ u.cursor = t.cursor := by
      obtain ⟨e, h⟩ | ⟨code, _, ha, h⟩ := attachLabelAt_cases position label t
      · exact .of_error h
      · exact .of_ok h ⟨ha, rfl⟩
    refine .bind hattach fun _ u hu => ?_
    obtain ⟨ha, hcursor'⟩ := hu
    rw [hcode] at ha
    have hstands : u.code.Stands label position :=
      (Code.relabelled_attachLabel ha label position).2 (.inr ⟨List.mem_singleton.2 rfl, rfl⟩)
    refine .pure ⟨.inr ⟨label, ha, fun hl => hs.known label hl hnone, fun p hp => ?_⟩,
      hcursor'.trans hcursor, hstands⟩
    have hattached := (hs.attached_iff label).2 ⟨p, hp⟩
    rw [hnone] at hattached
    cases hattached

/-- What skips an injected return: nothing if the procedure does not decide, and a jump to a label
at the given position of the code if it does. -/
inductive Guard (code : Code) (position : Nat) : Bool → Code → Prop where
  | none : Guard code position false []
  | jump {label : Label} (h : code.Stands label position) :
      Guard code position true [.jumpIfTrue label]

theorem Guard.unlabelled {code guard : Code} {position : Nat} {conditional : Bool}
    (h : Guard code position conditional guard) : ∀ i ∈ guard, i.labels = [] := by
  cases h with
  | none => simp
  | jump => simp [Instruction.jumpIfTrue]

theorem Guard.splice {code guard : Code} {position : Nat} {conditional : Bool}
    (h : Guard code position conditional guard) (hp : position ≤ code.length) (block : Code) :
    Guard (code.splice position block) (position + block.length) conditional guard := by
  cases h with
  | none => exact .none
  | jump h =>
    refine .jump ((Code.stands_splice hp block _ _).2 (.inl ⟨position, h, ?_⟩))
    rw [Code.shifted, if_neg (Nat.lt_irrefl position)]

theorem resumeGuard_yields (hs : Synced s.code s.symbols) (conditional before : Bool) :
    Yields (resumeGuard conditional before) s fun guard t =>
      Code.Marked s.code t.code (s.entry before) ∧ t.cursor = s.cursor ∧
        Guard t.code (s.entry before) conditional guard := by
  have hlabel : Yields (resumeLabel before) s fun label t =>
      Code.Marked s.code t.code (s.entry before) ∧ t.cursor = s.cursor ∧
        t.code.Stands label (s.entry before) := by
    refine .get ?_
    cases before with
    | true => exact labelAt_yields hs s.cursor
    | false =>
      rw [if_neg (by simp)]
      split
      · exact .throw _
      · exact labelAt_yields hs (s.cursor + 1)
  unfold resumeGuard
  cases conditional with
  | true =>
    exact .bind hlabel fun label t ht => .pure ⟨ht.1, ht.2.1, .jump ht.2.2⟩
  | false => exact .pure ⟨.inl rfl, rfl, .none⟩

/-- The load for a numbered parameter of a procedure that returns: the address of the result slot at
the position of the result, and what the parameter is bound to at any other. -/
inductive ReturnLoad (s : Session) (result : Option (Nat × Slot)) :
    Parameter × Nat → Instruction → Prop where
  | result {p : Parameter} {position : Nat} {slot : Slot} (h : result = some (position, slot)) :
      ReturnLoad s result (p, position) (.loadSlotAddress slot.index)
  | bound {p : Parameter} {position : Nat} {i : Instruction}
      (hother : ∀ slot, result ≠ some (position, slot)) (h : Bound s p i) :
      ReturnLoad s result (p, position) i

theorem ReturnLoad.mono {result : Option (Nat × Slot)} {formal : Parameter × Nat} {i : Instruction}
    (h : ReturnLoad s result formal i) (hm : s'.method = s.method)
    (hg : s.symbols.Grows s'.symbols) : ReturnLoad s' result formal i := by
  cases h with
  | result h => exact .result h
  | bound hother h => exact .bound hother (h.mono hm hg)

theorem ReturnLoad.allLabels {result : Option (Nat × Slot)} {formal : Parameter × Nat}
    {i : Instruction} (h : ReturnLoad s result formal i) : i.allLabels = [] := by
  cases h with
  | result _ => rfl
  | bound _ h => exact h.allLabels

theorem bindWithResult_loads (procedure : Method) (result : Option (Nat × Slot))
    (formals : List (Parameter × Nat)) (s : Session) :
    Yields (bindWithResult procedure result formals) s fun loads t =>
      List.Forall₂ (ReturnLoad t result) formals loads := by
  induction formals generalizing s with
  | nil => exact .pure .nil
  | cons formal rest ih =>
    obtain ⟨p, i⟩ := formal
    have hrest (load : Instruction) (t : Session) (hl : ReturnLoad t result (p, i) load) :
        Yields (do return load :: (← bindWithResult procedure result rest)) t fun loads u =>
          List.Forall₂ (ReturnLoad u result) ((p, i) :: rest) loads := by
      refine .bind ((ih t).moved (slots_bindWithResult procedure result rest)) fun loads u hu => ?_
      have hlater := hu.1.tableOnly.edits
      exact .pure (.cons (hl.mono hlater.method hlater.symbols) hu.2)
    have hload := bindParameter_bound procedure p s
    unfold bindWithResult
    split
    · rename_i position slot
      split
      · rename_i heq
        exact hrest _ s (.result (by rw [heq]))
      · rename_i hne
        have hother : ∀ other, some (position, slot) ≠ some (i, other) := by simp [hne]
        exact .bind hload fun load t hl => hrest load t (.bound hother hl)
    · exact .bind hload fun load t hl => hrest load t (.bound nofun hl)

theorem bindWithResult_unlabelled (procedure : Method) (result : Option (Nat × Slot))
    (formals : List (Parameter × Nat)) (s : Session) :
    Yields (bindWithResult procedure result formals) s fun loads _ =>
      ∀ i ∈ loads, i.allLabels = [] :=
  .mono (bindWithResult_loads procedure result formals s) fun _ _ h =>
    forall_mem_of_forall₂ h fun _ _ hl => hl.allLabels

/-- An injected return: the call with its loads, the guard if there is one, and the value that is
returned. -/
def returnBlock (procedure : Method) (result : Option (Nat × Slot)) (loads guard : Code) : Code :=
  loads ++ [.call procedure] ++ guard ++
    (result.map fun (_, slot) => Instruction.loadSlot slot.index).toList ++ [.ret]

theorem mem_guard_of_mem_returnBlock {procedure : Method} {result : Option (Nat × Slot)}
    {loads guard : Code} (hloads : ∀ i ∈ loads, i.allLabels = []) {i : Instruction}
    (hi : i ∈ returnBlock procedure result loads guard) : i ∈ guard ∨ i.allLabels = [] := by
  simp only [returnBlock, List.mem_append, List.mem_singleton, Option.mem_toList,
    Option.map_eq_some_iff] at hi
  obtain (((hi | rfl) | hi) | ⟨_, _, rfl⟩) | rfl := hi
  · exact .inr (hloads i hi)
  · exact .inr rfl
  · exact .inl hi
  · exact .inr (Source.allLabels_load (.ofSlot _) false)
  · exact .inr rfl

theorem unlabelled_returnBlock {procedure : Method} {result : Option (Nat × Slot)}
    {formals : List (Parameter × Nat)} {loads guard : Code}
    (hloads : List.Forall₂ (ReturnLoad s result) formals loads)
    (hguard : ∀ i ∈ guard, i.labels = []) :
    ∀ i ∈ returnBlock procedure result loads guard, i.labels = [] := by
  intro i hi
  have hfree := forall_mem_of_forall₂ hloads fun _ _ hl => hl.allLabels
  obtain hi | hi := mem_guard_of_mem_returnBlock hfree hi
  · exact hguard i hi
  · exact (List.append_eq_nil_iff.1 hi).1

/-- The result slot is found first, and everything else is made for it. -/
theorem insertReturn_block (hs : s.Sound) (procedure : Method) (before : Bool) :
    Yields (insertReturn procedure before) s fun _ s' =>
      ∃ result t loads guard, resultSlot procedure { s with editing := true } = (.ok result, t) ∧
        t.symbols.Grows s'.symbols ∧
        List.Forall₂ (ReturnLoad s' result) procedure.parameters.zipIdx loads ∧
        Guard s'.code (s.entry before + (returnBlock procedure result loads guard).length)
          (procedure.returns == s.core.boolean) guard ∧
        s.Injects before (returnBlock procedure result loads guard) s' := by
  refine checkStatic_yields fun _ => .get ?_
  dsimp only
  split
  · exact .throw _
  · refine transaction_yields hs.resting ?_
    have hresult : Yields (resultSlot procedure) { s with editing := true } fun result t =>
        resultSlot procedure { s with editing := true } = (.ok result, t) := fun _ _ h => h
    refine .bind (hresult.moved (slots_resultSlot procedure)) fun result t ht => ?_
    refine .bind ((bindWithResult_loads procedure result _ t).moved
      (slots_bindWithResult procedure result _)) fun loads u hu => ?_
    have hfirst := hu.1.tableOnly.edits
    obtain ⟨symbols, hext, rfl⟩ := trans_of SlotsOnly ht.1 hu.1
    have hsynced := hs.synced.extend hext.1
    refine .bind ((resumeGuard_yields hsynced _ before).moved (moves_resumeGuard _ before))
      fun guard v hv => ?_
    obtain ⟨hsecond, hmark, hcursor, hguard⟩ := hv
    have hin : v.cursor < v.length := by
      rw [hcursor, length, hmark.length]
      exact hs.inside
    refine .mono ((emitAll_yields before _ hin).moved (moves_emitAll before _)) fun _ w hw => ?_
    obtain ⟨hthird, hcode, hend⟩ := hw
    have hentry : v.entry before = s.entry before := by
      unfold entry
      rw [hcursor]
    rw [hentry] at hcode
    rw [hcursor] at hend
    have hle : s.entry before ≤ v.code.length := by
      rw [hmark.length]
      exact entry_le hs.inside before
    have hlater := trans_of Edits hsecond hthird
    refine ⟨result, t, loads, guard, ht.2, hfirst.symbols.trans hlater.symbols, ?_,
      hcode ▸ hguard.splice hle _, v.code, hmark, hcode, hend⟩
    exact hu.2.imp fun _ _ hl => hl.mono hlater.method hlater.symbols

theorem insertReturn_yields (hs : s.Sound) (procedure : Method) (before : Bool) :
    Yields (insertReturn procedure before) s fun _ s' =>
      ∃ block, block ≠ [] ∧ (∀ i ∈ block, i.labels = []) ∧ s.Injects before block s' := by
  refine .mono (insertReturn_block hs procedure before) fun _ s' h => ?_
  obtain ⟨result, _, loads, guard, _, _, hloads, hguard, hinj⟩ := h
  exact ⟨_, by simp [returnBlock], unlabelled_returnBlock hloads hguard.unlabelled, hinj⟩

theorem moveLabelsTo_yields (position : Nat) (s : Session) :
    Yields (moveLabelsTo position) s fun _ t =>
      s.code.moveLabels s.cursor position = .ok t.code ∧ t.cursor = s.cursor := by
  obtain ⟨e, h⟩ | ⟨code, hm, h⟩ := moveLabelsTo_cases position s
  · exact .of_error h
  · exact .of_ok h ⟨hm, rfl⟩

theorem rewrite_yields (opcode : Opcode) (operand : Operand) (s : Session) :
    Yields (rewrite opcode operand) s fun _ t => ∃ i, s.code[s.cursor]? = some i ∧
      t.code = s.code.set s.cursor { i with opcode, operand } ∧ t.cursor = s.cursor := by
  obtain ⟨e, h⟩ | ⟨i, hi, _, h⟩ := rewrite_cases opcode operand s
  · exact .of_error h
  · exact .of_ok h ⟨i, hi, rfl, rfl⟩

/-- The current instruction became a call with loads in front of it, and its labels went to the
first of them. -/
def Replaces (procedure : Method) (loads : Code) (s s' : Session) : Prop :=
  ∃ moved i,
    (s.code.splice s.cursor loads).moveLabels (s.cursor + loads.length) s.cursor = .ok moved ∧
    moved[s.cursor + loads.length]? = some i ∧
    s'.code = moved.set (s.cursor + loads.length)
      { i with opcode := .call, operand := .method procedure } ∧
    s'.cursor = s.cursor + loads.length

theorem Replaces.getElem? {procedure : Method} {loads : Code} (h : s.Replaces procedure loads s')
    (hc : s.cursor < s.length) {n : Nat} {i : Instruction}
    (hi : (loads ++ [.call procedure])[n]? = some i) :
    ∃ j, s'.code[s.cursor + n]? = some j ∧ j.opcode = i.opcode ∧ j.operand = i.operand := by
  obtain ⟨moved, old, hm, _, hcode, _⟩ := h
  have hat := Code.getElem?_replace (i := old) hc hm hi
  rw [← hcode, Code.getElem?_bare] at hat
  obtain ⟨j, hj, hbare⟩ := Option.map_eq_some_iff.1 hat
  exact ⟨j, hj, Instruction.bare_eq_iff.1 hbare⟩

/-- Without loads the labels are where they belong. -/
theorem emitAll_rewrite_yields (procedure : Method) (loads : Code) (h : s.cursor < s.length) :
    Yields (do
      emitAll true loads
      if !loads.isEmpty then moveLabelsTo s.cursor
      rewrite .call (.method procedure)) s fun _ s' => s.Replaces procedure loads s' := by
  refine .bind (emitAll_yields true loads h) fun _ t ht => ?_
  obtain ⟨hcode, hcursor⟩ := ht
  have hrewrite : ∀ u : Session, t.code.moveLabels t.cursor s.cursor = .ok u.code →
      u.cursor = t.cursor →
      Yields (rewrite .call (.method procedure)) u fun _ s' => s.Replaces procedure loads s' := by
    intro u hm hu
    refine .mono (rewrite_yields .call (.method procedure) u) fun _ s' h' => ?_
    obtain ⟨i, hi, hset, hend⟩ := h'
    rw [hcode, hcursor] at hm
    rw [hu, hcursor] at hi hset hend
    exact ⟨u.code, i, hm, hi, hset, hend⟩
  dsimp only
  split
  · refine .bind (moveLabelsTo_yields s.cursor t) fun _ u hu => hrewrite u hu.1 hu.2
  · rename_i hempty
    have hnil : loads = [] := by simpa using hempty
    refine hrewrite t (Code.moveLabels_eq_ok_iff.2 ?_) rfl
    subst hnil
    rw [Code.splice_nil] at hcode
    rw [hcode, hcursor]
    exact ⟨s.code[s.cursor], List.getElem?_eq_getElem h, h, by simp⟩

theorem replaceCall_yields (hs : s.Sound) (procedure : Method) :
    Yields (replaceCall procedure) s fun _ s' =>
      ∃ effect extra loads, s.currentEffect = .ok effect ∧
        effect.extraFormals procedure = .ok extra ∧
        List.Forall₂ (Bound s') extra loads ∧ s.Replaces procedure loads s' := by
  refine checkStatic_yields fun _ => ?_
  refine transaction_yields hs.resting (.get (.lift fun effect he => ?_))
  refine .lift fun extra hx => ?_
  refine .bind ((bindAll_bound procedure extra _).moved (slots_bindAll procedure extra))
    fun loads t ht => ?_
  obtain ⟨⟨symbols, _, rfl⟩, hbound⟩ := ht
  have hin : { s with symbols, editing := true }.cursor <
      { s with symbols, editing := true }.length := hs.inside
  refine .mono ((emitAll_rewrite_yields procedure loads hin).moved
    (moves_emitAll_rewrite procedure loads _)) fun _ u hu => ?_
  refine ⟨effect, extra, loads, he, hx, ?_, hu.2⟩
  exact hbound.imp fun _ _ hb => hb.mono hu.1.method hu.1.symbols

end Session

end MethodEdit
