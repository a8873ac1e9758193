import MethodEdit.Proofs.Injection.Bulk
import MethodEdit.Proofs.Injection.Contract

/-!
Calls that are injected at every access of a member, or that take the place of every access or of
every load of a constant. Each of these edits does at one instruction what its plan says, so the
edits have to do with the instructions of the old code alone, even if the procedure that is called
is the member itself.
-/
namespace MethodEdit

open Edit

namespace Instruction

variable {i : Instruction}

theorem offSlots_of_accesses {member : Member} (h : i.accesses member = true) :
    i.loadsSlot = false ∧ i.storesSlot = false := by
  have ha := (Bool.and_eq_true_iff.1 h).1
  unfold loadsSlot storesSlot
  unfold Opcode.isMemberAccess at ha
  split at ha
  any_goals
    rename_i ho
    rw [ho]
    exact ⟨rfl, rfl⟩
  cases ha

theorem opcode_of_loadsInteger {value : Int64} (h : i.loadsInteger value = true) :
    (∃ k, i.opcode = .ldcFixed k) ∨ i.opcode = .ldcI4S ∨ i.opcode = .ldcI4 ∨ i.opcode = .ldcI8 := by
  have hi : i.integer? = some value := eq_of_beq h
  rw [integer?, Option.orElse_eq_orElse, Option.orElse_eq_or, Option.or_eq_some_iff] at hi
  obtain hfixed | ⟨_, hi⟩ := hi
  · unfold Opcode.fixedInteger? at hfixed
    split at hfixed
    · exact .inl ⟨_, ‹_›⟩
    · cases hfixed
  · split at hi
    · exact .inr (.inl ‹_›)
    · exact .inr (.inr (.inl ‹_›))
    · exact .inr (.inr (.inr ‹_›))
    · cases hi

theorem offSlots_of_loadsInteger {value : Int64} (h : i.loadsInteger value = true) :
    i.loadsSlot = false ∧ i.storesSlot = false := by
  unfold loadsSlot storesSlot
  obtain ⟨k, ho⟩ | ho | ho | ho := opcode_of_loadsInteger h
  all_goals
    rw [ho]
    exact ⟨rfl, rfl⟩

theorem accesses_call (m : Method) : (call m).accesses (.method m) = true := by
  have hself : (Member.method m == Member.method m) = true := beq_self_eq_true m.signature
  simp [accesses, call, member?, Operand.member?, Opcode.isMemberAccess, hself]

end Instruction

/-- Number of things that an access of the member takes off the stack. -/
def Member.taken : Member → Nat
  | .method m => (if m.isStatic then 0 else 1) + m.parameters.length
  | .field f => if f.isStatic then 0 else 1

theorem Member.taken_eq_of_beq {a b : Member} (h : (a == b) = true) : a.taken = b.taken := by
  cases a with
  | method m =>
    cases b with
    | method n =>
      have hsame : m.signature = n.signature := eq_of_beq h
      have hstatic : m.isStatic = n.isStatic := congrArg Signature.isStatic hsame
      have hnames := congrArg (List.length ∘ Signature.parameters) hsame
      have hlength : m.parameters.length = n.parameters.length := by
        simpa [Method.signature] using hnames
      rw [taken, taken, hstatic, hlength]
    | field g => cases h
  | field f =>
    cases b with
    | method n => cases h
    | field g =>
      have hstatic : f.isStatic = g.isStatic := eq_of_beq (Bool.and_eq_true_iff.1 h).2
      rw [taken, taken, hstatic]

namespace Effect

variable {e : Effect}

def taken (e : Effect) : Nat := (if e.instance?.isSome then 1 else 0) + e.parameters.length

theorem extraFormals_eq_drop {procedure : Method} {extra : List Parameter}
    (h : e.extraFormals procedure = .ok extra) : extra = procedure.parameters.drop e.taken := by
  obtain ⟨receiver, same, hparams, hreceives, hmatches, _⟩ := extraFormals_eq_ok h
  have hreceiver : receiver.length = if e.instance?.isSome then 1 else 0 := by
    unfold Receives at hreceives
    cases hi : e.instance? with
    | none =>
      rw [hi] at hreceives
      rw [hreceives]
      rfl
    | some passed =>
      rw [hi] at hreceives
      obtain ⟨formal, _, hone, _⟩ := hreceives
      rw [hone]
      rfl
  have htaken : e.taken = (receiver ++ same).length := by
    rw [taken, List.length_append, hreceiver, hmatches.length_eq]
  rw [hparams, htaken, List.drop_left]

end Effect

namespace Code

variable {done rest loads : Code} {i : Instruction}

theorem moveLabels_append {first : Instruction} {more : Code} (hf : first.labels = []) :
    (done ++ (first :: more) ++ i :: rest).moveLabels (done.length + (first :: more).length)
      done.length =
        .ok (done ++ ({ first with labels := mergeLabels [] i.labels } :: more) ++
          { i with labels := [] } :: rest) := by
  have hat : (done ++ (first :: more) ++ i :: rest)[done.length + (first :: more).length]? =
      some i := by simp
  refine moveLabels_eq_ok_iff.2 ⟨i, hat, by simp, ?_⟩
  have hsource : done.length + (first :: more).length = (done ++ (first :: more)).length := by simp
  rw [if_neg (by simp), hsource, modify_append_cons]
  simp only [List.append_assoc, List.cons_append]
  rw [modify_append_cons, hf]

theorem handOver_append (labels : List Label) (first last : Instruction) (more : Code) :
    handOver labels (first :: more ++ [last]) =
      { first with labels := mergeLabels [] labels } :: more ++ [last] := by
  cases more with
  | nil => rfl
  | cons => rfl

theorem length_handOver (labels : List Label) (block : Code) :
    (handOver labels block).length = block.length := by
  unfold handOver
  split
  · rfl
  · rfl
  · rfl

end Code

namespace Plan

/-- A call behind every access of the member. A procedure that returns a value takes its first
parameter from the stack. -/
def afterAccess (member : Member) (procedure : Method) : Plan where
  holds := (·.accesses member)
  procedure := procedure
  formals := procedure.parameters.drop (if procedure.returnsVoid then 0 else 1)
  replaces := false

def forAccess (member : Member) (procedure : Method) : Plan where
  holds := (·.accesses member)
  procedure := procedure
  formals := procedure.parameters.drop member.taken
  replaces := true

def forInteger (value : Int64) (procedure : Method) : Plan where
  holds := (·.loadsInteger value)
  procedure := procedure
  formals := procedure.parameters
  replaces := true

end Plan

namespace Session

variable {s s' : Session}

def CodeOnly (s s' : Session) : Prop := s' = { s with code := s'.code, cursor := s'.cursor }

instance : IsPreorder Session CodeOnly where
  refl _ := rfl
  trans s t u h₁ h₂ := by
    unfold CodeOnly at h₁ h₂ ⊢
    rw [h₂, h₁]

theorem codeOnly_inserted (position : Nat) {i : Instruction} (hi : i.allLabels = []) :
    s.CodeOnly (s.inserted position i) := by
  obtain ⟨hl, ht⟩ := List.append_eq_nil_iff.1 hi
  rw [CodeOnly, inserted, hl, ht]
  rfl

theorem codeOnly_emitAll {block : Code} (hb : ∀ i ∈ block, i.allLabels = []) :
    Moves CodeOnly (emitAll true block) := by
  induction block with
  | nil => exact .pure _
  | cons i rest ih =>
    obtain ⟨hi, hrest⟩ := List.forall_mem_cons.1 hb
    refine .bind (fun s => ?_) fun _ => ih hrest
    obtain ⟨e, h⟩ | ⟨_, _, _, h⟩ := insertBefore_cases i s
    · exact (show emit true i s = _ from h) ▸ refl_of CodeOnly s
    · exact (show emit true i s = _ from h) ▸ codeOnly_inserted _ hi

theorem codeOnly_emitAll_rewrite (procedure : Method) (loads : Code) (position : Nat)
    (hb : ∀ i ∈ loads, i.allLabels = []) :
    Moves CodeOnly (do
      emitAll true loads
      if !loads.isEmpty then moveLabelsTo position
      rewrite .call (.method procedure)) := by
  have hmove : Moves CodeOnly (moveLabelsTo position) := fun s => by
    obtain ⟨e, h⟩ | ⟨code, _, h⟩ := moveLabelsTo_cases position s
    · exact h ▸ refl_of CodeOnly s
    · exact h ▸ rfl
  have hrewrite : Moves CodeOnly (rewrite .call (.method procedure)) := fun s => by
    obtain ⟨e, h⟩ | ⟨i, _, _, h⟩ := rewrite_cases .call (.method procedure) s
    · exact h ▸ refl_of CodeOnly s
    · exact h ▸ rfl
  refine .bind (codeOnly_emitAll hb) fun _ => ?_
  dsimp only
  split
  · exact .bind hmove fun _ => hrewrite
  · exact hrewrite

theorem taken_of_accesses {member : Member} {e : Effect} (h : s.currentEffect = .ok e)
    (ha : s.current.accesses member = true) : e.taken = member.taken := by
  obtain ⟨haccess, hany⟩ := Bool.and_eq_true_iff.1 ha
  obtain ⟨found, hfound, hbeq⟩ := Option.any_eq_true _ _ |>.1 hany
  rw [← Member.taken_eq_of_beq hbeq]
  simp only [currentEffect, haccess, hfound] at h
  cases found with
  | method m =>
    cases h
    cases hs : m.isStatic with
    | true => simp [Effect.taken, Member.taken, hs]
    | false => simp [Effect.taken, Member.taken, hs]
  | field f =>
    cases h
    cases hs : f.isStatic with
    | true => simp [Effect.taken, Member.taken, hs]
    | false => simp [Effect.taken, Member.taken, hs]

theorem taken_of_loadsInteger {value : Int64} {e : Effect} (h : s.currentEffect = .ok e)
    (hl : s.current.loadsInteger value = true) : e.taken = 0 := by
  have hno : s.current.opcode.isMemberAccess = false := by
    obtain ⟨k, ho⟩ | ho | ho | ho := Instruction.opcode_of_loadsInteger hl
    all_goals
      rw [ho]
      rfl
  simp only [currentEffect, hno] at h
  cases hp : s.pushedType? with
  | none =>
    rw [hp] at h
    cases h
  | some type =>
    rw [hp] at h
    cases h
    rfl

/-- The instruction became a block that has its labels. -/
theorem Replaces.code_eq {procedure : Method} {loads done rest : Code} {i : Instruction}
    (h : s.Replaces procedure loads s') (hcode : s.code = done ++ i :: rest)
    (hcursor : s.cursor = done.length) (hloads : ∀ j ∈ loads, j.labels = []) :
    s'.code = done ++ Code.handOver i.labels (loads ++ [.call procedure]) ++ rest := by
  obtain ⟨moved, old, hm, hold, hset, _⟩ := h
  rw [hcode, hcursor, Code.splice_append] at hm
  rw [hcursor] at hold hset
  cases loads with
  | nil =>
    obtain ⟨_, _, _, rfl⟩ := Code.moveLabels_eq_ok_iff.1 hm
    simp at hold hset
    rw [hset, ← hold]
    simp [Code.handOver, Instruction.call]
  | cons first more =>
    rw [Code.moveLabels_append (hloads first (by simp))] at hm
    cases hm
    have hlen : done.length + (first :: more).length =
        (done ++ { first with labels := Code.mergeLabels [] i.labels } :: more).length := by simp
    rw [hlen] at hold hset
    rw [List.getElem?_append_right (Nat.le_refl _), Nat.sub_self] at hold
    cases hold
    rw [hset, List.set_append_right _ _ (Nat.le_refl _), Nat.sub_self, Code.handOver_append]
    simp [Instruction.call]

theorem eq_visiting {symbols : Symbols} {done old new rest : Code} (hnew : new ≠ [])
    (hm : (s.visiting symbols done old).CodeOnly s') (hcode : s'.code = done ++ new ++ rest)
    (hcursor : s'.cursor + 1 = done.length + new.length) :
    ∃ piece last, new = piece ++ [last] ∧
      s' = s.visiting symbols (done ++ piece) (last :: rest) := by
  refine ⟨new.dropLast, new.getLast hnew, (List.dropLast_append_getLast hnew).symm, ?_⟩
  have hend : s'.cursor = (done ++ new.dropLast).length := by
    have hpos := List.length_pos_iff.2 hnew
    rw [List.length_append, List.length_dropLast]
    omega
  have hall : s'.code = done ++ new.dropLast ++ new.getLast hnew :: rest := by
    rw [hcode]
    conv_lhs => rw [← List.dropLast_append_getLast hnew]
    simp
  rw [hm, hend, hall]
  rfl

variable {plan : Plan} {symbols after : Symbols} {done rest block piece loads : Code}
  {i last : Instruction} {procedure : Method} {formals : List Parameter}

theorem checkStatic_then {α : Type} {op : Edit Session α} (hp : procedure.isStatic = true) :
    (do checkStatic procedure; op) = op := by
  rw [checkStatic, if_pos hp]
  rfl

theorem inserted_visiting {j : Instruction} (hj : j.allLabels = []) :
    (s.visiting symbols done (i :: rest)).inserted (done.length + 1) j =
      s.visiting symbols (done ++ [i]) (j :: rest) := by
  obtain ⟨hl, ht⟩ := List.append_eq_nil_iff.1 hj
  have hcode : (done ++ i :: rest).splice (done.length + 1) [j] = done ++ [i] ++ j :: rest := by
    have hbehind := Code.splice_append (done ++ [i]) rest [j]
    simpa using hbehind
  simp [inserted, visiting, hl, ht, hcode, Symbols.registerLabels]

theorem emitAll_visiting (hv : ∀ j ∈ block, j.isValid = true) (hl : ∀ j ∈ block, j.allLabels = [])
    (h : i :: block = piece ++ [last]) :
    emitAll false block (s.visiting symbols done (i :: rest)) =
      (.ok (), s.visiting symbols (done ++ piece) (last :: rest)) := by
  induction block generalizing done i piece with
  | nil =>
    obtain ⟨rfl, hlast⟩ := List.append_inj' (show [] ++ [i] = piece ++ [last] from h) rfl
    cases hlast
    rw [List.append_nil]
    rfl
  | cons j more ih =>
    obtain ⟨hvj, hvmore⟩ := List.forall_mem_cons.1 hv
    obtain ⟨hlj, hlmore⟩ := List.forall_mem_cons.1 hl
    obtain ⟨first, tail, rfl⟩ : ∃ first tail, piece = first :: tail := by
      cases piece with
      | nil => simp at h
      | cons first tail => exact ⟨first, tail, rfl⟩
    obtain ⟨rfl, hmore⟩ := List.cons.inj h
    have hin := inside_visiting s symbols done rest i
    have hfree : j.labels = [] := (List.append_eq_nil_iff.1 hlj).1
    have hemit : emit false j (s.visiting symbols done (i :: rest)) =
        (.ok (), s.visiting symbols (done ++ [i]) (j :: rest)) :=
      (insertAfter_unlabelled hin hvj hfree).trans (congrArg _ (inserted_visiting hlj))
    have hrest : emitAll false more (s.visiting symbols (done ++ [i]) (j :: rest)) =
        (.ok (), s.visiting symbols (done ++ [i] ++ tail) (last :: rest)) := ih hvmore hlmore hmore
    rw [emitAll, run_bind, hemit]
    simpa using hrest

theorem emitAll_call_visiting (hb : List.Forall₂ (Bound s') formals loads) :
    emitAll false (loads ++ [.call procedure]) (s.visiting symbols done (i :: rest)) =
      (.ok (), s.visiting symbols (done ++ i :: loads) (.call procedure :: rest)) := by
  refine emitAll_visiting ?_ ?_ rfl
  · exact List.forall_mem_append.2 ⟨isValid_of_bound hb, List.forall_mem_singleton.2 rfl⟩
  · exact List.forall_mem_append.2 ⟨allLabels_of_bound hb, List.forall_mem_singleton.2 rfl⟩

theorem insertCall_visiting (hs : procedure.isStatic = true)
    (hf : callFormals procedure = .ok formals)
    (hb : bindAll procedure formals (s.visiting symbols done (i :: rest)) =
      (.ok loads, s.visiting after done (i :: rest))) :
    insertCall procedure false (s.visiting symbols done (i :: rest)) =
      (.ok (), s.visiting after (done ++ i :: loads) (.call procedure :: rest)) := by
  have hemit : emitAll false (loads ++ [.call procedure]) (s.visiting after done (i :: rest)) =
      (.ok (), s.visiting after (done ++ i :: loads) (.call procedure :: rest)) :=
    emitAll_call_visiting (bindAll_bound _ _ _ _ _ hb)
  have hediting : (s.visiting symbols done (i :: rest)).editing = true := rfl
  simp [insertCall, checkStatic, hs, transaction, hediting, hf, hb, hemit]

theorem bindAll_binds (hl : i.loadsSlot = false) (hs : i.storesSlot = false) :
    Yields (bindAll plan.procedure plan.formals) (s.visiting symbols done (i :: rest))
      fun loads t => ∃ after, s.Binds plan symbols loads after ∧
        t = s.visiting after done (i :: rest) := by
  intro loads t ht
  obtain ⟨after, _, heq⟩ :=
    slots_bindAll plan.procedure plan.formals (s.visiting symbols done (i :: rest))
  rw [ht] at heq
  exact ⟨after, ⟨done, i, rest, hl, hs, ht.trans (congrArg _ heq)⟩, heq⟩

theorem callFormals_eq_drop {procedure : Method} {formals : List Parameter}
    (h : callFormals procedure = .ok formals) :
    formals = procedure.parameters.drop (if procedure.returnsVoid then 0 else 1) := by
  obtain ⟨hvoid, hparams⟩ | ⟨hvoid, first, hparams, _⟩ := callFormals_eq_ok h
  · simp [hvoid, hparams]
  · simp [hvoid, hparams]

theorem performs_insertCall (hstays : plan.replaces = false)
    (hoff : ∀ i, plan.holds i = true → i.loadsSlot = false ∧ i.storesSlot = false)
    (hformals : ∀ formals, callFormals plan.procedure = .ok formals → plan.formals = formals) :
    s.Performs plan (insertCall plan.procedure false) := by
  intro symbols done i rest hi
  obtain ⟨hl, hs⟩ := hoff i hi
  refine checkStatic_yields fun _ => transaction_yields_within rfl (.lift fun formals hf => ?_)
  rw [← hformals formals hf]
  refine .bind (bindAll_binds hl hs) fun loads t ht => ?_
  obtain ⟨after, hbinds, rfl⟩ := ht
  have hput : plan.put loads i = i :: loads ++ [.call plan.procedure] := by
    rw [Plan.put, hstays, if_neg Bool.false_ne_true]
    rfl
  have hbound : List.Forall₂ (Bound (s.visiting after done (i :: rest))) plan.formals loads :=
    hbinds.bound rfl (.refl after)
  exact .of_ok (emitAll_call_visiting hbound)
    ⟨loads, after, i :: loads, .call plan.procedure, hbinds, hput, rfl⟩

/-- The formals must be what is left of the parameters once the procedure has taken what the
instruction takes. -/
theorem performs_replaceCall (hreplaces : plan.replaces = true)
    (hoff : ∀ i, plan.holds i = true → i.loadsSlot = false ∧ i.storesSlot = false)
    (hformals : ∀ t : Session, plan.holds t.current = true → ∀ e, t.currentEffect = .ok e →
      plan.formals = plan.procedure.parameters.drop e.taken) :
    s.Performs plan (replaceCall plan.procedure) := by
  intro symbols done i rest hi
  obtain ⟨hl, hs⟩ := hoff i hi
  refine checkStatic_yields fun _ => transaction_yields_within rfl (.get ?_)
  refine .lift fun effect he => .lift fun extra hx => ?_
  have hextra := hformals _ ((current_visiting s symbols done rest i).symm ▸ hi) effect he
  rw [Effect.extraFormals_eq_drop hx, ← hextra]
  refine .bind (bindAll_binds hl hs) fun loads t ht => ?_
  obtain ⟨after, hbinds, rfl⟩ := ht
  have hin := inside_visiting s after done rest i
  refine .mono ((emitAll_rewrite_yields plan.procedure loads hin).moved
    (codeOnly_emitAll_rewrite plan.procedure loads _ hbinds.allLabels)) fun _ u hu => ?_
  obtain ⟨hmoved, hrepl⟩ := hu
  have hfree : ∀ j ∈ loads, j.labels = [] :=
    fun j hj => (List.append_eq_nil_iff.1 (hbinds.allLabels j hj)).1
  have hcode := hrepl.code_eq rfl rfl hfree
  have hcursor : u.cursor = done.length + loads.length := by
    obtain ⟨_, _, _, _, _, hend⟩ := hrepl
    exact hend
  have hput : plan.put loads i = Code.handOver i.labels (loads ++ [.call plan.procedure]) := by
    rw [Plan.put, hreplaces, if_pos rfl, Plan.block]
  rw [← hput] at hcode
  obtain ⟨piece, last, hpiece, hend⟩ := eq_visiting (plan.put_ne_nil loads i) hmoved hcode (by
    rw [hput, Code.length_handOver, List.length_append, hcursor]
    rfl)
  exact ⟨loads, after, piece, last, hbinds, hpiece, hend⟩

/-- A bulk edit does what its plan says. It comes to an end by itself, and without a match it does
nothing. If it is not refused, it counts the matches, and the cursor is where it was. The code is
the old one with a block at each match. As long as no slot was made beyond the indices, it is the
same block; and if all arguments and slots are within them, its loads feed the parameters. -/
structure CarriesOut (s : Session) (plan : Plan) (edit : Edit Session Unit)
    (all : Edit Session Nat) : Prop where
  ends : ∀ left, s.length ≤ left →
    editMatches none (plan.holds ·.current) edit left { s with cursor := 0, editing := true } =
      editMatches none (plan.holds ·.current) edit s.length { s with cursor := 0, editing := true }
  idle : (∀ i ∈ s.code, plan.holds i = false) → all s = (.ok 0, s)
  counts : ∀ count s', all s = (.ok count, s') →
    count = s.code.countP plan.holds ∧ s'.cursor = s.cursor
  pieces : ∀ count s', all s = (.ok count, s') →
    ∃ pieces, List.Forall₂ (plan.Piece s') s.code pieces ∧ s'.code = pieces.flatten
  block : ∀ count s', all s = (.ok count, s') → (∃ i ∈ s.code, plan.holds i = true) →
    s.symbols.Numbers s'.symbols →
    ∃ loads, List.Forall₂ (Bound s') plan.formals loads ∧
      (s.method.parameters.length ≤ 65535 → s'.symbols.slots.length ≤ 65536 →
        List.Forall₂ (Feeds s') plan.formals loads) ∧
      (∀ i ∈ plan.block loads, i.allLabels = []) ∧ s'.code = s.code.flatMap (plan.edited loads)

theorem carriesOut_editAll {edit : Edit Session Unit} (hs : s.Sound) (hp : s.Performs plan edit) :
    s.CarriesOut plan edit (editAll none none (plan.holds ·.current) edit) where
  ends left h := by
    have hrounds : editMatches none (plan.holds ·.current) edit left
        (s.visiting s.symbols [] s.code) =
          editMatches none (plan.holds ·.current) edit s.length (s.visiting s.symbols [] s.code) :=
      editMatches_rounds hp h
    exact hrounds
  idle := editAll_idle hs
  counts count s' hrun := by
    obtain ⟨new, after, _, rfl, hcount⟩ := editAll_yields hs hp count s' hrun
    exact ⟨hcount, rfl⟩
  pieces count s' hrun := by
    obtain ⟨new, after, hfills, rfl, _⟩ := editAll_yields hs hp count s' hrun
    exact hfills.pieces rfl (.refl after)
  block count s' hrun hex hn := by
    obtain ⟨new, after, hfills, rfl, _⟩ := editAll_yields hs hp count s' hrun
    obtain ⟨loads, first, mid, hbinds, hlater, hnew⟩ := hfills.uniform hn hex
    have hregular := hfills.reslots.1.regular hs.synced.regular
    let t : Session := { s with code := new, symbols := after }
    have hbound : List.Forall₂ (Bound t) plan.formals loads :=
      hbinds.bound rfl hlater.1.toGrows
    exact ⟨loads, hbound, fun hp hslots => hbound.imp fun _ _ hb => hb.feeds hregular hp hslots,
      plan.allLabels_block hbinds.allLabels, hnew⟩

theorem CarriesOut.checked {edit : Edit Session Unit} {all : Edit Session Nat} {procedure : Method}
    (h : s.CarriesOut plan edit all) (hp : procedure.isStatic = true) :
    s.CarriesOut plan edit (do checkStatic procedure; all) := by
  rw [checkStatic_then hp]
  exact h

/-- Calls of a static procedure at every access of a member, or at every load of a constant. The
procedure may be the member itself: its calls that are put in are no matches. -/
theorem bulk_calls_at_matches (h : s.Reachable) {procedure : Method}
    (hp : procedure.isStatic = true) :
    (∀ member, s.CarriesOut (.afterAccess member procedure) (insertCall procedure false)
      (insertAfterAll member procedure)) ∧
    (∀ member, s.CarriesOut (.forAccess member procedure) (replaceCall procedure)
      (replaceAllCalls member procedure)) ∧
    (∀ value, s.CarriesOut (.forInteger value procedure) (replaceCall procedure)
      (replaceAllIntegersByCall value procedure)) := by
  refine ⟨fun member => ?_, fun member => ?_, fun value => ?_⟩
  · have hperforms : s.Performs (.afterAccess member procedure) (insertCall procedure false) :=
      performs_insertCall rfl (fun i => Instruction.offSlots_of_accesses) fun formals hf =>
        (callFormals_eq_drop hf).symm
    exact (carriesOut_editAll h.sound hperforms).checked hp
  · have hperforms : s.Performs (.forAccess member procedure) (replaceCall procedure) :=
      performs_replaceCall rfl (fun i => Instruction.offSlots_of_accesses) fun t hi e he => by
        rw [taken_of_accesses he hi]
        rfl
    exact (carriesOut_editAll h.sound hperforms).checked hp
  · have hperforms : s.Performs (.forInteger value procedure) (replaceCall procedure) :=
      performs_replaceCall rfl (fun i => Instruction.offSlots_of_loadsInteger) fun t hi e he => by
        rw [taken_of_loadsInteger he hi]
        rfl
    exact (carriesOut_editAll h.sound hperforms).checked hp

namespace Sample

/-- Takes a number, and keeps it in a slot of the edited method that it finds by name. -/
def remember : Method where
  owner := object
  name := ⟨"Remember", by decide⟩
  parameters := [{ name := ⟨"last", by decide⟩, type := int32, hint := .slot (.named "last" none) }]
  returns := void
  flags := .helper

def rememberingCode : Code :=
  [.loadInt32 1, .call remember, .loadInt32 2, { Instruction.call remember with labels := [⟨0⟩] },
    .ret]

def remembering : Session where
  code := rememberingCode
  symbols := Session.registerCode rememberingCode
    (Symbols.ofTypes [] (LabelSource.after (rememberingCode.flatMap (·.allLabels))) {})
  method := method void
  core := core
  settings := {}

theorem reachable_remembering : remembering.Reachable :=
  .start (show Session.startFresh (method void) core [] rememberingCode {} = .ok remembering from
    rfl)

end Sample

/-- Of the calls that are put in, none is a match. -/
theorem bulk_calls_in_remembering :
    ∃ s' loads, insertAfterAll (.method Sample.remember) Sample.remember Sample.remembering =
        (.ok 2, s') ∧
      s'.code = Sample.rememberingCode.flatMap
        ((Plan.afterAccess (.method Sample.remember) Sample.remember).edited loads) := by
  have hcount : (insertAfterAll (.method Sample.remember) Sample.remember
      Sample.remembering).1.toOption = some 2 := by decide +kernel
  have hslots : (insertAfterAll (.method Sample.remember) Sample.remember
      Sample.remembering).2.symbols.slots.length ≤ 65536 := by decide +kernel
  have hmatch : Instruction.call Sample.remember ∈ Sample.remembering.code := by
    simp [Sample.remembering, Sample.rememberingCode]
  have hstatic : Sample.remember.isStatic = true := rfl
  have hall := (bulk_calls_at_matches Sample.reachable_remembering hstatic).1
    (.method Sample.remember)
  cases hrun : insertAfterAll (.method Sample.remember) Sample.remember Sample.remembering with
  | mk result s' =>
    rw [hrun] at hcount hslots
    cases result with
    | error e => cases hcount
    | ok count =>
      cases hcount
      obtain ⟨loads, _, _, _, hcode⟩ := hall.block 2 s' hrun ⟨_, hmatch, rfl⟩ (.inl hslots)
      exact ⟨s', loads, rfl, hcode⟩

theorem insertAfterAll_of_rounds {member : Member} {procedure : Method} {after : Symbols}
    {new : Code} {count : Nat} (hs : s.editing = false) (hp : procedure.isStatic = true)
    (hc : (s.visiting after new []).clamp s.cursor = s.cursor)
    (h : editMatches none (·.current.accesses member) (insertCall procedure false) s.length
      (s.visiting s.symbols [] s.code) = (.ok count, s.visiting after new [])) :
    insertAfterAll member procedure s = (.ok count, { s with code := new, symbols := after }) := by
  rw [insertAfterAll, checkStatic_then hp, editAll_whole_eq hs, h]
  simp only [hc]
  simp [visiting, withCursor, ← hs]

namespace Sample

def ask (name : String) : Edit Symbols Slot := Symbols.getOrCreateSlot (some int32) (some name)

def asking (name : MemberName) (slot : String) : Parameter where
  name := name
  type := int32
  hint := .slot (.named slot none)

/-- Asks for the first slot by its placeholder, and for one more slot. -/
def displace : Method where
  owner := object
  name := ⟨"Displace", by decide⟩
  parameters := [asking ⟨"first", by decide⟩ "V_0", asking ⟨"total", by decide⟩ "total"]
  returns := void
  flags := .helper

/-- The table answers two calls, one after the other. By the time of the second one, the first slot
has lost its placeholder. -/
structure Displaces (t u v : Symbols) : Prop where
  first : ask "V_0" t = (.ok ⟨0, int32, "V_0", false⟩, t)
  total : ask "total" t = (.ok ⟨0, int32, "total", true⟩, u)
  second : ask "V_0" u = (.ok ⟨1, int32, "V_0", true⟩, v)
  again : ask "total" v = (.ok ⟨0, int32, "total", true⟩, v)

def full : Symbols := .ofTypes (List.replicate 65536 int32) (.after []) {}

theorem length_full : full.slots.length = 65536 :=
  (Symbols.length_ofTypes _ _ _).trans List.length_replicate

theorem slotStem_full : full.slotStem = "V_" := Symbols.slotStem_ofTypes _ _ _

theorem slots_full :
    ∃ more, full.slots = ⟨0, int32, "V_0", false⟩ :: ⟨1, int32, "V_1", false⟩ :: more := by
  have htypes : List.replicate 65536 int32 = [int32, int32] ++ List.replicate 65534 int32 :=
    List.replicate_add 2 65534 int32
  obtain ⟨more, hmore⟩ := Symbols.prefix_ofTypes [int32, int32] (List.replicate 65534 int32)
    (.after []) {}
  exact ⟨more, by rw [full, htypes, ← hmore]; rfl⟩

theorem total_free : (full.withSlot int32).slotNamed? "total" = none := by
  have hother {slot : Slot} (hs : Symbols.Declared "V_" slot) : slot.name ≠ "total" := by
    obtain ⟨-, more, hname⟩ := hs
    rw [hname]
    exact fun h => by simpa using congrArg String.toList h
  rw [Symbols.slotNamed?_withSlot_eq_none_iff]
  exact ⟨fun slot hs => hother (Symbols.declared_ofTypes _ _ {} slot hs),
    hother (slotStem_full ▸ full.declared_nextSlot int32)⟩

/-- Once the first slot has another name, no slot has its placeholder, nor gets it. -/
theorem placeholder_free {u : Symbols} (hstem : u.slotStem = "V_") (hlen : u.slots.length = 65537)
    (hu : u.slots = (full.slots ++ [full.nextSlot int32]).set 0 ⟨0, int32, "total", true⟩) :
    (u.withSlot int32).slotNamed? "V_0" = none := by
  obtain ⟨more, hfull⟩ := slots_full
  rw [Symbols.slotNamed?_withSlot_eq_none_iff]
  constructor
  · have hdistinct : (full.withSlot int32).Distinct :=
      (Symbols.Distinct.ofTypes _ _ _).withSlot int32
    have hnames := hdistinct.slotNames
    rw [Symbols.withSlot, hfull] at hnames
    have hothers := (List.nodup_cons.1 hnames).1
    rw [hu, hfull]
    intro slot hs
    obtain rfl | hs := List.mem_cons.1 hs
    · simp
    · exact fun h => hothers (List.mem_map.2 ⟨slot, hs, h⟩)
  · obtain ⟨more, hnew⟩ := placeholder_eq_append u.slotStem u.slots.length (u.slots.map (·.name))
    have hnumber : Nat.repr 65537 = "65537" := by decide
    rw [Symbols.nextSlot, hnew, hstem, hlen, hnumber]
    exact fun h => by simpa using congrArg String.toList h

theorem displaces_full : ∃ u v, Displaces full u v := by
  obtain ⟨more, hfull⟩ := slots_full
  have hlen := length_full
  have hself : Ty.assignable int32 int32 = true := Ty.assignable_self int32
  have hzero : full.slots[full.slots.length % 65536]? = some ⟨0, int32, "V_0", false⟩ := by
    rw [hlen, hfull]
    rfl
  obtain ⟨u, htotal, hstem, hu⟩ :=
    Symbols.getOrCreateSlot_beyond (Nat.le_of_eq hlen.symm) hzero rfl (by decide) total_free
  have hulen : u.slots.length = 65537 := by simp [hu, hlen]
  have hfree := placeholder_free (hstem.trans slotStem_full) hulen (by rw [hu, hlen])
  rw [hlen, hfull] at hu
  have hone : u.slots[u.slots.length % 65536]? = some ⟨1, int32, "V_1", false⟩ := by
    rw [hulen, hu]
    rfl
  obtain ⟨v, hsecond, -, hv⟩ := Symbols.getOrCreateSlot_beyond (by omega) hone rfl (by decide) hfree
  rw [hulen, hu] at hv
  have hfirst : full.slotNamed? "V_0" = some ⟨0, int32, "V_0", false⟩ := by
    rw [Symbols.slotNamed?, hfull]
    rfl
  have hagain : v.slotNamed? "total" = some ⟨0, int32, "total", true⟩ := by
    rw [Symbols.slotNamed?, hv]
    rfl
  exact ⟨u, v, Symbols.getOrCreateSlot_of_named hfirst hself, htotal, hsecond,
    Symbols.getOrCreateSlot_of_named hagain hself⟩

def displacingCode : Code := [.call displace, .call displace, .ret]

def displacing (symbols : Symbols) : Session where
  code := displacingCode
  symbols := symbols
  method := method void
  core := core
  settings := {}

theorem start_displacing :
    startFresh (method void) core (List.replicate 65536 int32) displacingCode {} =
      .ok (displacing full) := by
  have hnone : displacingCode.flatMap (·.allLabels) = [] := rfl
  have hvalid : ∀ i ∈ displacingCode, i.isValid = true := by
    intro i hi
    obtain rfl | rfl : i = .call displace ∨ i = .ret := by simpa [displacingCode] using hi
    all_goals rfl
  refine start_eq_ok_iff.2 ⟨nofun, hvalid, rfl, ?_⟩
  rw [registerCode, hnone, List.foldl_nil, ← full, displacing]

section

variable {s : Session} {t u v : Symbols}

theorem bindParameter_asking (name : MemberName) {slot x : String} {m : UInt16} {p : Bool}
    (h : ask slot s.symbols = (.ok ⟨m, int32, x, p⟩, t)) :
    bindParameter displace (asking name slot) s = (.ok (.loadSlot m), { s with symbols := t }) := by
  have hfit : int32.fitSource int32 = .ok ⟨true, false⟩ := by decide +kernel
  exact bindParameter_named (p := asking name slot) rfl h hfit

theorem bindAll_displace {m n : UInt16} {x y : String} {p q : Bool}
    (hm : ask "V_0" s.symbols = (.ok ⟨m, int32, x, p⟩, t))
    (hn : ask "total" t = (.ok ⟨n, int32, y, q⟩, u)) :
    bindAll displace displace.parameters s =
      (.ok [.loadSlot m, .loadSlot n], { s with symbols := u }) := by
  have hone := bindParameter_asking ⟨"first", by decide⟩ hm
  have htwo : bindParameter displace _ { s with symbols := t } = (.ok (.loadSlot n), _) :=
    bindParameter_asking ⟨"total", by decide⟩ hn
  have hparameters : displace.parameters =
      [asking ⟨"first", by decide⟩ "V_0", asking ⟨"total", by decide⟩ "total"] := rfl
  simp [hparameters, bindAll, hone, htwo]

theorem insertCall_displace {done rest : Code} {m n : UInt16} {x y : String} {p q : Bool}
    (hm : ask "V_0" t = (.ok ⟨m, int32, x, p⟩, u))
    (hn : ask "total" u = (.ok ⟨n, int32, y, q⟩, v)) :
    insertCall displace false (s.visiting t done (.call displace :: rest)) =
      (.ok (), s.visiting v (done ++ [.call displace, .loadSlot m, .loadSlot n])
        (.call displace :: rest)) :=
  insertCall_visiting rfl rfl (bindAll_displace hm hn)

/-- The second of the calls that are put in loads other slots than the first one. -/
theorem insertAfterAll_displacing (h : Displaces t u v) :
    insertAfterAll (.method displace) displace (displacing t) = (.ok 2, { displacing t with
      code := [.call displace, .loadSlot 0, .loadSlot 0, .call displace,
        .call displace, .loadSlot 1, .loadSlot 0, .call displace, .ret]
      symbols := v }) := by
  have hcall := Instruction.accesses_call displace
  have hret : Instruction.ret.accesses (.method displace) = false := rfl
  have hrounds : editMatches none (·.current.accesses (.method displace))
      (insertCall displace false) 3 ((displacing t).visiting t [] displacingCode) =
        (.ok 2, (displacing t).visiting v
          [.call displace, .loadSlot 0, .loadSlot 0, .call displace,
            .call displace, .loadSlot 1, .loadSlot 0, .call displace, .ret] []) := by
    rw [displacingCode,
      editMatches_site (within_visiting ..) hcall (insertCall_displace h.first h.total), run_bind,
      editMatches_site (within_visiting ..) hcall (insertCall_displace h.second h.again), run_bind,
      editMatches_kept (within_visiting ..) hret, editMatches_nil]
    rfl
  exact insertAfterAll_of_rounds rfl rfl rfl hrounds

end

theorem not_uniform_displacing (loads : Code) :
    [.call displace, .loadSlot 0, .loadSlot 0, .call displace,
      .call displace, .loadSlot 1, .loadSlot 0, .call displace, .ret] ≠
        displacingCode.flatMap ((Plan.afterAccess (.method displace) displace).edited loads) := by
  intro h
  have hedited : displacingCode.flatMap
      ((Plan.afterAccess (.method displace) displace).edited loads) =
        (.call displace :: loads ++ [.call displace]) ++
          ((.call displace :: loads ++ [.call displace]) ++ [.ret]) := by
    have hcall := Instruction.accesses_call displace
    have hret : Instruction.ret.accesses (.method displace) = false := rfl
    simp [displacingCode, Plan.edited, Plan.put, Plan.block, Plan.afterAccess, hcall, hret]
  have hlength := congrArg List.length (h.trans hedited)
  simp only [List.length_append, List.length_cons, List.length_nil] at hlength
  obtain ⟨x, y, rfl⟩ : ∃ x y, loads = [x, y] := List.length_eq_two.1 (by omega)
  have hat (n : Nat) := congrArg (·[n]?) (h.trans hedited)
  have hzero : Instruction.loadSlot 0 = x := Option.some.inj (hat 1)
  have hone : Instruction.loadSlot 1 = x := Option.some.inj (hat 5)
  exact absurd (congrArg Instruction.opcode (hzero.trans hone.symm)) (by decide)

def note : Parameter := { name := ⟨"note", by decide⟩, type := int32 }

/-- The method of an instance. The last of its parameters is beyond the indices. -/
def lengthy : Method where
  owner := object
  name := ⟨"Survey", by decide⟩
  parameters := List.replicate 65535 count ++ [note]
  returns := void
  flags := ⟨0x0006⟩

def observe : Method where
  owner := object
  name := ⟨"Observe", by decide⟩
  parameters := [note]
  returns := void
  flags := .helper

def observing (method : Method) : Session where
  code := [.call observe, .ret]
  symbols := .ofTypes [] (.after []) {}
  method := method
  core := core
  settings := {}

theorem start_observing (method : Method) :
    startFresh method core [] [.call observe, .ret] {} = .ok (observing method) := rfl

theorem parameter?_note : lengthy.parameter? note.name.text = some (65535, note) := by
  have hothers : ∀ q ∈ List.replicate 65535 count, q.name.text ≠ note.name.text := by
    intro q hq
    rw [List.eq_of_mem_replicate hq]
    decide
  have hlast := Method.parameter?_concat (m := lengthy) rfl hothers
  rwa [List.length_replicate] at hlast

section

variable {s : Session}

theorem argumentNamed?_note (hm : s.method = lengthy) (hs : s.settings = {}) :
    s.argumentNamed? note.name = .ok (some (.argument 0 int32)) := by
  have hindex : s.argumentIndex 65535 = 0 := by
    rw [argumentIndex, hm]
    rfl
  rw [argumentNamed?, hs, if_neg (by decide), hm, parameter?_note, Option.map_some]
  dsimp only
  rw [hindex]
  rfl

theorem bindParameter_note (hm : s.method = lengthy) (hs : s.settings = {}) :
    bindParameter observe note s = (.ok (.loadArgument 0), s) := by
  have hsource : sourceFor observe note s = (.ok (.argument 0 int32), s) := by
    have hhint : note.hint = .byName := rfl
    simp [sourceFor, hhint, argumentNamed?_note hm hs]
  have hfit : note.type.fitSource int32 = .ok ⟨true, false⟩ := by decide +kernel
  rw [bindParameter, run_bind, hsource]
  simp [Source.type, hfit, Source.load]

theorem bindAll_observe (hm : s.method = lengthy) (hs : s.settings = {}) :
    bindAll observe observe.parameters s = (.ok [.loadArgument 0], s) := by
  have hparameters : observe.parameters = [note] := rfl
  simp [hparameters, bindAll, bindParameter_note hm hs]

theorem not_feeds_note (hm : s.method = lengthy) : ¬s.Feeds note (.loadArgument 0) := by
  rintro ⟨type, address, hsource, hsuits⟩
  have hinstance : (Instruction.loadArgument 0).source? s.method s.symbols.slots =
      lengthy.argumentTypes[0]?.map (·, false) := by
    rw [← hm]
    exact source?_load_argument s.method s.symbols.slots 0 object false
  have hfirst : lengthy.argumentTypes[0]? = some object := rfl
  rw [hinstance, hfirst] at hsource
  cases hsource
  have hno : Ty.assignable int32 object = false := by decide +kernel
  exact absurd hsuits.2.2 (Bool.eq_false_iff.1 hno)

end

theorem insertAfterAll_observing {method : Method} (hm : method = lengthy) :
    insertAfterAll (.method observe) observe (observing method) = (.ok 1, { observing method with
      code := [.call observe, .loadArgument 0, .call observe, .ret] }) := by
  have hcall := Instruction.accesses_call observe
  have hret : Instruction.ret.accesses (.method observe) = false := rfl
  let t := (observing method).symbols
  have hsite : insertCall observe false ((observing method).visiting t [] [.call observe, .ret]) =
      (.ok (), (observing method).visiting t [.call observe, .loadArgument 0]
        [.call observe, .ret]) := insertCall_visiting rfl rfl (bindAll_observe hm rfl)
  have hrounds : editMatches none (·.current.accesses (.method observe))
      (insertCall observe false) 2 ((observing method).visiting t [] [.call observe, .ret]) =
        (.ok 1, (observing method).visiting t
          [.call observe, .loadArgument 0, .call observe, .ret] []) := by
    rw [editMatches_site (within_visiting ..) hcall hsite, run_bind,
      editMatches_kept (within_visiting ..) hret, editMatches_nil]
    rfl
  exact insertAfterAll_of_rounds rfl rfl rfl hrounds

end Sample

/-- Beyond the indices, the calls need not be the same, nor load what their parameters are bound to.
Where all indices are taken, a slot that is made at the first call leaves its name to the first
slot, so the second call is given another slot for the old name. And the last of too many parameters
gets the index of the instance. -/
theorem bulk_calls_off_limits :
    (∃ s s', startFresh (Sample.method Sample.void) Sample.core
          (List.replicate 65536 Sample.int32) Sample.displacingCode {} = .ok s ∧
      insertAfterAll (.method Sample.displace) Sample.displace s = (.ok 2, s') ∧
      s'.code = [.call Sample.displace, .loadSlot 0, .loadSlot 0, .call Sample.displace,
        .call Sample.displace, .loadSlot 1, .loadSlot 0, .call Sample.displace, .ret] ∧
      ∀ loads, s'.code ≠ s.code.flatMap
        ((Plan.afterAccess (.method Sample.displace) Sample.displace).edited loads)) ∧
    ∃ s s', startFresh Sample.lengthy Sample.core [] [.call Sample.observe, .ret] {} = .ok s ∧
      insertAfterAll (.method Sample.observe) Sample.observe s = (.ok 1, s') ∧
      s'.code = [.call Sample.observe, .loadArgument 0, .call Sample.observe, .ret] ∧
      s.method.parameters[65535]? = some Sample.note ∧ ¬s'.Feeds Sample.note (.loadArgument 0) := by
  constructor
  · obtain ⟨u, v, hdisplaces⟩ := Sample.displaces_full
    exact ⟨_, _, Sample.start_displacing, Sample.insertAfterAll_displacing hdisplaces, rfl,
      Sample.not_uniform_displacing⟩
  · exact ⟨_, _, Sample.start_observing Sample.lengthy, Sample.insertAfterAll_observing rfl, rfl,
      Method.getElem?_of_parameter? Sample.parameter?_note, Sample.not_feeds_note rfl⟩

end Session

end MethodEdit
