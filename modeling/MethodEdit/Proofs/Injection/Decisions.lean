import MethodEdit.Proofs.Code.Flow
import MethodEdit.Proofs.Session.FreshLabels

/-!
Two-way branches that are decided once and for all. Only the first branch from the cursor on comes
into question, and it must be a two-way one. Whichever way it is decided, the decision is the only
thing that changes: all labels stay with their instructions.
-/
namespace MethodEdit

variable {i : Instruction} {label : Label}

theorem Instruction.exists_target (hv : i.isValid = true)
    (hc : i.opcode.isConditionalBranch = true) : ∃ label, i.operand = .target label := by
  obtain ⟨opcode, operand, labels⟩ := i
  cases opcode with
  | branch condition short =>
    cases operand with
    | target label => exact ⟨label, rfl⟩
    | _ => cases hv
  | _ => cases hc

theorem Opcode.passes_of_isConditionalBranch {op : Opcode} (h : op.isConditionalBranch = true) :
    op.passes = true := by
  cases op with
  | branch condition short => rfl
  | _ => cases h

theorem Opcode.accepts_target {op : Opcode} (h : op.isConditionalBranch = true) (label : Label) :
    op.accepts (.target label) = true := by
  cases op with
  | branch condition short => rfl
  | _ => cases h

namespace Code

variable {code : Code} {p q : Nat}

theorem follows_jump_iff {short : Bool} (hi : code[p]? = some (.jump short label)) :
    code.Follows p q ↔ code.positionOf? label = some q := by
  rw [Follows, falls_iff hi, jumps_iff_of_target hi rfl]
  simp [Instruction.jump, Opcode.passes, Opcode.flow]

end Code

namespace Session

open Edit

variable {s s' : Session} {b : Nat}

def NextBranch (s : Session) (position : Nat) (i : Instruction) : Prop :=
  s.code[position]? = some i ∧
    IsLeast {p | s.cursor ≤ p ∧ ∃ j, s.code[p]? = some j ∧ j.opcode.isBranch = true} position

theorem NextBranch.unique {c : Nat} {j : Instruction} (h : s.NextBranch b i)
    (h' : s.NextBranch c j) : b = c ∧ i = j := by
  obtain rfl := h.2.unique h'.2
  exact ⟨rfl, Option.some.inj (h.1.symm.trans h'.1)⟩

theorem isBranch_current_iff {p : Nat} :
    (s.withCursor p).current.opcode.isBranch = true ↔
      ∃ j, s.code[p]? = some j ∧ j.opcode.isBranch = true := by
  rw [current, List.getD_eq_getElem?_getD]
  change ((s.code[p]?).getD .nop).opcode.isBranch = true ↔ _
  cases s.code[p]? with
  | none => simp [Instruction.nop, Opcode.nop, Opcode.isBranch, Opcode.flow]
  | some j => simp

theorem branches_behind (h : ¬s.current.opcode.isBranch = true) :
    {p | s.cursor ≤ p ∧ ∃ j, s.code[p]? = some j ∧ j.opcode.isBranch = true} =
      {p | s.cursor < p ∧ p < s.length ∧ (s.withCursor p).current.opcode.isBranch = true} := by
  ext p
  simp only [Set.mem_ofPred_eq, isBranch_current_iff]
  constructor
  · rintro ⟨hle, j, hj, hbranch⟩
    have hne : s.cursor ≠ p := by
      rintro rfl
      exact h ((@isBranch_current_iff s s.cursor).2 ⟨j, hj, hbranch⟩)
    exact ⟨Nat.lt_of_le_of_ne hle hne, (List.getElem?_eq_some_iff.1 hj).1, j, hj, hbranch⟩
  · rintro ⟨hlt, _, hbranch⟩
    exact ⟨Nat.le_of_lt hlt, hbranch⟩

/-- The cursor goes to the next branch, and stays if there is none. -/
theorem nextConditionalBranch_cases (s : Session) :
    (∃ b i, s.NextBranch b i ∧ nextConditionalBranch s =
      (if i.opcode.isConditionalBranch then .ok () else .error (.unexpectedBranch b i.opcode),
        s.withCursor b)) ∨
    (∀ b i, ¬s.NextBranch b i) ∧
      nextConditionalBranch s = (.error (.navigationExhausted s.cursor .codeEnd), s) := by
  by_cases hhere : s.current.opcode.isBranch = true
  · obtain ⟨i, hi, hbranch⟩ := (@isBranch_current_iff s s.cursor).1 hhere
    refine .inl ⟨s.cursor, i, ⟨hi, ⟨Nat.le_refl _, i, hi, hbranch⟩, fun p hp => hp.1⟩, ?_⟩
    have hcurrent := current_eq hi
    cases hc : i.opcode.isConditionalBranch with
    | true => simp [nextConditionalBranch, hcurrent, hbranch, hc, withCursor]
    | false => simp [nextConditionalBranch, hcurrent, hbranch, hc, withCursor]
  · have hbehind := branches_behind hhere
    obtain ⟨b, hleast, hseek⟩ | ⟨hnone, hseek⟩ := seek_outcome (·.current.opcode.isBranch) s
    · obtain ⟨i, hi, _⟩ := isBranch_current_iff.1 hleast.1.2.2
      refine .inl ⟨b, i, ⟨hi, hbehind ▸ hleast⟩, ?_⟩
      have hcurrent : (s.withCursor b).current = i := current_eq hi
      have hcursor : (s.withCursor b).cursor = b := rfl
      cases hc : i.opcode.isConditionalBranch with
      | true => simp [nextConditionalBranch, hhere, hseek, hcurrent, hc]
      | false => simp [nextConditionalBranch, hhere, hseek, hcurrent, hcursor, hc]
    · refine .inr ⟨fun b i hb => ?_, by simp [nextConditionalBranch, hhere, hseek]⟩
      obtain ⟨hlt, hin, hbranch⟩ := hbehind ▸ hb.2.1
      rw [hnone b hlt hin] at hbranch
      cases hbranch

theorem nextConditionalBranch_of_nextBranch (h : s.NextBranch b i) :
    nextConditionalBranch s =
      (if i.opcode.isConditionalBranch then .ok () else .error (.unexpectedBranch b i.opcode),
        s.withCursor b) := by
  obtain ⟨c, j, hnext, hrun⟩ | ⟨hnone, _⟩ := nextConditionalBranch_cases s
  · obtain ⟨rfl, rfl⟩ := h.unique hnext
    exact hrun
  · exact absurd h (hnone b i)

theorem nextConditionalBranch_editing (h : s.NextBranch b i)
    (hc : i.opcode.isConditionalBranch = true) :
    nextConditionalBranch { s with editing := true } =
      (.ok (), { s with editing := true, cursor := b }) := by
  rw [@nextConditionalBranch_of_nextBranch i { s with editing := true } b h, if_pos hc]
  rfl

/-- The branch at `b` always leads to its label: it still tests, and then a jump to the same label
follows. The other instructions have made room for the jump and taken their labels along. -/
structure AlwaysJumps (b : Nat) (i : Instruction) (s s' : Session) : Prop where
  branch : ∃ label, i.operand = .target label ∧
    s'.code = s.code.splice (b + 1)
      [.jump (i.opcode.isShortBranch && s.settings.shortBranches) label] ∧
    (∀ q, s'.code.Takes true b q ↔ s'.code.positionOf? label = some q) ∧
    (∀ q, s'.code.Takes false b q ↔ q = b + 1) ∧
    ∀ q, s'.code.Follows (b + 1) q ↔ s'.code.positionOf? label = some q
  kept : ∀ p, s'.code[Code.shifted (b + 1) 1 p]? = s.code[p]?
  labels : ∀ label, s'.code.positionOf? label =
    (s.code.positionOf? label).map (Code.shifted (b + 1) 1)
  cursor : s'.cursor = b + 1

/-- The branch at `b` leads to the instruction behind it in any case, because its label stands there
now. Nothing else is different: at most this label was placed for it. -/
structure NeverJumps (b : Nat) (i : Instruction) (s s' : Session) : Prop where
  length : s'.length = s.length
  branch : ∃ label, s'.code[b]? = some { i with operand := .target label } ∧
    s'.code.positionOf? label = some (b + 1) ∧
    ∀ other p, s'.code.Stands other p ↔ s.code.Stands other p ∨ other = label ∧ p = b + 1
  takes : ∀ jump q, s'.code.Takes jump b q ↔ q = b + 1
  others : ∀ p j, p ≠ b → s.code[p]? = some j →
    ∃ k, s'.code[p]? = some k ∧ k.opcode = j.opcode ∧ k.operand = j.operand
  labels : ∀ label p, s.code.positionOf? label = some p → s'.code.positionOf? label = some p
  cursor : s'.cursor = b

theorem takes_false_iff {code : Code} (hi : code[b]? = some i)
    (hc : i.opcode.isConditionalBranch = true) (hb : b + 1 < code.length) {q : Nat} :
    code.Takes false b q ↔ q = b + 1 :=
  Code.takes_iff_of_passes hi ⟨Opcode.passes_of_isConditionalBranch hc, by simp [hc]⟩ hb

theorem alwaysJumps_splice (hs : s.Sound) (hi : s.code[b]? = some i)
    (hc : i.opcode.isConditionalBranch = true) (ho : i.operand = .target label)
    (hcode : s'.code = s.code.splice (b + 1)
      [.jump (i.opcode.isShortBranch && s.settings.shortBranches) label])
    (hcursor : s'.cursor = b + 1) : AlwaysJumps b i s s' := by
  have hb : b + 1 ≤ s.code.length := (List.getElem?_eq_some_iff.1 hi).1
  have hkept (p : Nat) : s'.code[Code.shifted (b + 1) 1 p]? = s.code[p]? := by
    rw [hcode]
    exact Code.getElem?_splice_shifted hb [_] p
  have hi' : s'.code[b]? = some i := by
    rw [← hi, ← hkept b, Code.shifted, if_pos (Nat.lt_succ_self b)]
  have hjump : s'.code[b + 1]? =
      some (.jump (i.opcode.isShortBranch && s.settings.shortBranches) label) := by
    rw [hcode]
    exact Code.getElem?_splice_block hb (n := 0) (by simp)
  have hlen : b + 1 < s'.code.length := (List.getElem?_eq_some_iff.1 hjump).1
  refine ⟨⟨label, ho, hcode, fun q => Code.takes_true_iff hi' hc ho,
    fun q => takes_false_iff hi' hc hlen, fun q => Code.follows_jump_iff hjump⟩, hkept, ?_, hcursor⟩
  rw [hcode]
  exact (Code.relabelled_splice hb (by simp [Instruction.jump])).positionOf?_eq hs.synced.separate

theorem jumpAlways_of_nextBranch (hs : s.Sound) (hb : s.NextBranch b i)
    (hc : i.opcode.isConditionalBranch = true) :
    ∃ s', jumpAlways s = (.ok (), s') ∧ AlwaysJumps b i s s' := by
  have hmem := List.mem_of_getElem? hb.1
  obtain ⟨label, ho⟩ := i.exists_target (hs.synced.valid i hmem) hc
  let t : Session := { s with editing := true, cursor := b }
  have hnext : nextConditionalBranch { s with editing := true } = (.ok (), t) :=
    nextConditionalBranch_editing hb hc
  have hcurrent : t.current = i := current_eq hb.1
  have htarget : targetLabel t = (.ok label, t) := by simp [targetLabel, hcurrent, ho]
  have hin : t.cursor < t.length := (List.getElem?_eq_some_iff.1 hb.1).1
  let jump := Instruction.jump (i.opcode.isShortBranch && s.settings.shortBranches) label
  have hinsert : insertAfter jump t = (.ok ⟨⟩, t.inserted (b + 1) jump) :=
    insertAfter_unlabelled hin rfl rfl
  have hsettings : t.settings = s.settings := rfl
  refine ⟨{ t.inserted (b + 1) jump with editing := false }, ?_,
    alwaysJumps_splice hs hb.1 hc ho rfl rfl⟩
  simp [jumpAlways, transaction, hs.resting, hnext, htarget, hcurrent, hsettings, jump, hinsert]

/-- A label stands at the position, or a new one can be placed there. -/
def Labellable (s : Session) (position : Nat) : Prop :=
  (∃ label, s.code.Stands label position) ∨ s.symbols.status s.symbols.source.next = none

theorem labelAt_labellable (hs : Synced s.code s.symbols) {position : Nat}
    (hp : position < s.length) (h : s.Labellable position) :
    ∃ label code symbols, s.code.attachLabel position label = .ok code ∧
      labelAt position none true s = (.ok label, { s with code, symbols }) := by
  obtain ⟨label, hl, hrun⟩ | ⟨hno, ⟨hknown, _⟩ | ⟨hnew, hrun⟩⟩ := labelAt_cases hs hp
  · have hpos := hs.separate.positionOf?_eq_some_iff.2 hl
    exact ⟨label, s.code, s.symbols, Code.attachLabel_eq_ok_iff.2 (.inl ⟨hpos, rfl⟩), hrun⟩
  · cases h with
    | inl h =>
      obtain ⟨label, hl⟩ := h
      exact absurd hl (hno label)
    | inr h => exact absurd h hknown
  · have hnone : s.code.positionOf? s.symbols.source.next = none := by
      rw [← Option.not_isSome_iff_eq_none, Code.positionOf?_isSome_iff, ← hs.attached_iff, hnew]
      nofun
    exact ⟨_, _, _, Code.attachLabel_eq_ok_iff.2 (.inr ⟨hnone, hp, rfl⟩), hrun⟩

theorem labelAt_not_labellable (hs : Synced s.code s.symbols) {position : Nat}
    (hp : position < s.length) (h : ¬s.Labellable position) :
    labelAt position none true s =
      (.error (.duplicateLabel s.symbols.source.next), { s with symbols := s.symbols.drawn }) := by
  obtain ⟨label, hl, _⟩ | ⟨_, ⟨_, hrun⟩ | ⟨hnew, _⟩⟩ := labelAt_cases hs hp
  · exact absurd (.inl ⟨label, hl⟩) h
  · exact hrun
  · exact absurd (.inr hnew) h

theorem neverJumps_set (hs : s.Sound) (hi : s.code[b]? = some i)
    (hc : i.opcode.isConditionalBranch = true) {code : Code}
    (ha : s.code.attachLabel (b + 1) label = .ok code) (hlen : b + 1 < s.length)
    (hcode : s'.code = code.set b { i with operand := .target label })
    (hcursor : s'.cursor = b) : NeverJumps b i s s' := by
  have hold : code[b]? = some i := by
    rw [Code.getElem?_attachLabel_of_ne ha (Nat.ne_of_lt (Nat.lt_succ_self b)), hi]
  have hlen' : s'.code.length = s.code.length := by
    rw [hcode, List.length_set, Code.length_attachLabel ha]
  have hbranch : s'.code[b]? = some { i with operand := .target label } := by
    rw [hcode, List.getElem?_set_self (List.getElem?_eq_some_iff.1 hold).1]
  have hrel : Code.Relabelled id [label] (b + 1) s.code s'.code := by
    rw [hcode]
    exact (Code.relabelled_attachLabel ha).trans (Code.relabelled_set hold rfl)
  have hseparate : s'.code.Separate := by
    refine hrel.separate hs.synced.separate fun other ho p hp => ?_
    cases List.mem_singleton.1 ho
    exact Code.eq_of_attachLabel hs.synced.separate ha hp
  have hstands (other : Label) (p : Nat) :
      s'.code.Stands other p ↔ s.code.Stands other p ∨ other = label ∧ p = b + 1 := by
    simpa using hrel other p
  have htarget : s'.code.positionOf? label = some (b + 1) :=
    hseparate.positionOf?_eq_some_iff.2 ((hstands label _).2 (.inr ⟨rfl, rfl⟩))
  refine ⟨hlen', ⟨label, hbranch, htarget, hstands⟩, fun jump q => ?_, fun p j hp hj => ?_,
    fun other p hp => ?_, hcursor⟩
  · cases jump with
    | true => rw [Code.takes_true_iff hbranch hc rfl, htarget, Option.some.injEq, eq_comm]
    | false => exact takes_false_iff hbranch hc (hlen' ▸ hlen)
  · -- up to its labels the instruction is the old one
    have hbare : s'.code.bare[p]? = s.code.bare[p]? := by
      rw [hcode, Code.bare_set, List.getElem?_set_ne (Ne.symm hp), Code.bare_attachLabel ha]
    rw [Code.getElem?_bare, Code.getElem?_bare, hj] at hbare
    obtain ⟨k, hk, heq⟩ := Option.map_eq_some_iff.1 hbare
    exact ⟨k, hk, Instruction.bare_eq_iff.1 heq⟩
  · rw [hseparate.positionOf?_eq_some_iff, hstands]
    exact .inl (Code.stands_of_positionOf? hp)

/-- The branch is the last instruction, or there is no label for the instruction behind it, or the
branch goes there now. -/
theorem jumpNever_of_nextBranch (hs : s.Sound) (hb : s.NextBranch b i)
    (hc : i.opcode.isConditionalBranch = true) :
    (b + 1 = s.length ∧
      (jumpNever s).1 = .error (.invalidCurrentInstruction b .followedBranch i)) ∨
    b + 1 < s.length ∧ (
      (¬s.Labellable (b + 1) ∧
        (jumpNever s).1 = .error (.duplicateLabel s.symbols.source.next)) ∨
      s.Labellable (b + 1) ∧ ∃ s', jumpNever s = (.ok (), s') ∧ NeverJumps b i s s') := by
  let t : Session := { s with editing := true, cursor := b }
  have hnext : nextConditionalBranch { s with editing := true } = (.ok (), t) :=
    nextConditionalBranch_editing hb hc
  have hcurrent : t.current = i := current_eq hb.1
  have hcursor : t.cursor = b := rfl
  have hin : b < s.length := (List.getElem?_eq_some_iff.1 hb.1).1
  by_cases hlast : b + 1 = s.length
  · have hisLast : t.isLast = true := beq_iff_eq.2 hlast
    refine .inl ⟨hlast, ?_⟩
    simp [jumpNever, transaction, hs.resting, hnext, hisLast, invalidCurrent, hcurrent, hcursor]
  · have hisLast : t.isLast = false := beq_eq_false_iff_ne.2 hlast
    have hbehind : b + 1 < t.length := Nat.lt_of_le_of_ne hin hlast
    refine .inr ⟨hbehind, ?_⟩
    by_cases hl : t.Labellable (b + 1)
    · obtain ⟨label, code, symbols, ha, hrun⟩ := @labelAt_labellable t hs.synced _ hbehind hl
      have hold : code[b]? = some i := by
        rw [Code.getElem?_attachLabel_of_ne ha (Nat.ne_of_lt (Nat.lt_succ_self b)), ← hb.1]
      let u : Session := { t with code, symbols }
      have hlabel : labelAt (b + 1) none true t = (.ok label, u) := hrun
      let v : Session :=
        { u with
          code := code.set b { i with operand := .target label }
          symbols := symbols.registerLabels [label] false }
      have hrewrite : rewrite i.opcode (.target label) u = (.ok ⟨⟩, v) :=
        rewrite_accepted hold (Opcode.accepts_target hc label)
      refine .inr ⟨hl, { v with editing := false }, ?_,
        neverJumps_set hs hb.1 hc ha hbehind rfl rfl⟩
      simp [jumpNever, transaction, hs.resting, hnext, hisLast, hcursor, hlabel, hcurrent, hrewrite]
    · have hrun := @labelAt_not_labellable t hs.synced _ hbehind hl
      have hsource : t.symbols.source = s.symbols.source := rfl
      refine .inl ⟨hl, ?_⟩
      simp [jumpNever, transaction, hs.resting, hnext, hisLast, hcursor, hrun, hsource]

section

variable {rest : Unit → Edit Session Unit}

theorem refused_without_branch (hs : s.Sound) (h : ∀ b i, ¬s.NextBranch b i) :
    (transaction (nextConditionalBranch >>= rest) s).1 =
      .error (.navigationExhausted s.cursor .codeEnd) := by
  obtain ⟨b, i, hnext, _⟩ | ⟨_, hrun⟩ :=
    nextConditionalBranch_cases { s with editing := true }
  · exact absurd hnext (h b i)
  · exact transaction_error hs.resting (by rw [run_bind, hrun])

theorem refused_at_other_branch (hs : s.Sound) (h : s.NextBranch b i)
    (hc : i.opcode.isConditionalBranch = false) :
    (transaction (nextConditionalBranch >>= rest) s).1 =
      .error (.unexpectedBranch b i.opcode) := by
  have hrun := @nextConditionalBranch_of_nextBranch i { s with editing := true } b h
  rw [hc, if_neg nofun] at hrun
  exact transaction_error hs.resting (by rw [run_bind, hrun])

theorem nextBranch_of_ok (hs : s.Sound)
    (h : transaction (nextConditionalBranch >>= rest) s = (.ok (), s')) :
    ∃ b i, s.NextBranch b i ∧ i.opcode.isConditionalBranch = true := by
  by_cases hex : ∃ b i, s.NextBranch b i
  · obtain ⟨b, i, hb⟩ := hex
    cases hc : i.opcode.isConditionalBranch with
    | true => exact ⟨b, i, hb, hc⟩
    | false =>
      have herror := @refused_at_other_branch i s b rest hs hb hc
      rw [h] at herror
      cases herror
  · have herror := @refused_without_branch s rest hs fun b i hb => hex ⟨b, i, hb⟩
    rw [h] at herror
    cases herror

end

theorem jumpAlways_of_ok (hs : s.Sound) (h : jumpAlways s = (.ok (), s')) :
    ∃ b i, s.NextBranch b i ∧ i.opcode.isConditionalBranch = true ∧ AlwaysJumps b i s s' := by
  obtain ⟨b, i, hb, hc⟩ := nextBranch_of_ok hs h
  obtain ⟨_, hrun, hdecided⟩ := jumpAlways_of_nextBranch hs hb hc
  cases hrun.symm.trans h
  exact ⟨b, i, hb, hc, hdecided⟩

theorem jumpNever_of_ok (hs : s.Sound) (h : jumpNever s = (.ok (), s')) :
    ∃ b i, s.NextBranch b i ∧ i.opcode.isConditionalBranch = true ∧ b + 1 < s.length ∧
      s.Labellable (b + 1) ∧ NeverJumps b i s s' := by
  obtain ⟨b, i, hb, hc⟩ := nextBranch_of_ok hs h
  obtain ⟨_, herror⟩ | ⟨hin, ⟨_, herror⟩ | ⟨hl, _, hrun, hdecided⟩⟩ :=
    jumpNever_of_nextBranch hs hb hc
  · rw [h] at herror
    cases herror
  · rw [h] at herror
    cases herror
  · cases hrun.symm.trans h
    exact ⟨b, i, hb, hc, hin, hl, hdecided⟩

/-- The next branch can be made to jump always if and only if it is a two-way branch. It can be made
to jump never if moreover an instruction follows it and there is a label for that one. Each edit
changes this one decision. -/
theorem next_branch_decided (h : s.Reachable) :
    ((∃ s', jumpAlways s = (.ok (), s')) ↔
      ∃ b i, s.NextBranch b i ∧ i.opcode.isConditionalBranch = true) ∧
    (∀ s', jumpAlways s = (.ok (), s') → ∃ b i, s.NextBranch b i ∧ AlwaysJumps b i s s') ∧
    ((∃ s', jumpNever s = (.ok (), s')) ↔
      ∃ b i, s.NextBranch b i ∧ i.opcode.isConditionalBranch = true ∧ b + 1 < s.length ∧
        s.Labellable (b + 1)) ∧
    (∀ s', jumpNever s = (.ok (), s') → ∃ b i, s.NextBranch b i ∧ NeverJumps b i s s') ∧
    ((∀ b i, ¬s.NextBranch b i) →
      (jumpAlways s).1 = .error (.navigationExhausted s.cursor .codeEnd) ∧
      (jumpNever s).1 = .error (.navigationExhausted s.cursor .codeEnd)) ∧
    ∀ b i, s.NextBranch b i →
      (i.opcode.isConditionalBranch = false →
        (jumpAlways s).1 = .error (.unexpectedBranch b i.opcode) ∧
        (jumpNever s).1 = .error (.unexpectedBranch b i.opcode)) ∧
      (i.opcode.isConditionalBranch = true → b + 1 = s.length →
        (jumpNever s).1 = .error (.invalidCurrentInstruction b .followedBranch i)) ∧
      (i.opcode.isConditionalBranch = true → b + 1 < s.length → ¬s.Labellable (b + 1) →
        (jumpNever s).1 = .error (.duplicateLabel s.symbols.source.next)) := by
  have hs := h.sound
  refine ⟨⟨?_, ?_⟩, ?_, ⟨?_, ?_⟩, ?_, ?_, fun b i hb => ⟨?_, ?_, ?_⟩⟩
  · rintro ⟨s', hrun⟩
    exact nextBranch_of_ok hs hrun
  · rintro ⟨b, i, hb, hc⟩
    obtain ⟨s', hrun, _⟩ := jumpAlways_of_nextBranch hs hb hc
    exact ⟨s', hrun⟩
  · intro s' hrun
    obtain ⟨b, i, hb, _, hdecided⟩ := jumpAlways_of_ok hs hrun
    exact ⟨b, i, hb, hdecided⟩
  · rintro ⟨s', hrun⟩
    obtain ⟨b, i, hb, hc, hin, hl, _⟩ := jumpNever_of_ok hs hrun
    exact ⟨b, i, hb, hc, hin, hl⟩
  · rintro ⟨b, i, hb, hc, hin, hl⟩
    obtain ⟨hlast, _⟩ | ⟨_, ⟨hno, _⟩ | ⟨_, s', hrun, _⟩⟩ := jumpNever_of_nextBranch hs hb hc
    · omega
    · exact absurd hl hno
    · exact ⟨s', hrun⟩
  · intro s' hrun
    obtain ⟨b, i, hb, _, _, _, hdecided⟩ := jumpNever_of_ok hs hrun
    exact ⟨b, i, hb, hdecided⟩
  · intro hnone
    exact ⟨refused_without_branch hs hnone, refused_without_branch hs hnone⟩
  · intro hc
    exact ⟨refused_at_other_branch hs hb hc, refused_at_other_branch hs hb hc⟩
  · intro hc hlast
    obtain ⟨_, herror⟩ | ⟨hin, _⟩ := jumpNever_of_nextBranch hs hb hc
    · exact herror
    · omega
  · intro hc hin hno
    obtain ⟨hlast, _⟩ | ⟨_, ⟨_, herror⟩ | ⟨hl, _⟩⟩ := jumpNever_of_nextBranch hs hb hc
    · omega
    · exact herror
    · exact absurd hl hno

def Sample.branching : Session :=
  (SessionCommand.runAll [.insertJump (Sample.method Sample.boolean) ⟨0⟩ false]
    ⟨{}, Sample.session⟩).session

theorem next_branch_decided_in_sample :
    (∃ s', jumpAlways Sample.branching = (.ok (), s') ∧
      AlwaysJumps 3 (.jumpIfTrue ⟨0⟩) Sample.branching s') ∧
    ∃ s', jumpNever Sample.branching = (.ok (), s') ∧
      NeverJumps 3 (.jumpIfTrue ⟨0⟩) Sample.branching s' := by
  have hnext : Sample.branching.NextBranch 3 (.jumpIfTrue ⟨0⟩) :=
    ⟨rfl, ⟨Nat.le_refl _, _, rfl, rfl⟩, fun p hp => hp.1⟩
  obtain ⟨halways, hjumps, hnever, hfalls, _⟩ :=
    next_branch_decided (Sample.reachable_session.runAll
      [.insertJump (Sample.method Sample.boolean) ⟨0⟩ false] {})
  obtain ⟨s₁, h₁⟩ := halways.2 ⟨3, _, hnext, rfl⟩
  obtain ⟨s₂, h₂⟩ := hnever.2 ⟨3, _, hnext, rfl, by decide, .inr rfl⟩
  obtain ⟨b, i, hb, hdecided⟩ := hjumps s₁ h₁
  obtain ⟨rfl, rfl⟩ := hnext.unique hb
  obtain ⟨c, j, hc, hdecided'⟩ := hfalls s₂ h₂
  obtain ⟨rfl, rfl⟩ := hnext.unique hc
  exact ⟨⟨s₁, h₁, hdecided⟩, s₂, h₂, hdecided'⟩

end Session

end MethodEdit
