import MethodEdit.Proofs.Injection.Block
import MethodEdit.Proofs.Injection.Rebinding

/-!
Edits at every match. The loop goes through code that grows under it, but it visits each original
instruction once and none of those that it puts in. So the new code is the old one with a piece of
code in place of each match, and as the same parameters are bound to the same loads at each of them,
the pieces are all made of one block.
-/
namespace MethodEdit

open Edit

/-- The labels stand at the first instruction of the block. Those of an instruction that stands
alone are taken as they are, and otherwise a label that was written twice is written once. -/
def Code.handOver (labels : List Label) : Code → Code
  | [] => []
  | [only] => [{ only with labels }]
  | first :: rest => { first with labels := mergeLabels [] labels } :: rest

/-- What a bulk edit does: the instructions that it looks for, the procedure that it calls at each
of them, the parameters that it loads for the call, and whether the call takes the place of the
instruction. -/
structure Plan where
  holds : Instruction → Bool
  procedure : Method
  formals : List Parameter
  replaces : Bool

namespace Plan

variable (plan : Plan)

def block (loads : Code) : Code := loads ++ [.call plan.procedure]

def put (loads : Code) (i : Instruction) : Code :=
  if plan.replaces then Code.handOver i.labels (plan.block loads) else i :: plan.block loads

def edited (loads : Code) (i : Instruction) : Code := if plan.holds i then plan.put loads i else [i]

theorem put_ne_nil (loads : Code) (i : Instruction) : plan.put loads i ≠ [] := by
  unfold put block
  split
  · cases loads with
    | nil => nofun
    | cons first rest =>
      cases rest with
      | nil => nofun
      | cons => nofun
  · nofun

theorem allLabels_block {loads : Code} (h : ∀ i ∈ loads, i.allLabels = []) :
    ∀ i ∈ plan.block loads, i.allLabels = [] := by
  refine List.forall_mem_append.2 ⟨h, fun i hi => ?_⟩
  rw [List.mem_singleton.1 hi]
  rfl

/-- What became of an instruction by the time that the session is as given. -/
inductive Piece (s : Session) (i : Instruction) : Code → Prop where
  | kept (h : plan.holds i = false) : Piece s i [i]
  | put {loads : Code} (h : plan.holds i = true)
      (hb : List.Forall₂ (Session.Bound s) plan.formals loads)
      (hl : ∀ j ∈ plan.block loads, j.allLabels = []) : Piece s i (plan.put loads i)

end Plan

namespace Session

variable {s s' : Session} {plan : Plan}

/-- In the middle of a bulk edit: the cursor is at the end of what is done. -/
def visiting (s : Session) (symbols : Symbols) (done rest : Code) : Session :=
  { s with code := done ++ rest, symbols, cursor := done.length, editing := true }

section

variable (s : Session) (symbols : Symbols) (done rest : Code) (i : Instruction)

theorem current_visiting : (s.visiting symbols done (i :: rest)).current = i :=
  current_eq (by simp [visiting])

theorem cursor_visiting : (s.visiting symbols done rest).cursor = done.length := rfl

theorem inside_visiting :
    (s.visiting symbols done (i :: rest)).cursor <
      (s.visiting symbols done (i :: rest)).length := by
  simp [visiting, length]

theorem withCursor_visiting :
    (s.visiting symbols done (i :: rest)).withCursor (done.length + 1) =
      s.visiting symbols (done ++ [i]) rest := by
  simp [visiting, withCursor]

end

/-- The loads that the parameters are bound to at some instruction, and the table after that. -/
def Binds (s : Session) (plan : Plan) (before : Symbols) (loads : Code) (after : Symbols) : Prop :=
  ∃ done i rest, i.loadsSlot = false ∧ i.storesSlot = false ∧
    bindAll plan.procedure plan.formals (s.visiting before done (i :: rest)) =
      (.ok loads, s.visiting after done (i :: rest))

/-- The code that a bulk edit makes of the code that is left, and the tables before and after. -/
inductive Fills (s : Session) (plan : Plan) : Symbols → Code → Code → Symbols → Prop where
  | nil (symbols : Symbols) : Fills s plan symbols [] [] symbols
  | kept {before after : Symbols} {i : Instruction} {rest new : Code} (h : plan.holds i = false)
      (hrest : Fills s plan before rest new after) :
      Fills s plan before (i :: rest) (i :: new) after
  | site {before mid after : Symbols} {i : Instruction} {loads rest new : Code}
      (h : plan.holds i = true) (hbinds : s.Binds plan before loads mid)
      (hrest : Fills s plan mid rest new after) :
      Fills s plan before (i :: rest) (plan.put loads i ++ new) after

/-- At a match the edit does as the plan says. It ends on the last instruction that it puts in. -/
def Performs (s : Session) (plan : Plan) (edit : Edit Session Unit) : Prop :=
  ∀ symbols done i rest, plan.holds i = true →
    Yields edit (s.visiting symbols done (i :: rest)) fun _ t =>
      ∃ loads after piece last, s.Binds plan symbols loads after ∧
        plan.put loads i = piece ++ [last] ∧
        t = s.visiting after (done ++ piece) (last :: rest)

def Within (stop : Option Nat) (s : Session) : Prop := s.cursor < min (stop.getD s.length) s.length

theorem within_visiting (s : Session) (symbols : Symbols) (done rest : Code) (i : Instruction) :
    (s.visiting symbols done (i :: rest)).Within none := by
  simpa [Within] using inside_visiting s symbols done rest i

section

variable {stop : Option Nat} {holds : Instruction → Bool} {edit : Edit Session Unit}
  {symbols after : Symbols} {done done' rest : Code} {i last : Instruction}

theorem editMatches_outside {holds : Session → Bool} (h : ¬ s.Within stop) (left : Nat) :
    editMatches stop holds edit left s = (.ok 0, s) := by
  cases left with
  | zero => rfl
  | succ left =>
    rw [Within] at h
    simp only [editMatches, run_bind, run_get]
    rw [if_neg h]
    rfl

theorem editMatches_nil (left : Nat) :
    editMatches none (holds ·.current) edit left (s.visiting symbols done []) =
      (.ok 0, s.visiting symbols done []) :=
  editMatches_outside (by simp [Within, visiting, length]) left

theorem editMatches_kept (hin : (s.visiting symbols done (i :: rest)).Within stop)
    (h : holds i = false) (left : Nat) :
    editMatches stop (holds ·.current) edit (left + 1) (s.visiting symbols done (i :: rest)) =
      editMatches stop (holds ·.current) edit left (s.visiting symbols (done ++ [i]) rest) := by
  rw [Within] at hin
  simp only [editMatches, run_bind, run_get]
  rw [if_pos hin]
  simp only [run_bind, current_visiting, h, Bool.false_eq_true, if_false, run_modify,
    cursor_visiting, withCursor_visiting, Nat.zero_add, run_pure]
  cases editMatches stop (holds ·.current) edit left
      (s.visiting symbols (done ++ [i]) rest) with
  | mk result t => cases result <;> rfl

theorem editMatches_site (hin : (s.visiting symbols done (i :: rest)).Within stop)
    (h : holds i = true)
    (he : edit (s.visiting symbols done (i :: rest)) =
      (.ok (), s.visiting after done' (last :: rest)))
    (left : Nat) :
    editMatches stop (holds ·.current) edit (left + 1) (s.visiting symbols done (i :: rest)) =
      (do return 1 + (← editMatches stop (holds ·.current) edit left))
        (s.visiting after (done' ++ [last]) rest) := by
  rw [Within] at hin
  simp only [editMatches, run_bind, run_get]
  rw [if_pos hin]
  simp only [run_bind, current_visiting, h, if_true, he, run_modify, cursor_visiting,
    withCursor_visiting]

theorem editMatches_error (hin : (s.visiting symbols done (i :: rest)).Within stop)
    (h : holds i = true) {e : EditError} {t : Session}
    (he : edit (s.visiting symbols done (i :: rest)) = (.error e, t)) (left : Nat) :
    editMatches stop (holds ·.current) edit (left + 1) (s.visiting symbols done (i :: rest)) =
      (.error e, t) := by
  rw [Within] at hin
  simp only [editMatches, run_bind, run_get]
  rw [if_pos hin]
  simp only [run_bind, current_visiting, h, if_true, he]

/-- Each round visits one instruction of the original code, so there are no more rounds than
instructions. -/
theorem editMatches_rounds (hp : s.Performs plan edit) {left : Nat} (h : rest.length ≤ left) :
    editMatches none (plan.holds ·.current) edit left (s.visiting symbols done rest) =
      editMatches none (plan.holds ·.current) edit rest.length (s.visiting symbols done rest) := by
  induction rest generalizing left done symbols with
  | nil => rw [editMatches_nil, editMatches_nil]
  | cons i rest ih =>
    obtain ⟨left, rfl⟩ : ∃ n, left = n + 1 := ⟨left - 1, by simp at h; omega⟩
    have hleft : rest.length ≤ left := Nat.le_of_succ_le_succ h
    have hin := within_visiting s symbols done rest i
    rw [List.length_cons]
    cases hh : plan.holds i with
    | false => rw [editMatches_kept hin hh, editMatches_kept hin hh, ih hleft]
    | true =>
      cases he : edit (s.visiting symbols done (i :: rest)) with
      | mk result t =>
        cases result with
        | error e => rw [editMatches_error hin hh he, editMatches_error hin hh he]
        | ok _ =>
          obtain ⟨_, _, _, _, _, _, rfl⟩ := hp symbols done i rest hh _ _ he
          rw [editMatches_site hin hh he, editMatches_site hin hh he, run_bind, run_bind, ih hleft]

theorem editMatches_fills (hp : s.Performs plan edit) :
    Yields (editMatches none (plan.holds ·.current) edit rest.length) (s.visiting symbols done rest)
      fun count t => ∃ new after, s.Fills plan symbols rest new after ∧
        t = s.visiting after (done ++ new) [] ∧ count = rest.countP plan.holds := by
  induction rest generalizing done symbols with
  | nil =>
    exact .of_ok (editMatches_nil 0) ⟨[], symbols, .nil symbols, by simp, rfl⟩
  | cons i rest ih =>
    have hin := within_visiting s symbols done rest i
    rw [List.length_cons]
    cases hh : plan.holds i with
    | false =>
      intro count t ht
      rw [editMatches_kept hin hh] at ht
      obtain ⟨new, after, hfills, rfl, rfl⟩ := ih count t ht
      exact ⟨i :: new, after, .kept hh hfills, by simp, by simp [hh]⟩
    | true =>
      intro count t ht
      cases he : edit (s.visiting symbols done (i :: rest)) with
      | mk result u =>
        cases result with
        | error e =>
          rw [editMatches_error hin hh he] at ht
          cases ht
        | ok _ =>
          obtain ⟨loads, mid, piece, last, hbinds, hput, rfl⟩ := hp symbols done i rest hh _ _ he
          rw [editMatches_site hin hh he] at ht
          obtain ⟨more, v, hmore, hpure⟩ := run_bind_eq_ok_iff.1 ht
          cases hpure
          obtain ⟨new, after, hfills, rfl, rfl⟩ := ih more _ hmore
          exact ⟨_, after, .site hh hbinds hfills, by simp [hput], by simp [hh, Nat.add_comm]⟩

theorem editMatches_idle (h : ∀ i ∈ rest, plan.holds i = false) :
    editMatches none (plan.holds ·.current) edit rest.length (s.visiting symbols done rest) =
      (.ok 0, s.visiting symbols (done ++ rest) []) := by
  induction rest generalizing done with
  | nil => rw [editMatches_nil, List.append_nil]
  | cons i rest ih =>
    obtain ⟨hi, hrest⟩ := List.forall_mem_cons.1 h
    have hin := within_visiting s symbols done rest i
    rw [List.length_cons, editMatches_kept hin hi, ih hrest, List.append_assoc]
    rfl

end

section

variable {before after : Symbols} {loads code new : Code}

theorem Binds.reslots (h : s.Binds plan before loads after) : before.Reslots after := by
  obtain ⟨done, i, rest, _, _, hrun⟩ := h
  obtain ⟨symbols, hr, heq⟩ :=
    slots_bindAll plan.procedure plan.formals (s.visiting before done (i :: rest))
  rw [hrun] at heq
  cases congrArg Session.symbols heq
  exact hr

theorem Binds.bound (h : s.Binds plan before loads after) (hm : s'.method = s.method)
    (hg : after.Grows s'.symbols) : List.Forall₂ (Bound s') plan.formals loads := by
  obtain ⟨done, i, rest, _, _, hrun⟩ := h
  exact (bindAll_bound _ _ _ _ _ hrun).imp fun _ _ hb => hb.mono hm hg

theorem Binds.allLabels (h : s.Binds plan before loads after) :
    ∀ i ∈ loads, i.allLabels = [] := by
  obtain ⟨_, _, _, _, _, hrun⟩ := h
  exact allLabels_of_bound (bindAll_bound _ _ _ _ _ hrun)

namespace Fills

theorem reslots (h : s.Fills plan before code new after) : before.Reslots after := by
  induction h with
  | nil symbols => exact refl_of Symbols.Reslots symbols
  | kept _ _ ih => exact ih
  | site _ hbinds _ ih => exact trans_of Symbols.Reslots hbinds.reslots ih

theorem length_le (h : s.Fills plan before code new after) : code.length ≤ new.length := by
  induction h with
  | nil => exact Nat.le_refl _
  | kept _ _ ih => exact Nat.succ_le_succ ih
  | @site _ _ _ i loads rest new _ _ _ ih =>
    have hpos := List.length_pos_iff.2 (plan.put_ne_nil loads i)
    rw [List.length_cons, List.length_append]
    omega

theorem pieces (h : s.Fills plan before code new after) (hm : s'.method = s.method)
    (hg : after.Grows s'.symbols) :
    ∃ pieces, List.Forall₂ (plan.Piece s') code pieces ∧ new = pieces.flatten := by
  induction h with
  | nil => exact ⟨[], .nil, rfl⟩
  | kept hi _ ih =>
    obtain ⟨pieces, hall, rfl⟩ := ih hg
    exact ⟨_, .cons (.kept hi) hall, rfl⟩
  | site hi hbinds hrest ih =>
    obtain ⟨pieces, hall, rfl⟩ := ih hg
    have hlater := hrest.reslots.1.toGrows.trans hg
    have hfree := plan.allLabels_block hbinds.allLabels
    exact ⟨_, .cons (.put hi (hbinds.bound hm hlater) hfree) hall, rfl⟩

theorem settled (h : s.Fills plan before code new after)
    (hsame : ∀ done i rest, bindAll plan.procedure plan.formals
      (s.visiting before done (i :: rest)) = (.ok loads, s.visiting before done (i :: rest))) :
    new = code.flatMap (plan.edited loads) := by
  induction h with
  | nil => rfl
  | @kept _ _ i _ _ hi _ ih =>
    rw [List.flatMap_cons, ih hsame, Plan.edited, hi, if_neg Bool.false_ne_true]
    rfl
  | @site before mid _ i loads' _ _ hi hbinds _ ih =>
    obtain ⟨done, j, rest, _, _, hrun⟩ := hbinds
    obtain ⟨hloads, hvisit⟩ := Prod.mk.inj (hrun.symm.trans (hsame done j rest))
    cases hloads
    have hmid : mid = before := congrArg Session.symbols hvisit
    subst hmid
    rw [List.flatMap_cons, ih hsame, Plan.edited, if_pos hi]

/-- The first match settles the loads for all of them. -/
theorem uniform (h : s.Fills plan before code new after) (hn : before.Numbers after)
    (hex : ∃ i ∈ code, plan.holds i = true) :
    ∃ loads first mid, s.Binds plan first loads mid ∧ mid.Reslots after ∧
      new = code.flatMap (plan.edited loads) := by
  induction h with
  | nil => simp at hex
  | @kept _ _ i _ _ hi _ ih =>
    obtain ⟨loads, first, mid, hbinds, hlater, rfl⟩ := ih hn (by simpa [hi] using hex)
    refine ⟨loads, first, mid, hbinds, hlater, ?_⟩
    rw [List.flatMap_cons, Plan.edited, hi, if_neg Bool.false_ne_true]
    rfl
  | @site before mid _ i loads _ _ hi hbinds hrest ih =>
    obtain ⟨hn₁, _⟩ := hn.split hbinds.reslots.1.slots_length_le hrest.reslots.1.slots_length_le
    refine ⟨loads, before, mid, hbinds, hrest.reslots, ?_⟩
    have hsame : ∀ done j rest, bindAll plan.procedure plan.formals
        (s.visiting mid done (j :: rest)) = (.ok loads, s.visiting mid done (j :: rest)) := by
      obtain ⟨done', k, rest', hloads, hstores, hrun⟩ := hbinds
      have hcurrent := current_visiting s before done' rest' k
      have hoff : (s.visiting before done' (k :: rest')).OffSlots := by
        rw [OffSlots, hcurrent]
        exact ⟨hloads, hstores⟩
      intro done j rest
      exact (bindAll_again hrun hn₁ hoff).2 _ rfl rfl (List.prefix_refl _)
    rw [List.flatMap_cons, hrest.settled hsame, Plan.edited, if_pos hi]

end Fills

end

section

variable {edit : Edit Session Unit}

theorem Sound.clamp_cursor (hs : s.Sound) (h : s.length ≤ s'.length) :
    s'.clamp s.cursor = s.cursor := by
  have hin := hs.inside
  unfold clamp
  omega

theorem editAll_eq (start stop : Option Nat) {holds : Session → Bool} (hs : s.editing = false) :
    editAll start stop holds edit s =
      match editMatches stop holds edit (s.length - start.getD 0)
        ({ s with editing := true }.withCursor (start.getD 0)) with
      | (.ok count, t) => (.ok count, { t.withCursor (t.clamp s.cursor) with editing := false })
      | (.error e, t) => (.error e, s.takenBack t) := by
  have hlength : { s with editing := true }.length = s.length := rfl
  simp only [editAll, transaction, hs, Bool.false_eq_true, if_false, run_bind, run_get, run_set,
    hlength, run_modify, run_pure]
  cases editMatches stop holds edit (s.length - start.getD 0)
      ({ s with editing := true }.withCursor (start.getD 0)) with
  | mk result t =>
    cases result with
    | error e => rfl
    | ok count => rfl

theorem editAll_whole_eq {holds : Session → Bool} (hs : s.editing = false) :
    editAll none none holds edit s =
      match editMatches none holds edit s.length (s.visiting s.symbols [] s.code) with
      | (.ok count, t) => (.ok count, { t.withCursor (t.clamp s.cursor) with editing := false })
      | (.error e, t) => (.error e, s.takenBack t) := editAll_eq none none hs

theorem editAll_idle (hs : s.Sound) (h : ∀ i ∈ s.code, plan.holds i = false) :
    editAll none none (plan.holds ·.current) edit s = (.ok 0, s) := by
  have hloop : editMatches none (plan.holds ·.current) edit s.code.length
      (s.visiting s.symbols [] s.code) = (.ok 0, s.visiting s.symbols s.code []) :=
    editMatches_idle h
  have hstays : (s.visiting s.symbols s.code []).clamp s.cursor = s.cursor :=
    hs.clamp_cursor (by simp [visiting, length])
  rw [editAll_whole_eq hs.resting, length, hloop]
  simp only [hstays]
  simp [visiting, withCursor, ← hs.resting]

theorem editAll_yields (hs : s.Sound) (hp : s.Performs plan edit) :
    Yields (editAll none none (plan.holds ·.current) edit) s fun count s' =>
      ∃ new after, s.Fills plan s.symbols s.code new after ∧
        s' = { s with code := new, symbols := after } ∧ count = s.code.countP plan.holds := by
  intro count s' hrun
  rw [editAll_whole_eq hs.resting] at hrun
  cases hloop : editMatches none (plan.holds ·.current) edit s.length
      (s.visiting s.symbols [] s.code) with
  | mk result t =>
    rw [hloop] at hrun
    cases result with
    | error e => cases hrun
    | ok found =>
      cases hrun
      obtain ⟨new, after, hfills, rfl, rfl⟩ := editMatches_fills hp _ _ hloop
      have hstays : (s.visiting after new []).clamp s.cursor = s.cursor :=
        hs.clamp_cursor (by simpa [visiting, length] using hfills.length_le)
      refine ⟨new, after, hfills, ?_, rfl⟩
      simp only [List.nil_append, hstays]
      simp [visiting, withCursor, ← hs.resting]

end

end Session

end MethodEdit
