import Mathlib.Order.Bounds.Basic
import MethodEdit.Session.Search

/-!
What the searches find. Forward they go to the least position behind the cursor that matches, and
backward to the greatest one in front of it. A search for a run of matches finds the first run that
the code holds in full, although it takes up the search again behind every anchor that fails.
-/
namespace MethodEdit.Session

variable {s t : Session} {holds first : Session → Bool} {rest chain : List (Session → Bool)}
  {position : Nat}

/-- The steps forward end at the nearest match, or they leave nothing but the cursor changed. -/
theorem forward_outcome (holds : Session → Bool) (s : Session) :
    (∃ found, IsLeast {p | s.cursor < p ∧ p < s.length ∧ holds (s.withCursor p) = true} found ∧
      s.forward holds = (true, s.withCursor found)) ∨
    (∀ p, s.cursor < p → p < s.length → holds (s.withCursor p) = false) ∧
      ∃ t, s.forward holds = (false, t) ∧ t.withCursor s.cursor = s := by
  fun_induction forward holds s with
  | case1 s hin next hholds =>
    exact .inl ⟨s.cursor + 1, ⟨⟨Nat.lt_succ_self _, hin, hholds⟩, fun p hp => hp.1⟩, rfl⟩
  | case2 s hin next hfails ih =>
    -- the next instruction is no match, so the ones behind it decide
    have hbehind (p : Nat) (hp : s.cursor < p) (hholds : holds (s.withCursor p) = true) :
        s.cursor + 1 < p := by
      refine Nat.lt_of_le_of_ne hp ?_
      rintro rfl
      exact hfails hholds
    obtain ⟨found, ⟨hmatch, hleast⟩, heq⟩ | ⟨hnone, t, heq, hback⟩ := ih
    · refine .inl ⟨found, ⟨⟨Nat.lt_of_succ_lt hmatch.1, hmatch.2⟩, fun p hp => ?_⟩, heq⟩
      exact hleast ⟨hbehind p hp.1 hp.2.2, hp.2⟩
    · refine .inr ⟨fun p hp hend => ?_, t, heq, ?_⟩
      · cases hholds : holds (s.withCursor p) with
        | false => rfl
        | true => exact hholds.symm.trans (hnone p (hbehind p hp hholds) hend)
      · have hagain := congrArg (fun u : Session => u.withCursor s.cursor) hback
        exact hagain
  | case3 s hend => exact .inr ⟨fun p hp hin => absurd hin (by omega), s, rfl, rfl⟩

/-- The steps backward end at the nearest match, or they leave nothing but the cursor changed. -/
theorem backward_outcome (holds : Session → Bool) (s : Session) :
    (∃ found, IsGreatest {p | p < s.cursor ∧ holds (s.withCursor p) = true} found ∧
      s.backward holds = (true, s.withCursor found)) ∨
    (∀ p < s.cursor, holds (s.withCursor p) = false) ∧
      ∃ t, s.backward holds = (false, t) ∧ t.withCursor s.cursor = s := by
  fun_induction backward holds s with
  | case1 s hin next hholds =>
    refine .inl ⟨s.cursor - 1, ⟨⟨Nat.sub_one_lt_of_lt hin, hholds⟩, fun p hp => ?_⟩, rfl⟩
    exact Nat.le_sub_one_of_lt hp.1
  | case2 s hin next hfails ih =>
    have hbefore (p : Nat) (hp : p < s.cursor) (hholds : holds (s.withCursor p) = true) :
        p < s.cursor - 1 := by
      refine Nat.lt_of_le_of_ne (Nat.le_sub_one_of_lt hp) ?_
      rintro rfl
      exact hfails hholds
    obtain ⟨found, ⟨hmatch, hgreatest⟩, heq⟩ | ⟨hnone, t, heq, hback⟩ := ih
    · refine .inl ⟨found, ⟨⟨?_, hmatch.2⟩, fun p hp => ?_⟩, heq⟩
      · exact Nat.lt_of_lt_of_le hmatch.1 (Nat.sub_le s.cursor 1)
      · exact hgreatest ⟨hbefore p hp.1 hp.2, hp.2⟩
    · refine .inr ⟨fun p hp => ?_, t, heq, ?_⟩
      · cases hholds : holds (s.withCursor p) with
        | false => rfl
        | true => exact hholds.symm.trans (hnone p (hbefore p hp hholds))
      · have hagain := congrArg (fun u : Session => u.withCursor s.cursor) hback
        exact hagain
  | case3 s hin => exact .inr ⟨fun p hp => absurd hp (by omega), s, rfl, rfl⟩

theorem isLeast_of_forward (h : s.forward holds = (true, t)) :
    IsLeast {p | s.cursor < p ∧ p < s.length ∧ holds (s.withCursor p) = true} t.cursor := by
  obtain ⟨found, hleast, heq⟩ | ⟨_, _, heq, _⟩ := forward_outcome holds s
  · cases heq.symm.trans h
    exact hleast
  · cases heq.symm.trans h

theorem eq_false_of_forward (h : s.forward holds = (false, t)) :
    ∀ p, s.cursor < p → p < s.length → holds (s.withCursor p) = false := by
  obtain ⟨_, _, heq⟩ | ⟨hnone, _⟩ := forward_outcome holds s
  · cases heq.symm.trans h
  · exact hnone

theorem search_found {steps : Session → Bool × Session} {boundary : Boundary}
    (h : steps s = (true, t)) : search steps boundary s = (.ok t.cursor, t) := by
  simp [search, h]

theorem search_exhausted {steps : Session → Bool × Session} {boundary : Boundary}
    (h : steps s = (false, t)) (hback : t.withCursor s.cursor = s) :
    search steps boundary s = (.error (.navigationExhausted s.cursor boundary), s) := by
  simp [search, h, hback]

/-- A run of the tests begins at the position: it is behind the cursor, each test holds at its
place, and the last place is in the code. -/
structure RunBegins (s : Session) (chain : List (Session → Bool)) (position : Nat) : Prop where
  behind : s.cursor < position
  within : position + chain.length ≤ s.length
  holds : ∀ (n : Nat) (test : Session → Bool), chain[n]? = some test →
    test (s.withCursor (position + n)) = true

theorem runAt_eq_true_iff (hp : position ≤ s.length) :
    s.runAt position chain = true ↔ position + chain.length ≤ s.length ∧
      ∀ (n : Nat) (test : Session → Bool), chain[n]? = some test →
        test (s.withCursor (position + n)) = true := by
  induction chain generalizing position with
  | nil => simpa [runAt] using hp
  | cons test more ih =>
    simp only [runAt, Bool.and_eq_true, decide_eq_true_eq, List.length_cons]
    have hplace (n : Nat) : position + 1 + n = position + (n + 1) := by omega
    have hnext (hin : position < s.length) := @ih (position + 1) hin
    constructor
    · rintro ⟨⟨hin, htest⟩, hmore⟩
      obtain ⟨hend, hall⟩ := (hnext hin).1 hmore
      refine ⟨by omega, fun n other hn => ?_⟩
      cases n with
      | zero =>
        cases hn
        exact htest
      | succ n =>
        rw [← hplace]
        exact hall n other hn
    · rintro ⟨hend, hall⟩
      have hin : position < s.length := by omega
      refine ⟨⟨hin, hall 0 test rfl⟩, (hnext hin).2 ⟨by omega, ?_⟩⟩
      intro n other hn
      rw [hplace]
      exact hall (n + 1) other hn

theorem runBegins_iff (hafter : s.cursor < position) (hin : position < s.length) :
    s.RunBegins (first :: rest) position ↔
      first (s.withCursor position) = true ∧ s.runAt (position + 1) rest = true := by
  have hrun := @runAt_eq_true_iff s (first :: rest) position (Nat.le_of_lt hin)
  simp only [runAt, hin, decide_true, Bool.true_and, Bool.and_eq_true] at hrun
  rw [hrun]
  exact ⟨fun h => ⟨h.within, h.holds⟩, fun h => ⟨hafter, h.1, h.2⟩⟩

theorem RunBegins.lt_length (h : s.RunBegins (first :: rest) position) : position < s.length := by
  have hwithin := h.within
  rw [List.length_cons] at hwithin
  omega

theorem RunBegins.holds_first (h : s.RunBegins (first :: rest) position) :
    first (s.withCursor position) = true := ((runBegins_iff h.behind h.lt_length).1 h).1

theorem runAt_withCursor (s : Session) (cursor position : Nat) (chain : List (Session → Bool)) :
    (s.withCursor cursor).runAt position chain = s.runAt position chain := by
  induction chain generalizing position with
  | nil => rfl
  | cons test more ih =>
    rw [runAt, runAt, ih]
    rfl

theorem runBegins_withCursor_iff {anchor : Nat}
    (h : IsLeast {p | s.cursor < p ∧ p < s.length ∧ first (s.withCursor p) = true} anchor)
    (hfails : ¬s.runAt (anchor + 1) rest = true) :
    (s.withCursor anchor).RunBegins (first :: rest) position ↔
      s.RunBegins (first :: rest) position := by
  obtain ⟨⟨hafter, hin, _⟩, hleast⟩ := h
  constructor
  · intro hrun
    exact ⟨Nat.lt_trans hafter hrun.behind, hrun.within, hrun.holds⟩
  · intro hrun
    have hle : anchor ≤ position := hleast ⟨hrun.behind, hrun.lt_length, hrun.holds_first⟩
    have hne : anchor ≠ position := by
      rintro rfl
      exact hfails ((runBegins_iff hafter hin).1 hrun).2
    exact ⟨Nat.lt_of_le_of_ne hle hne, hrun.within, hrun.holds⟩

theorem runAt_of_forward (h : s.forward holds = (true, t)) (position : Nat) :
    t.runAt position chain = s.runAt position chain := by
  rw [(eq_withCursor_of_forward h).2.2, runAt_withCursor]

theorem runBegins_of_forward_iff (h : s.forward first = (true, t))
    (hfails : ¬t.runAt (t.cursor + 1) rest = true) :
    t.RunBegins (first :: rest) position ↔ s.RunBegins (first :: rest) position := by
  rw [runAt_of_forward h] at hfails
  rw [← runBegins_withCursor_iff (isLeast_of_forward h) hfails,
    ← (eq_withCursor_of_forward h).2.2]

theorem isLeast_of_anchor? (h : s.anchor? first rest = some position) :
    IsLeast {p | s.RunBegins (first :: rest) p} position := by
  fun_induction anchor? s first rest with
  | case1 => cases h
  | case2 s found hfound hrun =>
    cases h
    obtain ⟨⟨hafter, hin, hfirst⟩, hleast⟩ := isLeast_of_forward hfound
    rw [runAt_of_forward hfound] at hrun
    refine ⟨(runBegins_iff hafter hin).2 ⟨hfirst, hrun⟩, fun p hp => ?_⟩
    exact hleast ⟨hp.behind, hp.lt_length, hp.holds_first⟩
  | case3 s found hfound hfails ih =>
    have hrest := ih h
    simp only [runBegins_of_forward_iff hfound hfails] at hrest
    exact hrest

theorem not_runBegins_of_anchor? (h : s.anchor? first rest = none) :
    ¬s.RunBegins (first :: rest) position := by
  fun_induction anchor? s first rest with
  | case1 s t hnone =>
    intro hrun
    have hfails := eq_false_of_forward hnone position hrun.behind hrun.lt_length
    exact absurd (hfails.symm.trans hrun.holds_first) Bool.false_ne_true
  | case2 => cases h
  | case3 s found hfound hfails ih =>
    rw [← runBegins_of_forward_iff hfound hfails]
    exact ih h

theorem seekChain_outcome (toStart : Bool) (first : Session → Bool) (rest : List (Session → Bool))
    (s : Session) :
    (∃ anchor, IsLeast {p | s.RunBegins (first :: rest) p} anchor ∧
      seekChain toStart (first :: rest) s =
        (.ok (if toStart then anchor else anchor + rest.length),
          s.withCursor (if toStart then anchor else anchor + rest.length))) ∨
    (∀ p, ¬s.RunBegins (first :: rest) p) ∧
      seekChain toStart (first :: rest) s =
        (.error (.navigationExhausted s.cursor .codeEnd), s) := by
  cases h : s.anchor? first rest with
  | none => exact .inr ⟨fun p => not_runBegins_of_anchor? h, by simp [seekChain, h]⟩
  | some anchor => exact .inl ⟨anchor, isLeast_of_anchor? h, by simp [seekChain, h]⟩

theorem seek_outcome (holds : Session → Bool) (s : Session) :
    (∃ found, IsLeast {p | s.cursor < p ∧ p < s.length ∧ holds (s.withCursor p) = true} found ∧
      seek holds s = (.ok found, s.withCursor found)) ∨
    (∀ p, s.cursor < p → p < s.length → holds (s.withCursor p) = false) ∧
      seek holds s = (.error (.navigationExhausted s.cursor .codeEnd), s) := by
  obtain ⟨found, hleast, heq⟩ | ⟨hnone, t, heq, hback⟩ := forward_outcome holds s
  · exact .inl ⟨found, hleast, search_found heq⟩
  · exact .inr ⟨hnone, search_exhausted heq hback⟩

theorem rewind_outcome (holds : Session → Bool) (s : Session) :
    (∃ found, IsGreatest {p | p < s.cursor ∧ holds (s.withCursor p) = true} found ∧
      rewind holds s = (.ok found, s.withCursor found)) ∨
    (∀ p < s.cursor, holds (s.withCursor p) = false) ∧
      rewind holds s = (.error (.navigationExhausted s.cursor .codeStart), s) := by
  obtain ⟨found, hgreatest, heq⟩ | ⟨hnone, t, heq, hback⟩ := backward_outcome holds s
  · exact .inl ⟨found, hgreatest, search_found heq⟩
  · exact .inr ⟨hnone, search_exhausted heq hback⟩

theorem runBegins_singleton_iff :
    s.RunBegins [holds] position ↔
      s.cursor < position ∧ position < s.length ∧ holds (s.withCursor position) = true := by
  constructor
  · exact fun h => ⟨h.behind, h.lt_length, h.holds_first⟩
  · rintro ⟨hafter, hin, hholds⟩
    exact (runBegins_iff hafter hin).2 ⟨hholds, rfl⟩

theorem seekChain_singleton (toStart : Bool) (holds : Session → Bool) (s : Session) :
    seekChain toStart [holds] s = seek holds s := by
  have hchain := seekChain_outcome toStart holds [] s
  simp only [runBegins_singleton_iff, List.length_nil, Nat.add_zero, ite_self] at hchain
  obtain ⟨found, hleast, hseek⟩ | ⟨hnone, hseek⟩ := seek_outcome holds s
  · obtain ⟨anchor, hanchor, heq⟩ | ⟨hnone, _⟩ := hchain
    · rw [heq, hseek, hleast.unique hanchor]
    · exact absurd hleast.1 (hnone found)
  · obtain ⟨anchor, ⟨⟨hafter, hin, hholds⟩, _⟩, _⟩ | ⟨_, heq⟩ := hchain
    · exact absurd (hholds.symm.trans (hnone anchor hafter hin)) (by simp)
    · rw [heq, hseek]

/-- A search for a run of tests succeeds exactly if a run lies behind the cursor and ends within the
code. It goes to the first of these runs, to its first or its last instruction. A search for one
test is a search for a run of one: it goes to the nearest match behind the cursor, and backward to
the nearest one in front of it. Nothing but the cursor ever changes, and not even that if nothing is
found. -/
theorem nearest_match_found (s : Session) :
    (∀ (toStart : Bool) (first : Session → Bool) (rest : List (Session → Bool)),
      ((∃ position t, seekChain toStart (first :: rest) s = (.ok position, t)) ↔
        ∃ anchor, s.RunBegins (first :: rest) anchor) ∧
      ((∃ anchor, IsLeast {p | s.RunBegins (first :: rest) p} anchor ∧
          seekChain toStart (first :: rest) s =
            (.ok (if toStart then anchor else anchor + rest.length),
              s.withCursor (if toStart then anchor else anchor + rest.length))) ∨
        (∀ p, ¬s.RunBegins (first :: rest) p) ∧
          seekChain toStart (first :: rest) s =
            (.error (.navigationExhausted s.cursor .codeEnd), s))) ∧
    (∀ (toStart : Bool) (holds : Session → Bool), seekChain toStart [holds] s = seek holds s) ∧
    ∀ holds : Session → Bool,
      ((∃ found, IsLeast {p | s.cursor < p ∧ p < s.length ∧ holds (s.withCursor p) = true} found ∧
          seek holds s = (.ok found, s.withCursor found)) ∨
        (∀ p, s.cursor < p → p < s.length → holds (s.withCursor p) = false) ∧
          seek holds s = (.error (.navigationExhausted s.cursor .codeEnd), s)) ∧
      ((∃ found, IsGreatest {p | p < s.cursor ∧ holds (s.withCursor p) = true} found ∧
          rewind holds s = (.ok found, s.withCursor found)) ∨
        (∀ p < s.cursor, holds (s.withCursor p) = false) ∧
          rewind holds s = (.error (.navigationExhausted s.cursor .codeStart), s)) := by
  refine ⟨fun toStart first rest => ?_, fun toStart holds => seekChain_singleton toStart holds s,
    fun holds => ⟨seek_outcome holds s, rewind_outcome holds s⟩⟩
  have houtcome := seekChain_outcome toStart first rest s
  refine ⟨?_, houtcome⟩
  obtain ⟨anchor, hleast, hrun⟩ | ⟨hnone, hrun⟩ := houtcome
  · exact ⟨fun _ => ⟨anchor, hleast.1⟩, fun _ => ⟨_, _, hrun⟩⟩
  · constructor
    · rintro ⟨position, t, hok⟩
      cases hrun.symm.trans hok
    · rintro ⟨p, hp⟩
      exact absurd hp (hnone p)

end MethodEdit.Session
