import MethodEdit.Proofs.Injection.Bulk
import MethodEdit.Proofs.Session.Progress
import MethodEdit.Proofs.Symbols.Rollback

/-!
Bulk edits that put one instruction in the place of another. The code keeps its length, so the range
is the same from the first round to the last, and the positions that match at the start are those
that are rewritten. If one of them cannot be, the session is what it was.
-/
namespace MethodEdit

open Edit

def Code.stretch (code : Code) (first last : Nat) : Code := (code.drop first).take (last - first)

namespace Code

variable {code : Code} {first last : Nat}

theorem getElem?_stretch (code : Code) (first last n : Nat) :
    (code.stretch first last)[n]? = if first + n < last then code[first + n]? else none := by
  rw [stretch, List.getElem?_take, List.getElem?_drop]
  by_cases h : first + n < last
  · rw [if_pos h, if_pos (by omega)]
  · rw [if_neg h, if_neg (by omega)]

theorem length_stretch (h : last ≤ code.length) :
    (code.stretch first last).length = last - first := by
  rw [stretch, List.length_take, List.length_drop]
  omega

theorem mem_stretch {i : Instruction} :
    i ∈ code.stretch first last ↔ ∃ p, first ≤ p ∧ p < last ∧ code[p]? = some i := by
  rw [List.mem_iff_getElem?]
  constructor
  · rintro ⟨n, hn⟩
    rw [getElem?_stretch] at hn
    by_cases h : first + n < last
    · rw [if_pos h] at hn
      exact ⟨first + n, Nat.le_add_right first n, h, hn⟩
    · rw [if_neg h] at hn
      cases hn
  · rintro ⟨p, hle, hlt, hp⟩
    refine ⟨p - first, ?_⟩
    have hsum : first + (p - first) = p := by omega
    rw [getElem?_stretch, hsum, if_pos hlt, hp]

theorem take_stretch_drop (h : first ≤ last) :
    code.take first ++ (code.stretch first last ++ code.drop last) = code := by
  have hrest : code.drop last = (code.drop first).drop (last - first) := by
    rw [List.drop_drop]
    congr 1
    omega
  rw [stretch, hrest, List.take_append_drop, List.take_append_drop]

def matchesIn (code : Code) (holds : Instruction → Bool) (first last : Nat) : List Nat :=
  (List.range' first (last - first)).filter fun p => code[p]?.any holds

theorem mem_matchesIn {holds : Instruction → Bool} {p : Nat} :
    p ∈ code.matchesIn holds first last ↔
      first ≤ p ∧ p < last ∧ ∃ i, code[p]? = some i ∧ holds i = true := by
  simp only [matchesIn, List.mem_filter, List.mem_range'_1, Option.any_eq_true]
  constructor
  · rintro ⟨⟨hle, hlt⟩, hp⟩
    exact ⟨hle, by omega, hp⟩
  · rintro ⟨hle, hlt, hp⟩
    exact ⟨⟨hle, by omega⟩, hp⟩

theorem length_matchesIn (code : Code) (holds : Instruction → Bool) (first last : Nat) :
    (code.matchesIn holds first last).length = (code.stretch first last).countP holds := by
  rw [matchesIn, ← List.countP_eq_length_filter, stretch]
  generalize last - first = n
  induction n generalizing first with
  | zero => simp
  | succ n ih =>
    rw [List.range'_succ, List.countP_cons, ih]
    by_cases hlt : first < code.length
    · rw [List.drop_eq_getElem_cons hlt, List.take_succ_cons, List.countP_cons,
        List.getElem?_eq_getElem hlt]
      rfl
    · have hnone : code[first]? = none := List.getElem?_eq_none (by omega)
      have hdrop : code.drop first = [] := List.drop_eq_nil_of_le (by omega)
      have hdrop' : code.drop (first + 1) = [] := List.drop_eq_nil_of_le (by omega)
      simp [hnone, hdrop, hdrop']

/-- The code with every match of a stretch swapped. -/
def swapped (code : Code) (holds : Instruction → Bool) (swap : Instruction → Instruction)
    (first last : Nat) : Code :=
  code.take first ++ (code.stretch first last).map (fun i => if holds i then swap i else i) ++
    code.drop last

/-- What is swapped are the instructions at the positions of the matches. -/
theorem getElem?_swapped (holds : Instruction → Bool) (swap : Instruction → Instruction)
    (h : first ≤ last) (hl : last ≤ code.length) (p : Nat) :
    (code.swapped holds swap first last)[p]? =
      code[p]?.map fun i => if p ∈ code.matchesIn holds first last then swap i else i := by
  have htake : (code.take first).length = first := by
    rw [List.length_take]
    omega
  have hmid : (code.stretch first last).length = last - first := length_stretch hl
  unfold swapped
  by_cases hin : first ≤ p ∧ p < last
  · have hsum : first + (p - first) = p := by omega
    rw [List.append_assoc, List.getElem?_append_right (by omega), htake,
      List.getElem?_append_left (by rw [List.length_map, hmid]; omega), List.getElem?_map,
      getElem?_stretch, hsum, if_pos hin.2]
    cases hi : code[p]? with
    | none => rfl
    | some i =>
      have hmem : p ∈ code.matchesIn holds first last ↔ holds i = true := by
        simp [mem_matchesIn, hi, hin]
      simp [hmem]
  · have hout : p ∉ code.matchesIn holds first last := fun hmem => by
      obtain ⟨hle, hlt, -⟩ := mem_matchesIn.1 hmem
      exact hin ⟨hle, hlt⟩
    simp only [hout, if_false, Option.map_id_fun', id]
    by_cases hlt : p < first
    · rw [List.append_assoc, List.getElem?_append_left (by omega), List.getElem?_take_of_lt hlt]
    · have hsum : last + (p - (first + (last - first))) = p := by omega
      rw [List.getElem?_append_right (by rw [List.length_append, List.length_map]; omega),
        List.length_append, List.length_map, htake, hmid, List.getElem?_drop, hsum]

end Code

namespace Session

variable {s s' : Session} {holds fits : Instruction → Bool} {swap : Instruction → Instruction}
  {edit : Edit Session Unit} {symbols : Symbols} {stop : Option Nat}

/-- At a match the edit puts in another instruction, or is refused if that does not fit. -/
structure Swaps (s : Session) (holds fits : Instruction → Bool) (swap : Instruction → Instruction)
    (edit : Edit Session Unit) : Prop where
  done : ∀ symbols done i rest, holds i = true → fits i = true →
    edit (s.visiting symbols done (i :: rest)) =
      (.ok (), s.visiting symbols done (swap i :: rest))
  refused : ∀ symbols done i rest, holds i = true → fits i = false →
    ∃ e, edit (s.visiting symbols done (i :: rest)) =
      (.error e, s.visiting symbols done (i :: rest))

theorem within_visiting_iff {done rest : Code} : (s.visiting symbols done rest).Within stop ↔
    done.length < min (stop.getD (done.length + rest.length)) (done.length + rest.length) := by
  simp [Within, visiting, length]

/-- From the first instruction of the range on: all matches in it are rewritten, or one of them does
not fit. What is in front of the range, and behind it, does not matter. -/
theorem editMatches_swaps (hp : s.Swaps holds fits swap edit) {n left : Nat} {done mid tail : Code}
    (hn : done.length + (mid.length + tail.length) = n)
    (hstop : done.length + mid.length = min (stop.getD n) n) (hleft : mid.length ≤ left) :
    ((∀ i ∈ mid, holds i = true → fits i = true) ∧
      editMatches stop (holds ·.current) edit left (s.visiting symbols done (mid ++ tail)) =
        (.ok (mid.countP holds), s.visiting symbols
          (done ++ mid.map fun i => if holds i then swap i else i) tail)) ∨
    (∃ i ∈ mid, holds i = true ∧ fits i = false) ∧ ∃ e done' rest,
      editMatches stop (holds ·.current) edit left (s.visiting symbols done (mid ++ tail)) =
        (.error e, s.visiting symbols done' rest) := by
  induction mid generalizing done left with
  | nil =>
    have hout : ¬ (s.visiting symbols done tail).Within stop := by
      simp only [List.length_nil] at hn hstop
      rw [within_visiting_iff, show done.length + tail.length = n by omega]
      omega
    refine .inl ⟨by simp, ?_⟩
    rw [List.nil_append, editMatches_outside hout]
    simp
  | cons i rest ih =>
    simp only [List.length_cons] at hn hstop hleft
    obtain ⟨left, rfl⟩ : ∃ k, left = k + 1 := ⟨left - 1, by omega⟩
    have hin : (s.visiting symbols done (i :: (rest ++ tail))).Within stop := by
      rw [within_visiting_iff, List.length_cons, List.length_append,
        show done.length + (rest.length + tail.length + 1) = n by omega]
      omega
    -- whatever stands in the place of the instruction, the rest of the loop is the same
    have hlength (j : Instruction) : (done ++ [j]).length = done.length + 1 :=
      List.length_append
    have hn' (j : Instruction) : (done ++ [j]).length + (rest.length + tail.length) = n := by
      rw [hlength]
      omega
    have hstop' (j : Instruction) :
        (done ++ [j]).length + rest.length = min (stop.getD n) n := by
      rw [hlength]
      omega
    have hrest (j : Instruction) := ih (hn' j) (hstop' j) (Nat.le_of_succ_le_succ hleft)
    rw [List.cons_append]
    cases hh : holds i with
    | false =>
      rw [editMatches_kept hin hh]
      obtain ⟨hall, hrun⟩ | ⟨hex, hrun⟩ := hrest i
      · refine .inl ⟨?_, by simp [hrun, hh]⟩
        simpa [hh] using hall
      · refine .inr ⟨?_, hrun⟩
        simpa [hh] using hex
    | true =>
      cases hf : fits i with
      | false =>
        obtain ⟨e, he⟩ := hp.refused symbols done i (rest ++ tail) hh hf
        exact .inr ⟨⟨i, List.mem_cons_self, hh, hf⟩, e, _, _, editMatches_error hin hh he left⟩
      | true =>
        rw [editMatches_site hin hh (hp.done symbols done i (rest ++ tail) hh hf)]
        obtain ⟨hall, hrun⟩ | ⟨⟨j, hj, hbad⟩, e, done', rest', hrun⟩ := hrest (swap i)
        · refine .inl ⟨List.forall_mem_cons.2 ⟨fun _ => hf, hall⟩, ?_⟩
          simp [hrun, hh, Nat.add_comm]
        · refine .inr ⟨⟨j, List.mem_cons_of_mem i hj, hbad⟩, e, done', rest', ?_⟩
          simp [hrun]

theorem takenBack_visiting (hs : s.editing = false) (ht : s.symbols.Tidy) (done rest : Code) :
    s.takenBack (s.visiting s.symbols done rest) = s := by
  have hsymbols : s.symbols.rollback s.symbols.checkpoint = s.symbols :=
    (Symbols.Continues.refl s.symbols).rollback_eq ht
  simp only [takenBack, visiting, hsymbols, ← hs]

def lastIn (s : Session) (stop : Option Nat) : Nat := min (stop.getD s.length) s.length

def found (s : Session) (holds : Instruction → Bool) (start stop : Option Nat) : List Nat :=
  s.code.matchesIn holds (start.getD 0) (s.lastIn stop)

/-- The instructions at these positions have been swapped, and nothing else has changed. -/
structure SwappedAt (s s' : Session) (positions : List Nat) (swap : Instruction → Instruction) :
    Prop where
  others : s' = { s with code := s'.code }
  getElem? : ∀ p, s'.code[p]? = s.code[p]?.map fun i => if p ∈ positions then swap i else i

theorem SwappedAt.length {positions : List Nat} (h : s.SwappedAt s' positions swap) :
    s'.code.length = s.code.length := by
  have hle : s'.code[s.code.length]? = none := by simp [h.getElem?]
  have hge : s.code[s'.code.length]? = none := by
    simpa using (h.getElem? s'.code.length).symm
  rw [List.getElem?_eq_none_iff] at hle hge
  omega

theorem editAll_outside {holds : Session → Bool} (hs : s.Sound) {start : Option Nat}
    (h : s.lastIn stop ≤ start.getD 0) : editAll start stop holds edit s = (.ok 0, s) := by
  have hout : ¬ ({ s with editing := true }.withCursor (start.getD 0)).Within stop :=
    Nat.not_lt_of_le h
  have hstays : ({ s with editing := true }.withCursor (start.getD 0)).clamp s.cursor = s.cursor :=
    hs.clamp_cursor (Nat.le_refl _)
  rw [editAll_eq start stop hs.resting, editMatches_outside hout]
  simp only [hstays]
  simp [withCursor, ← hs.resting]

/-- The loop over a range that is not empty. What stands in it is swapped, and what stands around it
stays. -/
theorem editMatches_range (hp : s.Swaps holds fits swap edit) {first : Nat}
    (hlt : first < s.lastIn stop) :
    ((∀ i ∈ s.code.stretch first (s.lastIn stop), holds i = true → fits i = true) ∧
      editMatches stop (holds ·.current) edit (s.length - first)
          ({ s with editing := true }.withCursor first) =
        (.ok (s.code.matchesIn holds first (s.lastIn stop)).length, s.visiting s.symbols
          (s.code.take first ++ (s.code.stretch first (s.lastIn stop)).map
            fun i => if holds i then swap i else i) (s.code.drop (s.lastIn stop)))) ∨
    (∃ i ∈ s.code.stretch first (s.lastIn stop), holds i = true ∧ fits i = false) ∧
      ∃ e done rest, editMatches stop (holds ·.current) edit (s.length - first)
          ({ s with editing := true }.withCursor first) =
        (.error e, s.visiting s.symbols done rest) := by
  have hle : s.lastIn stop ≤ s.code.length := Nat.min_le_right _ _
  have htake : (s.code.take first).length = first := by
    rw [List.length_take]
    omega
  have hmid : (s.code.stretch first (s.lastIn stop)).length = s.lastIn stop - first :=
    Code.length_stretch hle
  have hdrop : (s.code.drop (s.lastIn stop)).length = s.length - s.lastIn stop := List.length_drop
  have hstart : { s with editing := true }.withCursor first =
      s.visiting s.symbols (s.code.take first)
        (s.code.stretch first (s.lastIn stop) ++ s.code.drop (s.lastIn stop)) := by
    simp [visiting, withCursor, s.code.take_stretch_drop (Nat.le_of_lt hlt), htake]
  have hlength : s.code.length = s.length := rfl
  have hlast : s.lastIn stop = min (stop.getD s.length) s.length := rfl
  rw [hstart, Code.length_matchesIn]
  exact editMatches_swaps (n := s.length) hp (by omega) (by omega) (by omega)

/-- Every match of the range is swapped and counted, or one of them does not fit and nothing is
done. -/
theorem editAll_swaps (hs : s.Sound) (ht : s.symbols.Tidy) (hp : s.Swaps holds fits swap edit)
    (start stop : Option Nat) :
    ((∀ p ∈ s.found holds start stop, ∀ i, s.code[p]? = some i → fits i = true) ∧
      ∃ s', editAll start stop (holds ·.current) edit s =
        (.ok (s.found holds start stop).length, s') ∧
          s.SwappedAt s' (s.found holds start stop) swap) ∨
    (∃ p ∈ s.found holds start stop, ∃ i, s.code[p]? = some i ∧ fits i = false) ∧
      ∃ e, editAll start stop (holds ·.current) edit s = (.error e, s) := by
  by_cases hlt : start.getD 0 < s.lastIn stop
  · rw [editAll_eq start stop hs.resting]
    obtain ⟨hall, hrun⟩ | ⟨⟨i, hi, hholds, hbad⟩, e, done, rest, hrun⟩ :=
      editMatches_range hp hlt
    · have hat : s.SwappedAt
          { s with code := s.code.swapped holds swap (start.getD 0) (s.lastIn stop) }
          (s.found holds start stop) swap :=
        ⟨rfl, Code.getElem?_swapped holds swap (Nat.le_of_lt hlt) (Nat.min_le_right _ _)⟩
      refine .inl ⟨fun p hp i hi => ?_, _, ?_, hat⟩
      · obtain ⟨hfirst, hlast, j, hj, hholds⟩ := Code.mem_matchesIn.1 hp
        obtain rfl : j = i := Option.some.inj (hj.symm.trans hi)
        exact hall j (Code.mem_stretch.2 ⟨p, hfirst, hlast, hj⟩) hholds
      · have hstays := hs.clamp_cursor (Nat.le_of_eq hat.length.symm)
        rw [hrun]
        simp only [clamp, length, visiting, withCursor, Code.swapped] at hstays ⊢
        rw [hstays, found, hs.resting]
    · obtain ⟨p, hfirst, hlast, hp⟩ := Code.mem_stretch.1 hi
      refine .inr ⟨⟨p, Code.mem_matchesIn.2 ⟨hfirst, hlast, i, hp, hholds⟩, i, hp, hbad⟩, e, ?_⟩
      rw [hrun]
      simp only [takenBack_visiting hs.resting ht]
  · have hempty : s.found holds start stop = [] := by
      have hnone : s.lastIn stop - start.getD 0 = 0 := by omega
      simp [found, Code.matchesIn, hnone]
    rw [editAll_outside hs (Nat.le_of_not_lt hlt), hempty]
    exact .inl ⟨by simp, s, rfl, rfl, by simp⟩

theorem Leads.tidy {given : List Instruction} {asks : Bool} (h : Leads given asks s s')
    (ht : s.symbols.Tidy) : s'.symbols.Tidy := by
  induction h with
  | refl | moved | flagged | handedOver | removed => exact ht
  | trans _ _ ih₁ ih₂ => exact ih₂ (ih₁ ht)
  | reslotted h =>
    obtain ⟨-, slots, rfl⟩ := h
    exact ht
  | renamed s label name => exact ht.modifyLabel label fun _ => rfl
  | refused => exact ht
  | @created s => exact Symbols.Tidy.registerLabel (t := s.symbols.drawn) ht _ false
  | inserted => exact (ht.registerEach _ fun _ => true).registerEach _ fun _ => false
  | rewritten => exact ht.registerEach _ fun _ => false
  | attached => exact ht.modifyLabel _ fun _ => rfl
  | takenBack => rfl

theorem Reachable.tidy (h : s.Reachable) : s.symbols.Tidy := by
  induction h with
  | start h =>
    obtain ⟨-, -, -, rfl⟩ := start_eq_ok_iff.1 h
    exact (Symbols.tidy_ofTypes _ _ _).registerEach _ _
  | step hs resolver command ih =>
    exact (command.proceeds_run ⟨resolver, _⟩ hs.sound.synced).tidy ih

end Session

/-- The instruction that loads another value: a 32-bit load takes the general form of these. -/
def Instruction.loading (value : Int64) (i : Instruction) : Instruction :=
  { i with
    opcode := if i.opcode.isInt32Constant then .ldcI4 else .ldcI8
    operand := .int value }

theorem Instruction.integer?_loading (value : Int64) (i : Instruction) :
    (i.loading value).integer? = some value := by
  cases h : i.opcode.isInt32Constant <;> simp [loading, h, integer?, Opcode.fixedInteger?]

theorem Instruction.isValid_loading_iff (value : Int64) (i : Instruction) :
    (i.loading value).isValid = true ↔ i.opcode.isInt32Constant = true →
      -2147483648 ≤ value.toInt ∧ value.toInt ≤ 2147483647 := by
  cases h : i.opcode.isInt32Constant with
  | false => simp [isValid, loading, h, Opcode.accepts, Opcode.operandKind, Operand.hasKind]
  | true =>
    simp [isValid, loading, h, Opcode.accepts, Opcode.operandKind, Operand.hasKind,
      Operand.isBetween]

namespace Session

variable {s s' : Session}

theorem rewrite_visiting (s : Session) (symbols : Symbols) (done rest : Code) (i : Instruction)
    {opcode : Opcode} {operand : Operand} (hv : opcode.accepts operand = true)
    (ht : operand.targets = []) :
    rewrite opcode operand (s.visiting symbols done (i :: rest)) =
      (.ok (), s.visiting symbols done ({ i with opcode, operand } :: rest)) := by
  have hcode : (s.visiting symbols done (i :: rest)).code[
      (s.visiting symbols done (i :: rest)).cursor]? = some i := by simp [visiting]
  rw [rewrite_accepted hcode hv]
  simp [visiting, ht, Symbols.registerLabels]

theorem replaceInteger_eq_rewrite {value : Int64} (h : s.current.integer? ≠ none) :
    replaceInteger value s = rewrite (s.current.loading value).opcode (.int value) s := by
  simp [replaceInteger, h, Instruction.loading]

theorem swaps_replaceInteger (s : Session) (old new : Int64) :
    s.Swaps (·.loadsInteger old) (fun i => (i.loading new).isValid) (·.loading new)
      (replaceInteger new) := by
  have heq (symbols : Symbols) (done rest : Code) (i : Instruction)
      (hold : i.loadsInteger old = true) :
      replaceInteger new (s.visiting symbols done (i :: rest)) =
        rewrite (i.loading new).opcode (.int new) (s.visiting symbols done (i :: rest)) := by
    have hcurrent := current_visiting s symbols done rest i
    rw [replaceInteger_eq_rewrite (by simp [hcurrent, eq_of_beq hold]), hcurrent]
  constructor
  · intro symbols done i rest hold hfits
    rw [heq symbols done rest i hold]
    exact rewrite_visiting s symbols done rest i hfits rfl
  · intro symbols done i rest hold hfits
    rw [heq symbols done rest i hold]
    obtain hrefused | ⟨_, _, hv, _⟩ := rewrite_cases (i.loading new).opcode (.int new)
      (s.visiting symbols done (i :: rest))
    · exact hrefused
    · exact absurd (hv.symm.trans hfits) (by decide)

/-- Every load of the old value in the range, in whatever form, loads the new one, and nothing else
changes. Only a 32-bit load may refuse the new value, and then nothing changes at all. -/
theorem replaceAllIntegers_exact (hs : s.Reachable) (old new : Int64) (start stop : Option Nat) :
    ∃ found : List Nat, found.Nodup ∧
      (∀ p, p ∈ found ↔ start.getD 0 ≤ p ∧ p < min (stop.getD s.length) s.length ∧
        ∃ i, s.code[p]? = some i ∧ i.integer? = some old) ∧
      ((∃ count s', replaceAllIntegers old new start stop s = (.ok count, s')) ↔
        (-2147483648 ≤ new.toInt ∧ new.toInt ≤ 2147483647) ∨
          ∀ p ∈ found, ∀ i, s.code[p]? = some i → i.opcode.isInt32Constant = false) ∧
      (∀ count s', replaceAllIntegers old new start stop s = (.ok count, s') →
        count = found.length ∧ s' = { s with code := s'.code } ∧
        s'.code.length = s.code.length ∧
        (∀ p ∈ found, ∀ i, s.code[p]? = some i → ∃ j, s'.code[p]? = some j ∧
          j.integer? = some new ∧ j.labels = i.labels ∧
          j.opcode = if i.opcode.isInt32Constant then .ldcI4 else .ldcI8) ∧
        ∀ p, p ∉ found → s'.code[p]? = s.code[p]?) ∧
      ∀ e s', replaceAllIntegers old new start stop s = (.error e, s') → s' = s := by
  refine ⟨s.found (·.loadsInteger old) start stop, (List.nodup_range' ..).filter _, ?_, ?_⟩
  · intro p
    simp [found, Code.mem_matchesIn, lastIn, Instruction.loadsInteger]
  obtain ⟨hfits, s', hrun, hswapped⟩ | ⟨⟨p, hp, i, hi, hbad⟩, e, hrun⟩ :=
    editAll_swaps hs.sound hs.tidy (swaps_replaceInteger s old new) start stop
  · refine ⟨⟨fun _ => ?_, fun _ => ⟨_, s', hrun⟩⟩, fun count t ht => ?_, fun e t ht => ?_⟩
    · by_cases hnarrow : -2147483648 ≤ new.toInt ∧ new.toInt ≤ 2147483647
      · exact .inl hnarrow
      · refine .inr fun p hp i hi => ?_
        have hvalid := (Instruction.isValid_loading_iff new i).1 (hfits p hp i hi)
        simpa using fun hwide => hnarrow (hvalid hwide)
    · cases hrun.symm.trans ht
      refine ⟨rfl, hswapped.others, hswapped.length, fun p hp i hi => ?_, fun p hp => ?_⟩
      · have hj : s'.code[p]? = some (i.loading new) := by
          rw [hswapped.getElem?, hi, Option.map_some, if_pos hp]
        exact ⟨i.loading new, hj, i.integer?_loading new, rfl, rfl⟩
      · rw [hswapped.getElem?]
        simp [hp]
    · cases hrun.symm.trans ht
  · refine ⟨⟨?_, fun hsafe => ?_⟩, fun count t ht => ?_, fun e' t ht => ?_⟩
    · rintro ⟨count, t, ht⟩
      cases hrun.symm.trans ht
    · have hvalid : (i.loading new).isValid = true := by
        rw [Instruction.isValid_loading_iff]
        intro hnarrow
        obtain hsafe | hwide := hsafe
        · exact hsafe
        · simp [hwide p hp i hi] at hnarrow
      exact absurd (hvalid.symm.trans hbad) (by decide)
    · cases hrun.symm.trans ht
    · cases hrun.symm.trans ht
      rfl

namespace Sample

def sevens : Code :=
  [{ opcode := .ldcFixed ⟨8, by decide⟩, labels := [⟨0⟩] }, { opcode := .ldcI4, operand := .int 7 },
    { opcode := .ldcI8, operand := .int 7 }, .ret]

def counting : Session where
  code := sevens
  symbols := Session.registerCode sevens
    (Symbols.ofTypes [] (LabelSource.after (sevens.flatMap (·.allLabels))) {})
  method := method void
  core := core
  settings := {}

theorem counting_eq : Session.startFresh (method void) core [] sevens {} = .ok counting := rfl

theorem reachable_counting : counting.Reachable := .start counting_eq

end Sample

/-- A value that needs more than 32 bits is accepted where it meets the 64-bit load alone. -/
theorem replaceAllIntegers_exact_in_sample :
    Sample.counting.Reachable ∧
    (∃ s', replaceAllIntegers 7 4294967296 (some 2) none Sample.counting = (.ok 1, s') ∧
      s'.symbols = Sample.counting.symbols ∧ s'.code[1]? = Sample.counting.code[1]?) ∧
    ∃ e, replaceAllIntegers 7 4294967296 none (some 9) Sample.counting =
      (.error e, Sample.counting) := by
  refine ⟨Sample.reachable_counting, ?_, ?_⟩
  · obtain ⟨found, -, hmem, -, hok, -⟩ := replaceAllIntegers_exact Sample.reachable_counting
      7 4294967296 (some 2) none
    obtain ⟨s', hrun⟩ : ∃ s', replaceAllIntegers 7 4294967296 (some 2) none Sample.counting =
      (.ok 1, s') := ⟨_, rfl⟩
    obtain ⟨-, hothers, -, -, hsame⟩ := hok 1 s' hrun
    refine ⟨s', hrun, by rw [hothers], hsame 1 fun hin => ?_⟩
    have hle : 2 ≤ 1 := ((hmem 1).1 hin).1
    omega
  · obtain ⟨found, -, -, -, -, herror⟩ := replaceAllIntegers_exact Sample.reachable_counting
      7 4294967296 none (some 9)
    obtain ⟨e, s', hrun⟩ : ∃ e s', replaceAllIntegers 7 4294967296 none (some 9) Sample.counting =
      (.error e, s') := ⟨_, _, rfl⟩
    exact ⟨e, herror e s' hrun ▸ hrun⟩

end Session

end MethodEdit
