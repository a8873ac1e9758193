import MethodEdit.Proofs.Code.Placement

/-!
Removal undoes insertion. An instruction that was put in front of another one leaves its labels to
it when it is removed, so nothing is left of instructions without labels, however many were put in
and whichever of them stands first.
-/
namespace MethodEdit.Code

variable {code block : Code} {i : Instruction} {position : Nat}

theorem mergeLabels_of_disjoint {labels more : List Label} (hn : more.Nodup)
    (hd : List.Disjoint labels more) : mergeLabels labels more = labels ++ more := by
  induction more generalizing labels with
  | nil => simp [mergeLabels]
  | cons first others ih =>
    obtain ⟨hfirst, hothers⟩ := List.nodup_cons.1 hn
    have hnew : first ∉ labels := fun hm => hd hm List.mem_cons_self
    have hapart : List.Disjoint (labels ++ [first]) others := by
      intro label hl hmore
      obtain hl | hl := List.mem_append.1 hl
      · exact hd hl (List.mem_cons_of_mem _ hmore)
      · rw [List.mem_singleton.1 hl] at hmore
        exact hfirst hmore
    calc
      mergeLabels labels (first :: others) = mergeLabels (labels ++ [first]) others := by
        simp [mergeLabels, hnew]
      _ = labels ++ first :: others := by
        rw [ih hothers hapart, List.append_assoc, List.singleton_append]

theorem removeAt_append (before rest : Code) (i next : Instruction) :
    removeAt (before ++ i :: next :: rest) before.length =
      .ok (i.bare,
        before ++ { next with labels := mergeLabels next.labels i.labels } :: rest) := by
  refine removeAt_eq_ok_iff.2 ⟨i, by simp, rfl, .inr (by simp), ?_⟩
  rw [List.eraseIdx_append_of_length_le (Nat.le_refl _), Nat.sub_self, List.eraseIdx_cons_zero,
    modify_append_cons]

theorem removeAt_append_unlabelled (before after : Code) (hi : i.labels = []) :
    removeAt (before ++ i :: after) before.length = .ok (i, before ++ after) := by
  have hbare : i = i.bare := by rw [Instruction.bare, ← hi]
  refine removeAt_eq_ok_iff.2 ⟨i, by simp, hbare, .inl hi, ?_⟩
  have hsame : (fun next : Instruction =>
      { next with labels := mergeLabels next.labels i.labels }) = id := by
    rw [hi]
    rfl
  rw [List.eraseIdx_append_of_length_le (Nat.le_refl _), Nat.sub_self, List.eraseIdx_cons_zero,
    hsame, List.modify_id]

/-- Removes so many instructions at the position, and gives them in the order of their removal. -/
def removeEach (code : Code) (position : Nat) : Nat → Except EditError (List Instruction × Code)
  | 0 => .ok ([], code)
  | count + 1 => do
    let (first, code) ← code.removeAt position
    let (others, code) ← removeEach code position count
    return (first :: others, code)

theorem removeEach_append (before after : Code) (hb : ∀ i ∈ block, i.labels = []) :
    removeEach (before ++ block ++ after) before.length block.length =
      .ok (block, before ++ after) := by
  induction block with
  | nil => simp [removeEach]
  | cons first others ih =>
    have hremoved : removeAt (before ++ (first :: others) ++ after) before.length =
        .ok (first, before ++ others ++ after) := by
      simpa using removeAt_append_unlabelled before (others ++ after) (hb first List.mem_cons_self)
    have hothers := ih fun i hi => hb i (List.mem_cons_of_mem _ hi)
    exact bind_eq_ok_iff.2 ⟨_, hremoved, bind_eq_ok_iff.2 ⟨_, hothers, rfl⟩⟩

/-- Inserts instructions one after another in front of the position. The position stays where it is,
so that each instruction comes in front of those before it, or it follows the instruction that stood
there first. -/
def insertEach (follow : Bool) (code : Code) (position : Nat) :
    List Instruction → Except EditError Code
  | [] => .ok code
  | first :: others => do
    let (moved, code) ← code.insertBefore position first
    insertEach follow code (if follow then moved else position) others

theorem insertBefore_append_eq_ok_iff (before : Code) {after new : Code} {moved : Nat}
    (ha : after ≠ []) :
    insertBefore (before ++ after) before.length i = .ok (moved, new) ↔
      i.isValid = true ∧ moved = before.length + 1 ∧ new = before ++ i :: after := by
  have hpos := List.length_pos_iff.2 ha
  rw [insertBefore_eq_ok_iff, insertAt_eq_ok_iff, splice_append, List.length_append,
    List.append_assoc, List.singleton_append]
  constructor
  · rintro ⟨-, ⟨-, hv, hnew⟩, hmoved⟩
    exact ⟨hv, hmoved, hnew⟩
  · rintro ⟨hv, hmoved, hnew⟩
    exact ⟨by omega, ⟨by omega, hv, hnew⟩, hmoved⟩

/-- Valid instructions make a block, in the order in which they came or in the opposite one. -/
theorem insertEach_append_eq_ok_iff (follow : Bool) (before : Code) {after new : Code}
    (ha : after ≠ []) :
    insertEach follow (before ++ after) before.length block = .ok new ↔
      (∀ i ∈ block, i.isValid = true) ∧
        new = before ++ (if follow then block else block.reverse) ++ after := by
  induction block generalizing before after with
  | nil => simpa [insertEach] using eq_comm
  | cons first others ih =>
    have hfollowed := ih (before ++ [first]) ha
    have hstayed := ih before (List.cons_ne_nil first after)
    simp only [insertEach, bind_eq_ok_iff, Prod.exists, insertBefore_append_eq_ok_iff before ha,
      List.forall_mem_cons]
    constructor
    · rintro ⟨_, _, ⟨hv, rfl, rfl⟩, hrest⟩
      cases follow with
      | true =>
        obtain ⟨hothers, hnew⟩ := hfollowed.1 (by simpa using hrest)
        exact ⟨⟨hv, hothers⟩, by simpa using hnew⟩
      | false =>
        obtain ⟨hothers, hnew⟩ := hstayed.1 hrest
        exact ⟨⟨hv, hothers⟩, by simpa using hnew⟩
    · rintro ⟨⟨hv, hothers⟩, hnew⟩
      refine ⟨_, _, ⟨hv, rfl, rfl⟩, ?_⟩
      cases follow with
      | true => simpa using hfollowed.2 ⟨hothers, by simpa using hnew⟩
      | false => exact hstayed.2 ⟨hothers, by simpa using hnew⟩

/-- What is put in front of an instruction can be removed again. A single instruction leaves its
labels behind those of the other one, so the code is the same as before if it has none. As many
instructions without labels as were put in can be removed at the position, whether they were put in
from behind or from the front, and the code is the same as before. -/
theorem removal_undoes_insertion (hp : position < code.length) :
    (∀ i : Instruction, i.isValid = true → i.labels.Nodup →
      List.Disjoint code[position].labels i.labels →
      ∃ new, code.insertBefore position i = .ok (position + 1, new) ∧
        new.removeAt position =
          .ok (i.bare, code.modify position fun j => { j with labels := j.labels ++ i.labels }) ∧
        (i.labels = [] → new.removeAt position = .ok (i, code))) ∧
    ∀ (follow : Bool) (block : Code), (∀ i ∈ block, i.labels = []) →
      ((∃ new, code.insertEach follow position block = .ok new) ↔
        ∀ i ∈ block, i.isValid = true) ∧
      ∀ new, code.insertEach follow position block = .ok new →
        new.removeEach position block.length =
          .ok (if follow then block else block.reverse, code) := by
  obtain ⟨before, rest, hlength, hcode⟩ : ∃ before rest, before.length = position ∧
      code = before ++ code[position] :: rest :=
    ⟨code.take position, code.drop (position + 1), by simp; omega, by simp⟩
  generalize code[position] = next at hcode ⊢
  subst hlength hcode
  have hbehind := List.cons_ne_nil next rest
  constructor
  · intro i hv hn hd
    refine ⟨_, (insertBefore_append_eq_ok_iff before hbehind).2 ⟨hv, rfl, rfl⟩, ?_, fun hl => ?_⟩
    · rw [removeAt_append, mergeLabels_of_disjoint hn hd, modify_append_cons]
    · exact removeAt_append_unlabelled before (next :: rest) hl
  · intro follow block hb
    simp only [insertEach_append_eq_ok_iff follow before hbehind]
    refine ⟨⟨fun ⟨_, hv, _⟩ => hv, fun hv => ⟨_, hv, rfl⟩⟩, ?_⟩
    rintro _ ⟨-, rfl⟩
    cases follow with
    | true => exact removeEach_append before (next :: rest) hb
    | false =>
      have hreversed : ∀ i ∈ block.reverse, i.labels = [] :=
        fun i hi => hb i (List.mem_reverse.1 hi)
      simpa using removeEach_append before (next :: rest) hreversed

namespace Sample

def ending : Code := [.nop, { Instruction.ret with labels := [⟨0⟩] }]

def entrance : Instruction := { opcode := .nop, labels := [⟨1⟩, ⟨2⟩] }

end Sample

/-- In front of the last instruction, two labels are left behind by an instruction that was put in,
and none by two others that were put in from the front. -/
theorem removal_undoes_insertion_at_ending :
    (∃ new, Sample.ending.insertBefore 1 Sample.entrance = .ok (2, new) ∧
      new.removeAt 1 =
        .ok (.nop, [.nop, { Instruction.ret with labels := [⟨0⟩, ⟨1⟩, ⟨2⟩] }])) ∧
    ∃ new, Sample.ending.insertEach false 1 [.nop, .ret] = .ok new ∧
      new.removeEach 1 2 = .ok ([.ret, .nop], Sample.ending) := by
  obtain ⟨hone, hall⟩ := @removal_undoes_insertion Sample.ending 1 (by decide)
  obtain ⟨new, hinserted, hremoved, -⟩ := hone Sample.entrance rfl (by decide)
    (by simp [Sample.ending, Sample.entrance])
  obtain ⟨hsucceeds, hundone⟩ := hall false [.nop, .ret]
    (by simp [Instruction.nop, Instruction.ret])
  obtain ⟨longer, hlonger⟩ := hsucceeds.2 (by decide)
  exact ⟨⟨new, hinserted, hremoved⟩, longer, hlonger, hundone longer hlonger⟩

end MethodEdit.Code
