import Mathlib.Data.List.Nodup
import Mathlib.Logic.Basic
import Mathlib.Tactic.SplitIfs
import MethodEdit.Code
import MethodEdit.Proofs.Edit

/-!
Where labels stand in a list of instructions, and how the edits of the list move them. Every edit
carries each label from its old position to a new one and adds labels at one position at most, so a
label that stood at one place only still does. Up to labels, an edit adds the instructions that it
is given and no others.
-/
namespace MethodEdit

def Instruction.bare (i : Instruction) : Instruction := { i with labels := [] }

namespace Code

variable {code new : Code} {label : Label} {position : Nat}

def Stands (code : Code) (label : Label) (position : Nat) : Prop :=
  ∃ i, code[position]? = some i ∧ label ∈ i.labels

theorem positionOf?_isSome_iff :
    (code.positionOf? label).isSome = true ↔ ∃ position, code.Stands label position := by
  rw [← Option.ne_none_iff_isSome, Ne, positionOf?_eq_none_iff]
  constructor
  · intro h
    simp only [not_forall, not_not] at h
    obtain ⟨i, hi, hl⟩ := h
    obtain ⟨position, hp⟩ := List.mem_iff_getElem?.1 hi
    exact ⟨position, i, hp, hl⟩
  · rintro ⟨position, i, hi, hl⟩ h
    exact h i (List.mem_of_getElem? hi) hl

theorem stands_of_positionOf? (h : code.positionOf? label = some position) :
    code.Stands label position := by
  obtain ⟨hlt, hl, _⟩ := List.findIdx?_eq_some_iff_getElem.1 h
  exact ⟨code[position], List.getElem?_eq_getElem hlt, by simpa using hl⟩

theorem ofInstructions_eq_ok_iff {instructions : List Instruction} :
    ofInstructions instructions = .ok code ↔
      (∀ i ∈ instructions, i.isValid = true) ∧ code = instructions := by
  unfold ofInstructions
  split
  · rename_i i hf
    have hi := List.find?_some hf
    have hm := List.mem_of_find?_eq_some hf
    refine ⟨nofun, fun h => ?_⟩
    simp [h.1 i hm] at hi
  · rename_i hf
    have hv : ∀ i ∈ instructions, i.isValid = true := by simpa using List.find?_eq_none.1 hf
    exact ⟨fun h => ⟨hv, (Except.ok.inj h).symm⟩, fun h => by rw [h.2]⟩

theorem mem_allLabels_of_stands (h : code.Stands label position) :
    label ∈ code.flatMap (·.allLabels) := by
  obtain ⟨i, hi, hl⟩ := h
  exact List.mem_flatMap.2 ⟨i, List.mem_of_getElem? hi, List.mem_append_left _ hl⟩

def Separate (code : Code) : Prop :=
  ∀ label p q, code.Stands label p → code.Stands label q → p = q

theorem Separate.positionOf?_eq_some_iff (h : code.Separate) :
    code.positionOf? label = some position ↔ code.Stands label position := by
  refine ⟨stands_of_positionOf?, fun hs => ?_⟩
  obtain ⟨p, hp⟩ := Option.isSome_iff_exists.1 (positionOf?_isSome_iff.2 ⟨position, hs⟩)
  rw [hp, h label p position (stands_of_positionOf? hp) hs]

theorem firstRepeated?_eq_none_iff {labels seen : List Label} :
    firstRepeated? seen labels = none ↔ labels.Nodup ∧ ∀ label ∈ labels, label ∉ seen := by
  induction labels generalizing seen with
  | nil => simp [firstRepeated?]
  | cons first rest ih =>
    unfold firstRepeated?
    by_cases hf : first ∈ seen
    · simp [hf]
    · rw [if_neg hf, ih, List.nodup_cons]
      constructor
      · intro ⟨hn, hs⟩
        refine ⟨⟨fun hm => hs first hm (by simp), hn⟩, fun label hl => ?_⟩
        cases hl with
        | head => exact hf
        | tail _ hl => exact fun hm => hs label hl (List.mem_cons_of_mem _ hm)
      · intro ⟨⟨hfirst, hn⟩, hs⟩
        refine ⟨hn, fun label hl hm => ?_⟩
        obtain rfl | hm := List.mem_cons.1 hm
        · exact hfirst hl
        · exact hs label (List.mem_cons_of_mem _ hl) hm

def Unrepeated (code : Code) : Prop := ∀ i ∈ code, i.labels.Nodup

theorem separate_iff_pairwise :
    code.Separate ↔ code.Pairwise fun i j => List.Disjoint i.labels j.labels := by
  rw [List.pairwise_iff_getElem]
  constructor
  · intro h p q hp hq hlt label hl hl'
    have heq := h label p q ⟨_, List.getElem?_eq_getElem hp, hl⟩
      ⟨_, List.getElem?_eq_getElem hq, hl'⟩
    omega
  · intro h label p q hp hq
    have hapart {p q : Nat} (hp : code.Stands label p) (hq : code.Stands label q) : ¬p < q := by
      intro hlt
      obtain ⟨i, hi, hl⟩ := hp
      obtain ⟨j, hj, hl'⟩ := hq
      obtain ⟨hi', rfl⟩ := List.getElem?_eq_some_iff.1 hi
      obtain ⟨hj', rfl⟩ := List.getElem?_eq_some_iff.1 hj
      exact h p q hi' hj' hlt hl hl'
    have h₁ := hapart hp hq
    have h₂ := hapart hq hp
    omega

theorem checkLabels_eq_ok_iff_nodup :
    code.checkLabels = .ok () ↔ (code.flatMap (·.labels)).Nodup := by
  unfold checkLabels
  cases hf : firstRepeated? [] (code.flatMap (·.labels)) with
  | none => simpa using (firstRepeated?_eq_none_iff.1 hf).1
  | some label =>
    refine ⟨nofun, fun hn => ?_⟩
    rw [firstRepeated?_eq_none_iff.2 ⟨hn, by simp⟩] at hf
    cases hf

theorem checkLabels_eq_ok_iff : code.checkLabels = .ok () ↔ code.Unrepeated ∧ code.Separate := by
  rw [checkLabels_eq_ok_iff_nodup, List.nodup_flatMap, separate_iff_pairwise]
  rfl

/-- The labels of the code went along with `φ`, and the fresh ones were placed at the position. -/
def Relabelled (φ : Nat → Nat) (fresh : List Label) (position : Nat) (code new : Code) : Prop :=
  ∀ label q, new.Stands label q ↔
    (∃ p, code.Stands label p ∧ q = φ p) ∨ label ∈ fresh ∧ q = position

namespace Relabelled

variable {φ : Nat → Nat} {fresh : List Label}

theorem placed_iff (h : Relabelled φ fresh position code new) :
    (∃ q, new.Stands label q) ↔ (∃ p, code.Stands label p) ∨ label ∈ fresh := by
  constructor
  · rintro ⟨q, hq⟩
    obtain ⟨p, hp, _⟩ | ⟨hf, _⟩ := (h label q).1 hq
    · exact .inl ⟨p, hp⟩
    · exact .inr hf
  · rintro (⟨p, hp⟩ | hf)
    · exact ⟨φ p, (h label _).2 (.inl ⟨p, hp, rfl⟩)⟩
    · exact ⟨position, (h label _).2 (.inr ⟨hf, rfl⟩)⟩

theorem trans {mid : Code} {ψ : Nat → Nat} {other : Nat}
    (h₁ : Relabelled φ fresh position code mid) (h₂ : Relabelled ψ [] other mid new) :
    Relabelled (fun p => ψ (φ p)) fresh (ψ position) code new := by
  intro label q
  rw [h₂ label q]
  simp only [List.not_mem_nil, false_and, or_false]
  constructor
  · intro hq
    obtain ⟨m, hm, rfl⟩ := hq
    obtain ⟨p, hp, rfl⟩ | ⟨hf, rfl⟩ := (h₁ label m).1 hm
    · exact .inl ⟨p, hp, rfl⟩
    · exact .inr ⟨hf, rfl⟩
  · intro hq
    obtain ⟨p, hp, rfl⟩ | ⟨hf, rfl⟩ := hq
    · exact ⟨φ p, (h₁ label _).2 (.inl ⟨p, hp, rfl⟩), rfl⟩
    · exact ⟨position, (h₁ label _).2 (.inr ⟨hf, rfl⟩), rfl⟩

theorem separate (h : Relabelled φ fresh position code new) (hs : code.Separate)
    (hf : ∀ label ∈ fresh, ∀ p, code.Stands label p → φ p = position) : new.Separate := by
  intro label q r hq hr
  obtain ⟨p, hp, rfl⟩ | ⟨hl, rfl⟩ := (h label q).1 hq
  · obtain ⟨p', hp', rfl⟩ | ⟨hl, rfl⟩ := (h label r).1 hr
    · rw [hs label p p' hp hp']
    · exact hf label hl p hp
  · obtain ⟨p', hp', rfl⟩ | ⟨_, rfl⟩ := (h label r).1 hr
    · exact (hf label hl p' hp').symm
    · rfl

theorem positionOf?_eq (h : Relabelled φ [] position code new) (hs : code.Separate)
    (label : Label) : new.positionOf? label = (code.positionOf? label).map φ := by
  have hnew : new.Separate := h.separate hs (by simp)
  refine Option.ext fun q => ?_
  rw [hnew.positionOf?_eq_some_iff, h label q, Option.map_eq_some_iff]
  simp only [List.not_mem_nil, false_and, or_false, hs.positionOf?_eq_some_iff, eq_comm]

end Relabelled

/-- Where a position of the code is found after `count` instructions were inserted at `start`. -/
def shifted (start count position : Nat) : Nat :=
  if position < start then position else position + count

def splice (code : Code) (start : Nat) (block : Code) : Code :=
  code.take start ++ block ++ code.drop start

theorem splice_nil (code : Code) (start : Nat) : code.splice start [] = code := by
  simp [splice]

theorem length_splice (code : Code) (start : Nat) (block : Code) :
    (code.splice start block).length = code.length + block.length := by
  simp only [splice, List.length_append, List.length_take, List.length_drop]
  omega

theorem getElem?_splice {start : Nat} (h : start ≤ code.length) (block : Code) (q : Nat) :
    (code.splice start block)[q]? =
      if q < start then code[q]?
      else if q < start + block.length then block[q - start]?
      else code[q - block.length]? := by
  have htake : (code.take start).length = start := by
    rw [List.length_take]
    omega
  rw [splice, List.append_assoc, List.getElem?_append, htake, List.getElem?_append]
  split_ifs with h₁ h₂ h₃ h₃
  · rw [List.getElem?_take_of_lt h₁]
  · rfl
  · omega
  · omega
  · rw [List.getElem?_drop]
    congr 1
    omega

theorem getElem?_splice_shifted {start : Nat} (h : start ≤ code.length) (block : Code) (p : Nat) :
    (code.splice start block)[shifted start block.length p]? = code[p]? := by
  rw [getElem?_splice h, shifted]
  by_cases hp : p < start
  · rw [if_pos hp, if_pos hp]
  · rw [if_neg hp, if_neg (by omega), if_neg (by omega), Nat.add_sub_cancel]

theorem getElem?_splice_block {start : Nat} (h : start ≤ code.length) {block : Code} {n : Nat}
    (hn : n < block.length) : (code.splice start block)[start + n]? = block[n]? := by
  rw [getElem?_splice h, if_neg (by omega), if_pos (by omega), Nat.add_sub_cancel_left]

theorem insertIdx_eq_splice {start : Nat} (h : start ≤ code.length) (i : Instruction) :
    code.insertIdx start i = code.splice start [i] := by
  refine List.ext_getElem? fun q => ?_
  rw [List.getElem?_insertIdx, getElem?_splice h, List.length_singleton]
  split_ifs with h₁ h₂ h₃ h₄ h₄
  · rfl
  · simp [h₂]
  · omega
  · omega
  · omega
  · omega
  · rfl

theorem splice_splice {start : Nat} (h : start ≤ code.length) (first rest : Code) :
    (code.splice start first).splice (start + first.length) rest =
      code.splice start (first ++ rest) := by
  have htake : (code.take start ++ first).length = start + first.length := by
    rw [List.length_append, List.length_take]
    omega
  simp only [splice]
  rw [← htake, List.take_left, List.drop_left]
  simp

theorem splice_append (done rest block : Code) :
    splice (done ++ rest) done.length block = done ++ block ++ rest := by
  simp [splice]

theorem stands_splice {start : Nat} (h : start ≤ code.length) (block : Code) (label : Label)
    (q : Nat) :
    (code.splice start block).Stands label q ↔
      (∃ p, code.Stands label p ∧ q = shifted start block.length p) ∨
      (∃ p, block.Stands label p ∧ q = start + p) := by
  simp only [Stands, getElem?_splice h, shifted]
  constructor
  · rintro ⟨i, hi, hl⟩
    split_ifs at hi with h₁ h₂
    · exact .inl ⟨q, ⟨i, hi, hl⟩, by rw [if_pos h₁]⟩
    · exact .inr ⟨q - start, ⟨i, hi, hl⟩, by omega⟩
    · exact .inl ⟨q - block.length, ⟨i, hi, hl⟩, by rw [if_neg (by omega)]; omega⟩
  · rintro (⟨p, ⟨i, hi, hl⟩, rfl⟩ | ⟨p, ⟨i, hi, hl⟩, rfl⟩)
    · refine ⟨i, ?_, hl⟩
      by_cases h₁ : p < start
      · rw [if_pos h₁, if_pos h₁]
        exact hi
      · rw [if_neg h₁, if_neg (by omega), if_neg (by omega), Nat.add_sub_cancel]
        exact hi
    · have hp := (List.getElem?_eq_some_iff.1 hi).1
      refine ⟨i, ?_, hl⟩
      rw [if_neg (by omega), if_pos (by omega), Nat.add_sub_cancel_left]
      exact hi

theorem relabelled_splice {start : Nat} (h : start ≤ code.length) {block : Code}
    (hb : ∀ i ∈ block, i.labels = []) :
    Relabelled (shifted start block.length) [] start code (code.splice start block) := by
  intro label q
  rw [stands_splice h]
  refine or_congr Iff.rfl ⟨?_, fun hf => absurd hf.1 (by simp)⟩
  rintro ⟨p, ⟨i, hi, hl⟩, _⟩
  rw [hb i (List.mem_of_getElem? hi)] at hl
  simp at hl

theorem relabelled_splice_one {start : Nat} (h : start ≤ code.length) (i : Instruction) :
    Relabelled (shifted start 1) i.labels start code (code.splice start [i]) := by
  intro label q
  rw [stands_splice h]
  refine or_congr Iff.rfl ?_
  constructor
  · rintro ⟨p, ⟨j, hj, hl⟩, rfl⟩
    rw [List.getElem?_singleton] at hj
    split_ifs at hj with hp
    cases hj
    exact ⟨hl, by omega⟩
  · rintro ⟨hl, rfl⟩
    exact ⟨0, ⟨i, rfl, hl⟩, rfl⟩

theorem at?_eq_ok_iff {i : Instruction} : code.at? position = .ok i ↔ code[position]? = some i := by
  unfold at?
  split
  · rename_i h
    simp [h]
  · rename_i h
    simp [h]

theorem insertAt_eq_ok_iff {i : Instruction} :
    code.insertAt position i = .ok new ↔
      position ≤ code.length ∧ i.isValid = true ∧ new = code.splice position [i] := by
  unfold insertAt
  by_cases hp : position ≤ code.length
  · simp only [if_pos hp, bind_eq_ok_iff, lift_eq_ok_iff, Instruction.validate_eq_ok_iff,
      ← insertIdx_eq_splice hp]
    exact ⟨fun ⟨_, hv, hn⟩ => ⟨hp, hv, (Except.ok.inj hn).symm⟩,
      fun ⟨_, hv, hn⟩ => ⟨(), hv, by rw [hn]; rfl⟩⟩
  · simp [hp]

theorem insertBeside_eq_ok_iff {i : Instruction} {start found : Nat} :
    (do let _ ← code.at? position; return (position + 1, ← code.insertAt start i) :
      Except EditError (Nat × Code)) = .ok (found, new) ↔
      position < code.length ∧ code.insertAt start i = .ok new ∧ found = position + 1 := by
  simp only [bind_eq_ok_iff, at?_eq_ok_iff]
  constructor
  · rintro ⟨j, hj, _, hi, ⟨⟩⟩
    exact ⟨(List.getElem?_eq_some_iff.1 hj).1, hi, rfl⟩
  · rintro ⟨hlt, hi, rfl⟩
    exact ⟨code[position], List.getElem?_eq_getElem hlt, new, hi, rfl⟩

theorem insertBefore_eq_ok_iff {i : Instruction} {moved : Nat} :
    code.insertBefore position i = .ok (moved, new) ↔
      position < code.length ∧ code.insertAt position i = .ok new ∧ moved = position + 1 :=
  insertBeside_eq_ok_iff

theorem insertAfter_eq_ok_iff {i : Instruction} {placed : Nat} :
    code.insertAfter position i = .ok (placed, new) ↔
      position < code.length ∧ code.insertAt (position + 1) i = .ok new ∧ placed = position + 1 :=
  insertBeside_eq_ok_iff

theorem rewriteAt_eq_ok_iff {opcode : Opcode} {operand : Operand} :
    code.rewriteAt position opcode operand = .ok new ↔
      opcode.accepts operand = true ∧
      ∃ i, code[position]? = some i ∧ new = code.set position { i with opcode, operand } := by
  simp only [rewriteAt, bind_eq_ok_iff, lift_eq_ok_iff, Instruction.make_eq_ok_iff, at?_eq_ok_iff]
  constructor
  · rintro ⟨i, hi, _, ⟨ha, rfl⟩, ⟨⟩⟩
    exact ⟨ha, i, hi, rfl⟩
  · rintro ⟨ha, i, hi, rfl⟩
    exact ⟨i, hi, _, ⟨ha, rfl⟩, rfl⟩

theorem relabelled_set {i : Instruction} (hi : code[position]? = some i) {j : Instruction}
    (hj : j.labels = i.labels) : Relabelled id [] position code (code.set position j) := by
  have hlt := (List.getElem?_eq_some_iff.1 hi).1
  intro label q
  have hset : Stands (code.set position j) label q ↔ code.Stands label q := by
    by_cases hq : position = q
    · subst hq
      simp [Stands, List.getElem?_set_self hlt, hi, hj]
    · simp [Stands, List.getElem?_set_ne hq]
  simp [hset]

theorem attachLabel_eq_ok_iff :
    code.attachLabel position label = .ok new ↔
      (code.positionOf? label = some position ∧ new = code) ∨
      (code.positionOf? label = none ∧ position < code.length ∧
        new = code.modify position fun i => { i with labels := i.labels ++ [label] }) := by
  simp only [attachLabel, bind_eq_ok_iff, at?_eq_ok_iff]
  constructor
  · rintro ⟨i, hi, h⟩
    split at h
    · rename_i p hp
      split_ifs at h with heq
      cases h
      exact .inl ⟨heq ▸ hp, rfl⟩
    · rename_i hp
      cases h
      exact .inr ⟨hp, (List.getElem?_eq_some_iff.1 hi).1, rfl⟩
  · rintro (⟨hp, rfl⟩ | ⟨hp, hlt, rfl⟩)
    · obtain ⟨i, hi, _⟩ := stands_of_positionOf? hp
      exact ⟨i, hi, by simp [hp]; rfl⟩
    · exact ⟨code[position], List.getElem?_eq_getElem hlt, by simp [hp]; rfl⟩

theorem length_attachLabel (h : code.attachLabel position label = .ok new) :
    new.length = code.length := by
  obtain ⟨_, rfl⟩ | ⟨_, _, rfl⟩ := attachLabel_eq_ok_iff.1 h
  · rfl
  · exact List.length_modify _ _ _

theorem modify_append_cons (done rest : Code) (i : Instruction) (f : Instruction → Instruction) :
    (done ++ i :: rest).modify done.length f = done ++ f i :: rest := by
  rw [List.modify_eq_set_getElem?]
  simp

theorem stands_modify (f : Instruction → Instruction) (q : Nat) :
    Stands (code.modify position f) label q ↔
      ∃ i, code[q]? = some i ∧ label ∈ (if position = q then f i else i).labels := by
  simp only [Stands, List.getElem?_modify, Option.map_eq_map, Option.map_eq_some_iff]
  constructor
  · rintro ⟨_, ⟨i, hi, rfl⟩, hl⟩
    exact ⟨i, hi, hl⟩
  · rintro ⟨i, hi, hl⟩
    exact ⟨_, ⟨i, hi, rfl⟩, hl⟩

theorem relabelled_attach (hlt : position < code.length) :
    Relabelled id [label] position code
      (code.modify position fun i => { i with labels := i.labels ++ [label] }) := by
  intro other q
  rw [stands_modify]
  constructor
  · rintro ⟨i, hi, hl⟩
    split_ifs at hl with hq
    · obtain hl | hl := List.mem_append.1 hl
      · exact .inl ⟨q, ⟨i, hi, hl⟩, rfl⟩
      · exact .inr ⟨hl, hq.symm⟩
    · exact .inl ⟨q, ⟨i, hi, hl⟩, rfl⟩
  · rintro (⟨p, ⟨i, hi, hl⟩, rfl⟩ | ⟨hl, rfl⟩)
    · refine ⟨i, hi, ?_⟩
      split_ifs
      · exact List.mem_append_left _ hl
      · exact hl
    · refine ⟨code[q], List.getElem?_eq_getElem hlt, ?_⟩
      rw [if_pos rfl]
      exact List.mem_append_right _ hl

theorem relabelled_attachLabel (h : code.attachLabel position label = .ok new) :
    Relabelled id [label] position code new := by
  obtain ⟨hp, rfl⟩ | ⟨_, hlt, rfl⟩ := attachLabel_eq_ok_iff.1 h
  · intro other q
    simp only [id_eq, exists_eq_right', List.mem_singleton]
    refine ⟨.inl, ?_⟩
    rintro (hs | ⟨rfl, rfl⟩)
    · exact hs
    · exact stands_of_positionOf? hp
  · exact relabelled_attach hlt

theorem eq_of_attachLabel (hs : code.Separate) (h : code.attachLabel position label = .ok new)
    {p : Nat} (hp : code.Stands label p) : p = position := by
  obtain ⟨hpos, _⟩ | ⟨hpos, _⟩ := attachLabel_eq_ok_iff.1 h
  · exact hs label p position hp (stands_of_positionOf? hpos)
  · have hsome := positionOf?_isSome_iff.2 ⟨p, hp⟩
    rw [hpos] at hsome
    cases hsome

theorem getElem?_attachLabel_of_ne (h : code.attachLabel position label = .ok new) {p : Nat}
    (hp : p ≠ position) : new[p]? = code[p]? := by
  obtain ⟨_, rfl⟩ | ⟨_, _, rfl⟩ := attachLabel_eq_ok_iff.1 h
  · rfl
  · exact List.getElem?_modify_ne _ _ (Ne.symm hp)

theorem moveLabels_eq_ok_iff {source target : Nat} :
    code.moveLabels source target = .ok new ↔
      ∃ i, code[source]? = some i ∧ target < code.length ∧
        new = if source = target then code
          else (code.modify source fun i => { i with labels := [] }).modify target fun j =>
            { j with labels := mergeLabels j.labels i.labels } := by
  simp only [moveLabels, bind_eq_ok_iff, at?_eq_ok_iff]
  constructor
  · rintro ⟨i, hi, j, hj, h⟩
    refine ⟨i, hi, (List.getElem?_eq_some_iff.1 hj).1, ?_⟩
    split_ifs at h ⊢
    · exact (Except.ok.inj h).symm
    · exact (Except.ok.inj h).symm
  · rintro ⟨i, hi, hlt, rfl⟩
    refine ⟨i, hi, code[target], List.getElem?_eq_getElem hlt, ?_⟩
    split_ifs <;> rfl

theorem length_moveLabels {source target : Nat} (h : code.moveLabels source target = .ok new) :
    new.length = code.length := by
  obtain ⟨i, _, _, rfl⟩ := moveLabels_eq_ok_iff.1 h
  split_ifs
  · rfl
  · rw [List.length_modify, List.length_modify]

theorem relabelled_moveLabels {source target : Nat} (h : code.moveLabels source target = .ok new) :
    Relabelled (fun p => if p = source then target else p) [] target code new := by
  obtain ⟨i, hi, hlt, rfl⟩ := moveLabels_eq_ok_iff.1 h
  intro label q
  simp only [List.not_mem_nil, false_and, or_false]
  split_ifs with heq
  · subst heq
    constructor
    · intro hs
      exact ⟨q, hs, by split_ifs <;> omega⟩
    · rintro ⟨p, hs, rfl⟩
      split_ifs with hp
      · exact hp ▸ hs
      · exact hs
  · rw [stands_modify]
    constructor
    · rintro ⟨k, hk, hl⟩
      rw [List.getElem?_modify, Option.map_eq_map, Option.map_eq_some_iff] at hk
      obtain ⟨k₀, hk₀, rfl⟩ := hk
      split_ifs at hl with ht hs hs
      · omega
      · -- at the target, the label was there or comes from the source
        obtain hl | hl := mem_mergeLabels.1 hl
        · exact ⟨q, ⟨k₀, hk₀, hl⟩, by rw [if_neg (Ne.symm hs)]⟩
        · exact ⟨source, ⟨i, hi, hl⟩, by rw [if_pos rfl, ht]⟩
      · simp at hl
      · exact ⟨q, ⟨k₀, hk₀, hl⟩, by rw [if_neg (Ne.symm hs)]⟩
    · rintro ⟨p, ⟨k, hk, hl⟩, rfl⟩
      by_cases hp : p = source
      · subst hp
        cases hi.symm.trans hk
        rw [if_pos rfl]
        refine ⟨code[target], ?_, ?_⟩
        · rw [List.getElem?_modify, List.getElem?_eq_getElem hlt]
          simp [heq]
        · rw [if_pos rfl]
          exact mem_mergeLabels.2 (.inr hl)
      · rw [if_neg hp]
        refine ⟨k, ?_, ?_⟩
        · rw [List.getElem?_modify, hk]
          simp [Ne.symm hp]
        · split_ifs
          · exact mem_mergeLabels.2 (.inl hl)
          · exact hl

/-- Where a position of the code is found after the instruction at `gone` was removed. The position
itself goes to the instruction behind. -/
def closedUp (gone position : Nat) : Nat := if position ≤ gone then position else position - 1

theorem removeAt_eq_ok_iff {i : Instruction} :
    code.removeAt position = .ok (i, new) ↔
      ∃ removed, code[position]? = some removed ∧ i = removed.bare ∧
        (removed.labels = [] ∨ position + 1 ≠ code.length) ∧
        new = (code.eraseIdx position).modify position fun next =>
          { next with labels := mergeLabels next.labels removed.labels } := by
  simp only [removeAt, bind_eq_ok_iff, at?_eq_ok_iff]
  constructor
  · rintro ⟨removed, hr, h⟩
    split_ifs at h with hc
    · cases h
    · cases h
      refine ⟨removed, hr, rfl, ?_, rfl⟩
      by_cases hl : removed.labels = []
      · exact .inl hl
      · exact .inr (by simpa [hl] using hc)
  · rintro ⟨removed, hr, rfl, hc, rfl⟩
    refine ⟨removed, hr, ?_⟩
    have hc' : ¬(!removed.labels.isEmpty && position + 1 == code.length) = true := by
      obtain hc | hc := hc
      · simp [hc]
      · simp [hc]
    rw [if_neg hc']
    rfl

theorem length_removeAt {i : Instruction} (h : code.removeAt position = .ok (i, new)) :
    new.length + 1 = code.length := by
  obtain ⟨removed, hr, _, _, rfl⟩ := removeAt_eq_ok_iff.1 h
  have hlt := (List.getElem?_eq_some_iff.1 hr).1
  rw [List.length_modify, List.length_eraseIdx_of_lt hlt]
  omega

theorem relabelled_removeAt {i : Instruction} (h : code.removeAt position = .ok (i, new)) :
    Relabelled (closedUp position) [] position code new := by
  obtain ⟨removed, hr, _, hc, rfl⟩ := removeAt_eq_ok_iff.1 h
  have hlt := (List.getElem?_eq_some_iff.1 hr).1
  intro label q
  simp only [List.not_mem_nil, false_and, or_false, closedUp]
  rw [stands_modify]
  simp only [List.getElem?_eraseIdx]
  constructor
  · rintro ⟨k, hk, hl⟩
    split_ifs at hk hl with h₁ h₂ h₂
    · omega
    · exact ⟨q, ⟨k, hk, hl⟩, by rw [if_pos (by omega)]⟩
    · obtain hl | hl := mem_mergeLabels.1 hl
      · exact ⟨q + 1, ⟨k, hk, hl⟩, by rw [if_neg (by omega)]; omega⟩
      · exact ⟨q, ⟨removed, h₂ ▸ hr, hl⟩, by rw [if_pos (by omega)]⟩
    · exact ⟨q + 1, ⟨k, hk, hl⟩, by rw [if_neg (by omega)]; omega⟩
  · rintro ⟨p, ⟨k, hk, hl⟩, rfl⟩
    have hp := (List.getElem?_eq_some_iff.1 hk).1
    obtain hlt' | rfl | hgt := Nat.lt_trichotomy p position
    · rw [if_pos (Nat.le_of_lt hlt'), if_pos hlt']
      refine ⟨k, hk, ?_⟩
      rw [if_neg (Nat.ne_of_gt hlt')]
      exact hl
    · -- the labels of the removed instruction go to the one behind it, which is there
      cases hr.symm.trans hk
      have hlast : p + 1 < code.length := by
        obtain hc | hc := hc
        · simp [hc] at hl
        · omega
      rw [if_pos (Nat.le_refl p), if_neg (Nat.lt_irrefl p)]
      refine ⟨code[p + 1], List.getElem?_eq_getElem hlast, ?_⟩
      rw [if_pos rfl]
      exact mem_mergeLabels.2 (.inr hl)
    · have hge : ¬p - 1 < position := by omega
      rw [if_neg (Nat.not_le_of_gt hgt), if_neg hge, Nat.sub_add_cancel (by omega)]
      refine ⟨k, hk, ?_⟩
      split_ifs
      · exact mem_mergeLabels.2 (.inl hl)
      · exact hl

/-- Up to labels, each instruction of the new code is in the old one or among some others. -/
def DrawnFrom (code more new : Code) : Prop := ∀ j ∈ new, ∃ i ∈ code ++ more, j.bare = i.bare

namespace DrawnFrom

variable {more : Code}

theorem valid (h : DrawnFrom code more new) (hc : ∀ i ∈ code, i.isValid = true)
    (hm : ∀ i ∈ more, i.isValid = true) : ∀ i ∈ new, i.isValid = true := by
  intro j hj
  obtain ⟨i, hi, heq⟩ := h j hj
  change j.bare.isValid = true
  rw [heq]
  exact (List.mem_append.1 hi).elim (hc i) (hm i)

theorem mem_targets (h : DrawnFrom code more new) (hl : label ∈ new.targets) :
    label ∈ code.targets ∨ label ∈ more.targets := by
  obtain ⟨j, hj, hl⟩ := List.mem_flatMap.1 hl
  obtain ⟨i, hi, heq⟩ := h j hj
  have hl' : label ∈ i.targets := by
    change label ∈ i.bare.targets
    rw [← heq]
    exact hl
  obtain hi | hi := List.mem_append.1 hi
  · exact .inl (List.mem_flatMap.2 ⟨i, hi, hl'⟩)
  · exact .inr (List.mem_flatMap.2 ⟨i, hi, hl'⟩)

end DrawnFrom

theorem drawnFrom_splice (code : Code) (start : Nat) (block : Code) :
    DrawnFrom code block (code.splice start block) := by
  intro j hj
  refine ⟨j, ?_, rfl⟩
  simp only [splice, List.mem_append] at hj ⊢
  obtain (hj | hj) | hj := hj
  · exact .inl (List.mem_of_mem_take hj)
  · exact .inr hj
  · exact .inl (List.mem_of_mem_drop hj)

theorem drawnFrom_set (code : Code) (position : Nat) (i : Instruction) :
    DrawnFrom code [i] (code.set position i) := by
  intro j hj
  refine ⟨j, List.mem_append.2 ?_, rfl⟩
  exact (List.mem_or_eq_of_mem_set hj).imp_right List.mem_singleton.2

theorem drawnFrom_modify (code : Code) (position : Nat) (labels : Instruction → List Label) :
    DrawnFrom code [] (code.modify position fun i => { i with labels := labels i }) := by
  intro j hj
  obtain ⟨q, hq⟩ := List.mem_iff_getElem?.1 hj
  rw [List.getElem?_modify, Option.map_eq_map, Option.map_eq_some_iff] at hq
  obtain ⟨i, hi, rfl⟩ := hq
  refine ⟨i, List.mem_append_left _ (List.mem_of_getElem? hi), ?_⟩
  split_ifs <;> rfl

theorem DrawnFrom.trans {later : Code} (h₁ : DrawnFrom code [] new) (h₂ : DrawnFrom new [] later) :
    DrawnFrom code [] later := by
  intro k hk
  obtain ⟨j, hj, hkj⟩ := h₂ k hk
  obtain ⟨i, hi, hji⟩ := h₁ j (by simpa using hj)
  exact ⟨i, hi, hkj.trans hji⟩

theorem drawnFrom_attachLabel (h : code.attachLabel position label = .ok new) :
    DrawnFrom code [] new := by
  obtain ⟨_, rfl⟩ | ⟨_, _, rfl⟩ := attachLabel_eq_ok_iff.1 h
  · exact fun j hj => ⟨j, by simpa using hj, rfl⟩
  · exact drawnFrom_modify code position _

theorem drawnFrom_moveLabels {source target : Nat} (h : code.moveLabels source target = .ok new) :
    DrawnFrom code [] new := by
  obtain ⟨i, _, _, rfl⟩ := moveLabels_eq_ok_iff.1 h
  split_ifs
  · exact fun j hj => ⟨j, by simpa using hj, rfl⟩
  · exact (drawnFrom_modify code source _).trans
      (drawnFrom_modify _ target _)

theorem drawnFrom_removeAt {i : Instruction} (h : code.removeAt position = .ok (i, new)) :
    DrawnFrom code [] new := by
  obtain ⟨removed, _, _, _, rfl⟩ := removeAt_eq_ok_iff.1 h
  have herase : DrawnFrom code [] (code.eraseIdx position) := by
    intro j hj
    exact ⟨j, by simpa using List.mem_of_mem_eraseIdx hj, rfl⟩
  exact herase.trans (drawnFrom_modify _ position _)

end Code

end MethodEdit
