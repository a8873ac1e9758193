import MethodEdit.Proofs.Code.Placement

/-!
Control flow between the positions of a list of instructions, and what becomes of it when a block
without labels is put in. No jump leads into the block, and the jumps of the old instructions lead
where they led before.
-/
namespace MethodEdit

theorem Instruction.bare_eq_iff {i j : Instruction} :
    i.bare = j.bare ↔ i.opcode = j.opcode ∧ i.operand = j.operand := by
  simp [bare]

def Opcode.passes (op : Opcode) : Bool :=
  match op.flow with
  | .next | .condBranch | .call => true
  | .branch | .ret | .raise => false

/-- Control goes on to the instruction behind, and nowhere else if two-way branches jump, or if they
do not. -/
def Instruction.Passes (jump : Bool) (i : Instruction) : Prop :=
  i.opcode.passes = true ∧ if i.opcode.isConditionalBranch then jump = false else i.targets = []

namespace Code

variable {code new : Code} {label : Label} {position : Nat}

def bare (code : Code) : Code := code.map Instruction.bare

theorem getElem?_bare (code : Code) (p : Nat) :
    code.bare[p]? = code[p]?.map Instruction.bare := List.getElem?_map

theorem bare_splice (code : Code) (start : Nat) (block : Code) :
    (code.splice start block).bare = code.bare.splice start block.bare := by
  simp [bare, splice, List.map_take, List.map_drop]

theorem bare_set (code : Code) (position : Nat) (i : Instruction) :
    Code.bare (code.set position i) = code.bare.set position i.bare := List.map_set

theorem bare_modify (code : Code) (position : Nat) (labels : Instruction → List Label) :
    Code.bare (code.modify position fun i => { i with labels := labels i }) = code.bare := by
  refine List.ext_getElem? fun p => ?_
  rw [getElem?_bare, getElem?_bare, List.getElem?_modify, Option.map_eq_map, Option.map_map]
  congr 1
  funext i
  simp only [Function.comp_apply]
  split <;> rfl

theorem bare_attachLabel (h : code.attachLabel position label = .ok new) :
    new.bare = code.bare := by
  obtain ⟨_, rfl⟩ | ⟨_, _, rfl⟩ := attachLabel_eq_ok_iff.1 h
  · rfl
  · exact bare_modify code position _

theorem bare_moveLabels {source target : Nat} (h : code.moveLabels source target = .ok new) :
    new.bare = code.bare := by
  obtain ⟨i, _, _, rfl⟩ := moveLabels_eq_ok_iff.1 h
  split
  · rfl
  · exact (bare_modify _ target _).trans (bare_modify code source _)

def Falls (code : Code) (p q : Nat) : Prop :=
  (∃ i, code[p]? = some i ∧ i.opcode.passes = true) ∧ q = p + 1 ∧ q < code.length

def Jumps (code : Code) (p q : Nat) : Prop :=
  ∃ i, code[p]? = some i ∧ ∃ label ∈ i.targets, code.positionOf? label = some q

def Follows (code : Code) (p q : Nat) : Prop := code.Falls p q ∨ code.Jumps p q

/-- Control goes from one position to the other if two-way branches jump, or if they do not. -/
def Takes (code : Code) (jump : Bool) (p q : Nat) : Prop :=
  ∃ i, code[p]? = some i ∧
    if i.opcode.isConditionalBranch then if jump then code.Jumps p q else code.Falls p q
    else code.Follows p q

section

variable {i : Instruction} {p q : Nat}

theorem falls_iff (hi : code[p]? = some i) :
    code.Falls p q ↔ i.opcode.passes = true ∧ q = p + 1 ∧ q < code.length := by
  simp [Falls, hi]

theorem jumps_iff (hi : code[p]? = some i) :
    code.Jumps p q ↔ ∃ label ∈ i.targets, code.positionOf? label = some q := by
  simp [Jumps, hi]

theorem takes_iff_of_isConditionalBranch (hi : code[p]? = some i)
    (hc : i.opcode.isConditionalBranch = true) (jump : Bool) :
    code.Takes jump p q ↔ if jump then code.Jumps p q else code.Falls p q := by
  simp [Takes, hi, hc]

theorem jumps_iff_of_target (hi : code[p]? = some i) (ho : i.operand = .target label) :
    code.Jumps p q ↔ code.positionOf? label = some q := by
  simp [jumps_iff hi, Instruction.targets, ho, Operand.targets]

theorem takes_true_iff (hi : code[p]? = some i) (hc : i.opcode.isConditionalBranch = true)
    (ho : i.operand = .target label) :
    code.Takes true p q ↔ code.positionOf? label = some q := by
  rw [takes_iff_of_isConditionalBranch hi hc, if_pos rfl, jumps_iff_of_target hi ho]

theorem takes_iff_of_passes {jump : Bool} (hi : code[p]? = some i) (h : i.Passes jump)
    (hp : p + 1 < code.length) : code.Takes jump p q ↔ q = p + 1 := by
  obtain ⟨hpass, hjump⟩ := h
  have hfalls : code.Falls p q ↔ q = p + 1 := by
    rw [falls_iff hi]
    constructor
    · exact fun hq => hq.2.1
    · rintro rfl
      exact ⟨hpass, rfl, hp⟩
  cases hc : i.opcode.isConditionalBranch with
  | true =>
    rw [hc, if_pos rfl] at hjump
    rw [takes_iff_of_isConditionalBranch hi hc, hjump, if_neg nofun, hfalls]
  | false =>
    rw [hc, if_neg nofun] at hjump
    simp [Takes, hi, hc, Follows, hfalls, jumps_iff hi, hjump]

end

/-- Control that is at one position cannot but come to the other. -/
inductive Arrives (code : Code) (jump : Bool) : Nat → Nat → Prop where
  | here (p : Nat) : Arrives code jump p p
  | step {p m q : Nat} (h : ∀ r, code.Takes jump p r ↔ r = m) (hrest : Arrives code jump m q) :
      Arrives code jump p q

theorem Arrives.trans {jump : Bool} {p m q : Nat} (h₁ : code.Arrives jump p m)
    (h₂ : code.Arrives jump m q) : code.Arrives jump p q := by
  induction h₁ with
  | here => exact h₂
  | step h _ ih => exact .step h (ih h₂)

def Holds (code : Code) (start : Nat) (block : Code) : Prop :=
  ∀ n i, block[n]? = some i → code[start + n]? = some i

theorem Holds.tail {start : Nat} {i : Instruction} {rest : Code}
    (h : code.Holds start (i :: rest)) : code.Holds (start + 1) rest := by
  intro n j hj
  rw [Nat.add_right_comm]
  exact h (n + 1) j hj

theorem Holds.getElem? {start : Nat} {first rest : Code} {i : Instruction}
    (h : code.Holds start (first ++ i :: rest)) : code[start + first.length]? = some i :=
  h first.length i (by simp)

theorem Holds.arrives {start : Nat} {jump : Bool} {first rest : Code}
    (h : code.Holds start (first ++ rest)) (hfirst : ∀ i ∈ first, i.Passes jump)
    (hrest : rest ≠ []) : code.Arrives jump start (start + first.length) := by
  induction first generalizing start with
  | nil => exact .here start
  | cons i more ih =>
    obtain ⟨hi, hmore⟩ := List.forall_mem_cons.1 hfirst
    have htail : code.Holds (start + 1) (more ++ rest) := h.tail
    have hnext : start + 1 < code.length := by
      have hne : more ++ rest ≠ [] := by simp [hrest]
      obtain ⟨j, others, hj⟩ := List.exists_cons_of_ne_nil hne
      have hat := htail 0 j (by rw [hj]; rfl)
      exact (List.getElem?_eq_some_iff.1 hat).1
    refine .step (fun r => takes_iff_of_passes (h 0 i rfl) hi hnext) ?_
    rw [List.length_cons, Nat.add_comm more.length, ← Nat.add_assoc]
    exact ih htail hmore

/-- Room was made for `count` instructions at `start`. The instructions at the positions to keep are
found unchanged in their new places, together with their labels and jumps, and control comes into
the new room only from the instruction in front of it. -/
structure Widened (start count : Nat) (kept : Nat → Prop) (code new : Code) : Prop where
  length : new.length = code.length + count
  instruction : ∀ p i, kept p → code[p]? = some i → ∃ j, new[shifted start count p]? = some j ∧
    j.opcode = i.opcode ∧ j.operand = i.operand
  label : ∀ label p, code.Stands label p → ∀ q, new.Stands label q ↔ q = shifted start count p
  unlabelled : ∀ q, start ≤ q → q < start + count → ∃ i, new[q]? = some i ∧ i.labels = []
  entered : ∀ p q, start ≤ q → q < start + count →
    ¬new.Jumps p q ∧ (new.Follows p q → p + 1 = q)
  jumps : ∀ p q, kept p → (new.Jumps (shifted start count p) q ↔
    ∃ target, code.Jumps p target ∧ q = shifted start count target)
  falls : ∀ p, kept p → p + 1 ≠ start →
    (new.Falls (shifted start count p) (shifted start count (p + 1)) ↔ code.Falls p (p + 1))

/-- What an edit that makes room does: it moves the labels along, it leaves the instructions as they
are, and the labels that come with it are not those that the code refers to. -/
structure Carried (start count : Nat) (kept : Nat → Prop) (fresh : List Label) (position : Nat)
    (code new : Code) : Prop where
  start_le : start ≤ code.length
  length : new.length = code.length + count
  bare : ∀ p, kept p → new.bare[shifted start count p]? = code.bare[p]?
  labels : Relabelled (shifted start count) fresh position code new
  unused : ∀ label ∈ fresh, label ∉ code.targets ∧ ∀ p, ¬code.Stands label p
  outside : ∀ label ∈ fresh, position < start ∨ start + count ≤ position

namespace Carried

variable {start count : Nat} {kept : Nat → Prop} {fresh : List Label} {p q : Nat}

theorem not_stands (h : Carried start count kept fresh position code new) (hq : start ≤ q)
    (hq' : q < start + count) : ¬new.Stands label q := by
  intro hstands
  obtain ⟨p, _, heq⟩ | ⟨hf, heq⟩ := (h.labels label q).1 hstands
  · unfold shifted at heq
    split at heq <;> omega
  · have := h.outside label hf
    omega

theorem stands_iff (h : Carried start count kept fresh position code new) (hs : code.Separate)
    (hp : code.Stands label p) : new.Stands label q ↔ q = shifted start count p := by
  rw [h.labels label q]
  constructor
  · intro hq
    obtain ⟨p', hp', heq⟩ | ⟨hf, _⟩ := hq
    · rw [heq, hs label p' p hp' hp]
    · exact absurd hp ((h.unused label hf).2 p)
  · exact fun hq => .inl ⟨p, hp, hq⟩

theorem positionOf?_eq_some_iff (h : Carried start count kept fresh position code new)
    (hs : code.Separate) (hl : label ∈ code.targets) :
    new.positionOf? label = some q ↔
      ∃ target, code.positionOf? label = some target ∧ q = shifted start count target := by
  constructor
  · intro hq
    obtain ⟨p, hp, heq⟩ | ⟨hf, _⟩ := (h.labels label q).1 (stands_of_positionOf? hq)
    · exact ⟨p, hs.positionOf?_eq_some_iff.2 hp, heq⟩
    · exact absurd hl (h.unused label hf).1
  · intro hq
    obtain ⟨target, ht, heq⟩ := hq
    have hp := stands_of_positionOf? ht
    have hq : new.Stands label q := (h.stands_iff hs hp).2 heq
    obtain ⟨r, hr⟩ := Option.isSome_iff_exists.1 (positionOf?_isSome_iff.2 ⟨q, hq⟩)
    have hrq := (h.stands_iff hs hp).1 (stands_of_positionOf? hr)
    rw [hr, hrq, heq]

theorem getElem? (h : Carried start count kept fresh position code new) (hk : kept p)
    {i : Instruction} (hi : code[p]? = some i) :
    ∃ j, new[shifted start count p]? = some j ∧ j.bare = i.bare := by
  have hbare := h.bare p hk
  rw [getElem?_bare, getElem?_bare, hi] at hbare
  exact Option.map_eq_some_iff.1 hbare

theorem getElem?_old (h : Carried start count kept fresh position code new) (hk : kept p)
    {j : Instruction} (hj : new[shifted start count p]? = some j) :
    ∃ i, code[p]? = some i ∧ i.bare = j.bare := by
  have hbare := h.bare p hk
  rw [getElem?_bare, getElem?_bare, hj] at hbare
  exact Option.map_eq_some_iff.1 hbare.symm

theorem jumps_iff (h : Carried start count kept fresh position code new) (hs : code.Separate)
    (hk : kept p) : new.Jumps (shifted start count p) q ↔
      ∃ target, code.Jumps p target ∧ q = shifted start count target := by
  constructor
  · intro hj
    obtain ⟨j, hj, label, hl, hq⟩ := hj
    obtain ⟨i, hi, hbare⟩ := h.getElem?_old hk hj
    have hl' : label ∈ i.targets := by
      change label ∈ i.bare.targets
      rw [hbare]
      exact hl
    have hmem : label ∈ code.targets := List.mem_flatMap.2 ⟨i, List.mem_of_getElem? hi, hl'⟩
    obtain ⟨target, ht, heq⟩ := (h.positionOf?_eq_some_iff hs hmem).1 hq
    exact ⟨target, ⟨i, hi, label, hl', ht⟩, heq⟩
  · intro hj
    obtain ⟨target, ⟨i, hi, label, hl, ht⟩, heq⟩ := hj
    obtain ⟨j, hj, hbare⟩ := h.getElem? hk hi
    have hl' : label ∈ j.targets := by
      change label ∈ j.bare.targets
      rw [hbare]
      exact hl
    have hmem : label ∈ code.targets := List.mem_flatMap.2 ⟨i, List.mem_of_getElem? hi, hl⟩
    exact ⟨j, hj, label, hl', (h.positionOf?_eq_some_iff hs hmem).2 ⟨target, ht, heq⟩⟩

theorem falls_iff (h : Carried start count kept fresh position code new) (hk : kept p)
    (hp : p + 1 ≠ start) :
    new.Falls (shifted start count p) (shifted start count (p + 1)) ↔ code.Falls p (p + 1) := by
  have hnext : shifted start count (p + 1) = shifted start count p + 1 := by
    unfold shifted
    split <;> split <;> omega
  have hend : shifted start count (p + 1) < new.length ↔ p + 1 < code.length := by
    have := h.start_le
    rw [h.length]
    unfold shifted
    split <;> omega
  have hpass : (∃ j, new[shifted start count p]? = some j ∧ j.opcode.passes = true) ↔
      ∃ i, code[p]? = some i ∧ i.opcode.passes = true := by
    constructor
    · intro hj
      obtain ⟨j, hj, hpj⟩ := hj
      obtain ⟨i, hi, hbare⟩ := h.getElem?_old hk hj
      exact ⟨i, hi, (Instruction.bare_eq_iff.1 hbare).1 ▸ hpj⟩
    · intro hi
      obtain ⟨i, hi, hpi⟩ := hi
      obtain ⟨j, hj, hbare⟩ := h.getElem? hk hi
      exact ⟨j, hj, (Instruction.bare_eq_iff.1 hbare).1 ▸ hpi⟩
  rw [Falls, Falls, hpass, hend]
  simp [hnext]

theorem widened (h : Carried start count kept fresh position code new) (hs : code.Separate) :
    Widened start count kept code new where
  length := h.length
  instruction p i hk hi := by
    obtain ⟨j, hj, hbare⟩ := h.getElem? hk hi
    exact ⟨j, hj, Instruction.bare_eq_iff.1 hbare⟩
  label label p hp q := h.stands_iff hs hp
  unlabelled q hq hq' := by
    have hlt : q < new.length := by
      have := h.start_le
      rw [h.length]
      omega
    have hq? : new[q]? = some new[q] := List.getElem?_eq_getElem hlt
    refine ⟨new[q], hq?, List.eq_nil_iff_forall_not_mem.2 fun label hl => ?_⟩
    exact h.not_stands hq hq' ⟨_, hq?, hl⟩
  entered p q hq hq' := by
    have hno : ¬new.Jumps p q := by
      intro hj
      obtain ⟨_, _, label, _, hpos⟩ := hj
      exact h.not_stands hq hq' (stands_of_positionOf? hpos)
    refine ⟨hno, fun hf => ?_⟩
    cases hf with
    | inl hf => exact hf.2.1.symm
    | inr hj => exact absurd hj hno
  jumps p q hk := h.jumps_iff hs hk
  falls p hk hp := h.falls_iff hk hp

theorem of_attachLabel {mid : Code} (ha : code.attachLabel start label = .ok mid)
    (hl : label ∉ code.targets) (hn : ∀ p, ¬code.Stands label p)
    (h : Carried start count kept [] position mid new) :
    Carried start count kept [label] (shifted start count start) code new where
  start_le := length_attachLabel ha ▸ h.start_le
  length := by rw [h.length, length_attachLabel ha]
  bare p hk := by rw [h.bare p hk, bare_attachLabel ha]
  labels := (relabelled_attachLabel ha).trans h.labels
  unused other ho := by
    cases List.mem_singleton.1 ho
    exact ⟨hl, hn⟩
  outside _ _ := by
    unfold shifted
    split <;> omega

end Carried

/-- Nothing happened to the code but that a label that it does not use may have been placed. -/
def Marked (code new : Code) (position : Nat) : Prop :=
  new = code ∨ ∃ label, code.attachLabel position label = .ok new ∧ label ∉ code.targets ∧
    ∀ p, ¬code.Stands label p

theorem Marked.length {mid : Code} (h : Marked code mid position) : mid.length = code.length := by
  obtain rfl | ⟨label, ha, _, _⟩ := h
  · rfl
  · exact length_attachLabel ha

theorem Carried.widened_of_marked {start count : Nat} {kept : Nat → Prop} {mid : Code}
    (h : Carried start count kept [] position mid new) (hm : Marked code mid start)
    (hs : code.Separate) : Widened start count kept code new := by
  obtain rfl | ⟨label, ha, hl, hn⟩ := hm
  · exact h.widened hs
  · exact (of_attachLabel ha hl hn h).widened hs

theorem length_bare (code : Code) : code.bare.length = code.length := List.length_map _

theorem carried_splice {start : Nat} (h : start ≤ code.length) {block : Code}
    (hb : ∀ i ∈ block, i.labels = []) :
    Carried start block.length (fun _ => True) [] start code (code.splice start block) where
  start_le := h
  length := length_splice code start block
  bare p _ := by
    have hstart : start ≤ code.bare.length := by
      rw [length_bare]
      exact h
    have hshift := getElem?_splice_shifted hstart block.bare p
    rw [length_bare] at hshift
    rw [bare_splice, hshift]
  labels := relabelled_splice h hb
  unused := by simp
  outside := by simp

section

variable {block moved : Code} {i : Instruction} {opcode : Opcode} {operand : Operand}

theorem bare_replace
    (hm : (code.splice position block).moveLabels (position + block.length) position = .ok moved) :
    Code.bare (moved.set (position + block.length) { i with opcode, operand }) =
      (code.bare.splice position block.bare).set (position + block.length) { opcode, operand } := by
  rw [bare_set, bare_moveLabels hm, bare_splice]
  rfl

theorem getElem?_replace (hp : position < code.length)
    (hm : (code.splice position block).moveLabels (position + block.length) position = .ok moved)
    {n : Nat} {j : Instruction}
    (hj : (block ++ [({ opcode, operand } : Instruction)])[n]? = some j) :
    (Code.bare (moved.set (position + block.length) { i with opcode, operand }))[position + n]? =
      some j.bare := by
  have hstart : position ≤ code.bare.length := by
    rw [length_bare]
    omega
  have hlen : (code.bare.splice position block.bare).length = code.length + block.length := by
    rw [length_splice, length_bare, length_bare]
  rw [bare_replace hm, List.getElem?_set]
  by_cases hn : n < block.length
  · rw [List.getElem?_append_left hn] at hj
    rw [if_neg (by omega), getElem?_splice_block hstart (by rw [length_bare]; exact hn),
      getElem?_bare, hj]
    rfl
  · rw [List.getElem?_append_right (by omega), List.getElem?_singleton] at hj
    split at hj
    · cases hj
      rw [if_pos (by omega), if_pos (by omega)]
      rfl
    · cases hj

/-- The labels of a rewritten instruction go to the front of the block that it gets. -/
theorem carried_replace (hp : position < code.length) (hb : ∀ i ∈ block, i.labels = [])
    (hm : (code.splice position block).moveLabels (position + block.length) position = .ok moved)
    (hi : moved[position + block.length]? = some i) :
    Carried (position + 1) block.length (· ≠ position) [] position code
      (moved.set (position + block.length) { i with opcode, operand }) where
  start_le := hp
  length := by rw [List.length_set, length_moveLabels hm, length_splice]
  bare p hk := by
    have hshift : shifted (position + 1) block.length p = shifted position block.length p := by
      unfold shifted
      split <;> split <;> omega
    have hne : position + block.length ≠ shifted position block.length p := by
      unfold shifted
      split <;> omega
    have hstart : position ≤ code.bare.length := by
      rw [length_bare]
      omega
    have hkept := getElem?_splice_shifted hstart block.bare p
    rw [length_bare] at hkept
    rw [bare_replace hm, hshift, List.getElem?_set_ne hne, hkept]
  labels := by
    have hrel := ((relabelled_splice (by omega) hb).trans (relabelled_moveLabels hm)).trans
      (relabelled_set hi (j := { i with opcode, operand }) rfl)
    have hplace : (fun p => id (if shifted position block.length p = position + block.length
        then position else shifted position block.length p)) =
        shifted (position + 1) block.length := by
      funext p
      simp only [id_eq]
      unfold shifted
      split <;> split <;> split <;> omega
    rw [hplace] at hrel
    simpa using hrel
  unused := by simp
  outside := by simp

end

end Code

end MethodEdit
