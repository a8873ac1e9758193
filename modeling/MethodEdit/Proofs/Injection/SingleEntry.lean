import MethodEdit.Proofs.Injection.Block

/-!
Injected blocks have one entry. Control reaches them only from the instruction in front of them, and
the original instructions keep their labels and their jumps. An instruction that is replaced by a
call hands its labels to the front of the new block.
-/
namespace MethodEdit.Session

open Edit

variable {s s' : Session}

/-- A block of `count` instructions was injected in front of the current instruction or behind it.
The cursor stays with that instruction, or ends on the last one of the block. -/
structure Injected (before : Bool) (count : Nat) (s s' : Session) : Prop where
  positive : 0 < count
  widened : Code.Widened (s.entry before) count (fun _ => True) s.code s'.code
  cursor : s'.cursor =
    if before then Code.shifted (s.entry before) count s.cursor else s.entry before + count - 1

theorem Injects.injected {before : Bool} {block : Code} (h : s.Injects before block s')
    (hs : s.Sound) (hb : ∀ i ∈ block, i.labels = []) (hne : block ≠ []) :
    s.Injected before block.length s' := by
  obtain ⟨mid, hmark, hcode, hcursor⟩ := h
  have hpos : 0 < block.length := List.length_pos_iff.2 hne
  have hstart : s.entry before ≤ mid.length := by
    rw [hmark.length]
    exact entry_le hs.inside before
  refine ⟨hpos, ?_, ?_⟩
  · rw [hcode]
    exact (Code.carried_splice hstart hb).widened_of_marked hmark hs.synced.separate
  · rw [hcursor]
    cases before with
    | true => simp [entry, Code.shifted]
    | false =>
      simp only [entry, Bool.false_eq_true, if_false]
      omega

/-- The current instruction was replaced by a call with `count` loads in front of it, for the
parameters that are not taken from the stack. -/
structure Replaced (procedure : Method) (count : Nat) (s s' : Session) : Prop where
  widened : Code.Widened (s.cursor + 1) count (· ≠ s.cursor) s.code s'.code
  block : ∃ effect extra loads, s.currentEffect = .ok effect ∧
    effect.extraFormals procedure = .ok extra ∧ List.Forall₂ (Bound s') extra loads ∧
    loads.length = count ∧
    ∀ n i, (loads ++ [.call procedure])[n]? = some i →
      ∃ j, s'.code[s.cursor + n]? = some j ∧ j.opcode = i.opcode ∧ j.operand = i.operand
  cursor : s'.cursor = s.cursor + count

theorem Replaces.replaced {procedure : Method} {effect : Effect} {extra : List Parameter}
    {loads : Code} (h : s.Replaces procedure loads s') (hs : s.Sound)
    (he : s.currentEffect = .ok effect) (hx : effect.extraFormals procedure = .ok extra)
    (hb : List.Forall₂ (Bound s') extra loads) : s.Replaced procedure loads.length s' := by
  have hblock := fun n i => h.getElem? hs.inside (n := n) (i := i)
  obtain ⟨moved, i, hm, hi, hcode, hcursor⟩ := h
  refine ⟨?_, ⟨effect, extra, loads, he, hx, hb, rfl, hblock⟩, hcursor⟩
  rw [hcode]
  exact (Code.carried_replace hs.inside (unlabelled_of_bound hb) hm hi).widened hs.synced.separate

/-- Injections and replacements leave the control flow between the original instructions as it was,
and no jump leads into the code that they bring. -/
theorem single_entry_of_reachable (h : s.Reachable) :
    (∀ procedure before s', insertCall procedure before s = (.ok (), s') →
      ∃ count, s.Injected before count s') ∧
    (∀ procedure before s', insertReturn procedure before s = (.ok (), s') →
      ∃ count, s.Injected before count s') ∧
    (∀ procedure label before s', insertJump procedure label before s = (.ok (), s') →
      ∃ count, s.Injected before count s') ∧
    (∀ procedure s', replaceCall procedure s = (.ok (), s') →
      ∃ count, s.Replaced procedure count s') := by
  have hs := h.sound
  have hcall (procedure : Method) : (Instruction.call procedure).labels = [] := rfl
  refine ⟨?_, ?_, ?_, ?_⟩
  · intro procedure before s' hrun
    obtain ⟨formals, loads, _, _, hb, hsplice⟩ := insertCall_yields hs procedure before _ _ hrun
    have hfree := unlabelled_of_bound hb
    refine ⟨_, hsplice.injects.injected hs ?_ (by simp)⟩
    simpa [or_imp, forall_and] using ⟨hfree, hcall procedure⟩
  · intro procedure before s' hrun
    obtain ⟨block, hne, hfree, hinj⟩ := insertReturn_yields hs procedure before _ _ hrun
    exact ⟨_, hinj.injected hs hfree hne⟩
  · intro procedure label before s' hrun
    obtain ⟨loads, _, _, hb, hsplice⟩ := insertJump_yields hs procedure label before _ _ hrun
    have hfree := unlabelled_of_bound hb
    have hjump : (Instruction.jumpIfTrue label).labels = [] := rfl
    refine ⟨_, hsplice.injects.injected hs ?_ (by simp)⟩
    simpa [or_imp, forall_and] using ⟨hfree, hcall procedure, hjump⟩
  · intro procedure s' hrun
    obtain ⟨effect, extra, loads, he, hx, hb, hrep⟩ := replaceCall_yields hs procedure _ _ hrun
    exact ⟨_, hrep.replaced hs he hx hb⟩

theorem single_entry_of_sample :
    (∃ s' count, insertCall (Sample.method Sample.void) true Sample.session = (.ok (), s') ∧
      Sample.session.Injected true count s') ∧
    (∃ s' count, insertReturn (Sample.method Sample.boolean) false Sample.session = (.ok (), s') ∧
      Sample.session.Injected false count s') ∧
    (∃ s' count, insertJump (Sample.method Sample.boolean) ⟨0⟩ false Sample.session = (.ok (), s') ∧
      Sample.session.Injected false count s') ∧
    ∃ s' count, replaceCall (Sample.method Sample.int32) Sample.session = (.ok (), s') ∧
      Sample.session.Replaced (Sample.method Sample.int32) count s' := by
  obtain ⟨hcall, hreturn, hjump, hreplace⟩ := single_entry_of_reachable Sample.reachable_session
  obtain ⟨s₁, h₁⟩ : ∃ s', insertCall (Sample.method Sample.void) true Sample.session =
      (.ok (), s') := ⟨_, rfl⟩
  obtain ⟨s₂, h₂⟩ : ∃ s', insertReturn (Sample.method Sample.boolean) false Sample.session =
      (.ok (), s') := ⟨_, rfl⟩
  obtain ⟨s₃, h₃⟩ : ∃ s', insertJump (Sample.method Sample.boolean) ⟨0⟩ false Sample.session =
      (.ok (), s') := ⟨_, rfl⟩
  obtain ⟨s₄, h₄⟩ : ∃ s', replaceCall (Sample.method Sample.int32) Sample.session =
      (.ok (), s') := ⟨_, rfl⟩
  obtain ⟨n₁, c₁⟩ := hcall _ _ _ h₁
  obtain ⟨n₂, c₂⟩ := hreturn _ _ _ h₂
  obtain ⟨n₃, c₃⟩ := hjump _ _ _ _ h₃
  obtain ⟨n₄, c₄⟩ := hreplace _ _ h₄
  exact ⟨⟨s₁, n₁, h₁, c₁⟩, ⟨s₂, n₂, h₂, c₂⟩, ⟨s₃, n₃, h₃, c₃⟩, ⟨s₄, n₄, h₄, c₄⟩⟩

end MethodEdit.Session
