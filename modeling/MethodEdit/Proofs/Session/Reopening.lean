import MethodEdit.Proofs.Code.Relocation
import MethodEdit.Proofs.Session.Progress

/-!
Code that one session hands back can be edited in another one. The edits keep the labels of
different instructions apart, but what stands at one instruction is left to the caller: a label that
is written twice at a given instruction goes through all edits, and only a new session finds it.
-/
namespace MethodEdit

namespace Session

open SessionCommand

theorem Leads.unrepeated {s s' : Session} {given : List Instruction} {asks : Bool}
    (h : Leads given asks s s') (hg : ∀ i ∈ given, i.labels.Nodup) (hs : s.code.Unrepeated) :
    s'.code.Unrepeated := by
  induction h with
  | refl | moved | flagged | reslotted | renamed | refused | created | takenBack => exact hs
  | trans _ _ ih₁ ih₂ => exact ih₂ (ih₁ hs)
  | @inserted s _ i _ _ _ hi =>
    refine hs.splice fun j hj => ?_
    rw [List.mem_singleton.1 hj]
    obtain hi | ⟨hlabels, _⟩ := hi
    · exact hg i hi
    · rw [hlabels]
      exact List.nodup_nil
  | rewritten hi => exact hs.rewriteAt hi rfl
  | attached _ hc => exact hs.attachLabel hc
  | handedOver hc => exact hs.moveLabels hc
  | removed hc => exact hs.removeAt hc

theorem finish_eq_ok {s : Session} {code : Code} {symbols : Symbols}
    (h : s.finish = .ok (code, symbols)) : code = s.code ∧ symbols = s.symbols := by
  unfold finish at h
  split at h
  · cases h
    exact ⟨rfl, rfl⟩
  · cases h

theorem exists_startFresh_iff {method : Method} {core : CoreTypes} {slots : List Ty} {code : Code}
    {settings : Settings} (hn : code ≠ []) (hv : ∀ i ∈ code, i.isValid = true) :
    (∃ again, startFresh method core slots code settings = .ok again ∧
        again.symbols.source.next.id ≤ Label.lastId) ↔
      code.checkLabels = .ok () ∧
        ∀ label ∈ code.flatMap (·.allLabels), label.id < Label.lastId := by
  rw [← LabelSource.bound_le_iff]
  constructor
  · rintro ⟨again, ha, hnext⟩
    rw [source_start ha] at hnext
    obtain ⟨_, _, hc, _⟩ := start_eq_ok_iff.1 ha
    exact ⟨hc, hnext⟩
  · rintro ⟨hc, hbelow⟩
    obtain ⟨again, ha⟩ : ∃ again, startFresh method core slots code settings = .ok again :=
      ⟨_, start_eq_ok_iff.2 ⟨hn, hv, hc, rfl⟩⟩
    refine ⟨again, ha, ?_⟩
    rw [source_start ha]
    exact hbelow

/-- The code that a session hands back passes the check exactly if it repeats no label at an
instruction. Another session accepts it, and has numbers left for new labels, exactly if besides
none of its labels has the last number. It repeats no label if the caller gave no instruction that
does. -/
theorem reopens_iff_unrepeated {method : Method} {core : CoreTypes} {slots : List Ty}
    {instructions : List Instruction} {settings : Settings} {source : LabelSource} {s : Session}
    (h : start method core slots instructions settings source = .ok s) (resolver : Resolver)
    (commands : List SessionCommand) {code : Code} {symbols : Symbols}
    (hf : (runAll commands ⟨resolver, s⟩).session.finish = .ok (code, symbols)) :
    (code.checkLabels = .ok () ↔ ∀ i ∈ code, i.labels.Nodup) ∧
    (∀ (method : Method) (core : CoreTypes) (settings : Settings),
      (∃ again, startFresh method core (symbols.slots.map (·.type)) code settings = .ok again ∧
          again.symbols.source.next.id ≤ Label.lastId) ↔
        (∀ i ∈ code, i.labels.Nodup) ∧
          ∀ label ∈ code.flatMap (·.allLabels), label.id < Label.lastId) ∧
    ((∀ i ∈ commands.flatMap given, i.labels.Nodup) → ∀ i ∈ code, i.labels.Nodup) := by
  have hsound := sound_start h
  have hsteps := leads_runAll commands ⟨resolver, s⟩ hsound.synced
  have hend := (Reachable.start h).runAll commands resolver
  obtain ⟨rfl, rfl⟩ := finish_eq_ok hf
  have hcheck : Code.checkLabels (runAll commands ⟨resolver, s⟩).session.code = .ok () ↔
      ∀ i ∈ (runAll commands ⟨resolver, s⟩).session.code, i.labels.Nodup := by
    rw [Code.checkLabels_eq_ok_iff]
    exact ⟨fun hc => hc.1, fun hu => ⟨hu, hend.sound.synced.separate⟩⟩
  refine ⟨hcheck, fun method core settings => ?_, fun hg => ?_⟩
  · have hnonempty := (wellFormed_of_reachable hend).nonempty
    rw [exists_startFresh_iff hnonempty hend.sound.synced.valid, hcheck]
  · obtain ⟨_, _, hc, rfl⟩ := start_eq_ok_iff.1 h
    exact hsteps.unrepeated hg (Code.checkLabels_eq_ok_iff.1 hc).1

theorem reopens_after_return :
    ∃ code symbols again,
      (runAll [.insertReturn (Sample.method Sample.boolean) true, .insertAfter .nop]
        ⟨{}, Sample.session⟩).session.finish = .ok (code, symbols) ∧
      startFresh (Sample.method Sample.void) Sample.core (symbols.slots.map (·.type)) code {} =
        .ok again ∧ again.symbols.source.next.id ≤ Label.lastId := by
  obtain ⟨code, symbols, hf, hbelow⟩ : ∃ code symbols,
      (runAll [.insertReturn (Sample.method Sample.boolean) true, .insertAfter .nop]
        ⟨{}, Sample.session⟩).session.finish = .ok (code, symbols) ∧
      ∀ label ∈ code.flatMap (·.allLabels), label.id < Label.lastId := ⟨_, _, rfl, by decide⟩
  obtain ⟨_, hreopens, hgiven⟩ := reopens_iff_unrepeated Sample.startFresh_eq {} _ hf
  have hunrepeated := hgiven fun i hi => by
    rw [List.mem_singleton.1 hi]
    exact List.nodup_nil
  obtain ⟨again, ha, hnext⟩ :=
    (hreopens (Sample.method Sample.void) Sample.core {}).2 ⟨hunrepeated, hbelow⟩
  exact ⟨code, symbols, again, hf, ha, hnext⟩

/-- An instruction with the same label twice is accepted and handed back, and then refused. -/
theorem reopening_refused :
    ∃ s code symbols, startFresh (Sample.method Sample.void) Sample.core [] Sample.code {} = .ok s ∧
      (runAll [.insertBefore { opcode := .nop, labels := [⟨5⟩, ⟨5⟩] }]
        ⟨{}, s⟩).session.finish = .ok (code, symbols) ∧
      code.checkLabels = .error (.duplicateLabel ⟨5⟩) ∧
      startFresh (Sample.method Sample.void) Sample.core (symbols.slots.map (·.type)) code {} =
        .error (.duplicateLabel ⟨5⟩) :=
  ⟨Sample.session, _, _, rfl, rfl, rfl, rfl⟩

end Session

end MethodEdit
