import MethodEdit.Proofs.Session.Reachable

/-!
The commands that are all or nothing: the injections, the decided branches and the new constants,
one at a time or at every match.
-/
namespace MethodEdit

namespace SessionCommand

open Edit Session Workbench

/-- The command makes an edit that is all or nothing. -/
def isWhole : SessionCommand → Bool
  | insertCall .. | insertReturn .. | insertJump .. | replaceCall .. | jumpAlways | jumpNever
  | replaceInteger _ | replaceFloat _ | insertAfterAll .. | replaceAllCalls ..
  | replaceAllIntegers .. | replaceAllFloats .. | replaceAllIntegersByCall ..
  | replaceAllFloatsByCall .. => true
  | _ => false

variable {α : Type} {w w' : Workbench} {e : EditError}

theorem refuses_onSession {op : Edit Session α} {Q : Session → Prop}
    (h : Refuses op w.session Q) : Refuses (onSession op) w fun w' => Q w'.session := by
  intro e t ht
  cases ho : op w.session with
  | mk result after =>
    rw [onSession, ho] at ht
    cases ht
    exact h e after ho

theorem refuses_answer {op : Edit Session α} {Q : Session → Prop} (h : Refuses op w.session Q)
    (answer : α → Answer) :
    Refuses (onSession op >>= fun a => pure (answer a)) w fun w' => Q w'.session :=
  .bind (refuses_onSession h) fun a _ _ => .pure (answer a)

theorem refuses_chosen {next : Member → Edit Workbench α} {Q : Session → Prop}
    (choice : MemberChoice) (hQ : Q w.session)
    (h : ∀ member w', w'.session = w.session → Refuses (next member) w' fun w' => Q w'.session) :
    Refuses (choose choice >>= next) w fun w' => Q w'.session := by
  have hsame := session_choose choice w
  refine .bind (fun e t ht => ?_) fun member t ht => h member t ?_
  · rw [ht] at hsame
    rw [hsame]
    exact hQ
  · rw [ht] at hsame
    exact hsame

theorem restored_of_answer {op : Edit Session α} (h : Whole op) (answer : α → Answer)
    (hs : w.session.Sound)
    (he : (onSession op >>= fun a => pure (answer a)) w = (.error e, w')) :
    w.session.Restored w'.session :=
  refuses_answer (h.restores w.session hs) answer e w' he

theorem restored_of_chosen {op : Member → Edit Session Nat} (h : ∀ member, Whole (op member))
    {choice : MemberChoice} (hs : w.session.Sound)
    (he : (choose choice >>= fun member => number (op member)) w = (.error e, w')) :
    w.session.Restored w'.session := by
  refine refuses_chosen choice hs.restored (fun member chosen hsame => ?_) e w' he
  rw [← hsame] at hs ⊢
  exact refuses_answer ((h member).restores chosen.session hs) _

theorem restored_of_run {command : SessionCommand} (hw : command.isWhole = true)
    (hs : w.session.Sound) (he : command.run w = (.error e, w')) :
    w.session.Restored w'.session := by
  cases command with
  | insertCall procedure before => exact restored_of_answer (whole_insertCall _ _) _ hs he
  | insertReturn procedure before => exact restored_of_answer (whole_insertReturn _ _) _ hs he
  | insertJump procedure l before => exact restored_of_answer (whole_insertJump _ _ _) _ hs he
  | replaceCall procedure => exact restored_of_answer (whole_replaceCall _) _ hs he
  | jumpAlways => exact restored_of_answer whole_jumpAlways _ hs he
  | jumpNever => exact restored_of_answer whole_jumpNever _ hs he
  | replaceInteger value => exact restored_of_answer (whole_replaceInteger _) _ hs he
  | replaceFloat value => exact restored_of_answer (whole_replaceFloat _) _ hs he
  | insertAfterAll member procedure =>
    exact restored_of_chosen (fun member => whole_insertAfterAll member procedure) hs he
  | replaceAllCalls member procedure =>
    exact restored_of_chosen (fun member => whole_replaceAllCalls member procedure) hs he
  | replaceAllIntegers old new start stop =>
    exact restored_of_answer (whole_replaceAllIntegers _ _ _ _) _ hs he
  | replaceAllFloats old new start stop =>
    exact restored_of_answer (whole_replaceAllFloats _ _ _ _) _ hs he
  | replaceAllIntegersByCall old procedure =>
    exact restored_of_answer (whole_replaceAllIntegersByCall _ _) _ hs he
  | replaceAllFloatsByCall old procedure =>
    exact restored_of_answer (whole_replaceAllFloatsByCall _ _) _ hs he
  | _ => cases hw

end SessionCommand

namespace Session

def Sample.unbindable : Method :=
  { Sample.method Sample.void with
    parameters :=
      [{ name := ⟨"kept", by decide⟩, type := Sample.int32, hint := .slot (.named "kept" none) },
        { name := ⟨"lost", by decide⟩, type := Sample.int32 }] }

/-- If a command that is all or nothing is refused, the session is restored. -/
theorem restored_of_refused {s : Session} (h : s.Reachable) {command : SessionCommand}
    (hw : command.isWhole = true) {resolver : Resolver} {e : EditError} {w : Workbench}
    (he : command.run ⟨resolver, s⟩ = (.error e, w)) : s.Restored w.session :=
  command.restored_of_run hw h.sound he

theorem restored_of_refused_call :
    ∃ w, (SessionCommand.insertCall Sample.unbindable true).run ⟨{}, Sample.session⟩ =
        (.error (.unknownParameter Sample.unbindable ⟨"lost", by decide⟩), w) ∧
      Sample.session.Restored w.session := by
  obtain ⟨w, hw⟩ : ∃ w,
      (SessionCommand.insertCall Sample.unbindable true).run ⟨{}, Sample.session⟩ =
        (.error (.unknownParameter Sample.unbindable ⟨"lost", by decide⟩), w) := ⟨_, rfl⟩
  exact ⟨w, hw, restored_of_refused Sample.reachable_session rfl hw⟩

end Session

end MethodEdit
