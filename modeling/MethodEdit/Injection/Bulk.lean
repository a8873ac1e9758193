import MethodEdit.Injection.Constant
import MethodEdit.Injection.Replace

/-!
The same edit at every place that matches. What an edit inserts is not looked at again.
-/
namespace MethodEdit.Session

/-- Visits the instructions from the cursor on, as many as are left of the code and `stop` allows,
and edits those that match. An edit leaves the cursor on the last instruction that it made. -/
def editMatches (stop : Option Nat) (holds : Session → Bool) (edit : Edit Session Unit) :
    (left : Nat) → Edit Session Nat
  | 0 => return 0
  | left + 1 => do
    let s ← get
    if s.cursor < min (stop.getD s.length) s.length then
      if holds s then edit
      modify fun s => s.withCursor (s.cursor + 1)
      let more ← editMatches stop holds edit left
      return (if holds s then 1 else 0) + more
    else return 0

/-- Edits every match in a range of positions, or none at all, and counts them. The cursor stays
where it is, as far as the code still goes. -/
def editAll (start stop : Option Nat) (holds : Session → Bool) (edit : Edit Session Unit) :
    Edit Session Nat :=
  transaction do
    let s ← get
    let first := start.getD 0
    set (s.withCursor first)
    let count ← editMatches stop holds edit (s.length - first)
    modify fun after => after.withCursor (after.clamp s.cursor)
    return count

def insertAfterAll (member : Member) (procedure : Method) : Edit Session Nat := do
  checkStatic procedure
  editAll none none (·.current.accesses member) (insertCall procedure false)

def replaceAllCalls (member : Member) (procedure : Method) : Edit Session Nat := do
  checkStatic procedure
  editAll none none (·.current.accesses member) (replaceCall procedure)

def replaceAllIntegers (old new : Int64) (start stop : Option Nat) : Edit Session Nat :=
  editAll start stop (·.current.loadsInteger old) (replaceInteger new)

def replaceAllFloats (old new : Binary64) (start stop : Option Nat) : Edit Session Nat :=
  editAll start stop (·.current.loadsFloat old) (replaceFloat new)

def replaceAllIntegersByCall (old : Int64) (procedure : Method) : Edit Session Nat := do
  checkStatic procedure
  editAll none none (·.current.loadsInteger old) (replaceCall procedure)

def replaceAllFloatsByCall (old : Binary64) (procedure : Method) : Edit Session Nat := do
  checkStatic procedure
  editAll none none (·.current.loadsFloat old) (replaceCall procedure)

end MethodEdit.Session
