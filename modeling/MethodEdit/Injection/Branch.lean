import MethodEdit.Session.Edit

/-!
Deciding a two-way branch once and for all.
-/
namespace MethodEdit.Session

/-- Moves to the first branch from the cursor on, which must be a two-way one. -/
def nextConditionalBranch : Edit Session Unit := do
  let s ← get
  if !s.current.opcode.isBranch then
    let _ ← seek (·.current.opcode.isBranch)
  let s ← get
  if !s.current.opcode.isConditionalBranch then
    throw (.unexpectedBranch s.cursor s.current.opcode)

/-- Makes the next two-way branch jump always: a jump to the same label follows it. The cursor ends
on that jump. -/
def jumpAlways : Edit Session Unit :=
  transaction do
    nextConditionalBranch
    let s ← get
    let label ← targetLabel
    let short := s.current.opcode.isShortBranch && s.settings.shortBranches
    insertAfter (.jump short label)

/-- Makes the next two-way branch jump never: it goes to the instruction that follows it. The cursor
ends on the branch. -/
def jumpNever : Edit Session Unit :=
  transaction do
    nextConditionalBranch
    let s ← get
    if s.isLast then throw (s.invalidCurrent .followedBranch)
    let label ← labelAt (s.cursor + 1) none true
    rewrite s.current.opcode (.target label)

end MethodEdit.Session
