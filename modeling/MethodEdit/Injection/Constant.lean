import MethodEdit.Session.Edit

/-!
Changing the value of a constant load.
-/
namespace MethodEdit.Session

/-- Loads another integer. A 64-bit load stays one, and every 32-bit load takes the general form. -/
def replaceInteger (value : Int64) : Edit Session Unit := do
  let s ← get
  if s.current.integer?.isNone then throw (s.invalidCurrent .integerConstant)
  rewrite (if s.current.opcode.isInt32Constant then .ldcI4 else .ldcI8) (.int value)

def replaceFloat (value : Binary64) : Edit Session Unit := do
  let s ← get
  if s.current.float?.isNone then throw (s.invalidCurrent .floatConstant)
  rewrite s.current.opcode (.float value)

end MethodEdit.Session
