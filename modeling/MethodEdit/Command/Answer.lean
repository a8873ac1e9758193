import MethodEdit.Session.Basic

/-!
What a command answers when it is not refused.
-/
namespace MethodEdit

structure View where
  current : Instruction
  next : Option Instruction
  previous : Option Instruction
  isFirst : Bool
  isLast : Bool
  isBranch : Bool
  slot : Option Slot

def Session.view (s : Session) : View where
  current := s.current
  next := s.next?
  previous := s.previous?
  isFirst := s.isFirst
  isLast := s.isLast
  isBranch := s.current.opcode.isBranch
  slot := s.currentSlot?

inductive Answer where
  | done
  /-- A position, a count or an index. -/
  | number (n : Option Nat)
  | flag (b : Bool)
  | label (label : Label)
  | labels (labels : List Label)
  | instruction (i : Option Instruction)
  | slot (s : Option Slot)
  | entry (e : Option LabelEntry)
  | view (v : View)

end MethodEdit
