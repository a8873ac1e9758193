import MethodEdit.Command.Answer

/-!
The operations on a list of instructions as data. A refused one leaves the list as it was.
-/
namespace MethodEdit

inductive CodeCommand where
  | size
  | get (position : Nat)
  | insert (position : Nat) (i : Instruction)
  | insertBefore (position : Nat) (i : Instruction)
  | insertAfter (position : Nat) (i : Instruction)
  | rewrite (position : Nat) (opcode : Opcode) (operand : Operand)
  | remove (position : Nat)
  | blank (position : Nat)
  | attachLabel (position : Nat) (label : Label)
  | moveLabels (source target : Nat)
  | positionOf (label : Label)
  | unplacedLabels
  | checkLabels

namespace CodeCommand

def run (code : Code) : CodeCommand → Except EditError (Answer × Code)
  | size => .ok (.number code.length, code)
  | get position => .ok (.instruction code[position]?, code)
  | insert position i => do return (.done, ← code.insertAt position i)
  | insertBefore position i => do
    let (position, code) ← code.insertBefore position i
    return (.number position, code)
  | insertAfter position i => do
    let (position, code) ← code.insertAfter position i
    return (.number position, code)
  | rewrite position opcode operand => do return (.done, ← code.rewriteAt position opcode operand)
  | remove position => do
    let (removed, code) ← code.removeAt position
    return (.instruction removed, code)
  | blank position => do return (.done, ← code.blankAt position)
  | attachLabel position label => do return (.done, ← code.attachLabel position label)
  | moveLabels source target => do return (.done, ← code.moveLabels source target)
  | positionOf label => .ok (.number (code.positionOf? label), code)
  | unplacedLabels => .ok (.labels code.unplacedLabels, code)
  | checkLabels => do
    code.checkLabels
    return (.done, code)

end CodeCommand

end MethodEdit
