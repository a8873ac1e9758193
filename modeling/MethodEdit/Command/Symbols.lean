import MethodEdit.Command.Answer

/-!
The operations on a symbol table as data, so that whole histories can be run.
-/
namespace MethodEdit

inductive SymbolCommand where
  | slot (index : UInt16)
  | slotNamed (name : String)
  | slotFor (i : Instruction)
  | declareSlot (type : Ty)
  | getOrCreateSlot (type : Option Ty) (name : Option String)
  | nameSlot (index : UInt16) (name : String)
  | slotOfType (type : Ty) (name : Option String) (skipped : Nat)
  | label (label : Label)
  | labelNamed (name : String)
  | createLabel
  | getOrCreateLabel (name : Option String)
  | nameLabel (label : Label) (name : String)

namespace SymbolCommand

def run : SymbolCommand → Edit Symbols Answer
  | slot index => do return .slot ((← get).slot? index)
  | slotNamed name => do return .slot ((← get).slotNamed? name)
  | slotFor i => do return .slot ((← get).slotFor? i)
  | declareSlot type => do return .slot (some (← Symbols.declareSlot type))
  | getOrCreateSlot type name => do return .slot (some (← Symbols.getOrCreateSlot type name))
  | nameSlot index name => do return .slot (some (← Symbols.nameSlot index name))
  | slotOfType type name skipped => do
    return .slot (some (← Symbols.slotOfType type name skipped))
  | label l => do return .entry ((← get).label? l)
  | labelNamed name => do return .entry ((← get).labelNamed? name)
  | createLabel => do return .label (← Symbols.createLabel)
  | getOrCreateLabel name => do return .label (← Symbols.getOrCreateLabel name)
  | nameLabel l name => do
    Symbols.nameLabel l name
    return .done

/-- The table after a history of commands, refused ones included. -/
def runAll : List SymbolCommand → Symbols → Symbols
  | [], t => t
  | command :: rest, t => runAll rest (command.run t).2

end SymbolCommand

end MethodEdit
