import MethodEdit.Name

/-!
Settings of an editing session: how placeholders are named, which parameter names are special, and
whether short branches are wanted.
-/
namespace MethodEdit

structure Settings where
  /-- Placeholder names of slots start with this. -/
  slotStem : String := "V_"
  /-- Placeholder names of labels start with this. -/
  labelStem : String := "L_"
  /-- A parameter of this name receives the instance of the edited method. -/
  instanceName : MemberName := .theInstance
  /-- Through a by-reference parameter of this name, an injected return sets the value that the
  edited method returns. -/
  resultName : MemberName := .theResult
  /-- Name of the slot that holds that value. -/
  resultSlot : MemberName := .theResult
  /-- A short branch that is made unconditional stays short. -/
  shortBranches : Bool := true

end MethodEdit
