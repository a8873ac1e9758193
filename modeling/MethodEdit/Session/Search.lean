import MethodEdit.Session.Basic

/-!
Moving the cursor, and searching for an instruction. A search never considers the instruction under
the cursor; if it finds nothing, the cursor stays.
-/
namespace MethodEdit

/-- What a search asks of the session with its cursor at a candidate. -/
inductive Test where
  | opcode (op : Opcode)
  | opcodeWith (op : Opcode) (operand : Operand)
  | accesses (member : Member)
  | branch
  | loadsSlot (index : UInt16)
  | storesSlot (index : UInt16)
  | loadsNamed (name : String)
  | storesNamed (name : String)
  | loadsType (type : Ty)
  | storesType (type : Ty)
  | integer (value : Int64)
  | float (value : Binary64)
  | position (position : Nat)
  | first
  | last
  | any (tests : List Test)
  | all (tests : List Test)
  | not (test : Test)

namespace Session

def loadsSlot (s : Session) (index : UInt16) : Bool :=
  s.current.loadsSlot && s.current.slotIndex? == some index

def storesSlot (s : Session) (index : UInt16) : Bool :=
  s.current.storesSlot && s.current.slotIndex? == some index

mutual

def satisfies (s : Session) : Test → Bool
  | .opcode op => s.current.opcode == op
  | .opcodeWith op operand => s.current.opcode == op && s.current.operand == operand
  | .accesses member => s.current.accesses member
  | .branch => s.current.opcode.isBranch
  | .loadsSlot index => s.loadsSlot index
  | .storesSlot index => s.storesSlot index
  | .loadsNamed name => (s.symbols.slotNamed? name).any fun slot => s.loadsSlot slot.index
  | .storesNamed name => (s.symbols.slotNamed? name).any fun slot => s.storesSlot slot.index
  | .loadsType type => s.current.loadsSlot && s.currentSlot?.any (·.type == type)
  | .storesType type => s.current.storesSlot && s.currentSlot?.any (·.type == type)
  | .integer value => s.current.loadsInteger value
  | .float value => s.current.loadsFloat value
  | .position position => s.cursor == position
  | .first => s.isFirst
  | .last => s.isLast
  | .any tests => s.satisfiesAny tests
  | .all tests => s.satisfiesAll tests
  | .not test => !s.satisfies test

def satisfiesAny (s : Session) : List Test → Bool
  | [] => false
  | test :: rest => s.satisfies test || s.satisfiesAny rest

def satisfiesAll (s : Session) : List Test → Bool
  | [] => true
  | test :: rest => s.satisfies test && s.satisfiesAll rest

end

def moveTo (position : Nat) : Edit Session Nat := do
  let s ← get
  set (s.withCursor (s.clamp position))
  return s.clamp position

def moveBy (distance : Int) : Edit Session Nat := do
  let s ← get
  moveTo ((s.cursor : Int) + distance).toNat

/-- Moves the cursor forward, one instruction at a time, until the test holds. If it never does, the
cursor ends up on the last instruction. -/
def forward (holds : Session → Bool) (s : Session) : Bool × Session :=
  if s.cursor + 1 < s.length then
    let next := s.withCursor (s.cursor + 1)
    if holds next then (true, next) else next.forward holds
  else (false, s)
termination_by s.length - s.cursor
decreasing_by
  have hlength : (s.withCursor (s.cursor + 1)).length = s.length := rfl
  have hcursor : (s.withCursor (s.cursor + 1)).cursor = s.cursor + 1 := rfl
  omega

def backward (holds : Session → Bool) (s : Session) : Bool × Session :=
  if 0 < s.cursor then
    let next := s.withCursor (s.cursor - 1)
    if holds next then (true, next) else next.backward holds
  else (false, s)
termination_by s.cursor
decreasing_by
  have hcursor : (s.withCursor (s.cursor - 1)).cursor = s.cursor - 1 := rfl
  omega

theorem eq_withCursor_of_forward {holds : Session → Bool} {s t : Session}
    (h : s.forward holds = (true, t)) :
    s.cursor < t.cursor ∧ t.cursor < s.length ∧ t = s.withCursor t.cursor := by
  fun_induction forward holds s with
  | case1 s hin next hholds =>
    obtain rfl : next = t := congrArg Prod.snd h
    exact ⟨Nat.lt_succ_self s.cursor, hin, rfl⟩
  | case2 s hin next hfails ih =>
    obtain ⟨hafter, hend, heq⟩ := ih h
    exact ⟨Nat.lt_of_succ_lt hafter, hend, heq⟩
  | case3 => cases h

/-- Stays where the steps end if they find a match. If they do not, the cursor goes back to where it
was. -/
def search (steps : Session → Bool × Session) (boundary : Boundary) : Edit Session Nat := do
  let start ← get
  let (found, s) := steps start
  set s
  if found then return s.cursor
  else
    set (s.withCursor start.cursor)
    throw (.navigationExhausted start.cursor boundary)

def seek (holds : Session → Bool) : Edit Session Nat := search (forward holds) .codeEnd

def rewind (holds : Session → Bool) : Edit Session Nat := search (backward holds) .codeStart

/-- The tests hold one after the other, at the position and the ones that follow it. -/
def runAt (s : Session) (position : Nat) : List (Session → Bool) → Bool
  | [] => true
  | holds :: rest =>
    position < s.length && holds (s.withCursor position) && s.runAt (position + 1) rest

/-- Where the next run of matches begins. A run is looked for at each match of the first test; if it
breaks off, the search goes on behind that match. -/
def anchor? (s : Session) (first : Session → Bool) (rest : List (Session → Bool)) : Option Nat :=
  match h : s.forward first with
  | (false, _) => none
  | (true, found) =>
    if found.runAt (found.cursor + 1) rest then some found.cursor else found.anchor? first rest
termination_by s.length - s.cursor
decreasing_by
  obtain ⟨hafter, hin, heq⟩ := eq_withCursor_of_forward h
  have hlength : found.length = s.length := (congrArg Session.length heq).trans rfl
  omega

/-- Moves forward to the next run of instructions that match one after the other: to its first
instruction, or else to its last one. -/
def seekChain (toStart : Bool) (chain : List (Session → Bool)) : Edit Session Nat := do
  let s ← get
  match chain with
  | [] => throw .emptyPredicateChain
  | first :: rest =>
    match s.anchor? first rest with
    | none => throw (.navigationExhausted s.cursor .codeEnd)
    | some anchor =>
      let position := if toStart then anchor else anchor + rest.length
      set (s.withCursor position)
      return position

end Session

end MethodEdit
