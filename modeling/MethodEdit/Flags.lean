import MethodEdit.Text.Layout

/-!
Access flags of methods and fields: sets of named bits. A name stands for one or more bits, and a
set shows every name all of whose bits it has.
-/
namespace MethodEdit

/-- The names of one kind of flags, in the order in which they are shown. -/
abbrev FlagNames := List (String × UInt16)

namespace FlagNames

def allBits (names : FlagNames) : UInt16 := names.foldl (fun bits (_, mask) => bits ||| mask) 0

def knows (names : FlagNames) (bits : UInt16) : Bool := bits &&& names.allBits == bits

def describe (names : FlagNames) (bits : UInt16) : String :=
  match names.filter fun (_, mask) => bits &&& mask == mask with
  | [] => "(empty)"
  | shown => String.intercalate " | " (shown.map (·.1))

end FlagNames

structure MethodFlags where
  bits : UInt16
  deriving DecidableEq, Repr

namespace MethodFlags

def names : FlagNames :=
  [("PRIVATE", 0x0001), ("ASSEMBLY", 0x0003), ("FAMILY", 0x0004), ("PUBLIC", 0x0006),
   ("STATIC", 0x0010), ("FINAL", 0x0020), ("VIRTUAL", 0x0040), ("HIDE_BY_SIG", 0x0080),
   ("ABSTRACT", 0x0400), ("SPECIAL_NAME", 0x0800)]

/-- Bits that belong to no name are dropped. -/
def ofBits (bits : UInt16) : MethodFlags := ⟨bits &&& names.allBits⟩

/-- Public, static, hidden by signature: the flags of a plain helper. -/
def helper : MethodFlags := ⟨0x0096⟩

def isStatic (flags : MethodFlags) : Bool := flags.bits &&& 0x0010 != 0

def text (flags : MethodFlags) : String := names.describe flags.bits

end MethodFlags

structure FieldFlags where
  bits : UInt16
  deriving DecidableEq, Repr

namespace FieldFlags

def names : FlagNames :=
  [("PRIVATE", 0x0001), ("ASSEMBLY", 0x0003), ("FAMILY", 0x0004), ("PUBLIC", 0x0006),
   ("STATIC", 0x0010), ("INIT_ONLY", 0x0020), ("LITERAL", 0x0040)]

/-- Bits that belong to no name are dropped. -/
def ofBits (bits : UInt16) : FieldFlags := ⟨bits &&& names.allBits⟩

def publicOnly : FieldFlags := ⟨0x0006⟩

def isStatic (flags : FieldFlags) : Bool := flags.bits &&& 0x0010 != 0

def text (flags : FieldFlags) : String := names.describe flags.bits

end FieldFlags

end MethodEdit
