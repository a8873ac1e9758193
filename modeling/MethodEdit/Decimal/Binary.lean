/-!
Binary floating-point numbers of 64 bits, held as their bits.
-/
namespace MethodEdit

structure Binary64 where
  bits : UInt64
  deriving DecidableEq, Repr

namespace Binary64

def isNegative (x : Binary64) : Bool := Nat.pow 2 63 ≤ x.bits.toNat

def exponentField (x : Binary64) : Nat := x.bits.toNat / Nat.pow 2 52 % Nat.pow 2 11

def fractionField (x : Binary64) : Nat := x.bits.toNat % Nat.pow 2 52

def isNaN (x : Binary64) : Bool := x.exponentField == 2047 && x.fractionField != 0

def isInfinite (x : Binary64) : Bool := x.exponentField == 2047 && x.fractionField == 0

def isZero (x : Binary64) : Bool := x.exponentField == 0 && x.fractionField == 0

/-- Numeric equality: zeros of either sign are equal, and not-a-number equals nothing. -/
def equals (x y : Binary64) : Bool :=
  !x.isNaN && !y.isNaN && (x.bits == y.bits || (x.isZero && y.isZero))

/-- The whole multiple of the least positive number, `2 ^ -1074`, that a finite `x` stands for is
`mantissa * 2 ^ shift`. -/
def mantissa (x : Binary64) : Nat :=
  if x.exponentField = 0 then x.fractionField else Nat.pow 2 52 + x.fractionField

def shift (x : Binary64) : Nat := x.exponentField - 1

/-- The gap to the next smaller number is half the gap to the next larger one. -/
def isBinadeStart (x : Binary64) : Bool := x.fractionField == 0 && 1 < x.exponentField

end Binary64

end MethodEdit
