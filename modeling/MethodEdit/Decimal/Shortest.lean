import MethodEdit.Decimal.Binary

/-!
The decimal with the fewest digits that reads back as a given binary number, and of those the
nearest to it.
-/
namespace MethodEdit

/-- The number `0.d₁d₂… * 10 ^ point`; the last digit is not zero. -/
structure Decimal where
  digits : List Char
  point : Int
  deriving DecidableEq, Repr

namespace Decimal

def ofScaled (count : Nat) (exponent : Int) : Decimal :=
  let digits := Nat.toDigits 10 count
  { digits := (digits.reverse.dropWhile (· == '0')).reverse, point := digits.length + exponent }

/-- A positive magnitude, with the magnitudes halfway to its two neighbours, all three as multiples
of `2 ^ -1076 * 10 ^ -342`. The halfway points belong to it if `closed`. -/
structure Interval where
  low : Nat
  value : Nat
  high : Nat
  closed : Bool

def Interval.contains (i : Interval) (n : Nat) : Bool :=
  if i.closed then i.low ≤ n && n ≤ i.high else i.low < n && n < i.high

/-- The nearer of the two neighbours of the value among the multiples of `step`, if it or the other
one is in the interval; the larger one if both are equally near. -/
def Interval.nearest? (i : Interval) (step : Nat) : Option Nat :=
  let below := i.value / step
  let inBelow := i.contains (below * step)
  let inAbove := i.contains ((below + 1) * step)
  if inAbove && (!inBelow || step ≤ 2 * (i.value - below * step)) then some (below + 1)
  else if inBelow then some below
  else none

/-- Fewest digits first; seventeen are always enough. -/
def Interval.shortest (i : Interval) : Decimal :=
  let places := (Nat.repr (i.value / Nat.pow 2 1076)).length
  let step (digits : Nat) := Nat.pow 2 1076 * Nat.pow 10 (places - digits)
  let scaled (digits count : Nat) := ofScaled count ((places : Int) - digits - 342)
  let found := (List.range' 1 17).findSome? fun digits =>
    (i.nearest? (step digits)).map (scaled digits)
  match found with
  | some decimal => decimal
  | none => scaled 17 (i.value / step 17)

def shortest (x : Binary64) : Decimal :=
  let unit := Nat.pow 2 x.shift * Nat.pow 10 342
  let value := 4 * x.mantissa * unit
  Interval.shortest
    { low := value - (if x.isBinadeStart then 1 else 2) * unit
      value := value
      high := value + 2 * unit
      closed := x.mantissa % 2 == 0 }

end Decimal

end MethodEdit
