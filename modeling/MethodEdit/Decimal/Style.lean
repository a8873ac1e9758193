import MethodEdit.Decimal.Shortest

/-!
Texts of floating-point numbers. A style says which numbers are written positionally and whether a
whole number shows its fraction.
-/
namespace MethodEdit

structure NumberStyle where
  /-- Write `1.0` rather than `1`. -/
  showsFraction : Bool
  /-- Which exponents of the leading digit are written positionally. -/
  isPositional : Int → Bool

namespace Decimal

def positional (showsFraction : Bool) (d : Decimal) : List Char :=
  if d.point ≤ 0 then
    ['0', '.'] ++ List.replicate (-d.point).toNat '0' ++ d.digits
  else if (d.digits.length : Int) ≤ d.point then
    d.digits ++ List.replicate (d.point - d.digits.length).toNat '0' ++
      (if showsFraction then ['.', '0'] else [])
  else
    d.digits.take d.point.toNat ++ ['.'] ++ d.digits.drop d.point.toNat

def scientific (d : Decimal) : List Char :=
  let exponent := (Int.repr (d.point - 1)).toList
  match d.digits with
  | [] => []
  | [digit] => digit :: 'e' :: exponent
  | digit :: rest => digit :: '.' :: (rest ++ 'e' :: exponent)

def text (style : NumberStyle) (d : Decimal) : List Char :=
  if style.isPositional (d.point - 1) then d.positional style.showsFraction else d.scientific

end Decimal

def Binary64.text (style : NumberStyle) (x : Binary64) : String :=
  if x.isNaN then "NaN"
  else
    let sign := if x.isNegative then "-" else ""
    if x.isInfinite then sign ++ "inf"
    else if x.isZero then sign ++ (if style.showsFraction then "0.0" else "0")
    else sign ++ String.ofList ((Decimal.shortest x).text style)

end MethodEdit
