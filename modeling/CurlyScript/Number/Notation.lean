import CurlyScript.Number.Shortest

/-
  Numbers written in decimal.

  There are two ways.  The PLAIN one writes every place and never an exponent; it is the spelling
  of a literal.  The MARKED one always shows that the value is a number with places: it has a
  point or an exponent, and turns to an exponent for large and small values.
-/

namespace CurlyScript

/-- A decimal with every place written out. -/
def Decimal.plain (d : Decimal) : List Char :=
  let ds := digitsOf d.digits
  match d.exponent with
  | .ofNat e => ds ++ List.replicate e '0'
  | .negSucc e =>
    let places := e + 1
    if places < ds.length then
      ds.take (ds.length - places) ++ '.' :: ds.drop (ds.length - places)
    else '0' :: '.' :: List.replicate (places - ds.length) '0' ++ ds

/-- A decimal with one digit before the point and an exponent. -/
def Decimal.scientific (d : Decimal) : List Char :=
  let ds := digitsOf d.digits
  let mantissa := match ds with
    | [] => []
    | [c] => [c]
    | c :: rest => c :: '.' :: rest
  mantissa ++ 'e' :: (toString (d.exponent + ds.length - 1)).toList

namespace Number

/-- Writes the sign and the special values, and the rest by `digits`. -/
def textBy (digits : Magnitude → List Char) : Number → String
  | nan => "NaN"
  | infinite negative => if negative then "-inf" else "inf"
  | finite negative m =>
    String.ofList (if negative then '-' :: digits m else digits m)

/-- The number in plain notation. -/
def text (x : Number) : String := x.textBy fun m => m.shortest.plain

/-- Marked notation of a magnitude: an exponent from 10^16 on and below 10^-4, and `.0` after a
    whole number. -/
def markedDigits (m : Magnitude) : List Char :=
  if m.rank = 0 then ['0', '.', '0']
  else if m.order < -4 ∨ 16 ≤ m.order then m.shortest.scientific
  else
    let ds := m.shortest.plain
    if ds.contains '.' then ds else ds ++ ['.', '0']

/-- The number in marked notation. -/
def marked (x : Number) : String := x.textBy markedDigits

end Number

end CurlyScript
