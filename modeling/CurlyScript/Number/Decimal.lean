import CurlyScript.Number.Basic

/-
  Decimal text read as numbers.

  A sign, then `inf`, `infinity` or `nan` in any case, or digits with at most one point among or
  beside them and perhaps an exponent.  The value of the digits is rounded ONCE, to the nearest
  number.
-/

namespace CurlyScript

-- Powers are those of `Nat` itself, whichever other structure on `Nat` is in scope.
attribute [local instance (high)] instPowNat

/-- The value `digits * 10 ^ exponent`. -/
structure Decimal where
  /-- The significant digits as a whole number. -/
  digits : Nat
  /-- The power of ten that scales them. -/
  exponent : Int
deriving DecidableEq, Repr

namespace Decimal

/-- The whole number that a list of digits denotes. -/
def ofDigits (cs : List Char) : Nat :=
  cs.foldl (fun n c => 10 * n + (c.toNat - '0'.toNat)) 0

/-- The digits of a whole number, at least one. -/
def digitsOf (n : Nat) : List Char := Nat.toDigits 10 n

/-- What follows `e`: a whole number with an optional sign. -/
def wholeExponent? (cs : List Char) : Option Int :=
  let (negative, ds) := match cs with
    | '-' :: ds => (true, ds)
    | '+' :: ds => (false, ds)
    | ds => (false, ds)
  if ds.isEmpty || !ds.all Char.isDigit then none
  else some (if negative then -(ofDigits ds : Int) else (ofDigits ds : Int))

/-- What follows the digits of a decimal: nothing, or an exponent. -/
def exponent? : List Char → Option Int
  | [] => some 0
  | 'e' :: cs | 'E' :: cs => wholeExponent? cs
  | _ :: _ => none

/-- A decimal without its sign.  There has to be a digit on one side of the point. -/
def ofChars? (cs : List Char) : Option Decimal :=
  let whole := cs.takeWhile Char.isDigit
  let (fraction, rest) := match cs.dropWhile Char.isDigit with
    | '.' :: rest => (rest.takeWhile Char.isDigit, rest.dropWhile Char.isDigit)
    | rest => ([], rest)
  if whole.isEmpty && fraction.isEmpty then none
  else (exponent? rest).map fun e => ⟨ofDigits (whole ++ fraction), e - fraction.length⟩

/-- The nearest magnitude, or none if the value is too large for one.  The bounds on the exponent
    save work only: beyond them the answer is known. -/
def magnitude? (d : Decimal) : Option Magnitude :=
  let top : Int := (digitsOf d.digits).length + d.exponent
  if d.digits = 0 ∨ top < -325 then some .zero
  else if top > 310 then none
  else match d.exponent with
    | .ofNat e => Magnitude.nearest? (d.digits * 10 ^ e) 1
    | .negSucc e => Magnitude.nearest? d.digits (10 ^ (e + 1))

/-- The nearest number with the given sign. -/
def number (negative : Bool) (d : Decimal) : Number :=
  match d.magnitude? with
  | some m => .finite negative m
  | none => .infinite negative

end Decimal

namespace Number

/-- The number that the characters without a sign denote. -/
def ofUnsigned? (negative : Bool) (cs : List Char) : Option Number :=
  match Decimal.ofChars? cs with
  | some d => some (d.number negative)
  | none =>
    let word := String.ofList (cs.map Char.toLower)
    if word == "inf" || word == "infinity" then some (.infinite negative)
    else if word == "nan" then some .nan
    else none

/-- The number that a text denotes, if it denotes one. -/
def ofText? (s : String) : Option Number :=
  match s.toList with
  | '-' :: cs => ofUnsigned? true cs
  | '+' :: cs => ofUnsigned? false cs
  | cs => ofUnsigned? false cs

end Number

end CurlyScript
