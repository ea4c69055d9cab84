/-
  Numbers: IEEE 754 binary64, as data that can be reasoned about.

  The finite magnitudes are counted in ascending order, from zero up: `Magnitude.rank` is the
  place in that order, so a magnitude has ONE form and the next rank is the next number.  A block
  of `binade` ranks shares one spacing; `units` gives the value in multiples of the least spacing,
  which is 2^-1074.
-/

namespace CurlyScript

-- Powers are those of `Nat` itself, whichever other structure on `Nat` is in scope.  A numeral
-- as exponent has its type written out, lest a default choose the power.
attribute [local instance (high)] instPowNat

/-- The whole number nearest to `a / b`, and on a tie the even one. -/
def roundDiv (a b : Nat) : Nat :=
  let q := a / b
  let r := a % b
  if 2 * r < b then q else if b < 2 * r then q + 1 else q + q % 2

/-- How many neighbouring numbers share one spacing. -/
def binade : Nat := 2 ^ (52 : Nat)

/-- How often the least spacing goes into one. -/
def unitsPerOne : Nat := 2 ^ (1074 : Nat)

/-- A finite number without its sign. -/
structure Magnitude where
  /-- The place in ascending order, zero first. -/
  rank : Nat
  rank_lt : rank < 2047 * binade
deriving DecidableEq, Repr

namespace Magnitude

/-- Nothing at all. -/
def zero : Magnitude := ⟨0, by decide⟩

/-- The value in units of 2^-1074.  The spacing is one unit in the first two blocks of ranks and
    doubles from each block to the next. -/
def units (m : Magnitude) : Nat :=
  if m.rank < binade then m.rank
  else (binade + m.rank % binade) <<< (m.rank / binade - 1)

/-- The magnitude nearest to `num / den`, on a tie the one of even rank; none if the value is
    nearer to the number that would follow the last one. -/
def nearest? (num den : Nat) : Option Magnitude :=
  let scaled := num * unitsPerOne
  let block := (scaled / den).log2 - 52
  let rank := block * binade + roundDiv scaled (den <<< block)
  if h : rank < 2047 * binade then some ⟨rank, h⟩ else none

end Magnitude

/-- A binary64 number; all NaNs are one. -/
inductive Number where
  | nan
  | infinite (negative : Bool)
  | finite (negative : Bool) (size : Magnitude)
deriving DecidableEq, Repr

/-- Whether the number is neither infinite nor NaN. -/
def Number.isFinite : Number → Bool
  | finite _ _ => true
  | _ => false

end CurlyScript
