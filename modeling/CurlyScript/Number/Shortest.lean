import CurlyScript.Number.Decimal

/-
  Shortest decimals: the fewest digits that read back as the same number.

  For one digit, two, and so on up to seventeen, the two neighbours of the value on that decimal
  grid are tried.  The first grid with a neighbour that reads back wins; of two such neighbours
  the nearer one, and of two equally near ones the greater.  Should no grid do, the exact decimal
  expansion does, since every number has a finite one.
-/

namespace CurlyScript.Magnitude

-- Powers are those of `Nat` itself, whichever other structure on `Nat` is in scope.  A numeral
-- as exponent has its type written out, lest a default choose the power.
attribute [local instance (high)] instPowNat

/-- The exact value as a decimal. -/
def exact (m : Magnitude) : Decimal := ⟨m.units * 5 ^ (1074 : Nat), -1074⟩

/-- The exponent of the first significant digit, for a magnitude that is not zero. -/
def order (m : Magnitude) : Int :=
  (Decimal.digitsOf (m.units * 10 ^ (324 : Nat) / unitsPerOne)).length - 325

/-- The value divided by `10 ^ e`, as a fraction. -/
def scaled (m : Magnitude) (e : Int) : Nat × Nat :=
  match e with
  | .ofNat e => (m.units, unitsPerOne * 10 ^ e)
  | .negSucc e => (m.units * 10 ^ (e + 1), unitsPerOne)

/-- Whether a decimal reads back as the magnitude. -/
def reads (m : Magnitude) (d : Decimal) : Bool := d.magnitude? == some m

/-- The neighbours of the value among the decimals of `n` digits, the better one first. -/
def neighbours (m : Magnitude) (n : Nat) : List Decimal :=
  let e := m.order + 1 - n
  let (num, den) := m.scaled e
  let lower : Decimal := ⟨num / den, e⟩
  let upper : Decimal := if num / den + 1 = 10 ^ n then ⟨1, e + n⟩ else ⟨num / den + 1, e⟩
  if 2 * (num % den) < den then [lower, upper] else [upper, lower]

/-- The shortest decimal that reads back. -/
def shortest (m : Magnitude) : Decimal :=
  if m.rank = 0 then ⟨0, 0⟩
  else match ((List.range' 1 17).flatMap m.neighbours).find? m.reads with
    | some d => d
    | none => m.exact

end CurlyScript.Magnitude
