import CurlyScript.Text.Printable

/-
  Shown text: characters and strings as messages and dumps show them, between quotes.

  The quote and the backslash get a backslash, five control characters have a letter, printable
  characters stand for themselves, and the rest is written as `\u{hex}`.
-/

namespace CurlyScript.Text

/-- A digit in base sixteen, in lower case. -/
def hexDigit (d : Nat) : Char :=
  if d < 10 then Char.ofNat (48 + d) else Char.ofNat (87 + d)

/-- The digits of `n` in base sixteen, put before `tail`. -/
def hexDigits (n : Nat) (tail : List Char) : List Char :=
  if h : n < 16 then hexDigit n :: tail
  else hexDigits (n / 16) (hexDigit (n % 16) :: tail)
termination_by n
decreasing_by omega

/-- One character inside quotes of the kind `quote`. -/
def showChar (quote c : Char) : List Char :=
  if c = quote then ['\\', c]
  else match c with
    | '\\' => ['\\', '\\']
    | '\x00' => ['\\', '0']
    | '\t' => ['\\', 't']
    | '\r' => ['\\', 'r']
    | '\n' => ['\\', 'n']
    | c => if isPrintable c then [c] else '\\' :: 'u' :: '\x7b' :: hexDigits c.toNat ['\x7d']

/-- A character between single quotes. -/
def shownChar (c : Char) : String :=
  String.ofList ('\'' :: showChar '\'' c ++ ['\''])

/-- A string between double quotes. -/
def shownString (s : String) : String :=
  String.ofList ('"' :: s.toList.flatMap (showChar '"') ++ ['"'])

end CurlyScript.Text
