/-
  Styles: the choices that a layout leaves open.

  None of them touches the words and signs of a program; they only place blanks and line ends.
-/

namespace CurlyScript

/-- How a program is laid out. -/
structure Style where
  /-- How many spaces a block is indented by. -/
  indent : Nat
  /-- Whether spaces surround the operators between two operands. -/
  spacedOperators : Bool
  /-- Whether a space follows a comma within a line. -/
  spacedCommas : Bool
  /-- Whether each entry of an object or array has a line of its own. -/
  brokenLiterals : Bool
  /-- Whether the braces of an empty block stand on two lines.  No option of a command asks for
      it. -/
  openBlocks : Bool
deriving DecidableEq, Repr

namespace Style

/-- The style of a formatted text. -/
def standard : Style := ⟨2, true, true, true, false⟩

/-- What separates two items of a line. -/
def comma (st : Style) : String := if st.spacedCommas then ", " else ","

end Style

end CurlyScript
