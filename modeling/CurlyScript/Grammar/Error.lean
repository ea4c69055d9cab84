import CurlyScript.Token.Scan

/-
  Errors of reading: why a text is no program.

  Reading stops at the FIRST token that does not fit, so there is one error or none.
-/

namespace CurlyScript

/-- What the grammar could have gone on with. -/
inductive Expected where
  /-- One class of token. -/
  | token (k : TokenKind)
  /-- Anything that begins a statement. -/
  | statement
  /-- Anything that begins an expression. -/
  | expression
  /-- Something that can be stored into. -/
  | target
deriving DecidableEq, Repr

/-- How messages name what was expected. -/
def Expected.text : Expected → String
  | token k => k.text
  | statement => "statement"
  | expression => "expression"
  | target => "assignment target"

/-- A token that does not fit the grammar. -/
structure SyntaxError where
  /-- What would have fitted. -/
  expected : Expected
  /-- The class of the token that stands there. -/
  actual : TokenKind
  /-- Where it stands. -/
  offset : Nat
deriving DecidableEq, Repr

/-- The message of a syntax error. -/
def SyntaxError.message (e : SyntaxError) : String :=
  s!"expected {e.expected.text}, found {e.actual.text} at offset {e.offset}"

/-- Why a text is no program. -/
inductive ReadError where
  | lexical (e : LexicalError)
  | syntactic (e : SyntaxError)
deriving DecidableEq, Repr

end CurlyScript
