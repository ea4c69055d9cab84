import CurlyScript.Vocabulary
import CurlyScript.Source.Span

/-
  Tokens: the words, signs, literals and comments of a text, each with its exact text and span.

  A token stream need not come from a text: the grammar reads any list of tokens, so nothing here
  ties the lexeme of a token to its class or to its span.
-/

namespace CurlyScript

/-- The class of a token. -/
inductive TokenKind where
  | keyword (k : Keyword)
  | operator (o : Operator)
  | punctuation (p : Punctuation)
  | ident
  | number
  /-- A string literal, of either quote. -/
  | string
  /-- A comment of either form, with its markers. -/
  | comment
  /-- The end of the text. -/
  | eof
deriving DecidableEq, Repr

namespace TokenKind

/-- The class of the token that a sign makes. -/
def ofSign : Sign → TokenKind
  | .operator o => operator o
  | .punctuation p => punctuation p

/-- How messages name a class: by its spelling in quotes if it has but one. -/
def text : TokenKind → String
  | keyword k => "'" ++ k.spelling ++ "'"
  | operator o => "'" ++ o.spelling ++ "'"
  | punctuation p => "'" ++ p.spelling ++ "'"
  | ident => "identifier"
  | number => "number"
  | string => "string"
  | comment => "comment"
  | eof => "end of input"

/-- The binary operator of an operator class. -/
def binary? : TokenKind → Option BinaryOp
  | operator o => o.binary?
  | _ => none

/-- How tightly an operator class binds between two operands. -/
def precedence? : TokenKind → Option Nat
  | operator o => o.precedence?
  | _ => none

theorem precedence?_eq (k : TokenKind) : k.precedence? = k.binary?.map BinaryOp.precedence := by
  cases k with
  | operator o => exact o.precedence?_eq
  | _ => rfl

/-- The assignment operator of an operator class. -/
def assign? : TokenKind → Option AssignOp
  | operator o => o.assign?
  | _ => none

/-- The update operator of an operator class. -/
def update? : TokenKind → Option UpdateOp
  | operator o => o.update?
  | _ => none

end TokenKind

/-- A piece of text that means something, or a comment, or the end of the text. -/
structure Token where
  /-- The class. -/
  kind : TokenKind
  /-- The text as it was written. -/
  lexeme : String
  /-- Where it was written. -/
  span : Span
deriving DecidableEq, Repr

/-- The end of a text at the given offset. -/
def Token.endAt (offset : Nat) : Token := ⟨.eof, "", ⟨offset, offset⟩⟩

/-- Whether a token is a comment. -/
def Token.isComment (t : Token) : Bool := t.kind == .comment

end CurlyScript
