import CurlyScript.Token.Basic
import CurlyScript.Text.Blank
import CurlyScript.Text.Shown

/-
  Scanning: from text to tokens.

  `lexeme c cs` looks at the text `c :: cs`, which begins with no blank, and says which class of
  token begins there and how many of the characters `cs` belong to it.  Only three things can go
  wrong: a string or a block comment never ends, or no class begins with `c`.

  `scan` walks the text once.  It counts offsets in bytes and drops comments unless told to keep
  them; the stream ends with the end token at the length of the text.
-/

namespace CurlyScript

/-! ## What can go wrong -/

/-- Why no token begins at some place. -/
inductive ScanFault where
  | unexpected (c : Char)
  | openString
  | openComment
deriving DecidableEq, Repr

/-- How a message names the fault. -/
def ScanFault.text : ScanFault → String
  | unexpected c => "unexpected character " ++ Text.shownChar c
  | openString => "unterminated string literal"
  | openComment => "unterminated block comment"

/-- A fault and the offset at which the scan stopped. -/
structure LexicalError where
  /-- What is wrong. -/
  fault : ScanFault
  /-- Where the text that is wrong begins. -/
  offset : Nat
deriving DecidableEq, Repr

/-- The message of a lexical error. -/
def LexicalError.message (e : LexicalError) : String :=
  s!"{e.fault.text} at offset {e.offset}"

/-! ## The extent of one token -/

/-- Whether a character begins a word. -/
def isWordStart (c : Char) : Bool := c.isAlpha || c == '_'

/-- Whether a character continues a word. -/
def isWordPart (c : Char) : Bool := c.isAlphanum || c == '_'

/-- How many characters of `cs` go up to and including the closing quote, `n` being counted
    already.  A backslash takes the next character with it, whatever that is. -/
def quotedLength (quote : Char) (n : Nat) : List Char → Option Nat
  | [] => none
  | ['\\'] => none
  | '\\' :: _ :: cs => quotedLength quote (n + 2) cs
  | c :: cs => if c = quote then some (n + 1) else quotedLength quote (n + 1) cs

/-- How many characters of `cs` go up to and including the first `*/`, `n` being counted
    already. -/
def commentLength (n : Nat) : List Char → Option Nat
  | [] => none
  | '*' :: '/' :: _ => some (n + 2)
  | _ :: cs => commentLength (n + 1) cs

/-- How many characters of `cs` continue a number: digits, and once a point with digits. -/
def numberLength (cs : List Char) : Nat :=
  let whole := (cs.takeWhile Char.isDigit).length
  match cs.drop whole with
  | '.' :: rest =>
    let fraction := (rest.takeWhile Char.isDigit).length
    if fraction = 0 then whole else whole + 1 + fraction
  | _ => whole

/-- The class of a word: a keyword only if the WHOLE word is its spelling. -/
def wordKind (word : List Char) : TokenKind :=
  match Keyword.ofSpelling? (String.ofList word) with
  | some k => .keyword k
  | none => .ident

/-- The class of the token at the start of `c :: cs`, and how many characters it takes of `cs`.
    Comments come before the signs that they begin with. -/
def lexeme (c : Char) (cs : List Char) : Except ScanFault (TokenKind × Nat) :=
  match c, cs with
  | '/', '/' :: rest => .ok (.comment, 1 + (rest.takeWhile (· ≠ '\n')).length)
  | '/', '*' :: rest => match commentLength 1 rest with
    | some n => .ok (.comment, n)
    | none => .error .openComment
  | _, _ =>
    if c = '"' ∨ c = '\'' then
      match quotedLength c 0 cs with
      | some n => .ok (.string, n)
      | none => .error .openString
    else if c.isDigit then .ok (.number, numberLength cs)
    else if isWordStart c then
      let rest := cs.takeWhile isWordPart
      .ok (wordKind (c :: rest), rest.length)
    else match Sign.match? (c :: cs) with
      | some s => .ok (.ofSign s, s.spelling.length - 1)
      | none => .error (.unexpected c)

/-! ## The whole text -/

/-- The tokens of `cs`, whose first character is at `offset`, after the tokens `done`, which
    stand in reverse order. -/
def scanFrom (keep : Bool) (done : List Token) (offset : Nat) :
    List Char → Except LexicalError (List Token)
  | [] => .ok ((Token.endAt offset :: done).reverse)
  | c :: cs =>
    if Text.isBlank c then scanFrom keep done (offset + c.utf8Size) cs
    else match lexeme c cs with
      | .error fault => .error ⟨fault, offset⟩
      | .ok (kind, n) =>
        let text := c :: cs.take n
        let stop := offset + byteLength text
        let token : Token := ⟨kind, String.ofList text, ⟨offset, stop⟩⟩
        let done := if kind = .comment ∧ keep = false then done else token :: done
        scanFrom keep done stop (cs.drop n)
termination_by cs => cs.length
decreasing_by all_goals (simp; try omega)

/-- The tokens of a text, with or without its comments. -/
def scan (source : String) (keepComments : Bool) : Except LexicalError (List Token) :=
  scanFrom keepComments [] 0 source.toList

end CurlyScript
