import CurlyScript.Grammar.Error

/-
  Cursors: the place that reading has come to in a list of tokens.

  Comments may stand anywhere.  They are passed over, except where a statement can begin, so a
  cursor tells the next token proper from the one that really comes next.

  No step takes an end token.  Where none is to come, one at the end of the last token stands in
  for it.

  Every step that takes a token gives a cursor with FEWER tokens left, and says so in its type;
  all recursion of the grammar is on that number.
-/

namespace CurlyScript

/-- The tokens to come, and what the spans of nodes need to know of those before. -/
structure Cursor where
  /-- All tokens to come. -/
  tokens : List Token
  /-- Where the last token taken stops. -/
  prevStop : Nat
  /-- Where the last token of all stops. -/
  lastStop : Nat
deriving DecidableEq, Repr

/-- How many tokens are left. -/
def Cursor.size (c : Cursor) : Nat := c.tokens.length

section

variable {c d e f : Cursor} {n : Nat}

/-! What is left after a few steps.  The rules of the grammar owe these bounds at each place where
    they go on. -/

theorem Cursor.size_lt₂ (hd : d.size < c.size) (hc : c.size < n) : d.size < n :=
  Nat.lt_trans hd hc

theorem Cursor.size_lt₃ (he : e.size < d.size) (hd : d.size < c.size) (hc : c.size < n) :
    e.size < n :=
  Nat.lt_trans he (size_lt₂ hd hc)

theorem Cursor.size_lt₄ (hf : f.size < e.size) (he : e.size < d.size) (hd : d.size < c.size)
    (hc : c.size < n) : f.size < n :=
  Nat.lt_trans hf (size_lt₃ he hd hc)

theorem Cursor.size_lt_of_le (hd : d.size ≤ c.size) (hc : c.size < n) : d.size < n :=
  Nat.lt_of_le_of_lt hd hc

end

/-- A value that was read, and a cursor with fewer than `n` tokens left. -/
structure Step (n : Nat) (α : Type) where
  /-- What was read. -/
  value : α
  /-- Where reading goes on. -/
  rest : Cursor
  lt : rest.size < n

/-- What a rule of the grammar gives: a step, or the error at the first token that does not
    fit. -/
abbrev Read := Except SyntaxError

/-- The same step with another value. -/
def Step.map {n : Nat} {α β : Type} (f : α → β) (s : Step n α) : Step n β :=
  ⟨f s.value, s.rest, s.lt⟩

namespace Cursor

/-- A cursor before the first token. -/
def ofTokens (ts : List Token) : Cursor := ⟨ts, 0, (ts.getLast?.map (·.span.stop)).getD 0⟩

/-- The token that really comes next, or an end token if none does. -/
def rawToken (c : Cursor) : Token := c.tokens.headD (Token.endAt c.lastStop)

/-- The cursor before the next token proper. -/
def skipComments (c : Cursor) : Cursor := { c with tokens := c.tokens.dropWhile Token.isComment }

theorem size_skipComments_le (c : Cursor) : c.skipComments.size ≤ c.size :=
  (List.dropWhile_suffix _).length_le

/-- The next token proper, or an end token if there is none. -/
def token (c : Cursor) : Token := c.skipComments.rawToken

/-- The class of the next token proper. -/
def kind (c : Cursor) : TokenKind := c.token.kind

/-- Where the next token proper begins. -/
def start (c : Cursor) : Nat := c.token.span.start

/-- The error at the next token proper. -/
def error (c : Cursor) (expected : Expected) : SyntaxError := ⟨expected, c.kind, c.start⟩

/-- The span from `start` to the end of the last token taken. -/
def spanFrom (c : Cursor) (start : Nat) : Span := ⟨start, max c.prevStop start⟩

/-- Takes the token that really comes next, unless it is an end token. -/
def nextRaw? (c : Cursor) : Option (Step c.size Token) :=
  match h : c.tokens with
  | [] => none
  | t :: ts =>
    if t.kind = .eof then none
    else some ⟨t, { c with tokens := ts, prevStop := t.span.stop }, by simp [size, h]⟩

/-- Takes the next token if it is a comment. -/
def comment? (c : Cursor) : Option (Step c.size Token) :=
  c.nextRaw?.filter (·.value.isComment)

/-- Takes the next token proper. -/
def next? (c : Cursor) : Option (Step c.size Token) :=
  c.skipComments.nextRaw?.map fun s =>
    ⟨s.value, s.rest, Nat.lt_of_lt_of_le s.lt c.size_skipComments_le⟩

/-- Takes the next token proper if `f` has a value for its class. -/
def take? {α : Type} (c : Cursor) (f : TokenKind → Option α) : Option (Step c.size α) :=
  match c.next? with
  | none => none
  | some s => (f s.value.kind).map fun a => ⟨a, s.rest, s.lt⟩

/-- Takes the next token proper if it is of class `k`. -/
def accept? (c : Cursor) (k : TokenKind) : Option (Step c.size Token) :=
  c.next?.filter (·.value.kind = k)

/-- Takes the next token proper, which has to be of class `k`. -/
def expect (c : Cursor) (k : TokenKind) : Read (Step c.size Token) :=
  match c.accept? k with
  | some s => .ok s
  | none => .error (c.error (.token k))

/-- The cursor past the next token proper if that is of class `k`, else the cursor itself. -/
def past (c : Cursor) (k : TokenKind) : { d : Cursor // d.size ≤ c.size } :=
  match c.accept? k with
  | some s => ⟨s.rest, Nat.le_of_lt s.lt⟩
  | none => ⟨c, Nat.le_refl _⟩

/-- Whether the text ends here: at an end token that really comes next. -/
def atEnd (c : Cursor) : Bool := c.rawToken.kind == .eof

/-- Whether a block ends here: at a closing brace that really comes next, or with the text. -/
def atBlockEnd (c : Cursor) : Bool := c.rawToken.kind == .punctuation .rBrace || c.atEnd

end Cursor

end CurlyScript
