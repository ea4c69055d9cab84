/-
  Positions for people: a byte offset read as a line and a column, both counted from one.

  Columns count CHARACTERS.  An offset inside a character belongs to the position after it, and
  an offset past the end to the position of the end.
-/

namespace CurlyScript

/-- A place in a text as people count it, the first being line 1, column 1. -/
structure Position where
  /-- The line, from one. -/
  line : Nat
  /-- The column in characters, from one. -/
  column : Nat
deriving DecidableEq, Repr

namespace Position

/-- The place of the first character. -/
def first : Position := ⟨1, 1⟩

/-- The place after `c`: the next line after a line feed, the next column after anything else. -/
def after (p : Position) (c : Char) : Position :=
  if c = '\n' then ⟨p.line + 1, 1⟩ else ⟨p.line, p.column + 1⟩

/-- The place reached from `p` by the characters that begin within the next `bytes` bytes. -/
def advance (p : Position) (bytes : Nat) : List Char → Position
  | [] => p
  | c :: cs => if bytes = 0 then p else (p.after c).advance (bytes - c.utf8Size) cs

/-- The place of the byte offset `offset` in `source`. -/
def ofOffset (source : String) (offset : Nat) : Position :=
  first.advance offset source.toList

/-- The place as `line:column`. -/
def text (p : Position) : String := s!"{p.line}:{p.column}"

end Position

/-- One line that ties a message to a place of a file: `file:line:column: message`. -/
def locate (file source : String) (offset : Nat) (message : String) : String :=
  s!"{file}:{(Position.ofOffset source offset).text}: {message}"

end CurlyScript
