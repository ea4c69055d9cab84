/-
  Differences between two texts, line by line at the same place.

  Nothing is aligned: line `n` of one text is held against line `n` of the other, and what one of
  them has beyond the end of the other counts as removed or added.
-/

namespace CurlyScript

/-- The lines of a text, `current` being the line so far in reverse.  A carriage return before
    the line feed belongs to the end of the line; after the last line feed there is a line only
    if there is text. -/
def linesFrom (current : List Char) : List Char → List String
  | [] => if current.isEmpty then [] else [String.ofList current.reverse]
  | '\n' :: cs =>
    let line := match current with
      | '\r' :: rest => rest
      | rest => rest
    String.ofList line.reverse :: linesFrom [] cs
  | c :: cs => linesFrom (c :: current) cs

/-- The lines of a text without their ends. -/
def lines (s : String) : List String := linesFrom [] s.toList

/-- A line of one text only. -/
structure Change where
  /-- Whether it is a line of the new text. -/
  added : Bool
  /-- The place of the line, from one. -/
  line : Nat
  /-- The line. -/
  text : String
deriving DecidableEq, Repr

namespace Change

/-- A number at the right of four columns, or of as many as it needs. -/
def column (n : Nat) : String :=
  let ds := Nat.toDigits 10 n
  String.ofList (List.replicate (4 - ds.length) ' ' ++ ds)

/-- A change as one line: a sign, the place and the text. -/
def entry (c : Change) : String :=
  (if c.added then "+" else "-") ++ column c.line ++ " | " ++ c.text ++ "\n"

/-- The changes from the lines of one text to those of another, from line `n` on. -/
def between (n : Nat) : List String → List String → List Change
  | [], [] => []
  | a :: as, [] => ⟨false, n, a⟩ :: between (n + 1) as []
  | [], b :: bs => ⟨true, n, b⟩ :: between (n + 1) [] bs
  | a :: as, b :: bs =>
    if a = b then between (n + 1) as bs
    else ⟨false, n, a⟩ :: ⟨true, n, b⟩ :: between (n + 1) as bs

end Change

/-- What has to change in `old` to get `new`: nothing if they are equal, else a line for each
    change, which may be no line at all if they differ in line ends only. -/
def diff? (old new : String) : Option String :=
  if old = new then none
  else some (String.join ((Change.between 1 (lines old) (lines new)).map Change.entry))

end CurlyScript
