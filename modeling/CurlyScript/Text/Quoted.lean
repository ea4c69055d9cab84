/-
  Quoted text: string literals between quotes, with backslash escapes.

  `encode` writes a value between double quotes, `decode` reads the value of a literal whatever
  its quotes are.  `unescape` is forgiving: a backslash before a character that needs none
  stands for that character, and a backslash at the very end stands for nothing.
-/

namespace CurlyScript.Text

/-- The letter that stands for `c` after a backslash, if `c` may not stand for itself. -/
def escapeLetter? : Char → Option Char
  | '"' => some '"'
  | '\\' => some '\\'
  | '\n' => some 'n'
  | '\t' => some 't'
  | '\r' => some 'r'
  | '\x00' => some '0'
  | _ => none

/-- The character that a backslash and `c` stand for. -/
def escaped : Char → Char
  | 'n' => '\n'
  | 't' => '\t'
  | 'r' => '\r'
  | '0' => '\x00'
  | c => c

/-- Writes each character by itself or as a backslash and its letter. -/
def escape : List Char → List Char
  | [] => []
  | c :: cs => match escapeLetter? c with
    | some l => '\\' :: l :: escape cs
    | none => c :: escape cs

/-- Reads what stands between the quotes of a literal. -/
def unescape : List Char → List Char
  | [] => []
  | ['\\'] => []
  | '\\' :: c :: cs => escaped c :: unescape cs
  | c :: cs => c :: unescape cs

theorem unescape_cons {c : Char} (h : c ≠ '\\') (cs : List Char) :
    unescape (c :: cs) = c :: unescape cs := by
  rw [unescape]
  · intro hc; exact fun _ => h hc
  · intro d ds hc; exact fun _ => h hc

theorem escaped_of_escapeLetter? {c l : Char} (h : escapeLetter? c = some l) : escaped l = c := by
  unfold escapeLetter? at h
  split at h <;> cases h <;> rfl

theorem ne_backslash_of_escapeLetter? {c : Char} (h : escapeLetter? c = none) : c ≠ '\\' := by
  intro hc; subst hc; simp [escapeLetter?] at h

/-- Reading what was written gives the text back. -/
theorem unescape_escape (cs : List Char) : unescape (escape cs) = cs := by
  induction cs with
  | nil => rfl
  | cons c cs ih =>
    unfold escape
    split
    · rename_i l h
      rw [unescape, escaped_of_escapeLetter? h, ih]
    · rename_i h
      rw [unescape_cons (ne_backslash_of_escapeLetter? h), ih]

/-- A text without its first and last character, if both are one byte wide.  Otherwise, or if
    there is just one character, nothing is left. -/
def strip : List Char → List Char
  | [] => []
  | c :: cs => match cs.getLast? with
    | none => []
    | some d => if c.utf8Size = 1 ∧ d.utf8Size = 1 then cs.dropLast else []

/-- The value of a string literal, given with its quotes. -/
def decode (literal : String) : String := String.ofList (unescape (strip literal.toList))

/-- The literal between double quotes whose value is `value`. -/
def encode (value : String) : String :=
  String.ofList ('"' :: escape value.toList ++ ['"'])

/-- Between two quotes stands what is left without them. -/
theorem strip_quoted {quote : Char} (h : quote.utf8Size = 1) (body : List Char) :
    strip (quote :: (body ++ [quote])) = body := by
  have hlast : (body ++ [quote]).getLast? = some quote := by simp
  rw [strip, hlast]
  show (if _ then _ else _) = _
  rw [if_pos ⟨h, h⟩, List.dropLast_concat]

/-- What was quoted is read back. -/
theorem decode_encode (s : String) : decode (encode s) = s := by
  rw [decode, encode, String.toList_ofList, List.cons_append, strip_quoted rfl, unescape_escape,
    String.ofList_toList]

end CurlyScript.Text
