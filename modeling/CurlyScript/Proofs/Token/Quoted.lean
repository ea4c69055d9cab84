import CurlyScript.Proofs.Token.Munch

/-
  Strings: the quoter, the scanner and the decoder share one notion of an escape.

  Three recursions look at backslashes.  `quotedLength` finds the closing quote, `Text.unescape`
  reads what stands between the quotes, and `Text.escape` writes it.

  1. **Parity** — `backslashes cs`: how many backslashes `cs` ends in.  A character is escaped if
     this is odd for the text before it, which says nothing of how that text is read.  What is
     enclosed ends in an even number of them, and every quote of its kind has an odd number before
     it.

  2. **Letters** — `letters? cs` cuts a text into characters that stand for themselves and
     characters after a backslash.  It has a result unless the last backslash stands alone, which is
     where `Text.unescape` drops a character; otherwise that gives the value of each letter
     (`unescape_eq_of_letters?`).

  3. **Tokens** — a quoted text is one token (`scan_of_isQuoted`), and a string token is enclosed
     by its quotes (`enclosed_of_scan`).
-/

namespace CurlyScript

/-! ## Parity -/

/-- How many backslashes a text ends in. -/
def backslashes (cs : List Char) : Nat := (cs.reverse.takeWhile (· = '\\')).length

theorem backslashes_concat_backslash (cs : List Char) :
    backslashes (cs ++ ['\\']) = backslashes cs + 1 := by
  simp [backslashes]

theorem backslashes_concat {c : Char} (hc : c ≠ '\\') (cs : List Char) :
    backslashes (cs ++ [c]) = 0 := by
  simp [backslashes, hc]

/-- A backslash and what it takes with it leave the parity as it was, if that was even. -/
theorem backslashes_escape_even {cs : List Char} (h : backslashes cs % 2 = 0) (c : Char) :
    backslashes (cs ++ ['\\', c]) % 2 = 0 := by
  have hsplit : cs ++ ['\\', c] = cs ++ ['\\'] ++ [c] := by simp
  rw [hsplit]
  by_cases hc : c = '\\'
  · rw [hc, backslashes_concat_backslash, backslashes_concat_backslash]
    omega
  · rw [backslashes_concat hc]

/-- Between two quotes of a kind: the second of them is not escaped, and any in between is. -/
structure Paired (quote : Char) (body : List Char) : Prop where
  /-- The closing quote, which stands right after the body, is not escaped. -/
  ending : backslashes body % 2 = 0
  /-- A quote of that kind in the body is escaped. -/
  inner : ∀ before after, body = before ++ quote :: after → backslashes before % 2 = 1

namespace Enclosed

variable {quote : Char} {body : List Char}

theorem backslashes_append_even (h : Enclosed quote body) :
    ∀ before, backslashes before % 2 = 0 → backslashes (before ++ body) % 2 = 0 := by
  induction h with
  | nil =>
    intro before heven
    rw [List.append_nil]
    exact heven
  | @plain c cs _ hc _ ih =>
    intro before _
    rw [List.append_cons]
    apply ih
    rw [backslashes_concat hc]
  | @escaped c cs _ ih =>
    intro before heven
    have hsplit : before ++ '\\' :: c :: cs = before ++ ['\\', c] ++ cs := by simp
    rw [hsplit]
    exact ih _ (backslashes_escape_even heven c)

theorem backslashes_before_quote (hquote : quote ≠ '\\') (h : Enclosed quote body) :
    ∀ before x after, backslashes before % 2 = 0 → body = x ++ quote :: after →
      backslashes (before ++ x) % 2 = 1 := by
  induction h with
  | nil =>
    intro before x after _ hbody
    simp at hbody
  | @plain c cs hne hc _ ih =>
    intro before x after _ hbody
    cases x with
    | nil => exact absurd (List.cons.inj hbody).1 hne
    | cons d x =>
      obtain ⟨rfl, hcs⟩ := List.cons.inj hbody
      rw [List.append_cons]
      exact ih _ x after (by rw [backslashes_concat hc]) hcs
  | @escaped c cs _ ih =>
    intro before x after heven hbody
    -- the quote may be the first character, the one after the backslash, or come later
    rcases x with _ | ⟨d, _ | ⟨e, x⟩⟩
    · exact absurd (List.cons.inj hbody).1.symm hquote
    · obtain ⟨rfl, -⟩ := List.cons.inj hbody
      rw [backslashes_concat_backslash]
      omega
    · obtain ⟨rfl, hrest⟩ := List.cons.inj hbody
      obtain ⟨rfl, hcs⟩ := List.cons.inj hrest
      have hsplit : before ++ '\\' :: c :: x = before ++ ['\\', c] ++ x := by simp
      rw [hsplit]
      exact ih _ x after (backslashes_escape_even heven c) hcs

theorem paired (hquote : quote ≠ '\\') (h : Enclosed quote body) : Paired quote body where
  ending := h.backslashes_append_even [] rfl
  inner before after hbody := h.backslashes_before_quote hquote [] before after rfl hbody

end Enclosed

/-! ## Letters -/

/-- What stands for one character of a value. -/
inductive Letter where
  /-- The character itself. -/
  | plain (c : Char)
  /-- A backslash and a character. -/
  | escape (c : Char)
deriving DecidableEq, Repr

/-- The characters of a letter. -/
def Letter.chars : Letter → List Char
  | plain c => [c]
  | escape c => ['\\', c]

/-- The character that a letter stands for. -/
def Letter.value : Letter → Char
  | plain c => c
  | escape c => Text.escaped c

/-- The letters of a text, if its last backslash does not stand alone. -/
def letters? : List Char → Option (List Letter)
  | [] => some []
  | ['\\'] => none
  | '\\' :: c :: cs => (letters? cs).map (.escape c :: ·)
  | c :: cs => (letters? cs).map (.plain c :: ·)

theorem letters?_cons {c : Char} (hc : c ≠ '\\') (cs : List Char) :
    letters? (c :: cs) = (letters? cs).map (.plain c :: ·) := by
  rw [letters?]
  · intro h; exact fun _ => hc h
  · intro d ds h; exact fun _ => hc h

theorem flatMap_chars_of_letters? {cs : List Char} {ls : List Letter}
    (h : letters? cs = some ls) : ls.flatMap Letter.chars = cs := by
  fun_induction letters? cs generalizing ls with
  | case1 => cases h; rfl
  | case2 => exact absurd h (by simp)
  | case3 c cs ih =>
    obtain ⟨more, hmore, rfl⟩ := Option.map_eq_some_iff.mp h
    rw [List.flatMap_cons, ih hmore]
    rfl
  | case4 c cs _ _ ih =>
    obtain ⟨more, hmore, rfl⟩ := Option.map_eq_some_iff.mp h
    rw [List.flatMap_cons, ih hmore]
    rfl

/-- Where no backslash stands alone, every letter is read. -/
theorem unescape_eq_of_letters? {cs : List Char} {ls : List Letter} (h : letters? cs = some ls) :
    Text.unescape cs = ls.map Letter.value := by
  fun_induction letters? cs generalizing ls with
  | case1 => cases h; rfl
  | case2 => exact absurd h (by simp)
  | case3 c cs ih =>
    obtain ⟨more, hmore, rfl⟩ := Option.map_eq_some_iff.mp h
    rw [Text.unescape, ih hmore]
    rfl
  | case4 c cs h1 h2 ih =>
    obtain ⟨more, hmore, rfl⟩ := Option.map_eq_some_iff.mp h
    rw [Text.unescape_cons (ne_backslash_of_not_escape h1 h2), ih hmore]
    rfl

theorem Enclosed.exists_letters {quote : Char} {body : List Char} (h : Enclosed quote body) :
    ∃ ls, letters? body = some ls := by
  induction h with
  | nil => exact ⟨[], rfl⟩
  | @plain c cs _ hc _ ih =>
    obtain ⟨ls, hls⟩ := ih
    exact ⟨.plain c :: ls, by rw [letters?_cons hc, hls]; rfl⟩
  | @escaped c cs _ ih =>
    obtain ⟨ls, hls⟩ := ih
    exact ⟨.escape c :: ls, by rw [letters?, hls]; rfl⟩

/-! ## Tokens -/

theorem utf8Size_of_quote {quote : Char} (h : quote = '"' ∨ quote = '\'') :
    quote.utf8Size = 1 := by
  rcases h with rfl | rfl <;> rfl

/-- A quoted text is one token. -/
theorem scan_of_isQuoted {s : String} (h : isQuoted s.toList = true) (keep : Bool) :
    scan s keep = .ok [⟨.string, s, ⟨0, byteLength s.toList⟩⟩,
      Token.endAt (byteLength s.toList)] := by
  obtain ⟨c, body, hq, -, hs⟩ := isQuoted_iff.mp h
  rw [hs] at h
  have hblank := isBlank_eq_false_of_quote hq
  have hl := lexeme_quoted h []
  rw [List.append_nil] at hl
  have htext : String.ofList (c :: (body ++ [c])) = s := by rw [← hs, String.ofList_toList]
  rw [scan, hs, scanFrom, if_neg (by simp [hblank])]
  simp only [hl]
  rw [if_neg (by simp), List.take_length, List.drop_length, scanFrom, htext, Nat.zero_add]
  rfl

/-- A string token stands between two quotes of its kind. -/
theorem enclosed_of_scan {source : String} {keep : Bool} {tokens : List Token} {t : Token}
    (h : scan source keep = .ok tokens) (ht : t ∈ tokens) (hk : t.kind = .string) :
    ∃ quote body, (quote = '"' ∨ quote = '\'') ∧ Enclosed quote body ∧
      t.lexeme.toList = quote :: (body ++ [quote]) := by
  have hspelled := isSpelled_of_scan h ht (by rw [hk]; decide)
  rw [Token.terminal, hk] at hspelled
  exact isQuoted_iff.mp hspelled

/-- The text of a string: its quotes, and the letters between them, all of which are decoded. -/
structure Quotes (quote : Char) (ls : List Letter) (text : String) : Prop where
  /-- There are two kinds of quotes. -/
  isQuote : quote = '"' ∨ quote = '\''
  /-- The letters stand between the quotes. -/
  isText : text.toList = quote :: (ls.flatMap Letter.chars ++ [quote])
  /-- The text between the quotes is the one that the first quote opens and the second closes. -/
  isPaired : Paired quote (ls.flatMap Letter.chars)
  /-- The letters are cut as they are decoded, and no backslash stands alone. -/
  isCut : letters? (ls.flatMap Letter.chars) = some ls
  /-- The value is that of the letters. -/
  isValue : (Text.decode text).toList = ls.map Letter.value

theorem exists_quotes_of_scan {source : String} {keep : Bool} {tokens : List Token} {t : Token}
    (h : scan source keep = .ok tokens) (ht : t ∈ tokens) (hk : t.kind = .string) :
    ∃ quote ls, Quotes quote ls t.lexeme := by
  obtain ⟨quote, body, hq, hb, htext⟩ := enclosed_of_scan h ht hk
  obtain ⟨ls, hls⟩ := hb.exists_letters
  obtain rfl := flatMap_chars_of_letters? hls
  refine ⟨quote, ls, hq, htext, hb.paired (ne_backslash_of_quote hq), hls, ?_⟩
  rw [Text.decode, String.toList_ofList, htext, Text.strip_quoted (utf8Size_of_quote hq),
    unescape_eq_of_letters? hls]

/-- What is encoded is one token, and decodes to what it was. -/
theorem scan_encode (v : String) (keep : Bool) : scan (Text.encode v) keep =
    .ok [⟨.string, Text.encode v, ⟨0, byteLength (Text.encode v).toList⟩⟩,
      Token.endAt (byteLength (Text.encode v).toList)] := by
  apply scan_of_isQuoted
  rw [Text.encode, String.toList_ofList]
  exact isQuoted_encode v.toList

/-- Quoting, scanning and decoding agree.  A value that is quoted is one string token and decodes to
    itself; the text of any string token, of either kind of quotes, ends in no backslash that stands
    alone and has no quote of its kind that is not escaped, so that every letter of it is decoded;
    and its value, quoted anew, is a token with that value. -/
theorem scan_string :
    (∀ v : String, Text.decode (Text.encode v) = v ∧ ∀ keep, scan (Text.encode v) keep =
      .ok [⟨.string, Text.encode v, ⟨0, byteLength (Text.encode v).toList⟩⟩,
        Token.endAt (byteLength (Text.encode v).toList)]) ∧
    ∀ source keep tokens t, scan source keep = .ok tokens → t ∈ tokens → t.kind = .string →
      (∃ quote ls, Quotes quote ls t.lexeme) ∧
      ∀ keep', ∃ u, scan (Text.encode (Text.decode t.lexeme)) keep' =
          .ok [u, Token.endAt (byteLength (Text.encode (Text.decode t.lexeme)).toList)] ∧
        u.kind = .string ∧ Text.decode u.lexeme = Text.decode t.lexeme := by
  constructor
  · intro v
    exact ⟨Text.decode_encode v, scan_encode v⟩
  · intro source keep tokens t h ht hk
    constructor
    · exact exists_quotes_of_scan h ht hk
    · intro keep'
      have hscan := scan_encode (Text.decode t.lexeme) keep'
      have hvalue := Text.decode_encode (Text.decode t.lexeme)
      exact ⟨_, hscan, rfl, hvalue⟩

/-- Three strings of both kinds of quotes, with quotes and backslashes in them. -/
def twoQuotes : String := "'it\\'s' + \"a\\n\\\\\" + '\"\\q'"

/-- The tokens of that text. -/
def twoQuotesTokens : List Token :=
  [⟨.string, "'it\\'s'", ⟨0, 7⟩⟩, ⟨.operator .plus, "+", ⟨8, 9⟩⟩,
   ⟨.string, "\"a\\n\\\\\"", ⟨10, 17⟩⟩, ⟨.operator .plus, "+", ⟨18, 19⟩⟩,
   ⟨.string, "'\"\\q'", ⟨20, 25⟩⟩, Token.endAt 25]

theorem scan_string_twoQuotes : scan twoQuotes false = .ok twoQuotesTokens ∧
    (twoQuotesTokens.filter (·.kind == .string)).map (Text.decode ·.lexeme) =
      ["it's", "a\n\\", "\"q"] ∧
    ∀ t ∈ twoQuotesTokens, t.kind = .string →
      (∃ quote ls, Quotes quote ls t.lexeme) ∧
      ∀ keep', ∃ u, scan (Text.encode (Text.decode t.lexeme)) keep' =
          .ok [u, Token.endAt (byteLength (Text.encode (Text.decode t.lexeme)).toList)] ∧
        u.kind = .string ∧ Text.decode u.lexeme = Text.decode t.lexeme := by
  have hscan : scan twoQuotes false = .ok twoQuotesTokens := by decide +kernel
  have hvalues : (twoQuotesTokens.filter (·.kind == .string)).map (Text.decode ·.lexeme) =
      ["it's", "a\n\\", "\"q"] := by decide +kernel
  refine ⟨hscan, hvalues, ?_⟩
  intro t ht hk
  exact scan_string.2 twoQuotes false twoQuotesTokens t hscan ht hk

end CurlyScript
