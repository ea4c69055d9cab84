import CurlyScript.Text.Quoted
import CurlyScript.Token.Scan
import Mathlib.Data.List.Find
import Mathlib.Data.List.TakeWhile

/-
  Spellings: which characters make up one token.

  Every class of token has its spellings, and `lexeme` finds exactly the spelling that the text
  begins with, PROVIDED that what follows cannot be taken for a part of it.  A word or a number
  must be followed by a break (`Breaks`), a sign by nothing that makes a longer sign or opens a
  comment (`Sign.runsInto`), a line comment by the end of its line; quotes and block comments end
  by themselves.
-/

namespace CurlyScript

/-! ## The spellings -/

/-- Whether some characters make up a word, keywords among them. -/
def isWord : List Char → Bool
  | [] => false
  | c :: cs => isWordStart c && cs.all isWordPart

/-- Whether a text can be the name of something: a word that is no keyword. -/
def isName (s : String) : Bool := isWord s.toList && (Keyword.ofSpelling? s).isNone

/-- Whether some characters are digits, perhaps with a point and more digits. -/
def isNumeral (cs : List Char) : Bool :=
  !(cs.takeWhile Char.isDigit).isEmpty &&
    match cs.dropWhile Char.isDigit with
    | [] => true
    | '.' :: fraction => !fraction.isEmpty && fraction.all Char.isDigit
    | _ => false

/-- Whether the first `*/` stands at the end. -/
def closesAtEnd : List Char → Bool
  | [] => false
  | '*' :: '/' :: cs => cs.isEmpty
  | _ :: cs => closesAtEnd cs

/-- Whether a text is one comment: from `//` on without a line feed, or from `/*` to the first
    `*/`. -/
def isCommentText (s : String) : Bool :=
  match s.toList with
  | '/' :: '/' :: cs => !cs.contains '\n'
  | '/' :: '*' :: cs => closesAtEnd cs
  | _ => false

/-- Whether the first quote that is not escaped stands at the end. -/
def endsAtQuote (quote : Char) : List Char → Bool
  | [] => false
  | ['\\'] => false
  | '\\' :: _ :: cs => endsAtQuote quote cs
  | c :: cs => if c = quote then cs.isEmpty else endsAtQuote quote cs

/-- Whether some characters are text between quotes of one kind. -/
def isQuoted : List Char → Bool
  | [] => false
  | c :: cs => (c == '"' || c == '\'') && endsAtQuote c cs

/-- What follows is taken neither for a part of a word nor for the fraction of a number. -/
def Breaks (rest : List Char) : Prop :=
  (∀ d ∈ rest.head?, isWordPart d = false) ∧
    ∀ d ds, rest = '.' :: d :: ds → d.isDigit = false

/-- Whether a sign and the character after it make up a longer sign, or open a comment. -/
def Sign.runsInto (s : Sign) (d : Char) : Bool :=
  Sign.scanOrder.any (fun t => t.spelling.toList == s.spelling.toList ++ [d]) ||
    (s == .operator .slash && (d == '/' || d == '*'))

/-! ## Characters of a word -/

theorem isWordPart_of_isWordStart {c : Char} (h : isWordStart c = true) : isWordPart c = true := by
  simp only [isWordStart, isWordPart, Char.isAlphanum, Bool.or_eq_true] at h ⊢
  rcases h with h | h
  · exact Or.inl (Or.inl h)
  · exact Or.inr h

theorem isWordPart_of_isDigit {c : Char} (h : c.isDigit = true) : isWordPart c = true := by
  simp only [isWordPart, Char.isAlphanum, h, Bool.or_true, Bool.true_or]

theorem isDigit_iff {c : Char} : c.isDigit = true ↔ 48 ≤ c.toNat ∧ c.toNat ≤ 57 := by
  simp only [Char.isDigit, Bool.and_eq_true, decide_eq_true_eq, ge_iff_le, UInt32.le_iff_toNat_le]
  exact Iff.rfl

theorem isAlpha_iff {c : Char} : c.isAlpha = true ↔
    (65 ≤ c.toNat ∧ c.toNat ≤ 90) ∨ (97 ≤ c.toNat ∧ c.toNat ≤ 122) := by
  delta Char.isAlpha Char.isUpper Char.isLower
  simp only [Bool.or_eq_true, Bool.and_eq_true, decide_eq_true_eq, ge_iff_le,
    UInt32.le_iff_toNat_le]
  exact Iff.rfl

/-- The characters of words by their code points. -/
theorem isWordPart_iff {c : Char} : isWordPart c = true ↔
    (48 ≤ c.toNat ∧ c.toNat ≤ 57) ∨ (65 ≤ c.toNat ∧ c.toNat ≤ 90) ∨ c.toNat = 95 ∨
      (97 ≤ c.toNat ∧ c.toNat ≤ 122) := by
  have hc : c = '_' ↔ c.toNat = 95 := by
    rw [← Char.toNat_inj]
    exact Iff.rfl
  simp only [isWordPart, Char.isAlphanum, Bool.or_eq_true, beq_iff_eq, isAlpha_iff, isDigit_iff, hc]
  omega

theorem isBlank_eq_false_of_isWordPart {c : Char} (h : isWordPart c = true) :
    Text.isBlank c = false := by
  rw [isWordPart_iff] at h
  simp only [Text.isBlank, Text.inRanges, Text.blankRanges, List.any_cons, List.any_nil,
    Bool.or_eq_false_iff, Bool.and_eq_false_iff, decide_eq_false_iff_not, Bool.or_false]
  omega

/-- A character of a word is none that has a meaning of its own to the scanner. -/
theorem ne_of_isWordPart {c d : Char} (h : isWordPart c = true) (hd : isWordPart d = false) :
    c ≠ d := by
  rintro rfl
  rw [h] at hd
  exact Bool.noConfusion hd

/-! ## The extent of a run of characters -/

theorem takeWhile_append_stop {p : Char → Bool} {cs rest : List Char} (hcs : ∀ c ∈ cs, p c = true)
    (hrest : ∀ d ∈ rest.head?, p d = false) : (cs ++ rest).takeWhile p = cs := by
  rw [List.takeWhile_append_of_pos hcs]
  cases rest with
  | nil => simp
  | cons d ds =>
    have hd : p d = false := hrest d rfl
    rw [List.takeWhile_cons_of_neg (by simp [hd]), List.append_nil]

theorem Breaks.head_not_digit {rest : List Char} (h : Breaks rest) :
    ∀ d ∈ rest.head?, d.isDigit = false := by
  intro d hd
  have hw := h.1 d hd
  cases hdig : d.isDigit with
  | false => rfl
  | true =>
    rw [isWordPart_of_isDigit hdig] at hw
    exact Bool.noConfusion hw

/-! ## One class at a time -/

/-- Where no comment opens, the first character alone tells the class. -/
theorem lexeme_of_not_comment {c : Char} {cs : List Char}
    (hopen : ∀ d ∈ cs.head?, c = '/' → d ≠ '/' ∧ d ≠ '*') : lexeme c cs =
      if c = '"' ∨ c = '\'' then
        (quotedLength c 0 cs).elim (.error .openString) fun n => .ok (.string, n)
      else if c.isDigit then .ok (.number, numberLength cs)
      else if isWordStart c then
        .ok (wordKind (c :: cs.takeWhile isWordPart), (cs.takeWhile isWordPart).length)
      else (Sign.match? (c :: cs)).elim (.error (.unexpected c)) fun s =>
        .ok (.ofSign s, s.spelling.length - 1) := by
  unfold lexeme
  split
  · exact absurd rfl (hopen '/' rfl rfl).1
  · exact absurd rfl (hopen '*' rfl rfl).2
  · cases quotedLength c 0 cs <;> cases Sign.match? (c :: cs) <;> rfl

/-- A character of a word opens neither a comment nor quotes. -/
theorem not_opening_of_isWordPart {c : Char} (h : isWordPart c = true) :
    c ≠ '/' ∧ ¬ (c = '"' ∨ c = '\'') := by
  refine ⟨ne_of_isWordPart h (by decide), ?_⟩
  rintro (hc | hc)
  · exact ne_of_isWordPart h (by decide) hc
  · exact ne_of_isWordPart h (by decide) hc

theorem isDigit_eq_false_of_isWordStart {c : Char} (h : isWordStart c = true) :
    c.isDigit = false := by
  have hc : c.isAlpha = true → ¬ c.isDigit = true := by
    rw [isAlpha_iff, isDigit_iff]
    omega
  rw [isWordStart, Bool.or_eq_true] at h
  rcases h with h | h
  · exact Bool.eq_false_iff.mpr (hc h)
  · rw [beq_iff_eq] at h
    subst h
    decide

theorem lexeme_of_isWordStart {c : Char} (hc : isWordStart c = true) (cs : List Char) :
    lexeme c cs =
      .ok (wordKind (c :: cs.takeWhile isWordPart), (cs.takeWhile isWordPart).length) := by
  obtain ⟨hslash, hquote⟩ := not_opening_of_isWordPart (isWordPart_of_isWordStart hc)
  have hd := isDigit_eq_false_of_isWordStart hc
  rw [lexeme_of_not_comment fun _ _ h => absurd h hslash, if_neg hquote, if_neg (by simp [hd]),
    if_pos hc]

theorem lexeme_of_isDigit {c : Char} (hc : c.isDigit = true) (cs : List Char) :
    lexeme c cs = .ok (.number, numberLength cs) := by
  obtain ⟨hslash, hquote⟩ := not_opening_of_isWordPart (isWordPart_of_isDigit hc)
  rw [lexeme_of_not_comment fun _ _ h => absurd h hslash, if_neg hquote, if_pos hc]

theorem lexeme_of_quote {c : Char} (hc : c = '"' ∨ c = '\'') (cs : List Char) : lexeme c cs =
    (quotedLength c 0 cs).elim (.error .openString) fun n => .ok (.string, n) := by
  have hslash : c ≠ '/' := by
    rintro rfl
    exact absurd hc (by decide)
  rw [lexeme_of_not_comment fun _ _ h => absurd h hslash, if_pos hc]

/-- What no other class begins with is a sign, if anything. -/
theorem lexeme_of_sign {c : Char} {cs : List Char}
    (hopen : ∀ d ∈ cs.head?, c = '/' → d ≠ '/' ∧ d ≠ '*') (hquote : ¬ (c = '"' ∨ c = '\''))
    (hword : isWordPart c = false) : lexeme c cs =
      (Sign.match? (c :: cs)).elim (.error (.unexpected c)) fun s =>
        .ok (.ofSign s, s.spelling.length - 1) := by
  have hdigit : ¬ c.isDigit = true := by
    intro hd
    rw [isWordPart_of_isDigit hd] at hword
    exact Bool.noConfusion hword
  have hstart : ¬ isWordStart c = true := by
    intro hs
    rw [isWordPart_of_isWordStart hs] at hword
    exact Bool.noConfusion hword
  rw [lexeme_of_not_comment hopen, if_neg hquote, if_neg hdigit, if_neg hstart]

/-! ## Words -/

/-- Keywords are words. -/
theorem isWord_keyword (k : Keyword) : isWord k.spelling.toList = true := by
  cases k <;> decide

/-- Before a break, a word is read as a whole. -/
theorem lexeme_word {c : Char} {cs rest : List Char} (hw : isWord (c :: cs) = true)
    (hr : Breaks rest) : lexeme c (cs ++ rest) = .ok (wordKind (c :: cs), cs.length) := by
  rw [isWord, Bool.and_eq_true, List.all_eq_true] at hw
  have ht : (cs ++ rest).takeWhile isWordPart = cs := takeWhile_append_stop hw.2 hr.1
  rw [lexeme_of_isWordStart hw.1, ht]

/-! ## Numerals -/

/-- A numeral is a run of digits and perhaps a fraction. -/
theorem isNumeral_iff {cs : List Char} : isNumeral cs = true ↔
    ∃ ds tail, ds ≠ [] ∧ (∀ d ∈ ds, d.isDigit = true) ∧ cs = ds ++ tail ∧
      (tail = [] ∨ ∃ f, tail = '.' :: f ∧ f ≠ [] ∧ ∀ d ∈ f, d.isDigit = true) := by
  constructor
  · intro h
    rw [isNumeral, Bool.and_eq_true] at h
    refine ⟨cs.takeWhile Char.isDigit, cs.dropWhile Char.isDigit, ?_, ?_,
      List.takeWhile_append_dropWhile.symm, ?_⟩
    · intro he
      rw [he] at h
      exact Bool.noConfusion h.1
    · exact fun d hd => List.mem_takeWhile_imp hd
    · have h2 := h.2
      split at h2
      · rename_i he; exact Or.inl he
      · rename_i f he
        rw [Bool.and_eq_true, List.all_eq_true] at h2
        refine Or.inr ⟨f, he, ?_, h2.2⟩
        rintro rfl
        exact Bool.noConfusion h2.1
      · exact Bool.noConfusion h2
  · rintro ⟨ds, tail, hne, hds, rfl, htail⟩
    -- the run of digits ends where the fraction begins, for a point is no digit
    have hstop : ∀ d ∈ tail.head?, d.isDigit = false := by
      rcases htail with rfl | ⟨f, rfl, -, -⟩
      · intro d hd; exact absurd hd (by simp)
      · intro d hd
        rw [← Option.some.inj hd]
        decide
    have ht : (ds ++ tail).takeWhile Char.isDigit = ds := takeWhile_append_stop hds hstop
    have hdrop : (ds ++ tail).dropWhile Char.isDigit = tail := by
      have hall := List.takeWhile_append_dropWhile (p := Char.isDigit) (l := ds ++ tail)
      rw [ht] at hall
      exact List.append_cancel_left hall
    rw [isNumeral, ht, hdrop, Bool.and_eq_true]
    refine ⟨by simp [hne], ?_⟩
    rcases htail with rfl | ⟨f, rfl, hf, hfd⟩
    · rfl
    · simp only [Bool.and_eq_true, List.all_eq_true]
      exact ⟨by simp [hf], hfd⟩

/-- Before a break, the digits after the first are counted, and a fraction with its point. -/
theorem numberLength_append {ds tail rest : List Char} (hds : ∀ d ∈ ds, d.isDigit = true)
    (htail : tail = [] ∨ ∃ f, tail = '.' :: f ∧ f ≠ [] ∧ ∀ d ∈ f, d.isDigit = true)
    (hr : Breaks rest) : numberLength (ds ++ tail ++ rest) = (ds ++ tail).length := by
  rcases htail with rfl | ⟨f, rfl, hf, hfd⟩
  · have ht : (ds ++ rest).takeWhile Char.isDigit = ds :=
      takeWhile_append_stop hds hr.head_not_digit
    simp only [numberLength, List.append_nil, ht, List.drop_left]
    split
    · rename_i r
      -- here the point belongs to what follows, and a break has no digit after its point
      have h0 : (r.takeWhile Char.isDigit).length = 0 := by
        cases r with
        | nil => rfl
        | cons d r =>
          have hd := hr.2 d r rfl
          rw [List.takeWhile_cons_of_neg (by simp [hd])]
          rfl
      rw [if_pos h0]
    · rfl
  · have ht : (ds ++ '.' :: (f ++ rest)).takeWhile Char.isDigit = ds :=
      takeWhile_append_stop hds (by simp [Char.isDigit])
    have htf : (f ++ rest).takeWhile Char.isDigit = f := takeWhile_append_stop hfd hr.head_not_digit
    have hlen : f.length ≠ 0 := by simpa using hf
    simp only [numberLength, List.append_assoc, List.cons_append, ht, List.drop_left, htf,
      if_neg hlen, List.length_append, List.length_cons]
    omega

/-- Before a break, a numeral is read as a whole. -/
theorem lexeme_numeral {c : Char} {cs rest : List Char} (hn : isNumeral (c :: cs) = true)
    (hr : Breaks rest) : lexeme c (cs ++ rest) = .ok (.number, cs.length) := by
  obtain ⟨ds, tail, hne, hds, he, htail⟩ := isNumeral_iff.mp hn
  obtain ⟨d, ds, rfl⟩ := List.exists_cons_of_ne_nil hne
  obtain ⟨rfl, rfl⟩ : c = d ∧ cs = ds ++ tail := List.cons.inj he
  rw [lexeme_of_isDigit (hds c List.mem_cons_self),
    numberLength_append (fun x hx => hds x (List.mem_cons_of_mem c hx)) htail hr]

/-! ## Quoted text -/

theorem ne_quote_of_escapeLetter? {c : Char} (h : Text.escapeLetter? c = none) : c ≠ '"' := by
  rintro rfl
  simp [Text.escapeLetter?] at h

theorem ne_backslash_of_quote {c : Char} (h : c = '"' ∨ c = '\'') : c ≠ '\\' := by
  rintro rfl
  exact absurd h (by decide)

theorem isBlank_eq_false_of_quote {c : Char} (h : c = '"' ∨ c = '\'') :
    Text.isBlank c = false := by
  rcases h with rfl | rfl <;> decide

theorem quotedLength_cons {c : Char} (hc : c ≠ '\\') (quote : Char) (n : Nat) (cs : List Char) :
    quotedLength quote n (c :: cs) =
      if c = quote then some (n + 1) else quotedLength quote (n + 1) cs := by
  rw [quotedLength]
  · exact fun h => absurd h hc
  · exact fun _ _ h => absurd h hc

theorem endsAtQuote_cons {c : Char} (hc : c ≠ '\\') (quote : Char) (cs : List Char) :
    endsAtQuote quote (c :: cs) = if c = quote then cs.isEmpty else endsAtQuote quote cs := by
  rw [endsAtQuote]
  · exact fun h => absurd h hc
  · exact fun _ _ h => absurd h hc

/-- A character that heads neither form of an escape is no backslash. -/
theorem ne_backslash_of_not_escape {c : Char} {cs : List Char} (h1 : c = '\\' → cs = [] → False)
    (h2 : ∀ d ds, c = '\\' → cs = d :: ds → False) : c ≠ '\\' := by
  intro hc
  cases cs with
  | nil => exact h1 hc rfl
  | cons d ds => exact h2 d ds hc rfl

/-- An encoded text ends at its first quote that is not escaped. -/
theorem isQuoted_encode (v : List Char) : isQuoted ('"' :: Text.escape v ++ ['"']) = true := by
  show endsAtQuote '"' (Text.escape v ++ ['"']) = true
  induction v with
  | nil => rfl
  | cons c v ih =>
    unfold Text.escape
    split
    · rw [List.cons_append, List.cons_append, endsAtQuote, ih]
    · rename_i hl
      rw [List.cons_append, endsAtQuote_cons (Text.ne_backslash_of_escapeLetter? hl),
        if_neg (ne_quote_of_escapeLetter? hl), ih]

/-- Quoted text ends at its first quote that is not escaped, whatever follows. -/
theorem quotedLength_append {quote : Char} (hquote : quote ≠ '\\') {cs : List Char}
    (rest : List Char) : endsAtQuote quote cs = true →
      ∀ n, quotedLength quote n (cs ++ rest) = some (n + cs.length) := by
  -- along the scan and not along the characters, since an escape takes two of them at once
  fun_induction endsAtQuote quote cs with
  | case1 => exact fun h => Bool.noConfusion h
  | case2 => exact fun h => Bool.noConfusion h
  | case3 c cs ih =>
    intro h n
    rw [List.cons_append, List.cons_append, quotedLength, ih h (n + 2)]
    simp only [List.length_cons, Option.some.injEq]
    omega
  | case4 cs h1 h2 =>
    intro h n
    rw [List.isEmpty_iff] at h
    subst h
    rw [List.cons_append, quotedLength_cons hquote, if_pos rfl]
    rfl
  | case5 c cs h1 h2 hc ih =>
    intro h n
    rw [List.cons_append, quotedLength_cons (ne_backslash_of_not_escape h1 h2), if_neg hc,
      ih h (n + 1)]
    simp only [List.length_cons, Option.some.injEq]
    omega

/-- Quoted text is read as a whole, whatever follows. -/
theorem lexeme_quoted {c : Char} {cs : List Char} (h : isQuoted (c :: cs) = true)
    (rest : List Char) : lexeme c (cs ++ rest) = .ok (.string, cs.length) := by
  rw [isQuoted, Bool.and_eq_true, Bool.or_eq_true, beq_iff_eq, beq_iff_eq] at h
  rw [lexeme_of_quote h.1, quotedLength_append (ne_backslash_of_quote h.1) rest h.2 0,
    Nat.zero_add, Option.elim_some]

/-! ## Comments -/

/-- A line comment goes up to the end of its line. -/
theorem lexeme_line_comment {cs rest : List Char} (hcs : cs.contains '\n' = false)
    (hr : ∀ d ∈ rest.head?, d = '\n') :
    lexeme '/' ('/' :: cs ++ rest) = .ok (.comment, ('/' :: cs).length) := by
  have hall : ∀ c ∈ cs, (decide (c ≠ '\n')) = true := by
    intro c hc
    rw [decide_eq_true_eq]
    rintro rfl
    rw [List.contains_eq_mem, decide_eq_false_iff_not] at hcs
    exact hcs hc
  have ht : (cs ++ rest).takeWhile (fun c => decide (c ≠ '\n')) = cs :=
    takeWhile_append_stop hall fun d hd => by simp [hr d hd]
  rw [List.cons_append, lexeme, ht, List.length_cons, Nat.add_comm]

theorem commentLength_append {cs : List Char} (h : closesAtEnd cs = true) (rest : List Char) :
    ∀ n, commentLength n (cs ++ rest) = some (n + cs.length) := by
  induction cs with
  | nil => exact Bool.noConfusion h
  | cons c cs ih =>
    intro n
    rw [closesAtEnd.eq_def] at h
    split at h
    · exact Bool.noConfusion h
    · rename_i ds he
      obtain ⟨rfl, rfl⟩ := List.cons.inj he
      rw [List.isEmpty_iff] at h
      subst h
      rfl
    · rename_i d ds hno he
      obtain ⟨rfl, rfl⟩ := List.cons.inj he
      rw [List.cons_append, commentLength, ih h (n + 1), List.length_cons]
      · congr 1; omega
      · -- no `*/` stands across the end either: `cs` is not empty, so its own head follows `c`
        intro tail h1 h2
        cases cs with
        | nil => exact Bool.noConfusion h
        | cons d ds =>
          refine hno ds h1 ?_
          rw [List.cons_append] at h2
          rw [(List.cons.inj h2).1]

/-- A block comment goes up to its first `*/`, whatever follows. -/
theorem lexeme_block_comment {cs : List Char} (h : closesAtEnd cs = true) (rest : List Char) :
    lexeme '/' ('*' :: cs ++ rest) = .ok (.comment, ('*' :: cs).length) := by
  have hlen := commentLength_append h rest 1
  rw [List.cons_append, lexeme]
  simp only [hlen, List.length_cons, Nat.add_comm]

/-! ## Signs -/

theorem Sign.length_spelling (s : Sign) :
    1 ≤ s.spelling.toList.length ∧ s.spelling.toList.length ≤ 2 := by
  cases s with
  | operator o => cases o <;> decide
  | punctuation p => cases p <;> decide

/-- A sign is found at the start of a text if it does not run into what follows.  The signs that
    begin the longer text are the same ones that begin the sign itself. -/
theorem Sign.match?_append {s : Sign} {rest : List Char}
    (h : ∀ d ∈ rest.head?, s.runsInto d = false) :
    Sign.match? (s.spelling.toList ++ rest) = some s := by
  cases rest with
  | nil => rw [List.append_nil, Sign.match?_spelling]
  | cons d ds =>
    have hd := h d rfl
    rw [← Sign.match?_spelling s, Sign.match?, Sign.match?]
    refine List.find?_congr fun t ht => ?_
    rw [Bool.eq_iff_iff, List.isPrefixOf_iff_prefix, List.isPrefixOf_iff_prefix]
    -- a sign that is one character longer than `s` would run into `d`
    have hne : t.spelling.toList ≠ s.spelling.toList ++ [d] := by
      intro he
      simp only [Sign.runsInto, Bool.or_eq_false_iff, List.any_eq_false] at hd
      exact hd.1 t ht (beq_iff_eq.mpr he)
    -- no sign has more than two characters, so a prefix of the text is either that longer sign or
    -- a prefix of `s`
    constructor
    · intro hp
      have hlen : t.spelling.toList.length ≤ (s.spelling.toList ++ [d]).length := by
        have h1 := t.length_spelling
        have h2 := s.length_spelling
        rw [List.length_append, List.length_singleton]
        omega
      have hq : s.spelling.toList ++ [d] <+: s.spelling.toList ++ d :: ds := ⟨ds, by simp⟩
      rcases List.prefix_concat_iff.mp (List.prefix_of_prefix_length_le hp hq hlen) with he | hps
      · exact absurd he hne
      · exact hps
    · exact fun hp => hp.trans (List.prefix_append _ _)

/-- No sign begins like a word, a numeral or quoted text. -/
theorem Sign.head_spelling {s : Sign} {c : Char} {cs : List Char}
    (h : s.spelling.toList = c :: cs) :
    isWordPart c = false ∧ c ≠ '"' ∧ c ≠ '\'' ∧ Text.isBlank c = false := by
  cases s with
  | operator o => cases o <;> (obtain ⟨rfl, -⟩ := List.cons.inj h; decide)
  | punctuation p => cases p <;> (obtain ⟨rfl, -⟩ := List.cons.inj h; decide)

theorem Sign.spelling_slash {s : Sign} {cs : List Char} (h : s.spelling.toList = '/' :: cs) :
    (s = .operator .slash ∧ cs = []) ∨ (s = .operator .slashEq ∧ cs = ['=']) := by
  cases s with
  | operator o =>
    cases o with
    | slash => exact Or.inl ⟨rfl, (List.cons.inj h).2.symm⟩
    | slashEq => exact Or.inr ⟨rfl, (List.cons.inj h).2.symm⟩
    | _ => exact absurd (List.cons.inj h).1 (by decide)
  | punctuation p => cases p <;> exact absurd (List.cons.inj h).1 (by decide)

/-- A sign is read as a whole if it does not run into what follows. -/
theorem lexeme_sign {s : Sign} {c : Char} {cs rest : List Char} (hs : s.spelling.toList = c :: cs)
    (h : ∀ d ∈ rest.head?, s.runsInto d = false) :
    lexeme c (cs ++ rest) = .ok (.ofSign s, cs.length) := by
  obtain ⟨hp, hq1, hq2, -⟩ := Sign.head_spelling hs
  have hm := Sign.match?_append h
  rw [hs, List.cons_append] at hm
  have hlen : s.spelling.length - 1 = cs.length := by
    rw [← String.length_toList, hs, List.length_cons, Nat.add_sub_cancel]
  -- a slash opens a comment only together with what follows, which `runsInto` excludes
  have hopen : ∀ d ∈ (cs ++ rest).head?, c = '/' → d ≠ '/' ∧ d ≠ '*' := by
    intro d hd hc
    rcases Sign.spelling_slash (hc ▸ hs) with ⟨rfl, rfl⟩ | ⟨-, rfl⟩
    · have hx := h d hd
      constructor
      · rintro rfl; exact Bool.noConfusion hx
      · rintro rfl; exact Bool.noConfusion hx
    · obtain rfl : '=' = d := Option.some.inj hd
      decide
  rw [lexeme_of_sign hopen (fun hq => hq.elim hq1 hq2) hp, hm, Option.elim_some, hlen]

/-! ## What the scanner takes is spelled right -/

theorem endsAtQuote_of_quotedLength {quote : Char} (hquote : quote ≠ '\\') {k : Nat}
    {cs : List Char} : ∀ {n : Nat}, quotedLength quote k cs = some n →
      ∃ m, n = k + m ∧ m ≤ cs.length ∧ endsAtQuote quote (cs.take m) = true := by
  fun_induction quotedLength quote k cs with
  | case1 => intro n h; exact absurd h (by simp)
  | case2 => intro n h; exact absurd h (by simp)
  | case3 k c cs ih =>
    intro n h
    obtain ⟨m, rfl, hm, he⟩ := ih h
    refine ⟨m + 2, by omega, by simp only [List.length_cons]; omega, ?_⟩
    rw [List.take_succ_cons, List.take_succ_cons, endsAtQuote, he]
  | case4 k cs h1 h2 =>
    intro n h
    refine ⟨1, (Option.some.inj h).symm, by simp only [List.length_cons]; omega, ?_⟩
    rw [List.take_succ_cons, List.take_zero, endsAtQuote_cons hquote, if_pos rfl]
    rfl
  | case5 k c cs h1 h2 hc ih =>
    intro n h
    obtain ⟨m, rfl, hm, he⟩ := ih h
    refine ⟨m + 1, by omega, by simp only [List.length_cons]; omega, ?_⟩
    rw [List.take_succ_cons, endsAtQuote_cons (ne_backslash_of_not_escape h1 h2), if_neg hc, he]

theorem closesAtEnd_of_commentLength {k : Nat} {cs : List Char} :
    ∀ {n : Nat}, commentLength k cs = some n →
      ∃ m, n = k + m ∧ m ≤ cs.length ∧ closesAtEnd (cs.take m) = true := by
  fun_induction commentLength k cs with
  | case1 => intro n h; exact absurd h (by simp)
  | case2 k cs =>
    intro n h
    exact ⟨2, (Option.some.inj h).symm, by simp only [List.length_cons]; omega, rfl⟩
  | case3 k c cs hno ih =>
    intro n h
    obtain ⟨m, rfl, hm, he⟩ := ih h
    refine ⟨m + 1, by omega, by simp only [List.length_cons]; omega, ?_⟩
    rw [List.take_succ_cons, closesAtEnd, he]
    -- the scan went past `c`, so no `*/` starts there, nor in what was taken of the text
    intro tail hc ht
    cases cs with
    | nil => exact absurd ht (by simp)
    | cons d ds =>
      cases m with
      | zero => exact absurd ht (by simp)
      | succ m =>
        rw [List.take_succ_cons] at ht
        exact hno ds hc (by rw [(List.cons.inj ht).1])

theorem take_length_takeWhile (p : Char → Bool) (cs : List Char) :
    cs.take (cs.takeWhile p).length = cs.takeWhile p := by
  have h := @List.take_left _ (cs.takeWhile p) (cs.dropWhile p)
  rwa [List.takeWhile_append_dropWhile] at h

theorem isNumeral_take_numberLength {c : Char} (hc : c.isDigit = true) (cs : List Char) :
    numberLength cs ≤ cs.length ∧ isNumeral (c :: cs.take (numberLength cs)) = true := by
  have hds : ∀ d ∈ c :: cs.takeWhile Char.isDigit, d.isDigit = true := by
    intro d hd
    rcases List.mem_cons.mp hd with rfl | hd
    · exact hc
    · exact List.mem_takeWhile_imp hd
  have hsplit : cs.takeWhile Char.isDigit ++ cs.dropWhile Char.isDigit = cs :=
    List.takeWhile_append_dropWhile
  have hdrop : cs.drop (cs.takeWhile Char.isDigit).length = cs.dropWhile Char.isDigit := by
    have h := @List.drop_left _ (cs.takeWhile Char.isDigit) (cs.dropWhile Char.isDigit)
    rwa [hsplit] at h
  have hlen : (cs.takeWhile Char.isDigit).length + (cs.dropWhile Char.isDigit).length =
      cs.length := by
    rw [← List.length_append, hsplit]
  have hwhole : isNumeral (c :: cs.take (cs.takeWhile Char.isDigit).length) = true := by
    rw [take_length_takeWhile]
    exact isNumeral_iff.mpr ⟨_, [], by simp, hds, (List.append_nil _).symm, Or.inl rfl⟩
  simp only [numberLength, hdrop]
  split
  · rename_i r hr
    split
    · -- a point without digits after it is left to what follows
      exact ⟨by omega, hwhole⟩
    · rename_i hf
      have hrlen : (r.takeWhile Char.isDigit).length ≤ r.length :=
        (List.takeWhile_prefix _).length_le
      rw [hr, List.length_cons] at hlen
      refine ⟨by omega, isNumeral_iff.mpr
        ⟨c :: cs.takeWhile Char.isDigit, '.' :: r.takeWhile Char.isDigit, by simp, hds, ?_,
          Or.inr ⟨_, rfl, by simpa using hf, fun d hd => List.mem_takeWhile_imp hd⟩⟩⟩
      have hcs : cs = cs.takeWhile Char.isDigit ++ '.' :: r := by rw [← hr, hsplit]
      have htake := congrArg
        (List.take ((cs.takeWhile Char.isDigit).length + 1 + (r.takeWhile Char.isDigit).length)) hcs
      rw [htake, Nat.add_assoc, List.take_length_add_append, Nat.add_comm 1, List.take_succ_cons,
        take_length_takeWhile]
      rfl
  · exact ⟨by omega, hwhole⟩

end CurlyScript
