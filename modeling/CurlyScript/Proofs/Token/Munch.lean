import CurlyScript.Proofs.Token.Terminal

/-
  The scanner takes the longest token, and fails only where it must.

  The scanner decides by the first one or two characters what to read, and reads on until some
  character stops it.  Here the classes of tokens are languages instead, with no scanner in mind:

  1. **Classes** — `IsToken kind x`: the characters `x` are a token of the class.  A string is
     anything between two quotes in which every further quote of that kind is escaped, a block
     comment anything in which no `*/` comes earlier, and a word is a keyword if it is one of them.

  2. **The longest token** — `Longest kind x r`: `x` is a token at the start of `r`, and no token at
     the start of `r`, of whatever class, is longer.

  3. **Faults** — `Fails fault r`: `r` opens a string or a block comment that never closes, or no
     token of any class stands at its start.

  4. **The scan** — `Munches`: blanks are skipped, a fault ends the scan where it stands, and else
     the longest token is taken.

  `lexeme` is the longest token where there is no fault (`lexeme_eq_ok_iff`), and fails with the
  fault where there is one (`lexeme_eq_error_iff`).  A whole scan is by induction
  (`scan_eq_iff_munches`).
-/

namespace CurlyScript

/-! ## The classes -/

/-- What stands between two quotes: a quote of that kind or a backslash only after a backslash. -/
inductive Enclosed (quote : Char) : List Char → Prop where
  | nil : Enclosed quote []
  | plain {c : Char} {cs : List Char} : c ≠ quote → c ≠ '\\' → Enclosed quote cs →
    Enclosed quote (c :: cs)
  | escaped {c : Char} {cs : List Char} : Enclosed quote cs → Enclosed quote ('\\' :: c :: cs)

/-- The characters are a token of the class. -/
inductive IsToken : TokenKind → List Char → Prop where
  | keyword {k : Keyword} {x : List Char} : isWord x = true → x = k.spelling.toList →
    IsToken (.keyword k) x
  | name {x : List Char} : isWord x = true → (∀ k : Keyword, x ≠ k.spelling.toList) →
    IsToken .ident x
  | whole {ds : List Char} : ds ≠ [] → (∀ d ∈ ds, d.isDigit = true) → IsToken .number ds
  | decimal {ds fs : List Char} : ds ≠ [] → (∀ d ∈ ds, d.isDigit = true) →
    fs ≠ [] → (∀ d ∈ fs, d.isDigit = true) → IsToken .number (ds ++ '.' :: fs)
  | quoted {quote : Char} {body : List Char} : quote = '"' ∨ quote = '\'' → Enclosed quote body →
    IsToken .string (quote :: (body ++ [quote]))
  | line {body : List Char} : '\n' ∉ body → IsToken .comment ('/' :: '/' :: body)
  | block {body : List Char} : ¬ ['*', '/'] <:+: body →
    IsToken .comment ('/' :: '*' :: (body ++ ['*', '/']))
  | sign (s : Sign) : IsToken (.ofSign s) s.spelling.toList

/-- The text begins with the token `x`, and with no longer one. -/
structure Longest (kind : TokenKind) (x r : List Char) : Prop where
  isToken : IsToken kind x
  isPrefix : x <+: r
  longest : ∀ kind' y, IsToken kind' y → y <+: r → y.length ≤ x.length

/-- No token can be taken from the start of the text. -/
inductive Fails : ScanFault → List Char → Prop where
  | openString {quote : Char} {cs : List Char} : quote = '"' ∨ quote = '\'' →
    (∀ x, IsToken .string x → ¬ x <+: quote :: cs) → Fails .openString (quote :: cs)
  | openComment {cs : List Char} : (∀ x, IsToken .comment x → ¬ x <+: '/' :: '*' :: cs) →
    Fails .openComment ('/' :: '*' :: cs)
  | unexpected {c : Char} {cs : List Char} : ¬ (c = '"' ∨ c = '\'') →
    (∀ kind x, IsToken kind x → ¬ x <+: c :: cs) → Fails (.unexpected c) (c :: cs)

/-- A scan of the text that stands at `offset`. -/
inductive Munches : Nat → List Char → Except LexicalError (List Token) → Prop where
  | nil (offset : Nat) : Munches offset [] (.ok [Token.endAt offset])
  | blank {offset : Nat} {c : Char} {cs : List Char} {result : Except LexicalError (List Token)} :
    Text.isBlank c = true → Munches (offset + c.utf8Size) cs result →
      Munches offset (c :: cs) result
  | fault {offset : Nat} {c : Char} {cs : List Char} {f : ScanFault} : Text.isBlank c = false →
    Fails f (c :: cs) → Munches offset (c :: cs) (.error ⟨f, offset⟩)
  | token {offset : Nat} {c : Char} {x rest : List Char} {kind : TokenKind}
    {result : Except LexicalError (List Token)} : Text.isBlank c = false →
    (∀ f, ¬ Fails f (c :: x ++ rest)) → Longest kind (c :: x) (c :: x ++ rest) →
    Munches (offset + byteLength (c :: x)) rest result →
      Munches offset (c :: x ++ rest)
        (result.map (⟨kind, String.ofList (c :: x), ⟨offset, offset + byteLength (c :: x)⟩⟩ :: ·))

/-! ## The classes as they are checked -/

/-- The first quote that is not escaped stands at the end of what is enclosed, and then closes. -/
theorem endsAtQuote_iff {quote : Char} (hquote : quote ≠ '\\') {cs : List Char} :
    endsAtQuote quote cs = true ↔ ∃ body, Enclosed quote body ∧ cs = body ++ [quote] := by
  constructor
  · fun_induction endsAtQuote quote cs with
    | case1 => intro h; exact Bool.noConfusion h
    | case2 => intro h; exact Bool.noConfusion h
    | case3 c cs ih =>
      intro h
      obtain ⟨body, hb, rfl⟩ := ih h
      exact ⟨'\\' :: c :: body, .escaped hb, rfl⟩
    | case4 cs h1 h2 =>
      intro h
      rw [List.isEmpty_iff] at h
      subst h
      exact ⟨[], .nil, rfl⟩
    | case5 c cs h1 h2 hc ih =>
      intro h
      obtain ⟨body, hb, rfl⟩ := ih h
      exact ⟨c :: body, .plain hc (ne_backslash_of_not_escape h1 h2) hb, rfl⟩
  · rintro ⟨body, hb, rfl⟩
    induction hb with
    | nil => rw [List.nil_append, endsAtQuote_cons hquote, if_pos rfl]; rfl
    | plain hc hescape _ ih => rw [List.cons_append, endsAtQuote_cons hescape, if_neg hc, ih]
    | escaped _ ih => rw [List.cons_append, List.cons_append, endsAtQuote, ih]

/-- Quoted text is enclosed by two quotes of one kind. -/
theorem isQuoted_iff {cs : List Char} : isQuoted cs = true ↔ ∃ quote body,
    (quote = '"' ∨ quote = '\'') ∧ Enclosed quote body ∧ cs = quote :: (body ++ [quote]) := by
  constructor
  · intro h
    cases cs with
    | nil => exact Bool.noConfusion h
    | cons c cs =>
      rw [isQuoted, Bool.and_eq_true, Bool.or_eq_true, beq_iff_eq, beq_iff_eq] at h
      obtain ⟨body, hb, rfl⟩ := (endsAtQuote_iff (ne_backslash_of_quote h.1)).mp h.2
      exact ⟨c, body, h.1, hb, rfl⟩
  · rintro ⟨quote, body, hq, hb, rfl⟩
    rw [isQuoted, (endsAtQuote_iff (ne_backslash_of_quote hq)).mpr ⟨body, hb, rfl⟩,
      Bool.and_true, Bool.or_eq_true, beq_iff_eq, beq_iff_eq]
    exact hq

/-- The first `*/` of a text stands at its end. -/
theorem closesAtEnd_iff {cs : List Char} :
    closesAtEnd cs = true ↔ ∃ body, ¬ ['*', '/'] <:+: body ∧ cs = body ++ ['*', '/'] := by
  constructor
  · fun_induction closesAtEnd cs with
    | case1 => intro h; exact Bool.noConfusion h
    | case2 cs =>
      intro h
      rw [List.isEmpty_iff] at h
      subst h
      exact ⟨[], by simp, rfl⟩
    | case3 c cs hno ih =>
      intro h
      obtain ⟨body, hb, rfl⟩ := ih h
      refine ⟨c :: body, ?_, rfl⟩
      intro hin
      rcases List.infix_cons_iff.mp hin with hpre | hin
      · obtain ⟨rfl, more, rfl⟩ := List.cons_prefix_cons.mp hpre
        exact hno (more ++ ['*', '/']) rfl rfl
      · exact hb hin
  · rintro ⟨body, hb, rfl⟩
    induction body with
    | nil => rfl
    | cons c body ih =>
      have hbody : ¬ ['*', '/'] <:+: body := fun h => hb (List.infix_cons_iff.mpr (.inr h))
      rw [List.cons_append, closesAtEnd, ih hbody]
      -- a `*/` that begins at `c` would lie in the body, for a star follows the body
      intro tail hc htail
      subst hc
      cases body with
      | nil => exact absurd (List.cons.inj htail).1 (by decide)
      | cons d body =>
        obtain rfl : d = '/' := (List.cons.inj htail).1
        exact hb ⟨[], body, rfl⟩

theorem ofSpelling?_eq_none_iff {x : List Char} :
    Keyword.ofSpelling? (String.ofList x) = none ↔ ∀ k : Keyword, x ≠ k.spelling.toList := by
  rw [Option.eq_none_iff_forall_ne_some]
  refine forall_congr' fun k => not_congr ?_
  rw [Keyword.ofSpelling?_eq_some_iff]
  constructor
  · intro h
    rw [← h, String.toList_ofList]
  · rintro rfl
    exact String.ofList_toList

/-- The classes as the scanner tells them apart. -/
inductive Looks : TokenKind → List Char → Prop where
  | word {x : List Char} : isWord x = true → Looks (wordKind x) x
  | numeral {x : List Char} : isNumeral x = true → Looks .number x
  | quoted {x : List Char} : isQuoted x = true → Looks .string x
  | line {body : List Char} : '\n' ∉ body → Looks .comment ('/' :: '/' :: body)
  | block {body : List Char} : closesAtEnd body = true → Looks .comment ('/' :: '*' :: body)
  | sign {s : Sign} {x : List Char} : s.spelling.toList = x → Looks (.ofSign s) x

theorem IsToken.looks {kind : TokenKind} {x : List Char} (h : IsToken kind x) : Looks kind x := by
  cases h with
  | @keyword k _ hw hx =>
    have hkind : wordKind x = .keyword k := by
      rw [wordKind, hx, String.ofList_toList, Keyword.ofSpelling?_spelling]
    rw [← hkind]
    exact .word hw
  | name hw hno =>
    have hkind : wordKind x = .ident := by
      rw [wordKind, ofSpelling?_eq_none_iff.mpr hno]
    rw [← hkind]
    exact .word hw
  | whole hne hds =>
    exact .numeral (isNumeral_iff.mpr ⟨x, [], hne, hds, (List.append_nil x).symm, .inl rfl⟩)
  | @decimal ds fs hne hds hfs hf =>
    exact .numeral (isNumeral_iff.mpr ⟨ds, _, hne, hds, rfl, .inr ⟨fs, rfl, hfs, hf⟩⟩)
  | quoted hq hb => exact .quoted (isQuoted_iff.mpr ⟨_, _, hq, hb, rfl⟩)
  | line hb => exact .line hb
  | @block body hb => exact .block (closesAtEnd_iff.mpr ⟨body, hb, rfl⟩)
  | sign s => exact .sign rfl

/-- What terminals are checked for is that they are of their class. -/
theorem isToken_of_isSpelled {kind : TokenKind} {x : List Char}
    (h : (Terminal.mk kind (String.ofList x)).isSpelled = true) : IsToken kind x := by
  -- the spelling of a keyword or a sign as characters
  have hfixed : ∀ {s : String}, (String.ofList x == s) = true → x = s.toList := by
    intro s hs
    rw [← beq_iff_eq.mp hs, String.toList_ofList]
  cases kind with
  | keyword k =>
    have hx := hfixed h
    exact .keyword (hx ▸ isWord_keyword k) hx
  | operator o =>
    rw [hfixed h]
    exact .sign (.operator o)
  | punctuation p =>
    rw [hfixed h]
    exact .sign (.punctuation p)
  | ident =>
    change isName (String.ofList x) = true at h
    rw [isName, String.toList_ofList, Bool.and_eq_true, Option.isNone_iff_eq_none] at h
    exact .name h.1 (ofSpelling?_eq_none_iff.mp h.2)
  | number =>
    change isNumeral (String.ofList x).toList = true at h
    rw [String.toList_ofList] at h
    obtain ⟨ds, tail, hne, hds, rfl, htail⟩ := isNumeral_iff.mp h
    rcases htail with rfl | ⟨f, rfl, hf, hfd⟩
    · rw [List.append_nil]
      exact .whole hne hds
    · exact .decimal hne hds hf hfd
  | string =>
    change isQuoted (String.ofList x).toList = true at h
    rw [String.toList_ofList] at h
    obtain ⟨quote, body, hq, hb, rfl⟩ := isQuoted_iff.mp h
    exact .quoted hq hb
  | comment =>
    change isCommentText (String.ofList x) = true at h
    rw [isCommentText, String.toList_ofList] at h
    split at h
    · exact .line (by simpa using h)
    · obtain ⟨body, hb, rfl⟩ := closesAtEnd_iff.mp h
      exact .block hb
    · exact Bool.noConfusion h
  | eof => exact Bool.noConfusion h

/-! ## The longest token -/

/-- Signs are tried by length, so the first that fits is the longest. -/
theorem Sign.length_le_of_match? {cs : List Char} {s t : Sign} (h : Sign.match? cs = some s)
    (ht : t.spelling.toList <+: cs) : t.spelling.toList.length ≤ s.spelling.toList.length := by
  have horder : Sign.scanOrder.Pairwise fun a b =>
      b.spelling.toList.length ≤ a.spelling.toList.length := by decide
  rw [Sign.match?, List.find?_eq_some_iff_append] at h
  obtain ⟨-, before, after, hsplit, hbefore⟩ := h
  have hmem := Sign.mem_scanOrder t
  rw [hsplit] at horder hmem
  rcases List.mem_append.mp hmem with hm | hm
  · -- a sign that was tried before does not fit
    have hnot := hbefore t hm
    rw [List.isPrefixOf_iff_prefix.mpr ht] at hnot
    exact Bool.noConfusion hnot
  · rcases List.mem_cons.mp hm with rfl | hm
    · exact Nat.le_refl _
    · exact List.rel_of_pairwise_cons (List.pairwise_append.mp horder).2.1 hm

theorem length_le_takeWhile {p : Char → Bool} {cs : List Char} (h : ∀ c ∈ cs, p c = true)
    (rest : List Char) : cs.length ≤ ((cs ++ rest).takeWhile p).length := by
  rw [List.takeWhile_append_of_pos h, List.length_append]
  exact Nat.le_add_right _ _

/-- The digits that follow are all counted, and so are a point and digits after them. -/
theorem length_le_numberLength {ds tail : List Char} (hds : ∀ d ∈ ds, d.isDigit = true)
    (htail : tail = [] ∨ ∃ f, tail = '.' :: f ∧ f ≠ [] ∧ ∀ d ∈ f, d.isDigit = true)
    (rest : List Char) : (ds ++ tail).length ≤ numberLength (ds ++ tail ++ rest) := by
  rcases htail with rfl | ⟨f, rfl, hf, hfd⟩
  · rw [List.append_nil]
    have hle := length_le_takeWhile hds rest
    simp only [numberLength]
    split
    · split <;> omega
    · exact hle
  · have ht : (ds ++ '.' :: (f ++ rest)).takeWhile Char.isDigit = ds :=
      takeWhile_append_stop hds (by simp [Char.isDigit])
    have hle := length_le_takeWhile hfd rest
    have hpos : 0 < f.length := List.length_pos_iff.mpr hf
    simp only [numberLength, List.append_assoc, List.cons_append, ht, List.drop_left,
      List.length_append, List.length_cons]
    split <;> omega

/-- A comment takes at least its second character. -/
theorem one_le_of_lexeme_comment {d : Char} {cs : List Char} {kind : TokenKind} {n : Nat}
    (hd : d = '/' ∨ d = '*') (h : lexeme '/' (d :: cs) = .ok (kind, n)) :
    kind = .comment ∧ 1 ≤ n := by
  rcases hd with rfl | rfl
  · rw [lexeme] at h
    obtain ⟨rfl, rfl⟩ := Prod.mk.inj (Except.ok.inj h)
    exact ⟨rfl, Nat.le_add_right 1 _⟩
  · rw [lexeme] at h
    cases hlen : commentLength 1 cs with
    | none => rw [hlen] at h; cases h
    | some m =>
      rw [hlen] at h
      obtain ⟨rfl, rfl⟩ := Prod.mk.inj (Except.ok.inj h)
      obtain ⟨k, rfl, -, -⟩ := closesAtEnd_of_commentLength hlen
      exact ⟨rfl, Nat.le_add_right 1 k⟩

/-- Whether a comment opens with the character and what follows. -/
theorem opens_or_not (c : Char) (cs : List Char) :
    (∃ d rest, c = '/' ∧ (d = '/' ∨ d = '*') ∧ cs = d :: rest) ∨
      ∀ d ∈ cs.head?, c = '/' → d ≠ '/' ∧ d ≠ '*' := by
  by_cases hopen : ∃ d rest, c = '/' ∧ (d = '/' ∨ d = '*') ∧ cs = d :: rest
  · exact .inl hopen
  · right
    intro d hd hc
    obtain ⟨rest, hrest⟩ := List.head?_eq_some_iff.mp hd
    exact ⟨fun he => hopen ⟨d, rest, hc, .inl he, hrest⟩,
      fun he => hopen ⟨d, rest, hc, .inr he, hrest⟩⟩

/-- A blank can be taken neither for a part of a word nor for the point of a number. -/
theorem breaks_of_isBlank {rest : List Char} (h : ∀ d ∈ rest.head?, Text.isBlank d = true) :
    Breaks rest := by
  constructor
  · intro d hd
    cases hw : isWordPart d with
    | false => rfl
    | true =>
      have hb := h d hd
      rw [isBlank_eq_false_of_isWordPart hw] at hb
      exact Bool.noConfusion hb
  · rintro d ds rfl
    exact absurd (h '.' rfl) (by decide)

theorem Sign.isBlank_spelling (s : Sign) : ∀ d ∈ s.spelling.toList, Text.isBlank d = false := by
  have hall : (s.spelling.toList.all fun d => !Text.isBlank d) = true := by
    cases s with
    | operator o => cases o <;> rfl
    | punctuation p => cases p <;> rfl
  intro d hd
  simpa using List.all_eq_true.mp hall d hd

/-- No sign goes on with a blank. -/
theorem Sign.runsInto_of_isBlank (s : Sign) {d : Char} (hd : Text.isBlank d = true) :
    s.runsInto d = false := by
  have hslash : d ≠ '/' ∧ d ≠ '*' := by
    constructor
    · rintro rfl; exact absurd hd (by decide)
    · rintro rfl; exact absurd hd (by decide)
  have hany : ∀ t ∈ Sign.scanOrder, t.spelling.toList ≠ s.spelling.toList ++ [d] := by
    intro t _ ht
    have hb := t.isBlank_spelling d (by rw [ht]; exact List.mem_append_right _ List.mem_cons_self)
    rw [hd] at hb
    exact Bool.noConfusion hb
  rw [Sign.runsInto, Bool.or_eq_false_iff]
  constructor
  · rw [List.any_eq_false]
    intro t ht
    rw [beq_iff_eq]
    exact hany t ht
  · rw [beq_false_of_ne hslash.1, beq_false_of_ne hslash.2, Bool.or_false, Bool.and_false]

section

variable {kind kind' : TokenKind} {c : Char} {ys rest : List Char} {n : Nat}

/-- A word is taken as far as it goes. -/
theorem length_le_of_isWord (hw : isWord (c :: ys) = true)
    (h : lexeme c (ys ++ rest) = .ok (kind, n)) : ys.length ≤ n := by
  rw [isWord, Bool.and_eq_true, List.all_eq_true] at hw
  rw [lexeme_of_isWordStart hw.1] at h
  rw [← (Prod.mk.inj (Except.ok.inj h)).2]
  exact length_le_takeWhile hw.2 rest

theorem isDigit_of_isNumeral (hn : isNumeral (c :: ys) = true) : c.isDigit = true := by
  obtain ⟨ds, tail, hne, hds, he, -⟩ := isNumeral_iff.mp hn
  obtain ⟨d, ds, rfl⟩ := List.exists_cons_of_ne_nil hne
  rw [(List.cons.inj he).1]
  exact hds d List.mem_cons_self

/-- A number is taken as far as it goes. -/
theorem length_le_of_isNumeral (hn : isNumeral (c :: ys) = true)
    (h : lexeme c (ys ++ rest) = .ok (kind, n)) : ys.length ≤ n := by
  obtain ⟨ds, tail, hne, hds, he, htail⟩ := isNumeral_iff.mp hn
  obtain ⟨d, ds, rfl⟩ := List.exists_cons_of_ne_nil hne
  obtain ⟨rfl, rfl⟩ : c = d ∧ ys = ds ++ tail := List.cons.inj he
  rw [lexeme_of_isDigit (hds c List.mem_cons_self)] at h
  rw [← (Prod.mk.inj (Except.ok.inj h)).2]
  exact length_le_numberLength (fun x hx => hds x (List.mem_cons_of_mem c hx)) htail rest

/-- A sign gives way to a longer one, or to the comment that it opens. -/
theorem length_le_of_sign {s : Sign} (hs : s.spelling.toList = c :: ys)
    (h : lexeme c (ys ++ rest) = .ok (kind, n)) : ys.length ≤ n := by
  have hlen := s.length_spelling
  obtain ⟨hp, hq1, hq2, -⟩ := Sign.head_spelling hs
  rw [hs, List.length_cons] at hlen
  rcases opens_or_not c (ys ++ rest) with ⟨d, cs, rfl, hd, hcs⟩ | hopen
  · rw [hcs] at h
    have hone := (one_le_of_lexeme_comment hd h).2
    omega
  · rw [lexeme_of_sign hopen (fun hq => hq.elim hq1 hq2) hp] at h
    cases hm : Sign.match? (c :: (ys ++ rest)) with
    | none => rw [hm] at h; cases h
    | some t =>
      rw [hm] at h
      have hle := Sign.length_le_of_match? (t := s) hm ⟨rest, by rw [hs]; rfl⟩
      rw [hs, List.length_cons, String.length_toList] at hle
      rw [← (Prod.mk.inj (Except.ok.inj h)).2]
      omega

/-- No token at the start of a text goes further than what the scanner takes. -/
theorem IsToken.length_le (hy : IsToken kind' (c :: ys))
    (h : lexeme c (ys ++ rest) = .ok (kind, n)) : ys.length ≤ n := by
  cases hy.looks with
  | word hw => exact length_le_of_isWord hw h
  | numeral hn => exact length_le_of_isNumeral hn h
  | quoted hq =>
    rw [lexeme_quoted hq] at h
    exact Nat.le_of_eq (Prod.mk.inj (Except.ok.inj h)).2
  | line hb =>
    rw [List.cons_append, lexeme] at h
    rw [← (Prod.mk.inj (Except.ok.inj h)).2, List.length_cons, Nat.add_comm 1]
    refine Nat.succ_le_succ (length_le_takeWhile (fun d hd => decide_eq_true ?_) rest)
    rintro rfl
    exact hb hd
  | block hb =>
    rw [lexeme_block_comment hb] at h
    exact Nat.le_of_eq (Prod.mk.inj (Except.ok.inj h)).2
  | sign hs => exact length_le_of_sign hs h

/-- Where a token stands the scanner does not fail, but for a sign that opens a comment. -/
theorem IsToken.sign_of_error {f : ScanFault} (hy : IsToken kind (c :: ys))
    (h : lexeme c (ys ++ rest) = .error f) : f = .openComment ∧ ∃ s, kind = .ofSign s := by
  cases hy.looks with
  | word hw =>
    rw [isWord, Bool.and_eq_true] at hw
    rw [lexeme_of_isWordStart hw.1] at h
    cases h
  | numeral hn =>
    rw [lexeme_of_isDigit (isDigit_of_isNumeral hn)] at h
    cases h
  | quoted hq =>
    rw [lexeme_quoted hq] at h
    cases h
  | line hb =>
    rw [List.cons_append, lexeme] at h
    cases h
  | block hb =>
    rw [lexeme_block_comment hb] at h
    cases h
  | @sign s _ hs =>
    refine ⟨?_, s, rfl⟩
    obtain ⟨hp, hq1, hq2, -⟩ := Sign.head_spelling hs
    rcases opens_or_not c (ys ++ rest) with ⟨d, cs, rfl, rfl | rfl, hcs⟩ | hopen
    · rw [hcs, lexeme] at h
      cases h
    · rw [hcs, lexeme] at h
      cases hlen : commentLength 1 cs with
      | none => rw [hlen] at h; exact (Except.error.inj h).symm
      | some m => rw [hlen] at h; cases h
    · -- the sign itself is among those that fit, so some sign is found
      rw [lexeme_of_sign hopen (fun hq => hq.elim hq1 hq2) hp] at h
      cases hm : Sign.match? (c :: (ys ++ rest)) with
      | none =>
        have hnot := List.find?_eq_none.mp hm s (Sign.mem_scanOrder s)
        exact absurd (List.isPrefixOf_iff_prefix.mpr ⟨rest, by rw [hs]; rfl⟩) hnot
      | some t => rw [hm] at h; cases h

/-- Before a blank or the end a token is read as a whole, and so is a line comment before the end of
    its line. -/
theorem IsToken.lexeme_eq (h : IsToken kind (c :: ys))
    (hrest : ∀ d ∈ rest.head?, Text.isBlank d = true)
    (hline : ['/', '/'] <+: c :: ys → ∀ d ∈ rest.head?, d = '\n') :
    lexeme c (ys ++ rest) = .ok (kind, ys.length) := by
  have hbreaks := breaks_of_isBlank hrest
  cases h.looks with
  | word hw => exact lexeme_word hw hbreaks
  | numeral hn => exact lexeme_numeral hn hbreaks
  | quoted hq => exact lexeme_quoted hq rest
  | @line body hb =>
    refine lexeme_line_comment ?_ (hline ⟨body, rfl⟩)
    rw [List.contains_eq_mem, decide_eq_false hb]
  | block hb => exact lexeme_block_comment hb rest
  | @sign s _ hs => exact lexeme_sign hs fun d hd => s.runsInto_of_isBlank (hrest d hd)

end

theorem IsToken.ne_nil {kind : TokenKind} : ¬ IsToken kind [] := by
  intro h
  cases h.looks with
  | word hw => exact Bool.noConfusion hw
  | numeral hn => exact Bool.noConfusion hn
  | quoted hq => exact Bool.noConfusion hq
  | @sign s _ hs =>
    have hlen := s.length_spelling.1
    rw [hs] at hlen
    exact absurd hlen (by decide)

/-- A text is of one class at most. -/
theorem IsToken.kind_eq {kind kind' : TokenKind} {x : List Char} (h : IsToken kind x)
    (h' : IsToken kind' x) : kind = kind' := by
  cases x with
  | nil => exact absurd h IsToken.ne_nil
  | cons c ys =>
    have hend : ∀ {p : Char → Prop}, ∀ d ∈ ([] : List Char).head?, p d := by
      intro p d hd
      cases hd
    have hl : lexeme c (ys ++ []) = .ok (kind, ys.length) := h.lexeme_eq hend fun _ => hend
    rw [h'.lexeme_eq hend fun _ => hend] at hl
    exact (Prod.mk.inj (Except.ok.inj hl)).1.symm

/-- A token at the start of a text has its first character, and goes on in the text. -/
theorem IsToken.exists_of_isPrefix {kind : TokenKind} {x cs : List Char} {c : Char}
    (h : IsToken kind x) (hpre : x <+: c :: cs) : ∃ ys rest, x = c :: ys ∧ cs = ys ++ rest := by
  cases x with
  | nil => exact absurd h IsToken.ne_nil
  | cons d ys =>
    obtain ⟨rfl, rest, hrest⟩ := List.cons_prefix_cons.mp hpre
    exact ⟨ys, rest, rfl, hrest.symm⟩

/-! ## What the scanner does at the start of a text -/

section

variable {c : Char} {cs : List Char} {kind : TokenKind} {n : Nat} {f : ScanFault}

/-- What the scanner takes is the longest token. -/
theorem longest_of_lexeme (h : lexeme c cs = .ok (kind, n)) :
    n ≤ cs.length ∧ Longest kind (c :: cs.take n) (c :: cs) := by
  obtain ⟨hn, hspelled⟩ := isSpelled_of_lexeme h
  refine ⟨hn, isToken_of_isSpelled hspelled, ?_, ?_⟩
  · exact List.cons_prefix_cons.mpr ⟨rfl, List.take_prefix n cs⟩
  · intro kind' y hy hpre
    obtain ⟨ys, rest, rfl, rfl⟩ := hy.exists_of_isPrefix hpre
    have hle := hy.length_le h
    rw [List.length_cons, List.length_cons, List.length_take, Nat.min_eq_left hn]
    exact Nat.succ_le_succ hle

/-- Where the scanner takes a token there is no fault. -/
theorem not_fails_of_lexeme (h : lexeme c cs = .ok (kind, n)) : ¬ Fails f (c :: cs) := by
  obtain ⟨-, htoken, hpre, -⟩ := longest_of_lexeme h
  intro hf
  cases hf with
  | openString hq hno =>
    rw [lexeme_of_quote hq] at h
    cases hlen : quotedLength c 0 cs with
    | none => rw [hlen] at h; cases h
    | some m =>
      rw [hlen] at h
      obtain ⟨rfl, rfl⟩ := Prod.mk.inj (Except.ok.inj h)
      exact hno _ htoken hpre
  | openComment hno =>
    obtain ⟨rfl, -⟩ := one_le_of_lexeme_comment (.inr rfl) h
    exact hno _ htoken hpre
  | unexpected _ hno => exact hno _ _ htoken hpre

/-- What the scanner fails with, by what the text begins with. -/
theorem lexeme_error_cases (h : lexeme c cs = .error f) :
    (f = .openString ∧ (c = '"' ∨ c = '\'')) ∨
      (f = .openComment ∧ c = '/' ∧ ∃ rest, cs = '*' :: rest) ∨
      (f = .unexpected c ∧ ¬ (c = '"' ∨ c = '\'')) := by
  rcases opens_or_not c cs with ⟨d, rest, rfl, rfl | rfl, rfl⟩ | hopen
  · rw [lexeme] at h
    cases h
  · rw [lexeme] at h
    cases hlen : commentLength 1 rest with
    | none => rw [hlen] at h; exact .inr (.inl ⟨(Except.error.inj h).symm, rfl, rest, rfl⟩)
    | some m => rw [hlen] at h; cases h
  · rw [lexeme_of_not_comment hopen] at h
    by_cases hq : c = '"' ∨ c = '\''
    · rw [if_pos hq] at h
      cases hlen : quotedLength c 0 cs with
      | none => rw [hlen] at h; exact .inl ⟨(Except.error.inj h).symm, hq⟩
      | some m => rw [hlen] at h; cases h
    · rw [if_neg hq] at h
      split at h
      · cases h
      · split at h
        · cases h
        · cases hm : Sign.match? (c :: cs) with
          | none => rw [hm] at h; exact .inr (.inr ⟨(Except.error.inj h).symm, hq⟩)
          | some s => rw [hm] at h; cases h

/-- Where the scanner fails there is that fault. -/
theorem fails_of_lexeme (h : lexeme c cs = .error f) : Fails f (c :: cs) := by
  -- a token at the start of the text would have to be a sign that opens a comment
  have hsign : ∀ kind x, IsToken kind x → x <+: c :: cs →
      f = .openComment ∧ ∃ s, kind = .ofSign s := by
    intro kind x hx hpre
    obtain ⟨ys, rest, rfl, rfl⟩ := hx.exists_of_isPrefix hpre
    exact hx.sign_of_error h
  rcases lexeme_error_cases h with ⟨rfl, hq⟩ | ⟨rfl, rfl, rest, rfl⟩ | ⟨rfl, hq⟩
  · refine .openString hq fun x hx hpre => ?_
    cases (hsign _ x hx hpre).1
  · refine .openComment fun x hx hpre => ?_
    obtain ⟨-, s, hs⟩ := hsign _ x hx hpre
    cases s <;> cases hs
  · refine .unexpected hq fun kind x hx hpre => ?_
    cases (hsign kind x hx hpre).1

/-- There is one fault at a place. -/
theorem Fails.eq {g : ScanFault} {r : List Char} (hf : Fails f r) (hg : Fails g r) : f = g := by
  -- the slash alone is a token, so a text that opens a comment is not without any
  have hslash : ∀ cs, ¬ ∀ kind x, IsToken kind x → ¬ x <+: '/' :: '*' :: cs := fun cs h =>
    h _ _ (.sign (.operator .slash)) ⟨'*' :: cs, rfl⟩
  cases hf with
  | openString hq _ =>
    cases hg with
    | openString => rfl
    | openComment => exact absurd hq (by decide)
    | unexpected hnot _ => exact absurd hq hnot
  | openComment _ =>
    cases hg with
    | openString hq _ => exact absurd hq (by decide)
    | openComment => rfl
    | unexpected _ hno => exact absurd hno (hslash _)
  | unexpected hnot hno =>
    cases hg with
    | openString hq _ => exact absurd hq hnot
    | openComment => exact absurd hno (hslash _)
    | unexpected => rfl

/-- **The scanner fails exactly where it must.** -/
theorem lexeme_eq_error_iff : lexeme c cs = .error f ↔ Fails f (c :: cs) := by
  constructor
  · exact fails_of_lexeme
  · intro hf
    cases h : lexeme c cs with
    | ok p => exact absurd hf (not_fails_of_lexeme h)
    | error g => rw [hf.eq (fails_of_lexeme h)]

/-- **The scanner takes the longest token**, unless there is a fault. -/
theorem lexeme_eq_ok_iff : lexeme c cs = .ok (kind, n) ↔
    (∀ f, ¬ Fails f (c :: cs)) ∧ n ≤ cs.length ∧ Longest kind (c :: cs.take n) (c :: cs) := by
  constructor
  · exact fun h => ⟨fun f => not_fails_of_lexeme h, longest_of_lexeme h⟩
  · rintro ⟨hno, hn, hl⟩
    cases h : lexeme c cs with
    | error f => exact absurd (fails_of_lexeme h) (hno f)
    | ok p =>
      obtain ⟨kind', m⟩ := p
      obtain ⟨hm, hl'⟩ := longest_of_lexeme h
      -- neither of the two is longer than the other
      have hle := hl.longest _ _ hl'.isToken hl'.isPrefix
      have hge := hl'.longest _ _ hl.isToken hl.isPrefix
      simp only [List.length_cons, List.length_take, Nat.min_eq_left hn,
        Nat.min_eq_left hm] at hle hge
      obtain rfl : m = n := by omega
      rw [hl'.isToken.kind_eq hl.isToken]

end

/-! ## The whole text -/

/-- A token that was found last comes in front of what is still to be found. -/
theorem map_reverse_cons (t : Token) (done : List Token)
    (result : Except LexicalError (List Token)) :
    result.map ((t :: done).reverse ++ ·) = (result.map (t :: ·)).map (done.reverse ++ ·) := by
  cases result with
  | error e => rfl
  | ok ts =>
    show Except.ok ((t :: done).reverse ++ ts) = Except.ok (done.reverse ++ t :: ts)
    rw [List.reverse_cons, List.append_assoc]
    rfl

/-- What the scanner gives is a scan by the longest tokens, after the tokens that it has found. -/
theorem exists_munches (done : List Token) (offset : Nat) (cs : List Char) :
    ∃ result, Munches offset cs result ∧
      scanFrom true done offset cs = result.map (done.reverse ++ ·) := by
  fun_induction scanFrom true done offset cs with
  | case1 done offset =>
    refine ⟨_, .nil offset, ?_⟩
    rw [List.reverse_cons]
    rfl
  | case2 done offset c cs hb ih =>
    obtain ⟨result, hm, he⟩ := ih
    exact ⟨result, .blank hb hm, he⟩
  | case3 done offset c cs hb f hl =>
    exact ⟨_, .fault (by simpa using hb) (fails_of_lexeme hl), rfl⟩
  | case4 done offset c cs hb kind n hl text stop token done' ih =>
    obtain ⟨result, hm, he⟩ := ih
    obtain ⟨hno, -, hlongest⟩ := lexeme_eq_ok_iff.mp hl
    have hsplit : c :: cs = text ++ cs.drop n := by
      show c :: cs = c :: (cs.take n ++ cs.drop n)
      rw [List.take_append_drop]
    rw [hsplit] at hno hlongest ⊢
    refine ⟨_, .token (by simpa using hb) hno hlongest hm, ?_⟩
    have hdone : done' = token :: done := if_neg fun h => Bool.noConfusion h.2
    rw [he, hdone]
    exact map_reverse_cons token done result

/-- A scan by the longest tokens is what the scanner does. -/
theorem Munches.scanFrom_eq {offset : Nat} {cs : List Char}
    {result : Except LexicalError (List Token)} (h : Munches offset cs result) :
    ∀ done, scanFrom true done offset cs = result.map (done.reverse ++ ·) := by
  induction h with
  | nil offset =>
    intro done
    rw [scanFrom, List.reverse_cons]
    rfl
  | blank hb _ ih =>
    intro done
    rw [scanFrom, if_pos hb]
    exact ih done
  | fault hb hf =>
    intro done
    rw [scanFrom, if_neg (by simp [hb]), lexeme_eq_error_iff.mpr hf]
    rfl
  | @token offset c x rest kind result hb hno hl _ ih =>
    intro done
    have hlexeme : lexeme c (x ++ rest) = .ok (kind, x.length) := by
      refine lexeme_eq_ok_iff.mpr ⟨hno, by rw [List.length_append]; omega, ?_⟩
      rw [List.take_left]
      exact hl
    rw [List.cons_append, scanFrom, if_neg (by simp [hb])]
    simp only [hlexeme, List.take_left, List.drop_left]
    rw [if_neg (by simp), ih]
    exact map_reverse_cons _ done result

/-- What a scan comes to is what the longest tokens give. -/
theorem munches_scan (source : String) : Munches 0 source.toList (scan source true) := by
  obtain ⟨result, hm, he⟩ := exists_munches [] 0 source.toList
  have hscan : scan source true = result := by
    rw [scan, he]
    cases result <;> rfl
  rw [hscan]
  exact hm

/-- **The scanner is maximal munch**: with comments kept, its result is the one that the longest
    token at every place gives, and the fault where there is one. -/
theorem scan_eq_iff_munches (source : String) (result : Except LexicalError (List Token)) :
    scan source true = result ↔ Munches 0 source.toList result := by
  constructor
  · intro h
    obtain ⟨result', hm, he⟩ := exists_munches [] 0 source.toList
    have hsame : result' = result := by
      rw [← h, scan, he]
      cases result' <;> rfl
    rw [← hsame]
    exact hm
  · intro h
    rw [scan, h.scanFrom_eq []]
    cases result <;> rfl

end CurlyScript
