import CurlyScript.Proofs.Token.Spelling

/-
  Terminals: tokens without their places.

  `Scans cs ts` says that the characters `cs` are the terminals `ts` one after the other, with
  blanks between them wherever one likes.  It is the view of the scanner that texts are proved
  with: it counts no offsets, it keeps comments, and it grows at the FRONT, so that a text is
  scanned piece by piece from its end.  `scan_eq_ok` and `scans_of_scan` tie it to the scanner.
-/

namespace CurlyScript

/-- A token without its place. -/
structure Terminal where
  /-- The class. -/
  kind : TokenKind
  /-- The text. -/
  text : String
deriving DecidableEq, Repr

/-- What a token is, wherever it stands. -/
def Token.terminal (t : Token) : Terminal := ⟨t.kind, t.lexeme⟩

/-- Whether a terminal is a comment. -/
def Terminal.isComment (t : Terminal) : Bool := t.kind == .comment

namespace Terminal

/-- The terminal of a keyword. -/
def keyword (k : Keyword) : Terminal := ⟨.keyword k, k.spelling⟩

/-- The terminal of a sign. -/
def sign (s : Sign) : Terminal := ⟨.ofSign s, s.spelling⟩

/-- The terminal of an operator. -/
def operator (o : Operator) : Terminal := sign (.operator o)

/-- The terminal of a punctuation sign. -/
def punctuation (p : Punctuation) : Terminal := sign (.punctuation p)

/-- The terminal of a name. -/
def name (s : String) : Terminal := ⟨.ident, s⟩

/-- Whether the text is one that the scanner gives to the class. -/
def isSpelled (t : Terminal) : Bool :=
  match t.kind with
  | .keyword k => t.text == k.spelling
  | .operator o => t.text == o.spelling
  | .punctuation p => t.text == p.spelling
  | .ident => isName t.text
  | .number => isNumeral t.text.toList
  | .string => isQuoted t.text.toList
  | .comment => isCommentText t.text
  | .eof => false

end Terminal

/-- The characters are these terminals, with blanks between them. -/
inductive Scans : List Char → List Terminal → Prop where
  | nil : Scans [] []
  | blank {c : Char} {cs : List Char} {ts : List Terminal} :
    Text.isBlank c = true → Scans cs ts → Scans (c :: cs) ts
  | token {c : Char} {cs : List Char} {kind : TokenKind} {n : Nat} {ts : List Terminal} :
    Text.isBlank c = false → lexeme c cs = .ok (kind, n) → Scans (cs.drop n) ts →
      Scans (c :: cs) (⟨kind, String.ofList (c :: cs.take n)⟩ :: ts)

namespace Scans

variable {cs rest : List Char} {ts : List Terminal}

/-- The characters of one token, before others. -/
theorem cons {c : Char} {kind : TokenKind} (hb : Text.isBlank c = false)
    (hl : lexeme c (cs ++ rest) = .ok (kind, cs.length)) (h : Scans rest ts) :
    Scans (c :: cs ++ rest) (⟨kind, String.ofList (c :: cs)⟩ :: ts) := by
  have hd : Scans ((cs ++ rest).drop cs.length) ts := by rw [List.drop_left]; exact h
  have hs := Scans.token hb hl hd
  rw [List.take_left] at hs
  exact hs

/-- Blanks make no terminals. -/
theorem blanks {bs : List Char} (hb : ∀ b ∈ bs, Text.isBlank b = true) (h : Scans rest ts) :
    Scans (bs ++ rest) ts := by
  induction bs with
  | nil => exact h
  | cons b bs ih =>
    exact .blank (hb b List.mem_cons_self) (ih fun x hx => hb x (List.mem_cons_of_mem b hx))

theorem word {k : TokenKind} {cs : List Char} (hw : isWord cs = true) (hk : wordKind cs = k)
    (hr : Breaks rest) (h : Scans rest ts) : Scans (cs ++ rest) (⟨k, String.ofList cs⟩ :: ts) := by
  cases cs with
  | nil => exact Bool.noConfusion hw
  | cons c cs =>
    have hc : isWordPart c = true := by
      rw [isWord, Bool.and_eq_true] at hw
      exact isWordPart_of_isWordStart hw.1
    refine cons (isBlank_eq_false_of_isWordPart hc) ?_ h
    rw [lexeme_word hw hr, hk]

theorem name {s : String} (hs : isName s = true) (hr : Breaks rest) (h : Scans rest ts) :
    Scans (s.toList ++ rest) (.name s :: ts) := by
  rw [isName, Bool.and_eq_true] at hs
  have hk : wordKind s.toList = .ident := by
    rw [wordKind, String.ofList_toList, Option.isNone_iff_eq_none.mp hs.2]
  have hw := word hs.1 hk hr h
  rwa [String.ofList_toList] at hw

theorem keyword (k : Keyword) (hr : Breaks rest) (h : Scans rest ts) :
    Scans (k.spelling.toList ++ rest) (.keyword k :: ts) := by
  have hk : wordKind k.spelling.toList = .keyword k := by
    rw [wordKind, String.ofList_toList, Keyword.ofSpelling?_spelling]
  have hw := word (isWord_keyword k) hk hr h
  rwa [String.ofList_toList] at hw

theorem numeral {cs : List Char} (hn : isNumeral cs = true) (hr : Breaks rest)
    (h : Scans rest ts) : Scans (cs ++ rest) (⟨.number, String.ofList cs⟩ :: ts) := by
  obtain ⟨ds, tail, hne, hds, rfl, -⟩ := isNumeral_iff.mp hn
  obtain ⟨d, ds, rfl⟩ := List.exists_cons_of_ne_nil hne
  have hd := isWordPart_of_isDigit (hds d List.mem_cons_self)
  exact cons (isBlank_eq_false_of_isWordPart hd) (lexeme_numeral hn hr) h

theorem quoted {cs : List Char} (hq : isQuoted cs = true) (h : Scans rest ts) :
    Scans (cs ++ rest) (⟨.string, String.ofList cs⟩ :: ts) := by
  cases cs with
  | nil => exact Bool.noConfusion hq
  | cons c cs =>
    have hl := lexeme_quoted hq rest
    rw [isQuoted, Bool.and_eq_true, Bool.or_eq_true, beq_iff_eq, beq_iff_eq] at hq
    exact cons (isBlank_eq_false_of_quote hq.1) hl h

theorem sign (s : Sign) (hr : ∀ d ∈ rest.head?, s.runsInto d = false) (h : Scans rest ts) :
    Scans (s.spelling.toList ++ rest) (.sign s :: ts) := by
  obtain ⟨c, cs, hs⟩ : ∃ c cs, s.spelling.toList = c :: cs := by
    cases hs : s.spelling.toList with
    | nil =>
      have h1 := s.length_spelling.1
      rw [hs] at h1
      exact absurd h1 (by decide)
    | cons c cs => exact ⟨c, cs, rfl⟩
  have hw := cons (Sign.head_spelling hs).2.2.2 (lexeme_sign hs hr) h
  rw [← hs, String.ofList_toList] at hw
  exact hw

/-- A comment needs the end of its line after it, if it is a line comment. -/
theorem comment {s : String} (hs : isCommentText s = true)
    (hr : ∀ d ∈ rest.head?, d = '\n') (h : Scans rest ts) :
    Scans (s.toList ++ rest) (⟨.comment, s⟩ :: ts) := by
  rw [isCommentText] at hs
  split at hs
  · rename_i cs he
    have hw := cons (c := '/') (by decide) (lexeme_line_comment (by simpa using hs) hr) h
    rw [← he, String.ofList_toList] at hw
    exact hw
  · rename_i cs he
    have hw := cons (c := '/') (by decide) (lexeme_block_comment hs rest) h
    rw [← he, String.ofList_toList] at hw
    exact hw
  · exact Bool.noConfusion hs

end Scans

/-! ## What the scanner takes -/

theorem wordKind_isSpelled {cs : List Char} (h : isWord cs = true) :
    (Terminal.mk (wordKind cs) (String.ofList cs)).isSpelled = true := by
  unfold wordKind
  split
  · rename_i k hk
    show (String.ofList cs == k.spelling) = true
    rw [beq_iff_eq]
    exact Keyword.ofSpelling?_eq_some_iff.mp hk
  · rename_i hk
    show isName (String.ofList cs) = true
    rw [isName, String.toList_ofList, h, hk]
    rfl

theorem sign_isSpelled (s : Sign) : (Terminal.sign s).isSpelled = true := by
  cases s with
  | operator o => exact beq_self_eq_true o.spelling
  | punctuation p => exact beq_self_eq_true p.spelling

/-- What `lexeme` takes lies within the text, and is spelled as its class demands. -/
theorem isSpelled_of_lexeme {c : Char} {cs : List Char} {kind : TokenKind} {n : Nat}
    (h : lexeme c cs = .ok (kind, n)) :
    n ≤ cs.length ∧ (Terminal.mk kind (String.ofList (c :: cs.take n))).isSpelled = true := by
  unfold lexeme at h
  split at h
  · -- a line comment stops before the line feed, so it holds none
    rename_i rest
    obtain ⟨rfl, rfl⟩ := Prod.mk.inj (Except.ok.inj h)
    have hle := (List.takeWhile_prefix (l := rest) (fun c => decide (c ≠ '\n'))).length_le
    refine ⟨by rw [List.length_cons]; omega, ?_⟩
    rw [Nat.add_comm, List.take_succ_cons, take_length_takeWhile]
    show isCommentText (String.ofList _) = true
    rw [isCommentText, String.toList_ofList]
    show (!(rest.takeWhile fun c => decide (c ≠ '\n')).contains '\n') = true
    rw [Bool.not_eq_true', List.contains_eq_mem, decide_eq_false_iff_not]
    intro hm
    have hne := List.mem_takeWhile_imp hm
    exact of_decide_eq_true hne rfl
  · rename_i rest
    split at h
    · rename_i m hm
      obtain ⟨rfl, rfl⟩ := Prod.mk.inj (Except.ok.inj h)
      obtain ⟨k, rfl, hk, he⟩ := closesAtEnd_of_commentLength hm
      refine ⟨by rw [List.length_cons]; omega, ?_⟩
      rw [Nat.add_comm, List.take_succ_cons]
      show isCommentText (String.ofList _) = true
      rw [isCommentText, String.toList_ofList]
      exact he
    · exact absurd h (by simp)
  · split at h
    · rename_i hq
      split at h
      · rename_i m hm
        obtain ⟨rfl, rfl⟩ := Prod.mk.inj (Except.ok.inj h)
        obtain ⟨k, hk0, hk, he⟩ := endsAtQuote_of_quotedLength (ne_backslash_of_quote hq) hm
        rw [Nat.zero_add] at hk0
        subst hk0
        refine ⟨hk, ?_⟩
        show isQuoted (String.ofList _).toList = true
        rw [String.toList_ofList, isQuoted, Bool.and_eq_true, Bool.or_eq_true, beq_iff_eq,
          beq_iff_eq]
        exact ⟨hq, he⟩
      · exact absurd h (by simp)
    · split at h
      · rename_i hd
        obtain ⟨rfl, rfl⟩ := Prod.mk.inj (Except.ok.inj h)
        obtain ⟨hle, hn⟩ := isNumeral_take_numberLength hd cs
        refine ⟨hle, ?_⟩
        show isNumeral (String.ofList _).toList = true
        rw [String.toList_ofList, hn]
      · split at h
        · rename_i hw
          obtain ⟨rfl, rfl⟩ := Prod.mk.inj (Except.ok.inj h)
          refine ⟨(List.takeWhile_prefix _).length_le, ?_⟩
          rw [take_length_takeWhile]
          refine wordKind_isSpelled ?_
          rw [isWord, Bool.and_eq_true, List.all_eq_true]
          exact ⟨hw, fun d hd => List.mem_takeWhile_imp hd⟩
        · split at h
          · rename_i s hm
            obtain ⟨rfl, rfl⟩ := Prod.mk.inj (Except.ok.inj h)
            unfold Sign.match? at hm
            have hpre := List.find?_some hm
            have hp := List.isPrefixOf_iff_prefix.mp hpre
            have hlen := s.length_spelling.1
            -- a sign is found as a prefix, so what is taken is the sign and not only as long as one
            have htake : c :: cs.take (s.spelling.length - 1) = s.spelling.toList := by
              rw [List.prefix_iff_eq_take.mp hp, ← String.length_toList, List.take_cons hlen]
            have hle := hp.length_le
            rw [List.length_cons, String.length_toList] at hle
            refine ⟨by omega, ?_⟩
            rw [htake, String.ofList_toList]
            exact sign_isSpelled s
          · exact absurd h (by simp)

theorem Scans.isSpelled {cs : List Char} {ts : List Terminal} (h : Scans cs ts) :
    ∀ t ∈ ts, t.isSpelled = true := by
  induction h with
  | nil => intro t ht; exact absurd ht List.not_mem_nil
  | blank _ _ ih => exact ih
  | token _ hl _ ih =>
    intro t ht
    rcases List.mem_cons.mp ht with rfl | ht
    · exact (isSpelled_of_lexeme hl).2
    · exact ih t ht

/-! ## The scanner -/

/-- Which terminals the scanner keeps. -/
def Terminal.isKept (keep : Bool) (t : Terminal) : Bool := keep || !t.isComment

/-- The scanner finds the terminals of a text. -/
theorem scanFrom_eq_ok {keep : Bool} {cs : List Char} {ts : List Terminal} (h : Scans cs ts) :
    ∀ done offset, ∃ tokens, scanFrom keep done offset cs =
        .ok (done.reverse ++ tokens ++ [Token.endAt (offset + byteLength cs)]) ∧
      tokens.map Token.terminal = ts.filter (Terminal.isKept keep) := by
  -- on the terminals rather than on the characters, for all tokens found so far: the scanner keeps
  -- those in reverse
  induction h with
  | nil =>
    intro done offset
    refine ⟨[], ?_, rfl⟩
    rw [scanFrom]
    simp
  | @blank c cs ts hb _ ih =>
    intro done offset
    obtain ⟨tokens, ht, hm⟩ := ih done (offset + c.utf8Size)
    refine ⟨tokens, ?_, hm⟩
    rw [scanFrom, if_pos hb, ht, byteLength_cons, Nat.add_assoc]
  | @token c cs kind n ts hb hl _ ih =>
    intro done offset
    rw [scanFrom, if_neg (by simp [hb])]
    simp only [hl]
    have hlen : offset + byteLength (c :: cs.take n) + byteLength (cs.drop n) =
        offset + byteLength (c :: cs) := by
      rw [Nat.add_assoc, ← byteLength_append, List.cons_append, List.take_append_drop]
    -- a comment that is not kept moves the offset all the same
    by_cases hk : kind = .comment ∧ keep = false
    · rw [if_pos hk]
      obtain ⟨tokens, ht, hm⟩ := ih done (offset + byteLength (c :: cs.take n))
      refine ⟨tokens, by rw [ht, hlen], ?_⟩
      obtain ⟨rfl, rfl⟩ := hk
      rw [hm]
      rfl
    · rw [if_neg hk]
      let token : Token := ⟨kind, String.ofList (c :: cs.take n),
        ⟨offset, offset + byteLength (c :: cs.take n)⟩⟩
      obtain ⟨tokens, ht, hm⟩ := ih (token :: done) (offset + byteLength (c :: cs.take n))
      refine ⟨token :: tokens, ?_, ?_⟩
      · rw [ht, hlen, List.reverse_cons]
        simp
      · have hkept : Terminal.isKept keep ⟨kind, String.ofList (c :: cs.take n)⟩ = true := by
          cases keep with
          | true => rfl
          | false =>
            have hne : kind ≠ .comment := fun h => hk ⟨h, rfl⟩
            simp [Terminal.isKept, Terminal.isComment, hne]
        rw [List.map_cons, hm, List.filter_cons_of_pos hkept]
        rfl

/-- The scanner finds the terminals of a text, and then its end. -/
theorem scan_eq_ok {source : String} {ts : List Terminal} (h : Scans source.toList ts)
    (keep : Bool) : ∃ tokens, scan source keep =
        .ok (tokens ++ [Token.endAt (byteLength source.toList)]) ∧
      tokens.map Token.terminal = ts.filter (Terminal.isKept keep) := by
  obtain ⟨tokens, ht, hm⟩ := @scanFrom_eq_ok keep _ _ h [] 0
  refine ⟨tokens, ?_, hm⟩
  rw [scan, ht]
  simp

/-- A text that can be scanned is terminals with blanks between them. -/
theorem exists_scans_of_scanFrom {keep : Bool} {done : List Token} {offset : Nat} {cs : List Char}
    (h : (scanFrom keep done offset cs).isOk = true) : ∃ ts, Scans cs ts := by
  fun_induction scanFrom keep done offset cs with
  | case1 => exact ⟨[], .nil⟩
  | case2 done offset c cs hb ih =>
    obtain ⟨ts, hs⟩ := ih h
    exact ⟨ts, .blank hb hs⟩
  | case3 => exact Bool.noConfusion h
  | case4 done offset c cs hb kind n hl text stop token done' ih =>
    obtain ⟨ts, hs⟩ := ih h
    exact ⟨_, .token (by simpa using hb) hl hs⟩

/-- The tokens of a text are its terminals, each at its place, and then the end. -/
theorem scans_of_scan {source : String} {keep : Bool} {tokens : List Token}
    (h : scan source keep = .ok tokens) :
    ∃ ts before, Scans source.toList ts ∧
      tokens = before ++ [Token.endAt (byteLength source.toList)] ∧
      before.map Token.terminal = ts.filter (Terminal.isKept keep) := by
  obtain ⟨ts, hs⟩ : ∃ ts, Scans source.toList ts :=
    exists_scans_of_scanFrom (by rw [scan] at h; rw [h]; rfl)
  obtain ⟨before, hb, hm⟩ := scan_eq_ok hs keep
  rw [hb] at h
  exact ⟨ts, before, hs, (Except.ok.inj h).symm, hm⟩

/-- Every token of a text but its end is spelled as its class demands. -/
theorem isSpelled_of_scan {source : String} {keep : Bool} {tokens : List Token} {t : Token}
    (h : scan source keep = .ok tokens) (ht : t ∈ tokens) (hk : t.kind ≠ .eof) :
    t.terminal.isSpelled = true := by
  obtain ⟨ts, before, hscans, rfl, hmap⟩ := scans_of_scan h
  have hbefore : t ∈ before := by
    rcases List.mem_append.mp ht with hm | hm
    · exact hm
    · exact absurd (congrArg Token.kind (List.mem_singleton.mp hm)) hk
  have hterminal : t.terminal ∈ ts.filter (Terminal.isKept keep) := by
    rw [← hmap]
    exact List.mem_map_of_mem hbefore
  exact hscans.isSpelled _ (List.mem_filter.mp hterminal).1

theorem breaks_nil : Breaks [] := ⟨by simp, by simp⟩

/-- A text of one terminal is one token. -/
theorem scan_singleton {s : String} {t : Terminal} (h : Scans s.toList [t])
    (ht : t.isComment = false) (keep : Bool) :
    ∃ u, scan s keep = .ok [u, Token.endAt (byteLength s.toList)] ∧ u.terminal = t := by
  obtain ⟨tokens, hscan, hmap⟩ := scan_eq_ok h keep
  have hkept : [t].filter (Terminal.isKept keep) = [t] := by
    simp [Terminal.isKept, ht]
  rw [hkept] at hmap
  obtain ⟨u, rfl, hu⟩ := List.map_eq_singleton_iff.mp hmap
  exact ⟨u, hscan, hu⟩

end CurlyScript
