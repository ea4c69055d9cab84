import CurlyScript.Proofs.Token.Stream

/-
  Slices of a text: the tokens from one place to another are those of the characters between.

  A token ends where it ends because of the character that follows, or because of the two that
  follow; and no sign, word or number is made longer by a closing parenthesis or by the end of the
  text (`lexeme_cut`).  So some tokens in a row are what their own characters are scanned as, from
  the start of the first to the end of the last (`exists_text_of_scan`).

  `Lexes offset cs ts` is the scanner without its accumulator, for scanning without comments.
-/

namespace CurlyScript

/-! ## The extent of one token in a text that is cut -/

/-- What may follow a text where it is cut: nothing, or a closing parenthesis. -/
def ClosesText (tail : List Char) : Prop := ∀ d ∈ tail.head?, d = ')'

variable {x after tail : List Char} {p : Char → Bool}

/-- A run of characters that ends within `x` ends there whatever follows `x`. -/
theorem takeWhile_cut_of_lt (h : ((x ++ after).takeWhile p).length < x.length) :
    (x ++ tail).takeWhile p = (x ++ after).takeWhile p := by
  rw [List.takeWhile_append] at h
  split at h
  · rw [List.length_append] at h
    omega
  · rename_i hsome
    rw [List.takeWhile_append, List.takeWhile_append, if_neg hsome, if_neg hsome]

/-- A run of characters that does not go beyond `x` is the same before anything that ends it. -/
theorem takeWhile_cut (h : ((x ++ after).takeWhile p).length ≤ x.length)
    (htail : ∀ d ∈ tail.head?, p d = false) :
    (x ++ tail).takeWhile p = (x ++ after).takeWhile p := by
  rcases Nat.lt_or_eq_of_le h with hlt | heq
  · exact takeWhile_cut_of_lt hlt
  · have hx : (x ++ after).takeWhile p = x := by
      have hprefix := List.prefix_of_prefix_length_le (List.takeWhile_prefix p)
        (List.prefix_append x after) h
      exact hprefix.eq_of_length heq
    rw [hx]
    refine takeWhile_append_stop (fun c hc => ?_) htail
    rw [← hx] at hc
    exact List.mem_takeWhile_imp hc

/-- How many characters at the start of a text are a point and the digits after it, if there are
    any. -/
def fractionLength : List Char → Nat
  | '.' :: cs => if (cs.takeWhile Char.isDigit).length = 0 then 0
    else 1 + (cs.takeWhile Char.isDigit).length
  | _ => 0

/-- A number goes on with its digits and then with its fraction. -/
theorem numberLength_eq (cs : List Char) : numberLength cs = (cs.takeWhile Char.isDigit).length +
    fractionLength (cs.drop (cs.takeWhile Char.isDigit).length) := by
  rw [numberLength]
  dsimp only
  split
  · rename_i rest hrest
    rw [hrest, fractionLength]
    split
    · rfl
    · exact Nat.add_assoc _ _ _
  · rename_i hnone
    rw [fractionLength.eq_2 _ hnone, Nat.add_zero]

theorem fractionLength_cut (h : fractionLength (x ++ after) ≤ x.length) (htail : ClosesText tail) :
    fractionLength (x ++ tail) = fractionLength (x ++ after) := by
  have hnone : ∀ cs : List Char, '.' ∉ cs.head? → fractionLength cs = 0 := fun cs hcs =>
    fractionLength.eq_2 cs fun rest hrest => hcs (hrest ▸ rfl)
  cases x with
  | nil =>
    rw [Nat.le_zero.mp h]
    exact hnone _ fun hd => absurd (htail '.' hd) (by decide)
  | cons d x =>
    by_cases hd : d = '.'
    · subst hd
      rw [List.cons_append, fractionLength] at h
      rw [List.cons_append, List.cons_append, fractionLength, fractionLength]
      have hle : ((x ++ after).takeWhile Char.isDigit).length ≤ x.length := by
        rw [List.length_cons] at h
        split at h <;> omega
      rw [takeWhile_cut hle fun d hd => by rw [htail d hd]; rfl]
    · rw [hnone (d :: x ++ tail) fun hx => hd (Option.some.inj hx),
        hnone (d :: x ++ after) fun hx => hd (Option.some.inj hx)]

/-- A number is as long wherever the text is cut after it. -/
theorem numberLength_cut (h : numberLength (x ++ after) ≤ x.length) (htail : ClosesText tail) :
    numberLength (x ++ tail) = numberLength (x ++ after) := by
  rw [numberLength_eq] at h
  have hle : ((x ++ after).takeWhile Char.isDigit).length ≤ x.length :=
    Nat.le_trans (Nat.le_add_right _ _) h
  rw [numberLength_eq, numberLength_eq, takeWhile_cut hle fun d hd => by rw [htail d hd]; rfl]
  rw [List.drop_append_of_le_length hle] at h ⊢
  rw [List.drop_append_of_le_length hle, fractionLength_cut ?_ htail]
  rw [List.length_drop]
  omega

theorem Sign.match?_cut {c : Char} {s : Sign} (h : Sign.match? (c :: (x ++ after)) = some s)
    (hs : s.spelling.length - 1 ≤ x.length) (htail : ClosesText tail) :
    Sign.match? (c :: (x ++ tail)) = some s := by
  cases x with
  | nil =>
    have hprefix : s.spelling.toList <+: c :: after :=
      List.isPrefixOf_iff_prefix.mp
        (List.find?_some (p := fun s : Sign => s.spelling.toList.isPrefixOf (c :: after)) h)
    have hone : s.spelling.toList = [c] := by
      have hlen := s.length_spelling
      rw [← String.length_toList, List.length_nil] at hs
      cases hsp : s.spelling.toList with
      | nil => rw [hsp] at hlen; exact absurd hlen.1 (by decide)
      | cons d ds =>
        rw [hsp] at hprefix hs
        rw [List.length_cons] at hs
        obtain rfl : ds = [] := List.length_eq_zero_iff.mp (by omega)
        rw [(List.cons_prefix_cons.mp hprefix).1]
    have hmatch : Sign.match? (s.spelling.toList ++ tail) = some s := by
      refine Sign.match?_append fun d hd => ?_
      rw [htail d hd]
      cases s with
      | operator o => cases o <;> decide
      | punctuation p => cases p <;> decide
    rw [hone] at hmatch
    exact hmatch
  | cons d x =>
    rw [← h, Sign.match?, Sign.match?]
    refine List.find?_congr fun t ht => ?_
    rw [Bool.eq_iff_iff, List.isPrefixOf_iff_prefix, List.isPrefixOf_iff_prefix]
    -- no sign has more than two characters, and those stand in `x`
    have htwo : ∀ more : List Char, t.spelling.toList <+: c :: (d :: x ++ more) ↔
        t.spelling.toList <+: [c, d] := by
      intro more
      have hlen := t.length_spelling
      have hfirst : [c, d] <+: c :: (d :: x ++ more) := ⟨x ++ more, rfl⟩
      exact ⟨fun ht => List.prefix_of_prefix_length_le ht hfirst hlen.2, fun ht => ht.trans hfirst⟩
    rw [htwo, htwo]

/-- A quoted text is as long wherever the text is cut after it. -/
theorem quotedLength_cut {quote : Char} {n : Nat} (hquote : quote ≠ '\\')
    (h : quotedLength quote 0 (x ++ after) = some n) (hn : n ≤ x.length) :
    quotedLength quote 0 (x ++ tail) = some n := by
  obtain ⟨k, rfl, hk, hends⟩ := endsAtQuote_of_quotedLength hquote h
  rw [List.take_append_of_le_length (by omega)] at hends
  have hlen := quotedLength_append hquote (x.drop k ++ tail) hends 0
  rw [← List.append_assoc, List.take_append_drop, List.length_take,
    Nat.min_eq_left (by omega)] at hlen
  exact hlen

/-- A comment in block form is as long wherever the text is cut after it. -/
theorem commentLength_cut {n : Nat} (h : commentLength 1 (x ++ after) = some n)
    (hn : n ≤ x.length + 1) : commentLength 1 (x ++ tail) = some n := by
  obtain ⟨k, rfl, hk, hcloses⟩ := closesAtEnd_of_commentLength h
  rw [List.take_append_of_le_length (by omega)] at hcloses
  have hlen := commentLength_append hcloses (x.drop k ++ tail) 1
  rw [← List.append_assoc, List.take_append_drop, List.length_take,
    Nat.min_eq_left (by omega)] at hlen
  exact hlen

/-- A sign that comes next where the text is cut came next before, if it closes nothing. -/
theorem exists_cons_of_cut {d : Char} {rest : List Char} (hd : d ≠ ')') (htail : ClosesText tail)
    (h : x ++ tail = d :: rest) : ∃ more, x ++ after = d :: more := by
  cases x with
  | nil =>
    rw [List.nil_append] at h
    exact absurd (htail d (by rw [h]; rfl)) hd
  | cons e x => exact ⟨x ++ after, by rw [List.cons_append, (List.cons.inj h).1]⟩

/-- The token at the start of a text is the same wherever the text is cut after it.  A comment may
    go on to the end of its line, so it must not come last. -/
theorem lexeme_cut {c : Char} {kind : TokenKind} {n : Nat}
    (h : lexeme c (x ++ after) = .ok (kind, n)) (hn : n ≤ x.length)
    (hcomment : kind = .comment → n < x.length) (htail : ClosesText tail) :
    lexeme c (x ++ tail) = .ok (kind, n) := by
  unfold lexeme at h
  split at h
  · -- a comment up to the end of the line
    rename_i rest hx
    obtain ⟨rfl, rfl⟩ := Prod.mk.inj (Except.ok.inj h)
    have hlt := hcomment rfl
    cases x with
    | nil => exact absurd hlt (Nat.not_lt_zero _)
    | cons d x =>
      obtain ⟨rfl, rfl⟩ := List.cons.inj hx
      rw [List.length_cons] at hlt
      have hlen : ((x ++ after).takeWhile fun c => decide (c ≠ '\n')).length < x.length := by
        change 1 + ((x ++ after).takeWhile _).length < _ at hlt
        omega
      rw [List.cons_append, lexeme, takeWhile_cut_of_lt hlen]
      rfl
  · -- a comment in block form
    rename_i rest hx
    split at h
    · rename_i m hm
      obtain ⟨rfl, rfl⟩ := Prod.mk.inj (Except.ok.inj h)
      have hlt := hcomment rfl
      cases x with
      | nil => exact absurd hlt (Nat.not_lt_zero _)
      | cons d x =>
        obtain ⟨rfl, rfl⟩ := List.cons.inj hx
        have hlen : commentLength 1 (x ++ tail) = some m := commentLength_cut hm hn
        rw [List.cons_append, lexeme]
        simp only [hlen]
    · cases h
  · -- no comment, and the cut does not make it one
    rename_i c _ _ hline hblock
    have hline' : ∀ rest, c = '/' → x ++ tail = '/' :: rest → False := by
      intro rest hc hx
      obtain ⟨more, hmore⟩ := exists_cons_of_cut (by decide) htail hx
      exact hline more hc hmore
    have hblock' : ∀ rest, c = '/' → x ++ tail = '*' :: rest → False := by
      intro rest hc hx
      obtain ⟨more, hmore⟩ := exists_cons_of_cut (by decide) htail hx
      exact hblock more hc hmore
    rw [lexeme.eq_3 _ _ hline' hblock']
    split at h
    · rename_i hquote
      rw [if_pos hquote]
      split at h
      · rename_i m hm
        obtain ⟨rfl, rfl⟩ := Prod.mk.inj (Except.ok.inj h)
        rw [quotedLength_cut (ne_backslash_of_quote hquote) hm hn]
      · cases h
    · rename_i hquote
      rw [if_neg hquote]
      split at h
      · rename_i hdigit
        obtain ⟨rfl, rfl⟩ := Prod.mk.inj (Except.ok.inj h)
        rw [if_pos hdigit, numberLength_cut hn htail]
      · rename_i hdigit
        rw [if_neg hdigit]
        split at h
        · rename_i hword
          obtain ⟨rfl, rfl⟩ := Prod.mk.inj (Except.ok.inj h)
          rw [if_pos hword]
          dsimp only
          rw [takeWhile_cut hn fun d hd => by rw [htail d hd]; rfl]
        · rename_i hword
          rw [if_neg hword]
          split at h
          · rename_i s hs
            obtain ⟨rfl, rfl⟩ := Prod.mk.inj (Except.ok.inj h)
            rw [Sign.match?_cut hs hn htail]
          · cases h

/-- The same for a token with more characters before the cut. -/
theorem lexeme_cut_append {c : Char} {cs text : List Char} {kind : TokenKind}
    (h : lexeme c (cs ++ (text ++ after)) = .ok (kind, cs.length))
    (hcomment : kind = .comment → text ≠ []) (htail : ClosesText tail) :
    lexeme c (cs ++ (text ++ tail)) = .ok (kind, cs.length) := by
  rw [← List.append_assoc] at h ⊢
  refine lexeme_cut h ?_ (fun hk => ?_) htail
  · rw [List.length_append]
    exact Nat.le_add_right _ _
  · rw [List.length_append]
    exact Nat.lt_add_of_pos_right (List.length_pos_iff.mpr (hcomment hk))

/-! ## Texts and their tokens -/

/-- The same span further on. -/
def Span.shift (k : Nat) (s : Span) : Span := ⟨s.start + k, s.stop + k⟩

/-- The same token further on. -/
def Token.shift (k : Nat) (t : Token) : Token := ⟨t.kind, t.lexeme, t.span.shift k⟩

/-- The characters, the first of which stands at an offset, are some tokens, with blanks and
    comments between them. -/
inductive Lexes : Nat → List Char → List Token → Prop where
  | nil (offset : Nat) : Lexes offset [] []
  | blank {offset : Nat} {c : Char} {cs : List Char} {ts : List Token} :
    Text.isBlank c = true → Lexes (offset + c.utf8Size) cs ts → Lexes offset (c :: cs) ts
  | comment {offset : Nat} {c : Char} {cs rest : List Char} {ts : List Token} :
    Text.isBlank c = false → lexeme c (cs ++ rest) = .ok (.comment, cs.length) →
      Lexes (offset + byteLength (c :: cs)) rest ts → Lexes offset (c :: cs ++ rest) ts
  | token {offset : Nat} {c : Char} {cs rest : List Char} {kind : TokenKind} {ts : List Token} :
    Text.isBlank c = false → lexeme c (cs ++ rest) = .ok (kind, cs.length) → kind ≠ .comment →
      Lexes (offset + byteLength (c :: cs)) rest ts →
      Lexes offset (c :: cs ++ rest)
        (⟨kind, String.ofList (c :: cs), ⟨offset, offset + byteLength (c :: cs)⟩⟩ :: ts)

theorem lexes_of_scanFrom {done : List Token} {offset : Nat} {cs : List Char} {tokens : List Token}
    (h : scanFrom false done offset cs = .ok tokens) :
    ∃ ts, Lexes offset cs ts ∧
      tokens = done.reverse ++ ts ++ [Token.endAt (offset + byteLength cs)] := by
  fun_induction scanFrom false done offset cs with
  | case1 done offset =>
    refine ⟨[], .nil offset, ?_⟩
    rw [← Except.ok.inj h]
    simp
  | case2 done offset c cs hb ih =>
    obtain ⟨ts, hts, rfl⟩ := ih h
    refine ⟨ts, .blank hb hts, ?_⟩
    rw [byteLength_cons, Nat.add_assoc]
  | case3 => cases h
  | case4 done offset c cs hb kind n hl text stop token done' ih =>
    obtain ⟨ts, hts, rfl⟩ := ih h
    have hblank : Text.isBlank c = false := Bool.eq_false_iff.mpr hb
    have hcs : c :: cs.take n ++ cs.drop n = c :: cs :=
      congrArg (c :: ·) (List.take_append_drop n cs)
    have hlexeme : lexeme c (cs.take n ++ cs.drop n) = .ok (kind, (cs.take n).length) := by
      rw [List.take_append_drop, List.length_take, Nat.min_eq_left (isSpelled_of_lexeme hl).1, hl]
    have hstop : stop + byteLength (cs.drop n) = offset + byteLength (c :: cs) := by
      show offset + byteLength (c :: cs.take n) + byteLength (cs.drop n) = _
      rw [← hcs, byteLength_append, Nat.add_assoc]
    rw [hstop]
    by_cases hk : kind = .comment
    · refine ⟨ts, hcs ▸ Lexes.comment hblank (hk ▸ hlexeme) hts, ?_⟩
      have hsame : done' = done := if_pos ⟨hk, rfl⟩
      rw [hsame]
    · refine ⟨token :: ts, hcs ▸ Lexes.token hblank hlexeme hk hts, ?_⟩
      have hmore : done' = token :: done := if_neg fun h => hk h.1
      rw [hmore, List.reverse_cons]
      simp

theorem Lexes.scanFrom_eq {offset : Nat} {cs : List Char} {ts : List Token}
    (h : Lexes offset cs ts) : ∀ done, scanFrom false done offset cs =
      .ok (done.reverse ++ ts ++ [Token.endAt (offset + byteLength cs)]) := by
  induction h with
  | nil offset =>
    intro done
    rw [scanFrom]
    simp
  | blank hb _ ih =>
    intro done
    rw [scanFrom, if_pos hb, ih, byteLength_cons, Nat.add_assoc]
  | comment hb hl _ ih =>
    intro done
    rw [List.cons_append, scanFrom, if_neg (by rw [hb]; exact Bool.noConfusion), hl]
    dsimp only
    rw [if_pos ⟨rfl, rfl⟩, List.take_left, List.drop_left, ih, ← List.cons_append,
      byteLength_append, Nat.add_assoc]
  | token hb hl hk _ ih =>
    intro done
    rw [List.cons_append, scanFrom, if_neg (by rw [hb]; exact Bool.noConfusion), hl]
    dsimp only
    rw [if_neg fun h => hk h.1, List.take_left, List.drop_left, ih, ← List.cons_append,
      byteLength_append, Nat.add_assoc]
    simp

namespace Lexes

variable {offset k : Nat} {cs : List Char} {ts us : List Token} {t : Token}

/-- The text of the tokens after some others. -/
theorem drop (h : Lexes offset cs (us ++ ts)) :
    ∃ before rest, cs = before ++ rest ∧ Lexes (offset + byteLength before) rest ts := by
  generalize hall : us ++ ts = all at h
  induction h generalizing us with
  | nil offset =>
    obtain ⟨rfl, rfl⟩ := List.append_eq_nil_iff.mp hall
    exact ⟨[], [], rfl, .nil offset⟩
  | @blank offset c cs _ hb hlex ih =>
    obtain ⟨before, rest, rfl, hrest⟩ := ih hall
    refine ⟨c :: before, rest, rfl, ?_⟩
    rw [byteLength_cons, ← Nat.add_assoc]
    exact hrest
  | @comment offset c cs _ _ hb hl hlex ih =>
    obtain ⟨before, rest, rfl, hrest⟩ := ih hall
    refine ⟨c :: cs ++ before, rest, (List.append_assoc _ _ _).symm, ?_⟩
    rw [byteLength_append, ← Nat.add_assoc]
    exact hrest
  | @token offset c cs _ _ _ hb hl hk hlex ih =>
    cases us with
    | nil =>
      subst hall
      exact ⟨[], _, rfl, .token hb hl hk hlex⟩
    | cons u us =>
      obtain ⟨before, rest, rfl, hrest⟩ := ih (List.cons.inj hall).2
      refine ⟨c :: cs ++ before, rest, (List.append_assoc _ _ _).symm, ?_⟩
      rw [byteLength_append, ← Nat.add_assoc]
      exact hrest

/-- The text from the first token on. -/
theorem start (h : Lexes offset cs (t :: ts)) :
    ∃ before rest, cs = before ++ rest ∧ t.span.start = offset + byteLength before ∧
      Lexes t.span.start rest (t :: ts) := by
  generalize hall : t :: ts = all at h
  induction h with
  | nil offset => cases hall
  | @blank offset c cs _ hb hlex ih =>
    obtain ⟨before, rest, rfl, hstart, hrest⟩ := ih hall
    refine ⟨c :: before, rest, rfl, ?_, hrest⟩
    rw [byteLength_cons, ← Nat.add_assoc]
    exact hstart
  | @comment offset c cs _ _ hb hl hlex ih =>
    obtain ⟨before, rest, rfl, hstart, hrest⟩ := ih hall
    refine ⟨c :: cs ++ before, rest, (List.append_assoc _ _ _).symm, ?_, hrest⟩
    rw [byteLength_append, ← Nat.add_assoc]
    exact hstart
  | token hb hl hk hlex ih =>
    obtain ⟨rfl, rfl⟩ := List.cons.inj hall
    exact ⟨[], _, rfl, rfl, .token hb hl hk hlex⟩

/-- Tokens are the same wherever their text is cut after the last of them. -/
theorem cut (h : Lexes offset cs (us ++ ts)) (hus : us ≠ []) :
    ∃ text after, cs = text ++ after ∧ text ≠ [] ∧
      us.getLast?.map (·.span.stop) = some (offset + byteLength text) ∧
      ∀ tail vs, ClosesText tail → Lexes (offset + byteLength text) tail vs →
        Lexes offset (text ++ tail) (us ++ vs) := by
  generalize hall : us ++ ts = all at h
  induction h generalizing us with
  | nil offset => exact absurd (List.append_eq_nil_iff.mp hall).1 hus
  | @blank offset c cs _ hb hlex ih =>
    obtain ⟨text, after, rfl, -, hstop, hcut⟩ := ih hus hall
    refine ⟨c :: text, after, rfl, List.cons_ne_nil _ _, ?_, fun tail vs htail hvs => .blank hb ?_⟩
    · rw [byteLength_cons, ← Nat.add_assoc]
      exact hstop
    · rw [byteLength_cons, ← Nat.add_assoc] at hvs
      exact hcut tail vs htail hvs
  | @comment offset c cs _ _ hb hl hlex ih =>
    obtain ⟨text, after, rfl, htext, hstop, hcut⟩ := ih hus hall
    refine ⟨c :: cs ++ text, after, (List.append_assoc _ _ _).symm,
      List.append_ne_nil_of_left_ne_nil (List.cons_ne_nil _ _) _, ?_, fun tail vs htail hvs => ?_⟩
    · rw [byteLength_append, ← Nat.add_assoc]
      exact hstop
    · rw [byteLength_append, ← Nat.add_assoc] at hvs
      rw [List.append_assoc]
      exact .comment hb (lexeme_cut_append hl (fun _ => htext) htail) (hcut tail vs htail hvs)
  | @token offset c cs rest kind _ hb hl hk hlex ih =>
    cases us with
    | nil => exact absurd rfl hus
    | cons u us =>
      obtain ⟨rfl, hrest⟩ := List.cons.inj hall
      cases us with
      | nil =>
        refine ⟨c :: cs, rest, rfl, List.cons_ne_nil _ _, rfl, fun tail vs htail hvs => ?_⟩
        exact .token hb (lexeme_cut hl (Nat.le_refl _) (fun h => absurd h hk) htail) hk hvs
      | cons u us =>
        obtain ⟨text, after, rfl, -, hstop, hcut⟩ := ih (List.cons_ne_nil u us) hrest
        refine ⟨c :: cs ++ text, after, (List.append_assoc _ _ _).symm,
          List.append_ne_nil_of_left_ne_nil (List.cons_ne_nil _ _) _, ?_,
          fun tail vs htail hvs => ?_⟩
        · rw [byteLength_append, ← Nat.add_assoc, List.getLast?_cons_cons]
          exact hstop
        · rw [byteLength_append, ← Nat.add_assoc] at hvs
          rw [List.append_assoc]
          exact .token hb (lexeme_cut_append hl (fun h => absurd h hk) htail) hk
            (hcut tail vs htail hvs)

/-- Further on, the text is the same tokens further on. -/
theorem shift (h : Lexes offset cs ts) : Lexes (offset + k) cs (ts.map (Token.shift k)) := by
  induction h with
  | nil offset => exact .nil _
  | blank hb _ ih =>
    rw [Nat.add_right_comm] at ih
    exact .blank hb ih
  | comment hb hl _ ih =>
    rw [Nat.add_right_comm] at ih
    exact .comment hb hl ih
  | token hb hl hk _ ih =>
    rw [Nat.add_right_comm] at ih
    rw [List.map_cons, Token.shift, Span.shift, Nat.add_right_comm]
    exact .token hb hl hk ih

/-- Every text that is some tokens further on is some tokens here. -/
theorem unshift (h : Lexes (offset + k) cs ts) :
    ∃ us, Lexes offset cs us ∧ ts = us.map (Token.shift k) := by
  generalize hat : offset + k = at' at h
  induction h generalizing offset with
  | nil => exact ⟨[], .nil offset, rfl⟩
  | blank hb _ ih =>
    subst hat
    obtain ⟨us, hus, rfl⟩ := ih (Nat.add_right_comm _ _ _)
    exact ⟨us, .blank hb hus, rfl⟩
  | comment hb hl _ ih =>
    subst hat
    obtain ⟨us, hus, rfl⟩ := ih (Nat.add_right_comm _ _ _)
    exact ⟨us, .comment hb hl hus, rfl⟩
  | token hb hl hk _ ih =>
    subst hat
    obtain ⟨us, hus, rfl⟩ := ih (Nat.add_right_comm _ _ _)
    refine ⟨_ :: us, .token hb hl hk hus, ?_⟩
    rw [List.map_cons, Token.shift, Span.shift, Nat.add_right_comm]

/-! ## Parentheses around a text -/

theorem opening (h : Lexes 1 cs ts) :
    Lexes 0 ('(' :: cs) (⟨.punctuation .lParen, "(", ⟨0, 1⟩⟩ :: ts) :=
  @Lexes.token 0 '(' [] cs _ ts rfl rfl (by decide) h

theorem closing (offset : Nat) :
    Lexes offset [')'] [⟨.punctuation .rParen, ")", ⟨offset, offset + 1⟩⟩] :=
  @Lexes.token offset ')' [] [] _ [] rfl rfl (by decide) (.nil _)

/-- The tokens of a text as the scanner gives them. -/
theorem scan_eq (h : Lexes 0 cs ts) :
    scan (String.ofList cs) false = .ok (ts ++ [Token.endAt (byteLength cs)]) := by
  rw [scan, String.toList_ofList, h.scanFrom_eq []]
  rw [Nat.zero_add]
  rfl

end Lexes

/-- The text stands in the source where the span says, from the one byte to the other. -/
def Span.IsAt (s : Span) (source text : String) : Prop :=
  ∃ before after, source = before ++ text ++ after ∧ byteLength before.toList = s.start ∧
    byteLength (before ++ text).toList = s.stop

/-- **Tokens are where they say**: some tokens in a row have a text of their own in the source, from
    where the first begins to where the last ends, and are the tokens of that text wherever it
    stands, at the end as well as before a closing parenthesis. -/
theorem exists_text_of_scan {source : String} {pre us post : List Token} {last : Token} {s : Span}
    (h : scan source false = .ok (pre ++ us ++ post ++ [last])) (hs : s.Covers us) :
    ∃ text : String, s.IsAt source text ∧ ∀ tail vs, ClosesText tail → Lexes s.stop tail vs →
      Lexes s.start (text.toList ++ tail) (us ++ vs) := by
  obtain ⟨ts, hlex, htokens⟩ := lexes_of_scanFrom h
  obtain rfl : pre ++ us ++ post = ts := List.append_inj_left' htokens rfl
  have hus : us ≠ [] := by
    rintro rfl
    cases hs.1
  rw [List.append_assoc] at hlex
  obtain ⟨skipped, rest, hsource, hlex⟩ := hlex.drop
  obtain ⟨u, us, rfl⟩ := List.exists_cons_of_ne_nil hus
  obtain ⟨blanks, rest, rfl, hstart, hlex⟩ := hlex.start
  obtain ⟨text, after, rfl, -, hstop, hcut⟩ := hlex.cut hus
  have hu : u.span.start = s.start := Option.some.inj hs.1
  rw [hs.2, Option.some.injEq] at hstop
  rw [hu] at hstart hstop hcut
  have hbefore : byteLength (skipped ++ blanks) = s.start := by
    rw [byteLength_append, hstart, Nat.zero_add]
  refine ⟨.ofList text, ⟨.ofList (skipped ++ blanks), .ofList after, ?_, ?_, ?_⟩, ?_⟩
  · rw [← String.toList_inj, hsource]
    simp
  · rw [String.toList_ofList, hbefore]
  · rw [String.toList_append, String.toList_ofList, String.toList_ofList, byteLength_append,
      hbefore, hstop]
  · rw [hstop, String.toList_ofList]
    exact hcut

end CurlyScript
