import CurlyScript.Proofs.Token.Munch
import CurlyScript.Proofs.Token.Slice

/-
  Tokens tile the text.

  Around the tokens of a text there is nothing but GAPS: blanks, and whole comments where comments
  are dropped (`Gap`).  So the text is a gap, a lexeme, a gap, a lexeme and so on, with a gap at the
  end, and the span of a token counts the bytes up to its lexeme and up to the end of it (`Tiles`).

  Nothing else is needed to find the tokens in the text (`Tiles.isAt`) and to see that a character
  outside of them is blank (`Tiles.isBlank`).  That the scanner tiles a text is by induction on its
  scan (`Munches.tiles`), in which blanks and dropped comments make the next gap longer.
-/

namespace CurlyScript

/-- What a scan leaves out in front of `rest`: blanks, and comments unless they are kept.  A comment
    is left out as a whole, for it is the longest token where it stands. -/
inductive Gap (keep : Bool) (rest : List Char) : List Char → Prop where
  | nil : Gap keep rest []
  | blank {c : Char} {cs : List Char} : Text.isBlank c = true → Gap keep rest cs →
    Gap keep rest (c :: cs)
  | comment {x cs : List Char} : keep = false → Longest .comment x (x ++ (cs ++ rest)) →
    Gap keep rest cs → Gap keep rest (x ++ cs)

/-- The text that stands at `offset` is the lexemes of the tokens with gaps around them, and the
    spans say where they are. -/
inductive Tiles (keep : Bool) : Nat → List Char → List Token → Prop where
  | done {offset : Nat} {gap : List Char} : Gap keep [] gap → Tiles keep offset gap []
  | token {offset : Nat} {gap rest : List Char} {t : Token} {ts : List Token} :
    Gap keep (t.lexeme.toList ++ rest) gap → t.lexeme ≠ "" →
    t.span = ⟨offset + byteLength gap, offset + byteLength (gap ++ t.lexeme.toList)⟩ →
    Tiles keep t.span.stop rest ts → Tiles keep offset (gap ++ t.lexeme.toList ++ rest) (t :: ts)

/-- Where comments are kept, gaps are blank. -/
theorem Gap.isBlank {rest gap : List Char} (h : Gap true rest gap) :
    ∀ c ∈ gap, Text.isBlank c = true := by
  induction h with
  | nil => exact fun _ hc => absurd hc List.not_mem_nil
  | blank hb _ ih => exact List.forall_mem_cons.mpr ⟨hb, ih⟩
  | comment hkeep => exact Bool.noConfusion hkeep

/-- A character of a text stands in the first part of it or in the second. -/
theorem split_at {c : Char} {x y before after : List Char} (h : x ++ y = before ++ c :: after) :
    (∃ back, x = before ++ c :: back ∧ after = back ++ y) ∨
      ∃ front, before = x ++ front ∧ y = front ++ c :: after := by
  rcases List.append_eq_append_iff.mp h with ⟨front, hfront, hy⟩ | ⟨back, hx, hback⟩
  · exact .inr ⟨front, hfront, hy⟩
  · cases back with
    | nil => exact .inr ⟨[], by rw [hx, List.append_nil, List.append_nil], hback.symm⟩
    | cons d back =>
      obtain ⟨rfl, hafter⟩ := List.cons.inj hback
      exact .inl ⟨back, hx, hafter⟩

namespace Tiles

variable {keep : Bool} {offset : Nat} {cs : List Char} {ts : List Token}

/-- What may stand in front of any gap makes the first gap longer. -/
theorem skip {skipped : List Char} (h : Tiles keep (offset + byteLength skipped) cs ts)
    (hskip : ∀ gap rest, cs = gap ++ rest → Gap keep rest gap → Gap keep rest (skipped ++ gap)) :
    Tiles keep offset (skipped ++ cs) ts := by
  cases h with
  | done hgap => exact .done (hskip cs [] (List.append_nil cs).symm hgap)
  | @token _ gap rest t ts hgap hne hspan hrest =>
    have hgap' := hskip gap _ (List.append_assoc _ _ _) hgap
    rw [← List.append_assoc, ← List.append_assoc]
    refine .token hgap' hne ?_ hrest
    simp only [hspan, List.append_assoc, byteLength_append, Nat.add_assoc]

theorem blank {c : Char} (hb : Text.isBlank c = true)
    (h : Tiles keep (offset + c.utf8Size) cs ts) : Tiles keep offset (c :: cs) ts := by
  have hskipped : Tiles keep (offset + byteLength [c]) cs ts := h
  exact hskipped.skip fun _ _ _ hgap => .blank hb hgap

theorem comment {x : List Char} (hkeep : keep = false) (hx : Longest .comment x (x ++ cs))
    (h : Tiles keep (offset + byteLength x) cs ts) : Tiles keep offset (x ++ cs) ts := by
  refine h.skip fun gap rest hcs hgap => .comment hkeep ?_ hgap
  rw [← hcs]
  exact hx

/-- A token that has no gap in front of it. -/
theorem here {x rest : List Char} {kind : TokenKind} (hx : x ≠ [])
    (h : Tiles keep (offset + byteLength x) rest ts) : Tiles keep offset (x ++ rest)
      (⟨kind, String.ofList x, ⟨offset, offset + byteLength x⟩⟩ :: ts) := by
  have htoken := @Tiles.token keep offset [] rest
    ⟨kind, String.ofList x, ⟨offset, offset + byteLength x⟩⟩ ts .nil ?_ ?_ h
  · rwa [List.nil_append, String.toList_ofList] at htoken
  · intro hempty
    have hlexeme : String.ofList x = "" := hempty
    apply hx
    rw [← String.toList_ofList (l := x), hlexeme]
    rfl
  · rw [List.nil_append, String.toList_ofList]
    rfl

/-- Tokens are where they say. -/
theorem isAt (h : Tiles keep offset cs ts) : ∀ t ∈ ts, ∃ before after,
    cs = before ++ t.lexeme.toList ++ after ∧ offset + byteLength before = t.span.start ∧
      offset + byteLength (before ++ t.lexeme.toList) = t.span.stop := by
  induction h with
  | done => exact fun _ ht => absurd ht List.not_mem_nil
  | @token offset gap rest t ts _ _ hspan _ ih =>
    intro u hu
    rcases List.mem_cons.mp hu with rfl | hu
    · exact ⟨gap, rest, rfl, by rw [hspan], by rw [hspan]⟩
    · obtain ⟨before, after, rfl, hstart, hstop⟩ := ih u hu
      have hfront : offset + byteLength (gap ++ t.lexeme.toList) = t.span.stop := by rw [hspan]
      refine ⟨gap ++ t.lexeme.toList ++ before, after, by simp, ?_, ?_⟩
      · rw [byteLength_append, ← Nat.add_assoc, hfront, hstart]
      · rw [List.append_assoc _ before, byteLength_append, ← Nat.add_assoc, hfront, hstop]

/-- Where comments are kept, a character outside the tokens is blank. -/
theorem isBlank (h : Tiles true offset cs ts) : ∀ {before after : List Char} {c : Char},
    cs = before ++ c :: after →
    (∀ t ∈ ts, ¬ (t.span.start ≤ offset + byteLength before ∧
      offset + byteLength before < t.span.stop)) → Text.isBlank c = true := by
  induction h with
  | done hgap =>
    rintro before after c rfl -
    exact hgap.isBlank c (List.mem_append_right before List.mem_cons_self)
  | @token offset gap rest t ts hgap _ hspan _ ih =>
    intro before after c hcs houtside
    obtain ⟨hout, houtside⟩ := List.forall_mem_cons.mp houtside
    have hstop : offset + byteLength (gap ++ t.lexeme.toList) = t.span.stop := by rw [hspan]
    rcases split_at hcs with ⟨back, hback, -⟩ | ⟨front, rfl, hrest⟩
    · rcases split_at hback with ⟨back, rfl, -⟩ | ⟨front, rfl, hlexeme⟩
      · exact hgap.isBlank c (List.mem_append_right before List.mem_cons_self)
      · -- in the lexeme it would be in the token
        exfalso
        apply hout
        have hsize := Char.utf8Size_pos c
        rw [hspan, hlexeme]
        simp only [byteLength_append, byteLength_cons]
        omega
    · refine ih hrest fun u hu => ?_
      rw [← hstop, Nat.add_assoc, ← byteLength_append]
      exact houtside u hu

end Tiles

/-! ## The tokens of a text -/

/-- The tokens that are kept of a scan tile what was scanned. -/
theorem Munches.tiles {offset : Nat} {cs : List Char} {result : Except LexicalError (List Token)}
    (h : Munches offset cs result) (keep : Bool) : ∀ tokens, result = .ok tokens →
    ∃ ts, tokens = ts ++ [Token.endAt (offset + byteLength cs)] ∧
      Tiles keep offset cs (ts.filter fun t => keep || t.isProper) := by
  induction h with
  | nil offset =>
    intro tokens hok
    exact ⟨[], (Except.ok.inj hok).symm, .done .nil⟩
  | @blank offset c cs _ hb _ ih =>
    intro tokens hok
    obtain ⟨ts, rfl, htiles⟩ := ih tokens hok
    refine ⟨ts, ?_, htiles.blank hb⟩
    rw [byteLength_cons, Nat.add_assoc]
  | fault =>
    intro tokens hok
    cases hok
  | @token offset c x more kind result hb hno hlongest _ ih =>
    intro tokens hok
    cases result with
    | error e => cases hok
    | ok us =>
      obtain ⟨ts, rfl, htiles⟩ := ih us rfl
      let token : Token := ⟨kind, String.ofList (c :: x), ⟨offset, offset + byteLength (c :: x)⟩⟩
      have htokens : token :: (ts ++ [Token.endAt (offset + byteLength (c :: x) +
          byteLength more)]) = tokens := Except.ok.inj hok
      refine ⟨token :: ts, ?_, ?_⟩
      · rw [← htokens, byteLength_append, ← Nat.add_assoc]
        rfl
      · rw [List.filter_cons]
        split
        · exact htiles.here (List.cons_ne_nil c x)
        · -- what is dropped is a comment, and a whole one
          rename_i hdropped
          obtain ⟨hkeep, hkind⟩ : keep = false ∧ kind = .comment := by
            simpa [Token.isProper, Token.isComment] using hdropped
          exact htiles.comment hkeep (hkind ▸ hlongest)

/-- Dropped or kept, comments are scanned. -/
theorem exists_munches_of_scan {source : String} {keep : Bool} {tokens : List Token}
    (h : scan source keep = .ok tokens) : ∃ raw, Munches 0 source.toList (.ok raw) ∧
      tokens = raw.filter fun t => keep || t.isProper := by
  have hmunches := munches_scan source
  cases keep with
  | true =>
    rw [h] at hmunches
    exact ⟨tokens, hmunches, (List.filter_eq_self.mpr fun _ _ => rfl).symm⟩
  | false =>
    rw [scan_false] at h
    cases hraw : scan source true with
    | error e =>
      rw [hraw] at h
      cases h
    | ok raw =>
      rw [hraw] at h hmunches
      exact ⟨raw, hmunches, (Except.ok.inj h).symm⟩

/-- **Tokens tile the text.**  The end token is the last, at the length of the text, and the only
    one of its class.  In front of it the text is lexemes with gaps around them, which are blank, or
    blanks and whole comments where comments are dropped.  Each token has a lexeme, stands between
    two characters where its span says, and ends before the next begins; and where comments are
    kept, all that is in no token is blank. -/
theorem tiles_of_scan {source : String} {keep : Bool} {tokens : List Token}
    (h : scan source keep = .ok tokens) : ∃ ts,
      tokens = ts ++ [Token.endAt (byteLength source.toList)] ∧
      Tiles keep 0 source.toList ts ∧
      (∀ t ∈ ts, t.kind ≠ .eof ∧ t.span.start < t.span.stop ∧ t.span.IsAt source t.lexeme) ∧
      tokens.Pairwise (·.span.stop ≤ ·.span.start) ∧
      (keep = true → ∀ before c after, source.toList = before ++ c :: after →
        (∀ t ∈ ts, ¬ (t.span.start ≤ byteLength before ∧ byteLength before < t.span.stop)) →
        Text.isBlank c = true) := by
  obtain ⟨raw, hmunches, hraw⟩ := exists_munches_of_scan h
  obtain ⟨ts, rfl, htiles⟩ := hmunches.tiles keep raw rfl
  obtain ⟨before, htokens, hproper, -⟩ := scan_eq_append h
  -- the end token is no comment, so it is kept
  have hlast : tokens = ts.filter (fun t => keep || t.isProper) ++
      [Token.endAt (byteLength source.toList)] := by
    rw [hraw, List.filter_append, Nat.zero_add]
    cases keep <;> rfl
  rw [← List.append_inj_left' (htokens.symm.trans hlast) rfl] at htiles
  refine ⟨before, htokens, htiles, fun t ht => ⟨hproper t ht, ?_, ?_⟩, (inOrder_of_scan h).2, ?_⟩
  · refine start_lt_stop_of_scan h t ?_ (hproper t ht)
    rw [htokens]
    exact List.mem_append_left _ ht
  · obtain ⟨front, after, hsource, hstart, hstop⟩ := htiles.isAt t ht
    rw [Nat.zero_add] at hstart hstop
    refine ⟨.ofList front, .ofList after, ?_, ?_, ?_⟩
    · rw [← String.toList_inj, hsource]
      simp
    · rw [String.toList_ofList, hstart]
    · rw [String.toList_append, String.toList_ofList, hstop]
  · rintro rfl front c after hsource houtside
    refine htiles.isBlank hsource ?_
    rw [Nat.zero_add]
    exact houtside

/-- A text with characters of two bytes in a comment and in a string, and a blank at the end. -/
def accented : String := "/*é*/ x= 'ä' "

/-- The tokens of that text, the comment kept. -/
def accentedTokens : List Token :=
  [⟨.comment, "/*é*/", ⟨0, 6⟩⟩, ⟨.ident, "x", ⟨7, 8⟩⟩, ⟨.operator .eq, "=", ⟨8, 9⟩⟩,
   ⟨.string, "'ä'", ⟨10, 14⟩⟩, Token.endAt 15]

theorem tiles_of_scan_accented : scan accented true = .ok accentedTokens ∧ ∃ ts,
    accentedTokens = ts ++ [Token.endAt (byteLength accented.toList)] ∧
    Tiles true 0 accented.toList ts ∧
    (∀ t ∈ ts, t.kind ≠ .eof ∧ t.span.start < t.span.stop ∧ t.span.IsAt accented t.lexeme) ∧
    accentedTokens.Pairwise (·.span.stop ≤ ·.span.start) ∧
    (true = true → ∀ before c after, accented.toList = before ++ c :: after →
      (∀ t ∈ ts, ¬ (t.span.start ≤ byteLength before ∧ byteLength before < t.span.stop)) →
      Text.isBlank c = true) := by
  have hscan : scan accented true = .ok accentedTokens := by decide +kernel
  exact ⟨hscan, tiles_of_scan hscan⟩

end CurlyScript
