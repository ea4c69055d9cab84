import CurlyScript.Proofs.Grammar.Statement

/-
  Reading programs back.

  A text whose terminals are those of a plain program is read as that program, in other places.
-/

namespace CurlyScript

open Terminal Grammar

namespace Program

/-- Where a terminal is to come, the tokens have not come to an end. -/
theorem atEnd_eq_false {c : Cursor} {t : Terminal} {ts : List Terminal}
    (h : c.terminals = t :: ts) : c.atEnd = false := by
  rw [Bool.eq_false_iff, Ne, Cursor.atEnd_iff]
  intro hr
  rw [Cursor.terminals, hr] at h
  cases h

/-- A plain program is read from its terminals, statement by statement. -/
theorem readFrom_eq_ok {p : Program} (hp : p.Everywhere Node.IsPlain) :
    ∀ (done : List Statement) (c : Cursor), c.terminals = p.terminals →
      ∃ p' : Program, readFrom done c = .ok (done.reverse ++ p') ∧
        p'.rewrite .unspanned = p.rewrite .unspanned := by
  -- for every list of statements read so far, since the parser keeps those in reverse
  induction p with
  | nil =>
    intro done c hc
    have hr : c.rest = [] := List.map_eq_nil_iff.mp hc
    refine ⟨[], ?_, rfl⟩
    rw [readFrom, if_pos (Cursor.atEnd_iff.mpr hr), List.append_nil]
  | cons s p ih =>
    intro done c hc
    have hall := Program.everywhere_iff.mp hp
    have hs := (readable_tree.all.2.2 s (hall s List.mem_cons_self)).reads
    have hrest := ih (Program.everywhere_iff.mpr fun t ht => hall t (List.mem_cons_of_mem s ht))
    have hc' : c.terminals = s.terminals ++ Program.terminals p := hc
    -- the rest of the program begins with no `else`
    have helse : nextKind (Program.terminals p ++ []) ≠ .keyword .else_ :=
      nextKind_statements_ne_else (by decide) p
    rw [List.append_nil] at helse
    obtain ⟨⟨v, d, hd⟩, hread, hv, hm⟩ :=
      hs (c.size + 1) c (Nat.lt_succ_self _) _ hc' fun _ => helse
    have hstmt : Grammar.statement c (rules c.size) = .ok ⟨v, d, hd⟩ := hread
    obtain ⟨p', hp', hpv⟩ := hrest (v :: done) d hm
    obtain ⟨t, ts, hts, -, -, -⟩ := s.terminals_eq_cons
    have hne : c.atEnd = false := by
      rw [hts] at hc'
      exact atEnd_eq_false hc'
    refine ⟨v :: p', ?_, congrArg₂ List.cons hv hpv⟩
    rw [readFrom, hne, if_neg Bool.false_ne_true, hstmt]
    simp only [ok_bind, hp', List.reverse_cons, List.append_assoc, List.cons_append,
      List.nil_append]

/-- The cursor at the start of a list of tokens has them all before it, but for the end. -/
theorem terminals_ofTokens {tokens : List Token} (h : ∀ t ∈ tokens, t.kind ≠ .eof) (offset : Nat) :
    (Cursor.ofTokens (tokens ++ [Token.endAt offset])).terminals = tokens.map Token.terminal := by
  rw [Cursor.terminals, Cursor.rest_ofTokens h rfl]

/-- Before a text with such terminals there is a cursor that has them all before it. -/
theorem exists_cursor {source : String} {ts : List Terminal} (hs : Scans source.toList ts)
    (keep : Bool) : ∃ tokens, scan source keep = .ok tokens ∧
      (Cursor.ofTokens tokens).terminals = ts.filter (Terminal.isKept keep) := by
  obtain ⟨tokens, hscan, hmap⟩ := scan_eq_ok hs keep
  -- the scanner alone makes the token for the end, so it comes last and only there
  have hkind : ∀ t ∈ tokens, t.kind ≠ .eof := by
    intro t ht heof
    have hmem : t.terminal ∈ ts.filter (Terminal.isKept keep) := by
      rw [← hmap]
      exact List.mem_map_of_mem ht
    have hspelled := hs.isSpelled _ (List.mem_filter.mp hmem).1
    obtain ⟨kind, lexeme, span⟩ := t
    obtain rfl : kind = .eof := heof
    exact Bool.noConfusion hspelled
  exact ⟨_, hscan, (terminals_ofTokens hkind (byteLength source.toList)).trans hmap⟩

/-- **A plain program is read from any text with its terminals.** -/
theorem ofSource_eq_ok {source : String} {keep : Bool} {ts : List Terminal} {p : Program}
    (hs : Scans source.toList ts) (hts : ts.filter (Terminal.isKept keep) = p.terminals)
    (hp : p.Everywhere Node.IsPlain) :
    ∃ p', ofSource source keep = .ok p' ∧ p'.rewrite .unspanned = p.rewrite .unspanned := by
  obtain ⟨tokens, hscan, hc⟩ := exists_cursor hs keep
  obtain ⟨p', hread, hsame⟩ := readFrom_eq_ok hp [] _ (hc.trans hts)
  exact ⟨p', ofSource_eq_ok_iff.mpr ⟨_, hscan, hread⟩, hsame⟩

/-- A plain expression that begins with no object is read from its terminals as a statement, for
    the semicolon may be left out. -/
theorem ofSource_eq_ok_expr {source : String} {e : Expr} (hs : Scans source.toList e.terminals)
    (he : e.Everywhere Node.IsPlain) (hfirst : e.first.kind ≠ .punctuation .lBrace) :
    ∃ sp e', ofSource source true = .ok [.expr sp e'] ∧
      e'.rewrite .unspanned = e.rewrite .unspanned := by
  obtain ⟨tokens, hscan, hc⟩ := exists_cursor hs true
  have hall : e.terminals.filter (Terminal.isKept true) = e.terminals :=
    List.filter_eq_self.mpr fun _ _ => rfl
  rw [hall] at hc
  generalize hcursor : Cursor.ofTokens tokens = c at hc
  obtain ⟨us, hus⟩ := e.terminals_eq_first
  have hcons : c.terminals = e.first :: us := hc.trans hus
  obtain ⟨spk, d, hd, hn, -⟩ := Cursor.next?_eq hcons e.first_isComment
  obtain ⟨⟨v, f, hf⟩, hread, hv, hm⟩ := (readable_tree.all.1 e he).reads (c.size + 1) c
    (Nat.lt_succ_self _) [] (by rw [hc, List.append_nil]) rfl
  have hvalue : expression c (rules c.size) = .ok ⟨v, f, hf⟩ := hread
  -- nothing is left after the expression, so there is no semicolon to go past
  have hpast : f.past (.punctuation .semicolon) = ⟨f, Nat.le_refl _⟩ := by
    rw [Cursor.past, Cursor.accept?_eq_none (by rw [hm]; exact TokenKind.noConfusion)]
  have hrest : f.rest = [] := List.map_eq_nil_iff.mp hm
  have hstatement : Grammar.statement c (rules c.size) =
      .ok ⟨.expr (f.spanFrom c.start) v, f, hf⟩ := by
    rw [Statement.statement_eq_expression (Cursor.comment?_eq_none hcons e.first_isComment) hn
      e.first_beginsExpression hfirst, expressionStatement, hvalue]
    simp only [ok_bind, hpast]
  refine ⟨f.spanFrom c.start, v, ofSource_eq_ok_iff.mpr ⟨tokens, hscan, ?_⟩, hv⟩
  rw [ofTokens, hcursor, readFrom, atEnd_eq_false hcons, if_neg Bool.false_ne_true,
    hstatement]
  simp only [ok_bind]
  rw [readFrom, if_pos (Cursor.atEnd_iff.mpr hrest)]
  rfl

end Program

end CurlyScript
