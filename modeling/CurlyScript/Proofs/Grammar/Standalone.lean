import CurlyScript.Proofs.Grammar.Barrier
import CurlyScript.Proofs.Grammar.Linear
import CurlyScript.Proofs.Grammar.Settled
import CurlyScript.Proofs.Token.Slice

/-
  Parts of a text, read by themselves.

  The text at the span of an expression is, in parentheses, a program of its own, and so is the text
  at the span of a statement as it stands: a program of just that statement.  Four things come
  together here:

  * the tokens of the part are those that its span covers (`Linear`);
  * they are what the characters at the span are scanned as (`Slice`);
  * what was read from them is read again where the tokens end or a parenthesis closes (`Settled`);
  * reading commutes with moving all tokens by the same distance (`Edited`).

  A line of an arrow function is not among them.  In `() => { {} }` the line is an object, and by
  itself it is a block.
-/

namespace CurlyScript

/-! ## Moving everything further on -/

/-- Moves every span further on by the same distance. -/
def Rewriting.shift (k : Nat) : Rewriting := ⟨Span.shift k, id, id⟩

namespace Edit

/-- Moves every token further on by the same distance. -/
def shift (k : Nat) : Edit := ⟨(· + k), false, fun _ _ h => Nat.add_le_add_right h k⟩

theorem tokens_shift (k : Nat) (ts : List Token) :
    (shift k).tokens ts = ts.map (Token.shift k) := by
  have hall : ts.filter (shift k).keeps = ts := List.filter_eq_self.mpr fun _ _ => rfl
  rw [tokens, hall]
  rfl

theorem rewriting_shift (k : Nat) : (shift k).rewriting = .shift k := by
  -- every line is kept, so no body is changed
  have hall : ∀ body : List Statement, body.filter (shift k).keepsLine = body := fun body =>
    List.filter_eq_self.mpr fun _ _ => rfl
  have hexpr : Expr.filterLines (shift k).keepsLine = id := by
    funext e
    cases e with
    | arrow s ps body => exact congrArg (Expr.arrow s ps) (hall body)
    | _ => rfl
  have hstatement : Statement.filterLines (shift k).keepsLine = id := by
    funext s
    cases s with
    | function sp n ps body => exact congrArg (Statement.function sp n ps) (hall body)
    | block sp body => exact congrArg (Statement.block sp) (hall body)
    | _ => rfl
  rw [rewriting, Rewriting.filtering, hexpr, hstatement]
  rfl

theorem meets_shift (k : Nat) (ts : List Token) (stop stop' finish : Nat) :
    (shift k).Meets ⟨ts, stop, finish⟩ ⟨ts.map (Token.shift k), stop', finish + k⟩ := by
  refine ⟨?_, ?_⟩
  · rw [tokens_shift, Cursor.rest, Cursor.rest, List.takeWhile_map]
    rfl
  · rw [Cursor.finish, Cursor.finish, List.find?_map]
    have hkind : (fun t : Token => decide (t.kind = .eof)) ∘ Token.shift k =
        fun t : Token => decide (t.kind = .eof) := rfl
    rw [hkind]
    cases ts.find? (fun t : Token => decide (t.kind = .eof)) <;> rfl

section follows

variable {a : Edit} {m n : Nat} {α β : Type} {R : α → β → Prop} {x : Read (Step m α)}
  {y : Read (Step n β)} {v : α} {w : β} {d : Cursor}

theorem Follows.arrives (h : a.Follows R x y) (hx : Arrives v d x) :
    ∃ w e, Arrives w e y ∧ R v w ∧ a.Tracks d e := by
  obtain ⟨hlt, rfl⟩ := hx
  cases y with
  | error e => exact h.elim
  | ok s => exact ⟨s.value, s.rest, ⟨s.lt, rfl⟩, h⟩

theorem Follows.arrives_left (h : a.Follows R x y) (hy : Arrives w d y) :
    ∃ v c, Arrives v c x ∧ R v w ∧ a.Tracks c d := by
  obtain ⟨hlt, rfl⟩ := hy
  cases x with
  | error e => exact h.elim
  | ok s => exact ⟨s.value, s.rest, ⟨s.lt, rfl⟩, h⟩

end follows

end Edit

namespace Grammar

open Edit

variable {k stop finish : Nat} {ts : List Token} {e : Expr} {s : Statement} {d : Cursor}

/-- What is read further on is read here too. -/
theorem ReadsExpression.unshift {stop' : Nat}
    (h : ReadsExpression ⟨ts.map (Token.shift k), stop', finish + k⟩ e d) (stop : Nat) :
    ∃ e₀ d₀, ReadsExpression ⟨ts, stop, finish⟩ e₀ d₀ ∧ e = e₀.rewrite (.shift k) ∧
      d.rest = d₀.rest.map (Token.shift k) := by
  obtain ⟨e₀, d₀, hread, he, hd⟩ := (follows_expression _ _ (rules_follow (shift k) _ _)
    (meets_shift k ts stop stop' finish)).arrives_left h
  rw [rewriting_shift] at he
  exact ⟨e₀, d₀, hread, he, hd.rest.trans (tokens_shift k _)⟩

/-- What is read here is read further on too. -/
theorem ReadsExpression.shift (h : ReadsExpression ⟨ts, stop, finish⟩ e d) (k stop' : Nat) :
    ∃ d', ReadsExpression ⟨ts.map (Token.shift k), stop', finish + k⟩ (e.rewrite (.shift k)) d' ∧
      d'.rest = d.rest.map (Token.shift k) := by
  obtain ⟨e', d', hread, he, hd⟩ := (follows_expression _ _ (rules_follow (Edit.shift k) _ _)
    (meets_shift k ts stop stop' finish)).arrives h
  rw [rewriting_shift] at he
  exact ⟨d', he ▸ hread, hd.rest.trans (tokens_shift k _)⟩

theorem ReadsStatement.unshift {stop' : Nat}
    (h : ReadsStatement ⟨ts.map (Token.shift k), stop', finish + k⟩ s d) (stop : Nat) :
    ∃ s₀ d₀, ReadsStatement ⟨ts, stop, finish⟩ s₀ d₀ ∧ s = s₀.rewrite (.shift k) ∧
      d.rest = d₀.rest.map (Token.shift k) := by
  obtain ⟨s₀, d₀, hread, ⟨hs, -⟩, hd⟩ := (follows_statement _ _ (rules_follow (shift k) _ _)
    (meets_shift k ts stop stop' finish) (.inr rfl)).arrives_left h
  rw [rewriting_shift] at hs
  exact ⟨s₀, d₀, hread, hs, hd.rest.trans (tokens_shift k _)⟩

/-! ## Parentheses around an expression -/

open Cursor

/-- No expression begins with a closing parenthesis. -/
theorem ReadsExpression.kind_ne {c : Cursor} (h : ReadsExpression c e d) :
    c.kind ≠ .punctuation .rParen := by
  intro hkind
  have hprimary : primary c (rules c.size) = .error (c.error .expression) := by
    rw [primary]
    split
    · rfl
    · rename_i t f hf hnext
      have ht : t.kind = .punctuation .rParen := by
        rw [← hkind, kind, ← token_of_next? hnext]
      simp only [ht, literal?]
  have hsign : c.take? TokenKind.update? = none := take?_eq_none_of_kind (by rw [hkind]; rfl)
  obtain ⟨hlt, heq⟩ := h
  rw [expression, binary, unary, hsign, hprimary] at heq
  cases heq

/-- What stands between parentheses alone is a list of one. -/
theorem ReadsExpression.delimited {c : Cursor} {closing : Token} {n : Nat}
    (h : ReadsExpression c e d) (hd : d.rest = [closing])
    (hclose : closing.kind = .punctuation .rParen) (hc : c.size < n) :
    ∃ f, f.rest = [] ∧ f.prevStop = closing.span.stop ∧
      Arrives ([(c.kind, e)], false) f
        (Grammar.delimited .rParen (element (rules n)) false c hc) := by
  have hproper : closing.isComment = false := by
    rw [Token.isComment, hclose]
    rfl
  have hcomma : d.accept? (.punctuation .comma) = none := by
    refine accept?_eq_none_of_kind ?_
    rw [kind, token_cons hd hproper, hclose]
    decide
  obtain ⟨f, ⟨hlt, haccept⟩, hf, hstop⟩ := accept?_of_rest hd hproper hclose
  have hexpect : Arrives closing f (d.expect (.punctuation .rParen)) :=
    ⟨hlt, by rw [expect, haccept]⟩
  refine ⟨f, hf, hstop, ?_⟩
  rw [Grammar.delimited, accept?_eq_none_of_kind h.kind_ne]
  refine (h.arrives n hc).map.bind fun hlt => ?_
  dsimp only
  rw [hcomma]
  exact hexpect.bind fun _ => .ok _

section parentheses

variable {opening : Token}

/-- An opening parenthesis is taken. -/
theorem next?_opening (ts : List Token) (stop finish : Nat)
    (hopen : opening.kind = .punctuation .lParen) :
    Finds opening ⟨ts, opening.span.stop, finish⟩ (⟨opening :: ts, stop, finish⟩ : Cursor).next? ∧
      (⟨opening :: ts, stop, finish⟩ : Cursor).token = opening ∧
      (⟨opening :: ts, stop, finish⟩ : Cursor).comment? = none := by
  have hproper : opening.isComment = false := by
    rw [Token.isComment, hopen]
    rfl
  refine ⟨next?_cons rfl hproper (by rw [hopen]; decide), ?_, comment?_of_proper hproper⟩
  exact congrArg rawToken (skipComments_eq_self (c := ⟨opening :: ts, stop, finish⟩) hproper)

/-- An expression up to a closing parenthesis is an operand together with the parentheses. -/
theorem ReadsExpression.paren (opening closing : Token)
    (hopen : opening.kind = .punctuation .lParen) (hclose : closing.kind = .punctuation .rParen)
    (h : ReadsExpression ⟨ts, opening.span.stop, finish⟩ e d) (hd : d.rest = [closing])
    (hle : opening.span.start ≤ closing.span.stop) (stop : Nat) :
    ∃ f, f.rest = [] ∧ f.prevStop = closing.span.stop ∧
      ReadsUnary ⟨opening :: ts, stop, finish⟩
        (.paren ⟨opening.span.start, closing.span.stop⟩ e) f := by
  obtain ⟨⟨hlt, hnext⟩, htoken, -⟩ := next?_opening ts stop finish hopen
  have hkind : (⟨opening :: ts, stop, finish⟩ : Cursor).kind = .punctuation .lParen := by
    rw [kind, htoken, hopen]
  obtain ⟨f, hf, hstop, hlist⟩ := h.delimited hd hclose hlt
  have hend : f.kind = .eof := kind_of_nil hf
  have hprimary : Arrives (.paren ⟨opening.span.start, closing.span.stop⟩ e) f
      (primary ⟨opening :: ts, stop, finish⟩ (rules _)) := by
    rw [primary, hnext]
    dsimp only
    rw [hopen]
    refine hlist.bind fun _ => ?_
    dsimp only
    rw [accept?_eq_none_of_kind (by rw [hend]; decide)]
    dsimp only
    rw [spanFrom, hstop, Nat.max_eq_left hle]
    exact .ok _
  refine ⟨f, hf, hstop, ?_⟩
  rw [ReadsUnary, unary, take?_eq_none_of_kind (by rw [hkind]; rfl)]
  refine hprimary.bind fun _ => ?_
  dsimp only
  rw [postfixes_stop _ (isPostfix_of_closes (.inl hf))]
  exact .ok _

/-- An operand in parentheses that nothing follows is a statement. -/
theorem ReadsUnary.statement (hopen : opening.kind = .punctuation .lParen)
    (h : ReadsUnary ⟨opening :: ts, stop, finish⟩ e d) (hd : d.rest = [])
    (hle : opening.span.start ≤ d.prevStop) :
    ReadsStatement ⟨opening :: ts, stop, finish⟩ (.expr ⟨opening.span.start, d.prevStop⟩ e) d := by
  obtain ⟨⟨hlt, hnext⟩, htoken, hcomment⟩ := next?_opening ts stop finish hopen
  have hpast : (d.past (.punctuation .semicolon)).1 = d := by
    rw [past, accept?_eq_none_of_kind (by rw [kind_of_nil hd]; decide)]
  rw [ReadsStatement, Statement.statement_eq_expression hcomment hnext (by rw [hopen]; rfl)
    (by rw [hopen]; decide)]
  refine Arrives.bind (h.whole (.inl hd)) fun hlt => ⟨hlt, ?_⟩
  have hspan : d.spanFrom opening.span.start = ⟨opening.span.start, d.prevStop⟩ := by
    rw [spanFrom, Nat.max_eq_left hle]
  have hstart : (⟨opening :: ts, stop, finish⟩ : Cursor).start = opening.span.start := by
    rw [start, htoken]
  simp only [hpast, hstart, hspan]

end parentheses

end Grammar

/-! ## From tokens to texts -/

namespace Program

/-- What is read from tokens without comments is read again from its own tokens. -/
theorem Unrolls.settles {tokens : List Token} {c : Cursor} {p : Program} (h : Unrolls c p)
    (hc : c.On tokens) : ∀ s ∈ p,
      Rereads tokens Grammar.ReadsStatement s ∧ s.Everywhere (Node.Rereads tokens) := by
  induction h with
  | ended _ => exact fun _ hs => absurd hs List.not_mem_nil
  | more hx _ ih =>
    have hs := Grammar.settles_statement _ (Grammar.settled tokens _) hc _ hx
    exact List.forall_mem_cons.mpr
      ⟨⟨hs.again.rereads hc, hs.nodes⟩, ih (hc.of_reaches hs.again.1)⟩

/-- A text whose tokens are one statement is a program of that statement alone. -/
theorem ofSource_eq_singleton {text : List Char} {ts : List Token} {s : Statement} {d : Cursor}
    (hlex : Lexes 0 text ts) (hts : ts ≠ [])
    (h : Grammar.ReadsStatement ⟨ts, 0, byteLength text⟩ s d) (hd : d.rest = []) :
    ofSource (.ofList text) false = .ok [s] := by
  have hscan := hlex.scan_eq
  obtain ⟨before, htokens, hproper, -⟩ := scan_eq_append hscan
  obtain ⟨rfl, -⟩ := List.append_inj' htokens rfl
  -- the cursor before the same tokens, without the end token, is not told apart
  let c : Cursor := ⟨ts, 0, byteLength text⟩
  have hrest : c.rest = ts := Cursor.rest_of_proper (c := c) hproper
  have hcongr : ofTokens (ts ++ [Token.endAt (byteLength text)]) = readFrom [] c := by
    refine readFrom_congr ?_ ?_
    · rw [hrest, Cursor.rest_ofTokens hproper rfl]
    · rw [Cursor.finish_of_proper (c := c) hproper, Cursor.finish_ofTokens hproper rfl]
      rfl
  have hmore : c.atEnd = false := by
    rw [Bool.eq_false_iff, Ne, Cursor.atEnd_iff, hrest]
    exact hts
  refine ofSource_eq_ok_iff.mpr ⟨_, hscan, ?_⟩
  obtain ⟨hlt, heq⟩ := h
  rw [hcongr, readFrom, hmore, if_neg Bool.false_ne_true, heq]
  change readFrom [s] d = _
  rw [readFrom, if_pos (Cursor.atEnd_iff.mpr hd)]
  rfl

end Program

open Grammar

/-- A value that is read again has tokens of its own, and is read wherever they stand before
    something that closes. -/
theorem Rereads.exists_slice {α : Type} {tokens : List Token} {y : Cursor → α → Cursor → Prop}
    {v : α} (h : Rereads tokens y v) : ∃ pre us post stop, tokens = pre ++ us ++ post ∧
      (∀ t ∈ us, t.kind ≠ .eof) ∧ ∀ ts finish, Closes ts → (∀ t ∈ ts, t.kind ≠ .eof) →
        ∃ d, d.rest = ts ∧ y ⟨us ++ ts, stop, finish⟩ v d := by
  obtain ⟨c, d, ⟨pre, hpre⟩, ⟨us, hus⟩, hread⟩ := h
  refine ⟨pre, us, d.rest, c.prevStop, ?_, fun t ht => ?_, fun ts finish hts hproper => ?_⟩
  · rw [← hpre, ← hus, List.append_assoc]
  · exact Cursor.kind_of_mem_rest (hus ▸ List.mem_append_left d.rest ht)
  · let k : Cut := ⟨d.rest, ts, finish, hts⟩
    have hc : k.cursor c = ⟨us ++ ts, c.prevStop, finish⟩ := Cut.cursor_eq hus.symm
    have hd : (k.cursor d).rest = ts := by
      rw [Cut.cursor_eq (show d.rest = [] ++ k.after from rfl)]
      exact Cursor.rest_of_proper (c := ⟨ts, d.prevStop, finish⟩) hproper
    exact ⟨k.cursor d, hd, hc ▸ hread k rfl⟩

/-- Where all tokens are taken and none is a comment, they are one of the writings. -/
theorem Cursor.Passes.mem {c d : Cursor} {l : Language Token} (h : c.Passes l d) (hc : c.Plain)
    (hd : d.rest = []) : c.rest ∈ l := by
  obtain ⟨ts, hts, ⟨raw, hraw, hthin⟩, -⟩ := h
  rw [hd, List.append_nil] at hraw
  rw [hraw, ← hthin.eq fun t ht => hc t (hraw ▸ ht)]
  exact hts

/-- An expression that is read from all tokens stands where they do. -/
theorem Grammar.ReadsExpression.covers {c d : Cursor} {e : Expr} (h : ReadsExpression c e d)
    (hc : c.Plain) (htidy : c.Tidy) (hd : d.rest = []) : e.span.Covers c.rest := by
  obtain ⟨hlt, heq⟩ := h
  have hderived := gives_expression c (rules_derive c.size) htidy _ heq
  exact e.covers c.rest (Cursor.Passes.mem hderived hc hd)

/-- A statement that is read from all tokens stands where they do. -/
theorem Grammar.ReadsStatement.covers {c d : Cursor} {s : Statement} (h : ReadsStatement c s d)
    (hc : c.Plain) (htidy : c.Tidy) (hd : d.rest = []) : s.span.Covers c.rest := by
  obtain ⟨hlt, heq⟩ := h
  have hderived := gives_statement c (rules_derive c.size) htidy _ heq
  exact s.covers c.rest (Cursor.Passes.mem hderived hc hd)

namespace Expr

/-- The text at the span of the expression is, in parentheses, a program of one statement: the
    expression in those parentheses.  Here `e₀` is the expression moved back to the beginning of its
    text, and the opening parenthesis moves it on by one. -/
def StandsAlone (source : String) (e : Expr) : Prop :=
  ∃ text, e.span.IsAt source text ∧ ∃ e₀ : Expr, e₀.rewrite (.shift e.span.start) = e ∧
    Program.ofSource ("(" ++ text ++ ")") false =
      .ok [.expr ⟨0, byteLength text.toList + 2⟩
        (.paren ⟨0, byteLength text.toList + 2⟩ (e₀.rewrite (.shift 1)))]

end Expr

namespace Statement

/-- The text at the span of the statement is a program of one statement: the same one, moved back to
    the beginning of its text. -/
def StandsAlone (source : String) (s : Statement) : Prop :=
  ∃ text, s.span.IsAt source text ∧ ∃ s₀ : Statement, s₀.rewrite (.shift s.span.start) = s ∧
    Program.ofSource text false = .ok [s₀]

end Statement

section texts

variable {source : String} {tokens : List Token} {last : Token}

theorem Span.IsAt.stop_eq {s : Span} {text : String} (h : s.IsAt source text) :
    s.stop = s.start + byteLength text.toList := by
  obtain ⟨before, after, -, hstart, hstop⟩ := h
  rw [← hstop, String.toList_append, byteLength_append, hstart]

/-- What is read again from its own tokens has a text of its own.  Those tokens, moved, are what the
    text is scanned as before anything that closes. -/
theorem Rereads.exists_text {α : Type} {y : Cursor → α → Cursor → Prop} {v : α} {s : Span}
    (h : Rereads tokens y v) (hscan : scan source false = .ok (tokens ++ [last]))
    (hplain : ∀ t ∈ tokens, t.isComment = false) (horder : InOrder tokens)
    (hs : ∀ c d, y c v d → c.Plain → c.Tidy → d.rest = [] → s.Covers c.rest) :
    ∃ text us stop, s.IsAt source text ∧ us ≠ [] ∧
      (∀ tail vs, ClosesText tail → Lexes s.stop tail vs →
        ∃ ws, Lexes 0 (text.toList ++ tail) ws ∧ us ++ vs = ws.map (Token.shift s.start)) ∧
      ∀ ts finish, Closes ts → (∀ t ∈ ts, t.kind ≠ .eof) →
        ∃ d, d.rest = ts ∧ y ⟨us ++ ts, stop, finish⟩ v d := by
  obtain ⟨pre, us, post, stop, rfl, hproper, hread⟩ := h.exists_slice
  have hsub : us.Sublist (pre ++ us ++ post) :=
    (List.sublist_append_right pre us).trans (List.sublist_append_left _ post)
  have hcovers : s.Covers us := by
    obtain ⟨d, hd, hread⟩ := hread [] 0 (.inl rfl) fun _ ht => absurd ht List.not_mem_nil
    rw [List.append_nil] at hread
    have hrest : (⟨us, stop, 0⟩ : Cursor).rest = us := Cursor.rest_of_proper hproper
    have hsub' : (⟨us, stop, 0⟩ : Cursor).rest.Sublist (pre ++ us ++ post) := by rwa [hrest]
    rw [← hrest]
    exact hs _ d hread (fun t ht => hplain t (hsub'.subset ht)) (horder.sublist hsub') hd
  obtain ⟨text, hat, hlex⟩ := exists_text_of_scan hscan hcovers
  refine ⟨text, us, stop, hat, ?_, fun tail vs htail hvs => ?_, hread⟩
  · rintro rfl
    cases hcovers.1
  · have hown := hlex tail vs htail hvs
    rw [← Nat.zero_add s.start] at hown
    exact hown.unshift

/-- A statement that is read again from its own tokens is read from its own text. -/
theorem Rereads.statement {s : Statement} (h : Rereads tokens ReadsStatement s)
    (hscan : scan source false = .ok (tokens ++ [last]))
    (hplain : ∀ t ∈ tokens, t.isComment = false) (horder : InOrder tokens) :
    s.StandsAlone source := by
  obtain ⟨text, us, stop, hat, hus, hlex, hread⟩ :=
    h.exists_text hscan hplain horder fun _ _ hread => hread.covers
  obtain ⟨vs, hvs, hmap⟩ := hlex [] [] (by rintro d ⟨⟩) (.nil _)
  obtain ⟨d, hd, hread⟩ := hread [] (byteLength text.toList + s.span.start) (.inl rfl)
    fun _ ht => absurd ht List.not_mem_nil
  rw [hmap] at hread
  obtain ⟨s₀, d₀, hread₀, hs, hd₀⟩ := hread.unshift 0
  refine ⟨text, hat, s₀, hs.symm, ?_⟩
  have hvs_ne : vs ≠ [] := by
    rintro rfl
    exact hus ((List.append_nil us).symm.trans hmap)
  rw [List.append_nil] at hvs
  have hsource := Program.ofSource_eq_singleton hvs hvs_ne hread₀
    (List.map_eq_nil_iff.mp (hd₀.symm.trans hd))
  rwa [String.ofList_toList] at hsource

/-- An expression up to a closing parenthesis that ends its text is read in parentheses too. -/
theorem ofSource_paren {text : List Char} {ts : List Token} {closing : Token} {e : Expr}
    {d : Cursor} (hlex : Lexes 0 (text ++ [')']) ts)
    (h : ReadsExpression ⟨ts, 0, byteLength text + 1⟩ e d) (hd : d.rest = [closing])
    (hclose : closing.kind = .punctuation .rParen)
    (hstop : closing.span.stop = byteLength text + 1) :
    Program.ofSource (.ofList ('(' :: (text ++ [')']))) false =
      .ok [.expr ⟨0, byteLength text + 2⟩
        (.paren ⟨0, byteLength text + 2⟩ (e.rewrite (.shift 1)))] := by
  obtain ⟨d', hread, hd'⟩ := h.shift 1 1
  rw [hd] at hd'
  have hend : (closing.shift 1).span.stop = byteLength text + 2 := by
    rw [Token.shift, Span.shift, hstop]
  have hlen : byteLength ('(' :: (text ++ [')'])) = byteLength text + 1 + 1 := by
    rw [byteLength_cons, byteLength_append, Nat.add_comm]
    rfl
  rw [← hlen] at hread
  let opening : Token := ⟨.punctuation .lParen, "(", ⟨0, 1⟩⟩
  obtain ⟨f, hf, hstop', hoperand⟩ := ReadsExpression.paren opening (closing.shift 1) rfl
    hclose hread hd' (Nat.zero_le _) 0
  have hstatement := hoperand.statement rfl hf (Nat.zero_le _)
  rw [hstop', hend] at hstatement
  exact Program.ofSource_eq_singleton (hlex.shift (k := 1)).opening (List.cons_ne_nil _ _)
    hstatement hf

/-- An expression that is read again from its own tokens is read from its own text. -/
theorem Rereads.expression {e : Expr} (h : Rereads tokens ReadsExpression e)
    (hscan : scan source false = .ok (tokens ++ [last]))
    (hplain : ∀ t ∈ tokens, t.isComment = false) (horder : InOrder tokens) :
    e.StandsAlone source := by
  obtain ⟨text, us, stop, hat, -, hlex, hread⟩ :=
    h.exists_text hscan hplain horder fun _ _ hread => hread.covers
  obtain ⟨vs, hvs, hmap⟩ := hlex _ _ (by rintro d ⟨⟩; rfl) (.closing e.span.stop)
  obtain ⟨d, hd, hread⟩ := hread _ (byteLength text.toList + 1 + e.span.start)
    (.inr ⟨⟨.punctuation .rParen, ")", ⟨e.span.stop, e.span.stop + 1⟩⟩, [], rfl, rfl⟩)
    (List.forall_mem_singleton.mpr TokenKind.noConfusion)
  rw [hmap] at hread
  obtain ⟨e₀, d₀, hread₀, he, hd₀⟩ := hread.unshift 0
  obtain ⟨closing, hrest, hclosing⟩ := List.map_eq_singleton_iff.mp (hd₀.symm.trans hd)
  have hkind : closing.kind = .punctuation .rParen := congrArg Token.kind hclosing
  have hend : closing.span.stop + e.span.start = e.span.stop + 1 :=
    congrArg (·.span.stop) hclosing
  rw [hat.stop_eq] at hend
  refine ⟨text, hat, e₀, he.symm, ?_⟩
  have hsource := ofSource_paren hvs hread₀ hrest hkind (by omega)
  have htext : "(" ++ text ++ ")" = .ofList ('(' :: (text.toList ++ [')'])) := by
    rw [← String.toList_inj]
    simp
  rwa [htext]

end texts

namespace Program

/-- **Parts of a text stand alone.**  Every expression of a program is, at its new place, what the
    text at its span is in parentheses; and every statement what the text at its span is as it
    stands, unless it is a line of an arrow function. -/
theorem standsAlone_of_ofSource {source : String} {p : Program}
    (h : ofSource source false = .ok p) :
    (∀ e, .expr e ∈ p.nodes → e.StandsAlone source) ∧
      ∀ s, .statement s ∈ p.nodes →
        (∀ sp params body, .arrow sp params body ∈ p.nodes → s ∉ body) → s.StandsAlone source := by
  obtain ⟨tokens, hscan, hread⟩ := ofSource_eq_ok_iff.mp h
  obtain ⟨before, rfl, hproper, hplain⟩ := scan_eq_append hscan
  have hplain := hplain rfl
  have horder : InOrder before := (inOrder_of_scan hscan).sublist (List.sublist_append_left _ _)
  have hc : (Cursor.ofTokens (before ++ [Token.endAt (byteLength source.toList)])).On before := by
    refine ⟨hplain, ?_⟩
    rw [Cursor.rest_ofTokens hproper rfl]
  have hss := (unrolls_of_ofTokens hread).settles hc
  have hnodes : ∀ n ∈ p.nodes, n.Rereads before :=
    Program.everywhere_iff.mpr fun s hs => (hss s hs).2
  refine ⟨fun e he => Rereads.expression (hnodes _ he) hscan hplain horder, ?_⟩
  -- every statement is the program's own, or a line of another node, or one of an arrow function
  have hall : ∀ s, .statement s ∈ p.nodes → Rereads before ReadsStatement s ∨
      ∃ sp params body, .arrow sp params body ∈ p.nodes ∧ s ∈ body := by
    refine Program.forall_statement (fun s hs => .inl (hss s hs).1) fun n hn s hs => ?_
    cases n with
    | arrow sp params body => exact .inr ⟨sp, params, body, hn, hs⟩
    | expr e => exact absurd hs List.not_mem_nil
    | _ => exact .inl (hnodes _ hn s hs)
  intro s hs hline
  rcases hall s hs with hown | ⟨sp, params, body, harrow, hmem⟩
  · exact hown.statement hscan hplain horder
  · exact absurd hmem (hline sp params body harrow)

/-- A text with a chain of signs, operators of two levels, and statements within statements, most of
    them without a semicolon. -/
def nest : String := "a.b[0](c)+d*2 if(e)f=1;else for(;;){return()=>{g}}"

theorem standsAlone_of_ofSource_nest : ∃ p, ofSource nest false = .ok p ∧
    (∀ e, .expr e ∈ p.nodes → e.StandsAlone nest) ∧
      ∀ s, .statement s ∈ p.nodes →
        (∀ sp params body, .arrow sp params body ∈ p.nodes → s ∉ body) → s.StandsAlone nest := by
  have hok : (ofSource nest false).isOk = true := by decide +kernel
  cases hread : ofSource nest false with
  | error e =>
    rw [hread] at hok
    exact Bool.noConfusion hok
  | ok p => exact ⟨p, rfl, standsAlone_of_ofSource hread⟩

end Program

end CurlyScript
