import CurlyScript.Proofs.Grammar.Edited
import CurlyScript.Proofs.Token.Munch
import CurlyScript.Proofs.Token.Stream

/-
  Spacing is irrelevant.

  The tokens of a text may be written out again with other blanks before, between and after them
  (`Respaced`): at least one blank between two tokens, and after a comment of one line the end of
  its line first.  That is all that blanks are good for.

  1. **Tokens** — before a blank every token is read as a whole, since no class goes on with one
     (`IsToken.lexeme_eq`).  So the new text has the same terminals (`Spaced.scans`).

  2. **Programs** — tokens that are the same but for their places become the same tokens once all
     places are forgotten.  To forget them is an edit (`Edit.placeless`), and reading commutes with
     edits, so both readings agree with one and the same third (`ofTokens_endAlike`).
-/

namespace CurlyScript

/-! ## Other blanks -/

/-- Blanks that may come after a token. -/
structure Token.Allows (t : Token) (gap : List Char) : Prop where
  blank : ∀ c ∈ gap, Text.isBlank c = true
  /-- A comment of one line goes on to the end of its line. -/
  line : t.kind = .comment → ['/', '/'] <+: t.lexeme.toList → ∀ c ∈ gap.head?, c = '\n'

/-- The tokens one after the other, with blanks between them and perhaps after the last. -/
inductive Spaced : List Token → List Char → Prop where
  | nil : Spaced [] []
  | last {t : Token} {gap : List Char} : t.Allows gap → Spaced [t] (t.lexeme.toList ++ gap)
  | cons {t u : Token} {ts : List Token} {gap cs : List Char} : t.Allows gap → gap ≠ [] →
    Spaced (u :: ts) cs → Spaced (t :: u :: ts) (t.lexeme.toList ++ (gap ++ cs))

/-- The text is the tokens with blanks before, between and after them. -/
def Respaced (tokens : List Token) (text : String) : Prop :=
  ∃ before cs, (∀ c ∈ before, Text.isBlank c = true) ∧ Spaced tokens cs ∧ text.toList = before ++ cs

/-- A token begins with no blank. -/
theorem IsToken.isBlank_head {kind : TokenKind} {c : Char} {cs : List Char}
    (h : IsToken kind (c :: cs)) : Text.isBlank c = false := by
  cases h.looks with
  | word hw =>
    rw [isWord, Bool.and_eq_true] at hw
    exact isBlank_eq_false_of_isWordPart (isWordPart_of_isWordStart hw.1)
  | numeral hn =>
    exact isBlank_eq_false_of_isWordPart (isWordPart_of_isDigit (isDigit_of_isNumeral hn))
  | quoted hq =>
    rw [isQuoted, Bool.and_eq_true, Bool.or_eq_true, beq_iff_eq, beq_iff_eq] at hq
    rcases hq.1 with rfl | rfl <;> decide
  | line _ => decide
  | block _ => decide
  | sign hs => exact (Sign.head_spelling hs).2.2.2

/-- Only a comment of one line begins with two slashes. -/
theorem IsToken.comment_of_slashes {kind : TokenKind} {x : List Char} (h : IsToken kind x)
    (hx : ['/', '/'] <+: x) : kind = .comment := by
  obtain ⟨more, rfl⟩ := hx
  rw [List.cons_append] at h
  cases h.looks with
  | word hw =>
    rw [isWord, Bool.and_eq_true] at hw
    exact absurd hw.1 (by decide)
  | numeral hn => exact absurd (isDigit_of_isNumeral hn) (by decide)
  | quoted hq =>
    rw [isQuoted, Bool.and_eq_true] at hq
    exact absurd hq.1 (by decide)
  | line _ => rfl
  | sign hs =>
    rcases Sign.spelling_slash hs with ⟨-, he⟩ | ⟨-, he⟩
    · cases he
    · exact absurd (List.cons.inj he).1 (by decide)

/-- One token, blanks that it allows, and what was scanned after them. -/
theorem Scans.spaced {t : Token} {gap rest : List Char} {ts : List Terminal}
    (ht : t.terminal.isSpelled = true) (hgap : t.Allows gap) (hrest : gap = [] → rest = [])
    (h : Scans rest ts) : Scans (t.lexeme.toList ++ (gap ++ rest)) (t.terminal :: ts) := by
  have htoken : IsToken t.kind t.lexeme.toList := by
    refine isToken_of_isSpelled ?_
    rw [String.ofList_toList]
    exact ht
  have hhead : ∀ d ∈ (gap ++ rest).head?, d ∈ gap.head? := by
    intro d hd
    cases gap with
    | nil => rw [hrest rfl] at hd; cases hd
    | cons g gap => exact hd
  cases hx : t.lexeme.toList with
  | nil => exact absurd (hx ▸ htoken) IsToken.ne_nil
  | cons c ys =>
    rw [hx] at htoken
    have hl : lexeme c (ys ++ (gap ++ rest)) = .ok (t.kind, ys.length) := by
      refine htoken.lexeme_eq (fun d hd => ?_) (fun hslashes d hd => ?_)
      · exact hgap.blank d (List.mem_of_head? (hhead d hd))
      · exact hgap.line (htoken.comment_of_slashes hslashes) (hx ▸ hslashes) d (hhead d hd)
    have hs := Scans.cons htoken.isBlank_head hl (.blanks hgap.blank h)
    rw [← hx, String.ofList_toList] at hs
    exact hx ▸ hs

/-- The tokens are scanned again. -/
theorem Spaced.scans {ts : List Token} {cs : List Char} (h : Spaced ts cs)
    (hts : ∀ t ∈ ts, t.terminal.isSpelled = true) : Scans cs (ts.map Token.terminal) := by
  induction h with
  | nil => exact .nil
  | @last t gap hgap =>
    have hs := Scans.spaced (hts t List.mem_cons_self) hgap (fun _ => rfl) .nil
    rw [List.append_nil] at hs
    exact hs
  | @cons t u ts gap cs hgap hne _ ih =>
    exact .spaced (hts t List.mem_cons_self) hgap (fun he => absurd he hne)
      (ih fun v hv => hts v (List.mem_cons_of_mem t hv))

/-- **The same tokens are scanned**, whatever the blanks. -/
theorem scan_respaced {source source' : String} {tokens : List Token} {last : Token}
    (h : scan source true = .ok (tokens ++ [last])) (hs : Respaced tokens source') :
    ∃ tokens', scan source' true = .ok (tokens' ++ [Token.endAt (byteLength source'.toList)]) ∧
      tokens'.map Token.terminal = tokens.map Token.terminal ∧
      last = Token.endAt (byteLength source.toList) := by
  obtain ⟨terminals, before, hscans, htokens, hmap⟩ := scans_of_scan h
  obtain ⟨rfl, hlast⟩ := List.append_inj' htokens rfl
  -- all terminals are kept, and they are spelled as their classes demand
  have hkept : ∀ ts : List Terminal, ts.filter (Terminal.isKept true) = ts := fun ts =>
    List.filter_eq_self.mpr fun _ _ => rfl
  rw [hkept] at hmap
  have hspelled : ∀ t ∈ tokens, t.terminal.isSpelled = true := by
    intro t ht
    refine hscans.isSpelled _ ?_
    rw [← hmap]
    exact List.mem_map_of_mem ht
  obtain ⟨blanks, cs, hblanks, hspaced, htext⟩ := hs
  have hscans' : Scans source'.toList (tokens.map Token.terminal) := by
    rw [htext]
    exact .blanks hblanks (hspaced.scans hspelled)
  obtain ⟨tokens', hscan, hmap'⟩ := scan_eq_ok hscans' true
  rw [hkept] at hmap'
  exact ⟨tokens', hscan, hmap', List.cons.inj hlast |>.1⟩

/-! ## Programs but for their places -/

/-- All offsets become one. -/
def Edit.placeless : Edit := ⟨fun _ => 0, false, fun _ _ _ => Nat.le_refl 0⟩

namespace Edit

theorem rewriting_placeless : placeless.rewriting = .unspanned := by
  have hexpr : Expr.filterLines placeless.keepsLine = id := by
    funext e
    cases e with
    | arrow s params body =>
      exact congrArg (Expr.arrow s params) (List.filter_eq_self.mpr fun _ _ => rfl)
    | _ => rfl
  have hstatement : Statement.filterLines placeless.keepsLine = id := by
    funext s
    cases s with
    | function s name params body =>
      exact congrArg (Statement.function s name params) (List.filter_eq_self.mpr fun _ _ => rfl)
    | block s body => exact congrArg (Statement.block s) (List.filter_eq_self.mpr fun _ _ => rfl)
    | _ => rfl
  rw [rewriting, Rewriting.filtering, hexpr, hstatement]
  rfl

theorem statements_placeless (p : Program) : placeless.statements p = p.rewrite .unspanned := by
  rw [statements, rewriting_placeless]
  exact List.filter_eq_self.mpr fun _ _ => rfl

/-- Without their places tokens are their terminals. -/
theorem tokens_placeless (ts : List Token) : placeless.tokens ts =
    (ts.map Token.terminal).map fun t => ⟨t.kind, t.text, .none⟩ := by
  have hall : ts.filter placeless.keeps = ts := List.filter_eq_self.mpr fun _ _ => rfl
  rw [tokens, hall, List.map_map]
  rfl

end Edit

namespace Program

/-- Two readings end alike: with programs that are the same but for their places, or with the same
    token where the same was expected. -/
def EndAlike : Except ReadError Program → Except ReadError Program → Prop
  | .ok p, .ok p' => p'.rewrite .unspanned = p.rewrite .unspanned
  | .error (.syntactic e), .error (.syntactic e') =>
    e'.expected = e.expected ∧ e'.actual = e.actual
  | _, _ => False

/-- Two readings that agree with a third but for the places end alike. -/
theorem EndAlike.of_agrees {x y third : Except SyntaxError Program}
    (hx : Edit.placeless.Agrees (fun p q => q = Edit.placeless.statements p) x third)
    (hy : Edit.placeless.Agrees (fun p q => q = Edit.placeless.statements p) y third) :
    EndAlike (x.mapError .syntactic) (y.mapError .syntactic) := by
  cases third with
  | ok q =>
    cases x with
    | error e => exact hx.elim
    | ok p =>
      cases y with
      | error e' => exact hy.elim
      | ok p' =>
        have hp : q = Edit.placeless.statements p := hx
        have hp' : q = Edit.placeless.statements p' := hy
        show p'.rewrite .unspanned = p.rewrite .unspanned
        rw [← Edit.statements_placeless, ← Edit.statements_placeless, ← hp, ← hp']
  | error g =>
    cases x with
    | ok p => exact hx.elim
    | error e =>
      cases y with
      | ok p' => exact hy.elim
      | error e' =>
        have he : Edit.placeless.error e' = Edit.placeless.error e := Eq.trans hy.symm hx
        obtain ⟨hexpected, hactual, -⟩ := SyntaxError.mk.inj he
        exact ⟨hexpected, hactual⟩

/-- Tokens that are the same but for their places are read alike. -/
theorem ofTokens_endAlike {ts us : List Token} (hts : ∀ t ∈ ts, t.kind ≠ .eof)
    (hus : ∀ t ∈ us, t.kind ≠ .eof) (h : us.map Token.terminal = ts.map Token.terminal)
    (stop stop' : Nat) :
    EndAlike ((ofTokens (ts ++ [Token.endAt stop])).mapError .syntactic)
      ((ofTokens (us ++ [Token.endAt stop'])).mapError .syntactic) := by
  have ht := ofTokens_edited (a := .placeless) hts stop
  have hu := ofTokens_edited (a := .placeless) hus stop'
  -- without places there is one list of tokens
  have hsame : Edit.placeless.tokens (us ++ [Token.endAt stop']) =
      Edit.placeless.tokens (ts ++ [Token.endAt stop]) := by
    rw [Edit.tokens_placeless, Edit.tokens_placeless]
    refine congrArg (List.map _) ?_
    rw [List.map_append, List.map_append, h]
    rfl
  rw [hsame] at hu
  exact .of_agrees ht hu

/-- **Spacing is irrelevant.**  The tokens of a text written out again with other blanks are scanned
    as the same tokens at other places, and read as the same program at other places, or with the
    same token where the same was expected. -/
theorem ofSource_respaced {source source' : String} {tokens : List Token} {last : Token}
    (h : scan source true = .ok (tokens ++ [last])) (hs : Respaced tokens source') :
    ∃ tokens' last', scan source' true = .ok (tokens' ++ [last']) ∧
      (tokens' ++ [last']).map Token.terminal = (tokens ++ [last]).map Token.terminal ∧
      EndAlike (ofSource source true) (ofSource source' true) := by
  obtain ⟨tokens', h', hmap, rfl⟩ := scan_respaced h hs
  refine ⟨tokens', _, h', ?_, ?_⟩
  · rw [List.map_append, List.map_append, hmap]
    rfl
  · -- the end token is the only one of its class, in both texts
    obtain ⟨before, hbefore, hproper, -⟩ := scan_eq_append h
    obtain ⟨before', hbefore', hproper', -⟩ := scan_eq_append h'
    obtain rfl := List.append_cancel_right hbefore
    obtain rfl := List.append_cancel_right hbefore'
    rw [ofSource_eq_mapError h, ofSource_eq_mapError h']
    exact ofTokens_endAlike hproper hproper' hmap _ _

/-- The tokens of `a=1//b`. -/
def tight : List Token :=
  [⟨.ident, "a", ⟨0, 1⟩⟩, ⟨.operator .eq, "=", ⟨1, 2⟩⟩, ⟨.number, "1", ⟨2, 3⟩⟩,
    ⟨.comment, "//b", ⟨3, 6⟩⟩]

/-- The same tokens on lines of their own, most of them. -/
theorem respaced_tight : Respaced tight " a\t=\n1 \n//b\n " := by
  have hblank : ∀ gap : List Char, gap.all Text.isBlank = true →
      ∀ c ∈ gap, Text.isBlank c = true := fun _ h => List.all_eq_true.mp h
  have hallows : ∀ (t : Token) (gap : List Char), t.kind ≠ .comment →
      gap.all Text.isBlank = true → t.Allows gap := fun t gap hk hb =>
    ⟨hblank gap hb, fun h => absurd h hk⟩
  have hcomment : Token.Allows ⟨.comment, "//b", ⟨3, 6⟩⟩ ['\n', ' '] :=
    ⟨hblank _ rfl, fun _ _ c hc => (Option.some.inj hc).symm⟩
  have hspaced : Spaced tight _ :=
    .cons (hallows _ ['\t'] (by decide) rfl) (by decide)
      (.cons (hallows _ ['\n'] (by decide) rfl) (by decide)
        (.cons (hallows _ [' ', '\n'] (by decide) rfl) (by decide)
          (.last hcomment)))
  exact ⟨[' '], _, hblank _ rfl, hspaced, by decide⟩

theorem ofSource_respaced_tight :
    (∃ last, scan "a=1//b" true = .ok (tight ++ [last])) ∧
      Respaced tight " a\t=\n1 \n//b\n " ∧
      ∃ tokens' last', scan " a\t=\n1 \n//b\n " true = .ok (tokens' ++ [last']) ∧
        EndAlike (ofSource "a=1//b" true) (ofSource " a\t=\n1 \n//b\n " true) := by
  have hscan : scan "a=1//b" true = .ok (tight ++ [Token.endAt 6]) := by decide +kernel
  obtain ⟨tokens', last', hscan', -, halike⟩ := ofSource_respaced hscan respaced_tight
  exact ⟨⟨_, hscan⟩, respaced_tight, tokens', last', hscan', halike⟩

end Program

end CurlyScript
