import CurlyScript.Proofs.Grammar.Barrier
import CurlyScript.Proofs.Grammar.Derivation
import CurlyScript.Proofs.Token.Fault
import Mathlib.Control.Monad.Basic

/-
  What an error says.

  The rules give up in some twenty places, but in five WAYS (`SyntaxError.Arises`).  Three of them
  are about the next token, and say that it is not what the grammar could have gone on with.  The
  other two are about an expression that was read as a whole before it was rejected, for what stands
  left of an assignment or in place of a parameter is found out only then; they name its first
  token.  So an error that asks for a name where one stands is about a parameter that only BEGINS
  with a name.

  1. **Readings** — `Blames tokens c x`: if the reading `x` from `c` fails, the error arises in one
     of these ways.  A reading goes on from where another came to, so `bind` rests on `Forward`.

  2. **Rules** — one lemma for each rule, and the knot is tied by induction on the number of tokens
     (`rules_blame`).

  3. **Programs** — statement after statement (`Program.arises_of_readFrom`), and then what each way
     says of the token that is named (`Program.ofSource_error`).  The tokens with which an
     expression or a statement can begin are those with which their writings do
     (`Expr.beginsWith`, `Statement.beginsWith`).

  4. **Offsets** — in whichever way an error arises, the class and the offset that it names are
     those of one token; a fault of the scanner is at the end of what was scanned
     (`Program.ofSource_error_offset`).
-/

namespace CurlyScript

/-! ## The ways in which errors arise -/

/-- The cursor is somewhere in the tokens of a text, and the end is still to come. -/
structure Cursor.Among (tokens : List Token) (c : Cursor) : Prop where
  part : c.tokens <:+ tokens
  ended : ∃ t ∈ c.tokens, t.kind = .eof
  inOrder : InOrder tokens
  spelled : c.Spelled

namespace Cursor.Among

variable {tokens : List Token} {c d : Cursor}

theorem rest (hc : c.Among tokens) : c.rest <:+: tokens :=
  (List.takeWhile_prefix _).isInfix.trans hc.part.isInfix

theorem tidy (hc : c.Among tokens) : c.Tidy := hc.inOrder.sublist hc.rest.sublist

/-- No end token was taken on the way, so it is still to come. -/
theorem of_reaches (hc : c.Among tokens) (h : c.Reaches d) : d.Among tokens := by
  obtain ⟨taken, hsplit, htaken⟩ := h.taken
  obtain ⟨t, ht, heof⟩ := hc.ended
  refine ⟨List.IsSuffix.trans ⟨taken, hsplit.symm⟩ hc.part, ⟨t, ?_, heof⟩, hc.inOrder,
    fun t ht => hc.spelled t (h.rest.subset ht)⟩
  rw [hsplit] at ht
  exact (List.mem_append.mp ht).resolve_left fun hmem => htaken t hmem heof

/-- The next token proper is one of the tokens. -/
theorem token_mem (hc : c.Among tokens) : c.token ∈ tokens := by
  have hskip := hc.of_reaches (.skipComments c)
  obtain ⟨t, ht, -⟩ := hskip.ended
  rw [Cursor.token, Cursor.rawToken]
  cases hr : c.skipComments.tokens with
  | nil =>
    rw [hr] at ht
    exact absurd ht List.not_mem_nil
  | cons u us =>
    refine hskip.part.subset ?_
    rw [hr]
    exact List.mem_cons_self

end Cursor.Among

theorem Cursor.mem_of_next? {c : Cursor} {s : Step c.size Token} (h : c.next? = some s) :
    s.value ∈ c.rest := by
  obtain ⟨⟨raw, hraw, hthin⟩, -⟩ := Takes.next? h
  rw [hraw]
  exact List.mem_append_left _ (hthin.1.subset (List.mem_singleton_self s.value))

theorem Cursor.kind_ne_comment_of_next? {c : Cursor} {s : Step c.size Token}
    (h : c.next? = some s) : s.value.kind ≠ .comment := by
  obtain ⟨a, ha, rfl⟩ := Option.map_eq_some_iff.mp h
  intro hk
  refine Option.filter_eq_none_iff.mp c.comment?_skipComments a ha ?_
  rw [Token.isComment, beq_iff_eq]
  exact hk

/-- Among the tokens stands an expression that begins with `t`, and an arrow somewhere after it. -/
def Expr.BeforeArrow (tokens : List Token) (x : Expr) (t : Token) : Prop :=
  ∃ before raw ts after, tokens = before ++ raw ++ after ∧ Thinned raw (t :: ts) ∧
    t :: ts ∈ x.writings ∧ ∃ arrow ∈ after, arrow.kind = .punctuation .fatArrow

theorem Cursor.Passes.beforeArrow {tokens : List Token} {c d : Cursor} {x : Expr} {arrow : Token}
    (h : c.Passes x.writings d) (hc : c.Among tokens) (hmem : arrow ∈ d.rest)
    (harrow : arrow.kind = .punctuation .fatArrow) : x.BeforeArrow tokens c.token := by
  obtain ⟨-, ts, hts, hhead, htakes⟩ := h.opens hc.tidy x.begins
  obtain ⟨us, rfl⟩ := List.head?_eq_some_iff.mp hhead
  obtain ⟨raw, hraw, hthin⟩ := htakes.rest
  obtain ⟨before, after, htokens⟩ := hc.rest
  refine ⟨before, raw, us, d.rest ++ after, ?_, hthin, hts, arrow, ?_, harrow⟩
  · rw [← htokens, hraw]
    simp only [List.append_assoc]
  · exact List.mem_append_left after hmem

/-- How an error arises from tokens. -/
inductive SyntaxError.Arises (tokens : List Token) : SyntaxError → Prop where
  /-- The next token is not the one that was asked for. -/
  | token {c : Cursor} {k : TokenKind} : c.Among tokens → c.kind ≠ k →
    Arises tokens (c.error (.token k))
  /-- No expression begins with the next token. -/
  | expression {c : Cursor} : c.Among tokens → c.kind.beginsExpression = false →
    Arises tokens (c.error .expression)
  /-- No statement begins with the next token. -/
  | statement {c : Cursor} : c.Among tokens → c.kind.beginsStatement = false →
    Arises tokens (c.error .statement)
  /-- What was read from a cursor on cannot be stored into. -/
  | target {c : Cursor} : c.Among tokens → Arises tokens (c.error .target)
  /-- What was read in place of a parameter is no name. -/
  | parameter {x : Expr} {t : Token} : x.BeforeArrow tokens t → (∀ sp s, x ≠ .ident sp s) →
    Arises tokens ⟨.token .ident, t.kind, t.span.start⟩

namespace SyntaxError.Arises

variable {tokens : List Token} {e : SyntaxError}

/-- An error that asks for a token where one stands is about a parameter. -/
theorem exists_beforeArrow {k : TokenKind} (h : e.Arises tokens) (hk : e.expected = .token k)
    (hactual : e.actual = k) : k = .ident ∧ ∃ x t, Expr.BeforeArrow tokens x t ∧
      (∀ sp s, x ≠ .ident sp s) ∧ t.kind = .ident ∧ e.offset = t.span.start := by
  cases h with
  | token _ hne =>
    cases hk
    exact absurd hactual hne
  | parameter hbefore hname =>
    cases hk
    exact ⟨rfl, _, _, hbefore, hname, hactual, rfl⟩
  | _ => cases hk

theorem beginsExpression (h : e.Arises tokens) (he : e.expected = .expression) :
    e.actual.beginsExpression = false := by
  cases h with
  | expression _ hnot => exact hnot
  | _ => cases he

theorem beginsStatement (h : e.Arises tokens) (he : e.expected = .statement) :
    e.actual.beginsStatement = false := by
  cases h with
  | statement _ hnot => exact hnot
  | _ => cases he

/-- Whatever an error names is one of the tokens. -/
theorem exists_token (h : e.Arises tokens) :
    ∃ t ∈ tokens, t.kind = e.actual ∧ t.span.start = e.offset := by
  cases h with
  | token hc _ => exact ⟨_, hc.token_mem, rfl, rfl⟩
  | expression hc _ => exact ⟨_, hc.token_mem, rfl, rfl⟩
  | statement hc _ => exact ⟨_, hc.token_mem, rfl, rfl⟩
  | target hc => exact ⟨_, hc.token_mem, rfl, rfl⟩
  | parameter hbefore _ =>
    obtain ⟨before, raw, ts, after, rfl, hthin, -, -⟩ := hbefore
    have hmem := hthin.1.subset List.mem_cons_self
    exact ⟨_, List.mem_append_left after (List.mem_append_right before hmem), rfl, rfl⟩

end SyntaxError.Arises

/-! ## Readings -/

/-- If the reading from the cursor fails, the error arises in one of these ways. -/
def Blames {α : Type} (tokens : List Token) (c : Cursor) (x : Except SyntaxError α) : Prop :=
  c.Among tokens → ∀ e, x = .error e → e.Arises tokens

namespace Blames

variable {m n : Nat} {α β γ : Type} {tokens : List Token} {c d : Cursor} {k : TokenKind}

theorem ok (v : α) : Blames tokens c (.ok v) := fun _ _ h => nomatch h

theorem error {e : SyntaxError} (h : c.Among tokens → e.Arises tokens) :
    Blames (α := α) tokens c (.error e) := by
  intro hc e' he
  rw [← Except.error.inj he]
  exact h hc

/-- Reading goes on from a cursor that was reached. -/
theorem after {x : Except SyntaxError α} (h : c.Reaches d) (hx : Blames tokens d x) :
    Blames tokens c x :=
  fun hc => hx (hc.of_reaches h)

/-- One reading after another, if the first goes forward.  The second may rest on what the first
    gives. -/
theorem bind {p : α → Cursor → Prop} {x : Read (Step m α)} {f : Step m α → Except SyntaxError β}
    (hx : Blames tokens c x) (hforward : Forward c x) (hgives : c.Among tokens → Gives p x)
    (hf : ∀ v d hd, p v d → Blames tokens d (f ⟨v, d, hd⟩)) : Blames tokens c (x >>= f) := by
  intro hc e he
  cases x with
  | error e' => exact hx hc e (congrArg Except.error (Except.error.inj he))
  | ok a => exact hf a.value a.rest a.lt (hgives hc a rfl) (hc.of_reaches (hforward a rfl)) e he

/-- One reading after another, if the first goes forward. -/
theorem step {x : Read (Step m α)} {f : Step m α → Except SyntaxError β} (hx : Blames tokens c x)
    (hforward : Forward c x) (hf : ∀ v d hd, Blames tokens d (f ⟨v, d, hd⟩)) :
    Blames tokens c (x >>= f) :=
  hx.bind (p := fun _ _ => True) hforward (fun _ _ _ => trivial) fun v d hd _ => hf v d hd

/-- A reading after a check that takes no token. -/
theorem check {x : Except SyntaxError γ} {f : γ → Except SyntaxError β} (hx : Blames tokens c x)
    (hf : ∀ v, Blames tokens c (f v)) : Blames tokens c (x >>= f) := by
  intro hc e he
  cases x with
  | error e' => exact hx hc e (congrArg Except.error (Except.error.inj he))
  | ok v => exact hf v hc e he

theorem map {x : Except SyntaxError α} {f : α → β} (hx : Blames tokens c x) :
    Blames tokens c (x.map f) := by
  intro hc e he
  cases x with
  | error e' => exact hx hc e (congrArg Except.error (Except.error.inj he))
  | ok v => cases he

theorem expect (c : Cursor) (hk : k ≠ .eof) : Blames tokens c (c.expect k) := by
  rw [Cursor.expect]
  split
  · exact ok _
  · rename_i hnone
    exact error fun hc => .token hc (Cursor.kind_ne_of_accept?_eq_none hnone hk)

theorem punctuation (c : Cursor) (p : Punctuation) :
    Blames tokens c (c.expect (.punctuation p)) :=
  expect c fun h => TokenKind.noConfusion h

end Blames

/-! ## Rules -/

/-- The errors of the rules arise in these ways. -/
structure Rules.Blames {n : Nat} (tokens : List Token) (r : Rules n) : Prop where
  forward : r.Forward
  derives : r.Derives
  expression : ∀ c h, CurlyScript.Blames tokens c (r.expression c h)
  binary : ∀ p c h, CurlyScript.Blames tokens c (r.binary p c h)
  unary : ∀ c h, CurlyScript.Blames tokens c (r.unary c h)
  statement : ∀ c h, CurlyScript.Blames tokens c (r.statement c h)

theorem Rules.Blames.restrict {m n : Nat} {tokens : List Token} {r : Rules n}
    (hr : r.Blames tokens) (h : m ≤ n) : (r.restrict h).Blames tokens where
  forward := hr.forward.restrict h
  derives := hr.derives.restrict h
  expression c hc := hr.expression c (Nat.lt_of_lt_of_le hc h)
  binary p c hc := hr.binary p c (Nat.lt_of_lt_of_le hc h)
  unary c hc := hr.unary c (Nat.lt_of_lt_of_le hc h)
  statement c hc := hr.statement c (Nat.lt_of_lt_of_le hc h)

namespace Grammar

variable {n : Nat} {α : Type} {tokens : List Token} {r : Rules n}

theorem blames_name (c : Cursor) : Blames tokens c (name c) :=
  (Blames.expect c (by decide)).map

theorem blames_delimited (close : Punctuation)
    {item : (c : Cursor) → c.size < n → Read (Step c.size α)}
    (hforward : ∀ c h, Forward c (item c h)) (hitem : ∀ c h, Blames tokens c (item c h))
    (comma : Bool) (c : Cursor) (h : c.size < n) :
    Blames tokens c (delimited close item comma c h) := by
  -- on the tokens left: every item takes some
  induction hk : c.size using Nat.strongRecOn generalizing c comma with
  | ind k ih =>
    rw [delimited]
    split
    · exact .ok _
    · refine (hitem c h).step (hforward c h) fun x d hd => ?_
      dsimp only
      split
      · exact (Blames.punctuation d close).step (.expect d _) fun _ e he => .ok _
      · rename_i t e he hcomma
        refine .after (.accept? hcomma) ?_
        exact (ih e.size (by omega) true e _ rfl).step
          (forward_delimited close hforward true e _) fun _ f hf => .ok _

theorem blames_untilBrace {item : (c : Cursor) → c.size < n → Read (Step c.size α)}
    (hforward : ∀ c h, Forward c (item c h)) (hitem : ∀ c h, Blames tokens c (item c h))
    (c : Cursor) (h : c.size < n) : Blames tokens c (untilBrace item c h) := by
  induction hk : c.size using Nat.strongRecOn generalizing c with
  | ind k ih =>
    rw [untilBrace]
    split
    · exact (Blames.punctuation c .rBrace).step (.expect c _) fun _ d hd => .ok _
    · refine (hitem c h).step (hforward c h) fun x d hd => ?_
      exact (ih d.size (by omega) d _ rfl).step (forward_untilBrace hforward d _)
        fun _ e he => .ok _

/-! ### Expressions -/

/-- A token of the class stands at the offset. -/
def StandsAt (tokens : List Token) (first : TokenKind) (start : Nat) : Prop :=
  ∃ c : Cursor, c.Among tokens ∧ c.kind = first ∧ c.start = start

/-- An expression begins with the token that reading was before. -/
theorem gives_standsAt {m : Nat} {c : Cursor} {x : Read (Step m Expr)} (hc : c.Among tokens)
    (hx : Gives (fun e d => c.Passes e.writings d) x) :
    Gives (fun e _ => StandsAt tokens c.kind e.span.start) x :=
  hx.mono fun _ _ he => ⟨c, hc, rfl, (he.start_eq hc.tidy).symm⟩

theorem blames_checkTarget (c : Cursor) {e : Expr} {first : TokenKind}
    (he : StandsAt tokens first e.span.start) : Blames tokens c (checkTarget e first) := by
  obtain ⟨d, hd, rfl, hstart⟩ := he
  cases e with
  | ident | member | index => exact .ok _
  | _ => exact .error fun _ => hstart ▸ .target hd

theorem blames_property (hr : r.Blames tokens) (c : Cursor) (h : c.size < n) :
    Blames tokens c (property r c h) := by
  refine (blames_name c).step (forward_name c) fun key d hd => ?_
  refine (Blames.punctuation d .colon).step (.expect d _) fun _ e he => ?_
  exact (hr.expression e _).step (hr.forward.expression e _) fun value f hf => .ok _

theorem blames_element (hr : r.Blames tokens) (c : Cursor) (h : c.size < n) :
    Blames tokens c (element r c h) :=
  (hr.expression c h).map

theorem blames_arrowStatement (hr : r.Blames tokens) (c : Cursor) (h : c.size < n) :
    Blames tokens c (arrowStatement r c h) := by
  rw [arrowStatement]
  split
  · exact hr.statement c h
  · exact (hr.expression c h).step (hr.forward.expression c h) fun e d hd => .ok _

/-- Every item of a list was read, and the list goes on after it. -/
theorem gives_delimited_items (close : Punctuation) {p : α → Cursor → Prop}
    {item : (c : Cursor) → c.size < n → Read (Step c.size α)}
    (hforward : ∀ c h, Forward c (item c h))
    (hitem : ∀ c h, c.Among tokens → Gives p (item c h)) (comma : Bool) (c : Cursor)
    (h : c.size < n) (hc : c.Among tokens) :
    Gives (fun l d => ∀ x ∈ l.1, ∃ e, p x e ∧ e.Reaches d) (delimited close item comma c h) := by
  induction hk : c.size using Nat.strongRecOn generalizing c comma with
  | ind k ih =>
    rw [delimited]
    split
    · exact .ok (fun _ hx => absurd hx List.not_mem_nil) _
    · refine ((hitem c h hc).and (hforward c h)).bind fun x d hd hx => ?_
      dsimp only
      split
      · refine Gives.bind (Forward.expect d (.punctuation close)) fun _ e he hclose => ?_
        exact .ok (List.forall_mem_singleton.mpr ⟨d, hx.1, hclose⟩) _
      · rename_i t e he hcomma
        have hstep : d.Reaches e := .accept? hcomma
        have hce := (hc.of_reaches hx.2).of_reaches hstep
        refine ((ih e.size (by omega) true e _ hce rfl).and
          (forward_delimited close hforward true e _)).bind ?_
        rintro ⟨xs, last⟩ f hf ⟨hxs, hreach⟩
        exact .ok (List.forall_mem_cons.mpr ⟨⟨d, hx.1, hstep.trans hreach⟩, hxs⟩) _

/-- An element that is no name, and the error that says so. -/
theorem eq_of_parameter_eq_error {p : TokenKind × Expr} {e : SyntaxError}
    (h : parameter p = .error e) :
    (∀ sp s, p.2 ≠ .ident sp s) ∧ e = ⟨.token .ident, p.1, p.2.span.start⟩ := by
  obtain ⟨first, x⟩ := p
  cases x with
  | ident sp s => cases h
  | _ => exact ⟨fun _ _ hx => Expr.noConfusion hx, (Except.error.inj h).symm⟩

theorem exists_of_mapM_eq_error {β γ ε : Type} {f : β → Except ε γ} {xs : List β} {e : ε}
    (h : xs.mapM f = .error e) : ∃ x ∈ xs, f x = .error e := by
  induction xs with
  | nil => cases h
  | cons x xs ih =>
    rw [List.mapM_cons] at h
    cases hx : f x with
    | error e' =>
      rw [hx] at h
      exact ⟨x, List.mem_cons_self, hx.trans (congrArg Except.error (Except.error.inj h))⟩
    | ok y =>
      rw [hx] at h
      cases hxs : xs.mapM f with
      | error e' =>
        rw [hxs] at h
        obtain ⟨z, hz, hfail⟩ := ih (hxs.trans (congrArg Except.error (Except.error.inj h)))
        exact ⟨z, List.mem_cons_of_mem x hz, hfail⟩
      | ok ys =>
        rw [hxs] at h
        cases h

/-- An element of a list in parentheses, up to a cursor: where it begins, and its class there. -/
def IsElement (tokens : List Token) (p : TokenKind × Expr) (d : Cursor) : Prop :=
  ∃ c : Cursor, c.Among tokens ∧ c.kind = p.1 ∧ c.Passes p.2.writings d

theorem gives_element_isElement (hr : r.Blames tokens) (c : Cursor) (h : c.size < n)
    (hc : c.Among tokens) : Gives (IsElement tokens) (element r c h) :=
  (hr.derives.expression c h hc.tidy).map fun _ _ hx => ⟨c, hc, rfl, hx⟩

theorem blames_groupOrArrow (hr : r.Blames tokens) (start : Nat) (c : Cursor) (h : c.size < n) :
    Blames tokens c (groupOrArrow r start c h) := by
  have hforward := forward_element hr.forward
  refine (blames_delimited .rParen hforward (blames_element hr) false c h).bind
    (forward_delimited .rParen hforward false c h)
    (gives_delimited_items .rParen hforward (gives_element_isElement hr) false c h) ?_
  rintro ⟨elements, comma⟩ d hd helements
  dsimp only
  split
  · rename_i t e he harrow
    have hstep : d.Reaches e := .accept? harrow
    refine .check ?_ fun params => .after hstep ?_
    · intro hc err herr
      obtain ⟨p, hp, hfail⟩ := exists_of_mapM_eq_error herr
      obtain ⟨hname, rfl⟩ := eq_of_parameter_eq_error hfail
      obtain ⟨f, ⟨c', hc', hkind, hpassed⟩, hreach⟩ := helements p hp
      rw [Cursor.accept?, Option.filter_eq_some_iff] at harrow
      have hmem : t ∈ f.rest := hreach.rest.subset (Cursor.mem_of_next? harrow.1)
      rw [← hkind, hpassed.start_eq hc'.tidy]
      exact .parameter (hpassed.beforeArrow hc' hmem (of_decide_eq_true harrow.2)) hname
    · refine (Blames.punctuation e .lBrace).step (.expect e _) fun _ f hf => ?_
      have hline := forward_arrowStatement hr.forward
      exact (blames_untilBrace hline (blames_arrowStatement hr) f _).step
        (forward_untilBrace hline f _) fun body g hg => .ok _
  · rename_i hnone
    split
    · exact .ok _
    · exact .error fun hc => .token hc (Cursor.kind_ne_of_accept?_eq_none hnone (by decide))

/-- What is neither an operand nor a sign before one begins no expression. -/
theorem beginsExpression_eq_false {t : Token} (hs : t.terminal.isSpelled = true)
    (hliteral : literal? t = none) (hupdate : t.kind.update? = none) (hident : t.kind ≠ .ident)
    (hparen : t.kind ≠ .punctuation .lParen) (hbracket : t.kind ≠ .punctuation .lBracket)
    (hbrace : t.kind ≠ .punctuation .lBrace) : t.kind.beginsExpression = false := by
  obtain ⟨kind, lexeme, span⟩ := t
  cases kind with
  | ident => exact absurd rfl hident
  | number =>
    have hn : isNumeral lexeme.toList = true := hs
    obtain ⟨x, hx, -⟩ := Number.ofText?_isCount hn
    rw [String.ofList_toList] at hx
    have hsome : literal? ⟨.number, lexeme, span⟩ = some (.number x) :=
      congrArg (Option.map Literal.number) hx
    rw [hsome] at hliteral
    cases hliteral
  | string => cases hliteral
  | keyword k => cases k <;> first | rfl | cases hliteral
  | punctuation p =>
    cases p <;> first | rfl | exact absurd rfl hparen | exact absurd rfl hbracket |
      exact absurd rfl hbrace
  | operator o =>
    show o.update?.isSome = false
    rw [show o.update? = none from hupdate]
    rfl
  | comment => rfl
  | eof => rfl

theorem blames_primary (c : Cursor) {r : Rules c.size} (hr : r.Blames tokens)
    (hupdate : c.kind.update? = none) : Blames tokens c (primary c r) := by
  rw [primary]
  split
  · rename_i hnext
    refine .error fun hc => .expression hc ?_
    rw [Cursor.kind_of_next?_eq_none hnext]
    rfl
  · rename_i t d hd hnext
    have hkind : c.kind = t.kind := congrArg Token.kind (Cursor.token_of_next? hnext).symm
    split
    · exact .ok _
    · exact .after (.next? hnext) (blames_groupOrArrow hr _ d hd)
    · refine .after (.next? hnext) ?_
      exact (blames_delimited .rBracket hr.forward.expression hr.expression false d hd).step
        (forward_delimited .rBracket hr.forward.expression false d hd) fun _ e he => .ok _
    · refine .after (.next? hnext) ?_
      have hforward := forward_property hr.forward
      exact (blames_delimited .rBrace hforward (blames_property hr) false d hd).step
        (forward_delimited .rBrace hforward false d hd) fun _ e he => .ok _
    · rename_i hident hparen hbracket hbrace
      split
      · exact .ok _
      · rename_i hliteral
        refine .error fun hc => .expression hc ?_
        rw [hkind] at hupdate ⊢
        exact beginsExpression_eq_false (hc.spelled.next? hnext).1 hliteral hupdate hident hparen
          hbracket hbrace

/-- What the signs are put after begins where the whole expression does. -/
theorem blames_postfixes (hr : r.Blames tokens) {first : TokenKind} {start : Nat}
    (hfirst : StandsAt tokens first start) (e : Expr) (hstart : e.span.start = start)
    (c : Cursor) (h : c.size < n) : Blames tokens c (postfixes r first start e c h) := by
  -- on the tokens left: every sign takes one
  induction hk : c.size using Nat.strongRecOn generalizing c e with
  | ind k ih =>
    rw [postfixes]
    split
    · exact .ok _
    · rename_i t d hd hnext
      split
      · refine .after (.next? hnext) ?_
        have hargs := hr.restrict (Nat.le_of_lt h)
        refine (blames_delimited .rParen hargs.forward.expression hargs.expression false d hd).step
          (forward_delimited .rParen hargs.forward.expression false d hd) fun args f hf => ?_
        exact ih f.size (by omega) _ rfl f _ rfl
      · refine .after (.next? hnext) ?_
        refine (blames_name d).step (forward_name d) fun property f hf => ?_
        have hlt : f.size < d.size := hf
        exact ih f.size (by omega) _ rfl f _ rfl
      · refine .after (.next? hnext) ?_
        refine (hr.expression d _).step (hr.forward.expression d _) fun key f hf => ?_
        refine (Blames.punctuation f .rBracket).step (.expect f _) fun _ g hg => ?_
        exact ih g.size (by omega) _ rfl g _ rfl
      · split
        · refine .check (blames_checkTarget c (hstart ▸ hfirst)) fun _ => ?_
          exact .after (.next? hnext) (ih d.size (by omega) _ rfl d _ rfl)
        · exact .ok _

theorem blames_unary (c : Cursor) {r : Rules c.size} (hr : r.Blames tokens) :
    Blames tokens c (unary c r) := by
  rw [unary]
  split
  · rename_i op d hd hop
    refine .after (.take? hop) ?_
    refine (hr.unary d _).bind (hr.forward.unary d _)
      (fun hd => gives_standsAt hd (hr.derives.unary d _ hd.tidy)) fun argument e he hfirst => ?_
    exact .check (blames_checkTarget e hfirst) fun _ => .ok _
  · rename_i hnone
    have hupdate := Cursor.eq_none_of_take?_eq_none hnone rfl
    refine (blames_primary c hr hupdate).bind (forward_primary c hr.forward)
      (fun hc => gives_standsAt hc (gives_primary c hr.derives hc.tidy)) fun e d hd hfirst => ?_
    exact blames_postfixes hr hfirst e rfl d hd

theorem blames_operands (hr : r.Blames tokens) (least : Nat) (left : Expr) (c : Cursor)
    (h : c.size < n) : Blames tokens c (operands r least left c h) := by
  induction hk : c.size using Nat.strongRecOn generalizing c left with
  | ind k ih =>
    rw [operands]
    split
    · exact .ok _
    · rename_i op d hd hop
      refine .after (.take? hop) ?_
      refine (hr.binary _ d _).step (hr.forward.binary _ d _) fun right e he => ?_
      exact ih e.size (by omega) _ e _ rfl

theorem blames_binary (least : Nat) (c : Cursor) {r : Rules c.size} (hr : r.Blames tokens) :
    Blames tokens c (binary least c r) := by
  refine (blames_unary c hr).step (forward_unary c hr.forward) fun left d hd => ?_
  exact blames_operands hr least left d hd

theorem blames_expression (c : Cursor) {r : Rules c.size} (hr : r.Blames tokens) :
    Blames tokens c (expression c r) := by
  refine (blames_binary 0 c hr).bind (forward_binary 0 c hr.forward)
    (fun hc => gives_standsAt hc (gives_binary c hr.derives hc.tidy)) fun target d hd hfirst => ?_
  dsimp only
  split
  · exact .ok _
  · rename_i op e he hop
    refine .check (blames_checkTarget d hfirst) fun _ => .after (.take? hop) ?_
    exact (hr.expression e _).step (hr.forward.expression e _) fun value f hf => .ok _

/-! ### Statements -/

theorem blames_nested (hr : r.Blames tokens) (c : Cursor) (h : c.size < n) :
    Blames tokens c (nested r c h) := by
  refine .after (.skipComments c) ?_
  exact (hr.statement c.skipComments _).step (hr.forward.statement c.skipComments _)
    fun s d hd => .ok _

theorem blames_declared (hr : r.Blames tokens) (c : Cursor) (h : c.size < n) :
    Blames tokens c (declared r c h) := by
  refine (blames_name c).step (forward_name c) fun s d hd => ?_
  dsimp only
  split
  · exact .ok _
  · rename_i t e he heq
    refine .after (.accept? heq) ?_
    exact (hr.expression e _).step (hr.forward.expression e _) fun init f hf => .ok _

theorem blames_clause (stop : Punctuation) (hr : r.Blames tokens) (c : Cursor) (h : c.size < n) :
    Blames tokens c (clause stop r c h) := by
  rw [clause]
  split
  · exact .ok _
  · exact (hr.expression c h).step (hr.forward.expression c h) fun e d hd => .ok _

theorem blames_loopInit (hr : r.Blames tokens) (c : Cursor) (h : c.size < n) :
    Blames tokens c (loopInit r c h) := by
  rw [loopInit]
  split
  · rename_i kind d hd hkind
    refine .after (.take? hkind) ?_
    exact (blames_declared hr d _).step (forward_declared hr.forward d _) fun _ e he => .ok _
  · exact (blames_clause .semicolon hr c h).map

theorem blames_function (hr : r.Blames tokens) (start : Nat) (c : Cursor) (h : c.size < n) :
    Blames tokens c (function r start c h) := by
  refine (blames_name c).step (forward_name c) fun s d hd => ?_
  refine (Blames.punctuation d .lParen).step (.expect d _) fun _ e he => ?_
  refine (blames_delimited .rParen (fun c _ => forward_name c) (fun c _ => blames_name c) false e
    _).step (forward_delimited .rParen (fun c _ => forward_name c) false e _) fun params f hf => ?_
  refine (Blames.punctuation f .lBrace).step (.expect f _) fun _ g hg => ?_
  exact (blames_untilBrace hr.forward.statement hr.statement g _).step
    (forward_untilBrace hr.forward.statement g _) fun body i hi => .ok _

theorem blames_conditional (hr : r.Blames tokens) (start : Nat) (c : Cursor) (h : c.size < n) :
    Blames tokens c (conditional r start c h) := by
  refine (Blames.punctuation c .lParen).step (.expect c _) fun _ d hd => ?_
  refine (hr.expression d _).step (hr.forward.expression d _) fun test e he => ?_
  refine (Blames.punctuation e .rParen).step (.expect e _) fun _ f hf => ?_
  refine (blames_nested hr f _).step (forward_nested hr.forward f _) fun consequent g hg => ?_
  dsimp only
  split
  · exact .ok _
  · rename_i t i hi helse
    refine .after (.accept? helse) ?_
    exact (blames_nested hr i _).step (forward_nested hr.forward i _) fun alternate j hj => .ok _

theorem blames_loop (hr : r.Blames tokens) (start : Nat) (c : Cursor) (h : c.size < n) :
    Blames tokens c (loop r start c h) := by
  refine (Blames.punctuation c .lParen).step (.expect c _) fun _ d hd => ?_
  refine (blames_loopInit hr d _).step (forward_loopInit hr.forward d _) fun init e he => ?_
  refine (Blames.punctuation e .semicolon).step (.expect e _) fun _ f hf => ?_
  refine (blames_clause .semicolon hr f _).step (forward_clause .semicolon hr.forward f _)
    fun test g hg => ?_
  refine (Blames.punctuation g .semicolon).step (.expect g _) fun _ i hi => ?_
  refine (blames_clause .rParen hr i _).step (forward_clause .rParen hr.forward i _)
    fun update j hj => ?_
  refine (Blames.punctuation j .rParen).step (.expect j _) fun _ k hk => ?_
  exact (blames_nested hr k _).step (forward_nested hr.forward k _) fun body l hl => .ok _

theorem blames_returning (hr : r.Blames tokens) (start : Nat) (c : Cursor) (h : c.size < n) :
    Blames tokens c (returning r start c h) := by
  rw [returning]
  split
  · have hforward : Forward (n := n) c ((r.expression c h).map fun s =>
        ⟨some s.value, s.rest, Nat.lt_trans s.lt h⟩) :=
      (hr.forward.expression c h).map fun _ => rfl
    exact (hr.expression c h).map.step hforward fun argument d hd => .ok _
  · exact .ok _

theorem blames_declaration (hr : r.Blames tokens) (start : Nat) (kind : DeclKind) (c : Cursor)
    (h : c.size < n) : Blames tokens c (declaration r start kind c h) :=
  (blames_declared hr c h).step (forward_declared hr.forward c h) fun _ _ _ => .ok _

theorem blames_expressionStatement (c : Cursor) {r : Rules c.size} (hr : r.Blames tokens) :
    Blames tokens c (expressionStatement c r) :=
  (blames_expression c hr).step (forward_expression c hr.forward) fun _ _ _ => .ok _

theorem blames_statement (c : Cursor) {r : Rules c.size} (hr : r.Blames tokens) :
    Blames tokens c (statement c r) := by
  rw [statement]
  split
  · exact .ok _
  · split
    · rename_i hnext
      refine .error fun hc => .statement hc ?_
      rw [Cursor.kind_of_next?_eq_none hnext]
      rfl
    · rename_i t d hd hnext
      split
      · exact .after (.next? hnext) (blames_declaration hr _ _ d hd)
      · exact .after (.next? hnext) (blames_declaration hr _ _ d hd)
      · exact .after (.next? hnext) (blames_declaration hr _ _ d hd)
      · exact .after (.next? hnext) (blames_function hr _ d hd)
      · exact .after (.next? hnext) (blames_returning hr _ d hd)
      · exact .after (.next? hnext) (blames_conditional hr _ d hd)
      · exact .after (.next? hnext) (blames_loop hr _ d hd)
      · refine .after (.next? hnext) ?_
        exact (blames_untilBrace hr.forward.statement hr.statement d hd).step
          (forward_untilBrace hr.forward.statement d hd) fun body e he => .ok _
      · rename_i hconst hlet hvar hfunction hreturn hif hfor hbrace
        split
        · exact blames_expressionStatement c hr
        · rename_i hexpression
          refine .error fun hc => .statement hc ?_
          have hkind : c.kind = t.kind :=
            congrArg Token.kind (Cursor.token_of_next? hnext).symm
          have hcomment : t.kind ≠ .comment := Cursor.kind_ne_comment_of_next? hnext
          have hdecl : t.kind.decl? = none := by
            rw [Option.eq_none_iff_forall_ne_some]
            intro kind hsome
            cases kind with
            | const => exact hconst (TokenKind.eq_of_decl? hsome)
            | let_ => exact hlet (TokenKind.eq_of_decl? hsome)
            | var => exact hvar (TokenKind.eq_of_decl? hsome)
          rw [hkind, TokenKind.beginsStatement]
          simp only [hexpression, hdecl, beq_eq_false_iff_ne.mpr hcomment,
            beq_eq_false_iff_ne.mpr hfunction, beq_eq_false_iff_ne.mpr hreturn,
            beq_eq_false_iff_ne.mpr hif, beq_eq_false_iff_ne.mpr hfor, Option.isSome_none,
            Bool.or_self]

/-! ### All rules -/

/-- The errors of all rules arise in these ways. -/
theorem rules_blame (tokens : List Token) : ∀ n, (rules n).Blames tokens
  | 0 => {
      forward := rules_forward 0
      derives := rules_derive 0
      expression := fun _ h => absurd h (Nat.not_lt_zero _)
      binary := fun _ _ h => absurd h (Nat.not_lt_zero _)
      unary := fun _ h => absurd h (Nat.not_lt_zero _)
      statement := fun _ h => absurd h (Nat.not_lt_zero _) }
  | n + 1 => {
      forward := rules_forward (n + 1)
      derives := rules_derive (n + 1)
      expression := fun c h =>
        blames_expression c ((rules_blame tokens n).restrict (Nat.le_of_lt_succ h))
      binary := fun p c h =>
        blames_binary p c ((rules_blame tokens n).restrict (Nat.le_of_lt_succ h))
      unary := fun c h => blames_unary c ((rules_blame tokens n).restrict (Nat.le_of_lt_succ h))
      statement := fun c h =>
        blames_statement c ((rules_blame tokens n).restrict (Nat.le_of_lt_succ h)) }

end Grammar

/-! ## Programs -/

namespace Program

theorem arises_of_readFrom {tokens : List Token} {done : List Statement} {c : Cursor}
    {e : SyntaxError} (hc : c.Among tokens) (h : readFrom done c = .error e) :
    e.Arises tokens := by
  -- on the tokens left, for every list of statements read so far
  induction hk : c.size using Nat.strongRecOn generalizing c done with
  | ind k ih =>
    subst hk
    rw [readFrom] at h
    split at h
    · cases h
    · have hrules := Grammar.rules_blame tokens c.size
      cases hx : Grammar.statement c (Grammar.rules c.size) with
      | error e' =>
        rw [hx] at h
        rw [← Except.error.inj h]
        exact Grammar.blames_statement c hrules hc e' hx
      | ok a =>
        rw [hx] at h
        have ha := hc.of_reaches (Grammar.forward_statement c hrules.forward a hx)
        exact ih a.rest.size a.lt ha h rfl

/-- The cursor at the start of a text is among its tokens. -/
theorem among_ofTokens {source : String} {keep : Bool} {tokens : List Token}
    (hscan : scan source keep = .ok tokens) : (Cursor.ofTokens tokens).Among tokens := by
  obtain ⟨before, htokens, -, -⟩ := scan_eq_append hscan
  have hmem : Token.endAt (byteLength source.toList) ∈ tokens := by
    rw [htokens]
    exact List.mem_append_right before List.mem_cons_self
  exact ⟨List.suffix_rfl, ⟨_, hmem, rfl⟩, inOrder_of_scan hscan, spelled_ofTokens hscan⟩

theorem arises_of_ofTokens {source : String} {keep : Bool} {tokens : List Token} {e : SyntaxError}
    (hscan : scan source keep = .ok tokens) (h : ofTokens tokens = .error e) :
    e.Arises tokens :=
  arises_of_readFrom (among_ofTokens hscan) h

theorem arises_of_ofSource {source : String} {keep : Bool} {e : SyntaxError}
    (h : ofSource source keep = .error (.syntactic e)) :
    ∃ tokens, scan source keep = .ok tokens ∧ e.Arises tokens := by
  rw [ofSource] at h
  split at h
  · cases h
  · rename_i tokens hscan
    split at h
    · rename_i e' hread
      cases h
      exact ⟨tokens, hscan, arises_of_ofTokens hscan hread⟩
    · cases h

/-- Programs are not compared, but the errors of readings are. -/
theorem eq_error_of_map {ε α : Type} {x : Except ε α} {e : ε}
    (h : x.map (fun _ => ()) = .error e) : x = .error e := by
  cases x with
  | error e' => exact congrArg Except.error (Except.error.inj h)
  | ok v => cases h

/-- **An error asks for what stands there only in place of a parameter**, where an expression
    begins with a name but is none.  Where any expression would do, none begins with the token
    that is there, and where any statement would do, no statement does. -/
theorem ofSource_error {source : String} {keep : Bool} {e : SyntaxError}
    (h : ofSource source keep = .error (.syntactic e)) :
    ∃ tokens, scan source keep = .ok tokens ∧
      (∀ k, e.expected = .token k → e.actual = k → k = .ident ∧ ∃ x t,
        Expr.BeforeArrow tokens x t ∧ (∀ sp s, x ≠ .ident sp s) ∧ t.kind = .ident ∧
          e.offset = t.span.start) ∧
      (e.expected = .expression → ∀ (x : Expr) t ts, t :: ts ∈ x.writings → t.kind ≠ e.actual) ∧
      (e.expected = .statement →
        ∀ (s : Statement) t ts, t :: ts ∈ s.writings → t.kind ≠ e.actual) := by
  obtain ⟨tokens, hscan, harises⟩ := arises_of_ofSource h
  refine ⟨tokens, hscan, fun k hk hactual => ?_, fun hx x t ts hts hkind => ?_,
    fun hs s t ts hts hkind => ?_⟩
  · exact harises.exists_beforeArrow hk hactual
  · have hbegins : t.kind.beginsExpression = true := x.beginsWith.head hts
    rw [hkind, harises.beginsExpression hx] at hbegins
    exact Bool.noConfusion hbegins
  · have hbegins : t.kind.beginsStatement = true := s.beginsWith.head hts
    rw [hkind, harises.beginsStatement hs] at hbegins
    exact Bool.noConfusion hbegins

/-- No statement begins with a closing bracket. -/
theorem ofSource_error_rParen :
    ofSource ")" false = .error (.syntactic ⟨.statement, .punctuation .rParen, 0⟩) ∧
      ∀ (s : Statement) t ts, t :: ts ∈ s.writings → t.kind ≠ .punctuation .rParen := by
  have hread : ofSource ")" false = .error (.syntactic ⟨.statement, .punctuation .rParen, 0⟩) :=
    eq_error_of_map (by decide +kernel)
  obtain ⟨_, -, -, -, hstatement⟩ := ofSource_error hread
  exact ⟨hread, hstatement rfl⟩

/-- A property in place of a parameter: the error asks for the name that stands there, and says
    nothing of the dot that does not fit. -/
theorem ofSource_property_parameter :
    ofSource "(a.b) => \x7b\x7d" false = .error (.syntactic ⟨.token .ident, .ident, 1⟩) :=
  eq_error_of_map (by decide +kernel)

/-! ## Where errors are -/

/-- A text that cannot be scanned is not read. -/
theorem scan_of_ofSource_lexical {source : String} {keep : Bool} {e : LexicalError}
    (h : ofSource source keep = .error (.lexical e)) : scan source keep = .error e := by
  rw [ofSource] at h
  cases hscan : scan source keep with
  | error e' =>
    rw [hscan] at h
    obtain rfl := ReadError.lexical.inj (Except.error.inj h)
    rfl
  | ok tokens =>
    rw [hscan] at h
    dsimp only at h
    cases hread : ofTokens tokens with
    | error e' =>
      rw [hread] at h
      cases h
    | ok p =>
      rw [hread] at h
      cases h

/-- **Errors are where they say.**  At the offset of a syntax error begins a token of the class that
    it names, the end token among them.  At that of a lexical error the text is as the fault says,
    and what comes before it is scanned, as just the tokens that were scanned before it. -/
theorem ofSource_error_offset (source : String) (keep : Bool) :
    (∀ e, ofSource source keep = .error (.syntactic e) →
      ∃ tokens, scan source keep = .ok tokens ∧
        (∃ t ∈ tokens, t.kind = e.actual ∧ t.span.start = e.offset) ∧
        (e.actual = .eof → e.offset = byteLength source.toList)) ∧
    (∀ e, ofSource source keep = .error (.lexical e) →
      ∃ (before after : String) (ts : List Token),
        source = before ++ after ∧ byteLength before.toList = e.offset ∧
        e.offset < byteLength source.toList ∧ Fails e.fault after.toList ∧
        MunchesTo 0 source.toList ts after.toList ∧
        scan before keep = .ok (ts.filter (fun t => keep || t.isProper) ++
          [Token.endAt e.offset])) := by
  constructor
  · intro e h
    obtain ⟨tokens, hscan, harises⟩ := arises_of_ofSource h
    obtain ⟨t, ht, hkind, hstart⟩ := harises.exists_token
    refine ⟨tokens, hscan, ⟨t, ht, hkind, hstart⟩, fun heof => ?_⟩
    -- there is no other end token than the last one
    obtain ⟨before, rfl, hproper, -⟩ := scan_eq_append hscan
    rcases List.mem_append.mp ht with hmem | hmem
    · exact absurd (hkind.trans heof) (hproper t hmem)
    · rw [← hstart, List.mem_singleton.mp hmem]
      rfl
  · intro e h
    exact exists_tokens_of_scan_error (scan_of_ofSource_lexical h)

/-- A parameter that is no name and a string that never ends, both after characters that take more
    than one byte. -/
theorem ofSource_error_offset_halfRead :
    (ofSource "/*é*/(a, b.c) => \x7b\x7d" false =
        .error (.syntactic ⟨.token .ident, .ident, 10⟩) ∧
      ∃ tokens, scan "/*é*/(a, b.c) => \x7b\x7d" false = .ok tokens ∧
        (∃ t ∈ tokens, t.kind = .ident ∧ t.span.start = 10) ∧
        (TokenKind.ident = .eof → 10 = byteLength "/*é*/(a, b.c) => \x7b\x7d".toList)) ∧
    (ofSource "/*é*/x = 'a" true = .error (.lexical ⟨.openString, 10⟩) ∧
      ∃ (before after : String) (ts : List Token),
        "/*é*/x = 'a" = before ++ after ∧ byteLength before.toList = 10 ∧
        10 < byteLength "/*é*/x = 'a".toList ∧ Fails .openString after.toList ∧
        MunchesTo 0 "/*é*/x = 'a".toList ts after.toList ∧
        scan before true = .ok (ts.filter (fun t => true || t.isProper) ++
          [Token.endAt 10])) := by
  have hparameter : ofSource "/*é*/(a, b.c) => \x7b\x7d" false =
      .error (.syntactic ⟨.token .ident, .ident, 10⟩) := eq_error_of_map (by decide +kernel)
  have hstring : ofSource "/*é*/x = 'a" true = .error (.lexical ⟨.openString, 10⟩) :=
    eq_error_of_map (by decide +kernel)
  exact ⟨⟨hparameter, (ofSource_error_offset _ _).1 _ hparameter⟩, hstring,
    (ofSource_error_offset _ _).2 _ hstring⟩

end Program

end CurlyScript
