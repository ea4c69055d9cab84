import CurlyScript.Proofs.Grammar.Derives
import CurlyScript.Proofs.Syntax.Lines

/-
  Edits of token lists, and readings that keep step with them.

  An edit moves the offsets of tokens, in order, and may leave out comments.  Reading looks at the
  tokens only through their classes and texts, so what is read from the edited tokens is what is
  read from the others, edited likewise: spans are moved and comments left out of the tree, and an
  error is the same error at the moved offset.

  `a.Meets c c'` relates the cursors that two readings begin at, `a.Tracks c c'` those that they
  end at.  The difference is the end of the last token: after a comment that was left out it is
  another, but no span is taken from there.
-/

namespace CurlyScript

/-- A change of a list of tokens that reading keeps step with. -/
structure Edit where
  /-- Where an offset goes. -/
  move : Nat → Nat
  /-- Whether comments are left out. -/
  drops : Bool
  mono : Monotone move

/-- Where a comment comes next, that is not the end. -/
theorem Cursor.rest_of_comment? {c : Cursor} {s : Step c.size Token} (h : c.comment? = some s) :
    s.value.isComment = true ∧ c.rest = s.value :: s.rest.rest := by
  rw [comment?, Option.filter_eq_some_iff] at h
  exact ⟨h.2, (shifts_of_nextRaw? h.1).rest⟩

/-- A comment ends no block. -/
theorem Cursor.atBlockEnd_of_comment? {c : Cursor} {s : Step c.size Token}
    (h : c.comment? = some s) : c.atBlockEnd = false := by
  obtain ⟨ht, hr⟩ := rest_of_comment? h
  rw [atBlockEnd_of_cons hr, show s.value.kind = .comment from beq_iff_eq.mp ht]
  rfl

namespace Edit

variable (a : Edit)

/-- A span whose ends are moved. -/
def span (s : Span) : Span := ⟨a.move s.start, a.move s.stop⟩

/-- A token at its new place. -/
def token (t : Token) : Token := ⟨t.kind, t.lexeme, a.span t.span⟩

/-- Whether a token is left in. -/
def keeps (t : Token) : Bool := !(a.drops && t.isComment)

/-- The tokens that are left in, at their new places. -/
def tokens (ts : List Token) : List Token := (ts.filter a.keeps).map a.token

/-- An error at its new place. -/
def error (e : SyntaxError) : SyntaxError := ⟨e.expected, e.actual, a.move e.offset⟩

/-- Whether a statement is left in. -/
def keepsLine (s : Statement) : Bool := !(a.drops && s.isComment)

/-- What becomes of trees. -/
def rewriting : Rewriting := .filtering a.span a.keepsLine

/-- What becomes of statements in order. -/
def statements (ss : List Statement) : List Statement :=
  (ss.map (Statement.rewrite a.rewriting)).filter a.keepsLine

/-- The second cursor is the first one in the edited tokens, wherever the last token stopped. -/
structure Meets (c c' : Cursor) : Prop where
  rest : c'.rest = a.tokens c.rest
  finish : c'.finish = a.move c.finish

/-- The second cursor is the first one in the edited tokens. -/
structure Tracks (c c' : Cursor) : Prop extends a.Meets c c' where
  prevStop : c'.prevStop = a.move c.prevStop

variable {a : Edit} {t : Token} {ts : List Token}

theorem tokens_cons (h : a.keeps t = true) : a.tokens (t :: ts) = a.token t :: a.tokens ts := by
  rw [tokens, List.filter_cons_of_pos h, List.map_cons]
  rfl

theorem tokens_cons_dropped (h : a.keeps t = false) : a.tokens (t :: ts) = a.tokens ts := by
  rw [tokens, List.filter_cons_of_neg (by rw [h]; exact Bool.noConfusion)]
  rfl

theorem keeps_of_proper (h : t.isComment = false) : a.keeps t = true := by
  rw [keeps, h, Bool.and_false]
  rfl

theorem keepsLine_of_proper {s : Statement} (h : s.isComment = false) : a.keepsLine s = true := by
  rw [keepsLine, h, Bool.and_false]
  rfl

theorem dropWhile_tokens (ts : List Token) :
    (a.tokens ts).dropWhile Token.isComment = a.tokens (ts.dropWhile Token.isComment) := by
  induction ts with
  | nil => rfl
  | cons t ts ih =>
    cases ht : t.isComment with
    | false =>
      have ht' : (a.token t).isComment = false := ht
      rw [List.dropWhile_cons_of_neg (by rw [ht]; exact Bool.noConfusion),
        tokens_cons (keeps_of_proper ht),
        List.dropWhile_cons_of_neg (by rw [ht']; exact Bool.noConfusion)]
    | true =>
      rw [List.dropWhile_cons_of_pos ht, ← ih]
      cases hk : a.keeps t with
      | false => rw [tokens_cons_dropped hk]
      | true =>
        have ht' : (a.token t).isComment = true := ht
        rw [tokens_cons hk, List.dropWhile_cons_of_pos ht']

theorem keepsLine_rewrite (s : Statement) :
    a.keepsLine (s.rewrite a.rewriting) = a.keepsLine s := by
  rw [keepsLine, keepsLine, rewriting, (Rewriting.shaped_filtering _ _).isComment]

theorem statements_cons {s : Statement} (h : a.keepsLine s = true) (ss : List Statement) :
    a.statements (s :: ss) = s.rewrite a.rewriting :: a.statements ss := by
  rw [statements, List.map_cons, List.filter_cons_of_pos]
  · rfl
  · rw [keepsLine_rewrite, h]

theorem statements_cons_dropped {s : Statement} (h : a.keepsLine s = false) (ss : List Statement) :
    a.statements (s :: ss) = a.statements ss := by
  rw [statements, List.map_cons, List.filter_cons_of_neg]
  · rfl
  · rw [keepsLine_rewrite, h]
    exact Bool.noConfusion

theorem statements_reverse (ss : List Statement) :
    a.statements ss.reverse = (a.statements ss).reverse := by
  rw [statements, statements, List.map_reverse, List.filter_reverse]

/-! ## Cursors that keep step -/

namespace Meets

variable {c c' : Cursor}

theorem skipComments (h : a.Meets c c') : a.Meets c.skipComments c'.skipComments := by
  refine ⟨?_, ?_⟩
  · rw [Cursor.rest_skipComments, Cursor.rest_skipComments, h.rest, dropWhile_tokens]
  · rw [(Cursor.Reaches.skipComments c).finish, (Cursor.Reaches.skipComments c').finish, h.finish]

/-- Once comments are skipped, the next token is left in. -/
theorem keeps_of_skipComments (hr : c.skipComments.rest = t :: ts) : a.keeps t = true :=
  keeps_of_proper (Cursor.rawToken_of_rest hr ▸ c.isComment_token)

/-- The next tokens proper are of one class, one where the other has gone. -/
theorem token (h : a.Meets c c') :
    c'.token.kind = c.token.kind ∧ c'.token.span.start = a.move c.token.span.start := by
  have hskip := h.skipComments
  cases hr : c.skipComments.rest with
  | nil =>
    have hr' : c'.skipComments.rest = [] := by rw [hskip.rest, hr]; rfl
    refine ⟨?_, ?_⟩
    · exact (Cursor.kind_rawToken_of_nil hr').trans (Cursor.kind_rawToken_of_nil hr).symm
    · rw [Cursor.token, Cursor.token, Cursor.start_rawToken_of_nil hr',
        Cursor.start_rawToken_of_nil hr, hskip.finish]
  | cons t ts =>
    have hr' : c'.skipComments.rest = a.token t :: a.tokens ts := by
      rw [hskip.rest, hr, tokens_cons (keeps_of_skipComments hr)]
    rw [Cursor.token, Cursor.token, Cursor.rawToken_of_rest hr', Cursor.rawToken_of_rest hr]
    exact ⟨rfl, rfl⟩

theorem kind (h : a.Meets c c') : c'.kind = c.kind := h.token.1

theorem start (h : a.Meets c c') : c'.start = a.move c.start := h.token.2

theorem error (h : a.Meets c c') (expected : Expected) :
    c'.error expected = a.error (c.error expected) := by
  rw [Cursor.error, Cursor.error, h.kind, h.start]
  rfl

end Meets

theorem Tracks.spanFrom {c c' : Cursor} (h : a.Tracks c c') (start : Nat) :
    c'.spanFrom (a.move start) = a.span (c.spanFrom start) := by
  rw [Cursor.spanFrom, h.prevStop, ← a.mono.map_max]
  rfl

theorem span_merge (s s' : Span) : (a.span s).merge (a.span s') = a.span (s.merge s') := by
  rw [Span.merge, span, span, ← a.mono.map_max, ← a.mono.map_min]
  rfl

/-! ## Steps that may be taken -/

/-- Both steps are taken, to values that are related and cursors that keep step, or neither. -/
def StepsAlike (a : Edit) {m n : Nat} {α β : Type} (R : α → β → Prop) :
    Option (Step m α) → Option (Step n β) → Prop
  | none, none => True
  | some s, some s' => R s.value s'.value ∧ a.Tracks s.rest s'.rest
  | _, _ => False

/-- Tokens that are the same but for their place. -/
def IsMoved (a : Edit) (t t' : Token) : Prop := t' = a.token t

section steps

variable {m n : Nat} {α β : Type} {R : α → β → Prop} {x : Option (Step m α)}
  {y : Option (Step n β)}

theorem StepsAlike.filter (h : a.StepsAlike R x y) {p : Step m α → Bool} {q : Step n β → Bool}
    (hpq : ∀ s s', R s.value s'.value → p s = q s') : a.StepsAlike R (x.filter p) (y.filter q) := by
  match x, y, h with
  | none, none, _ => trivial
  | some s, some s', h =>
    have hsame := hpq s s' h.1
    cases hp : p s with
    | false =>
      rw [Option.filter_some_neg hp, Option.filter_some_neg (hsame ▸ hp)]
      trivial
    | true =>
      rw [Option.filter_some_pos hp, Option.filter_some_pos (hsame ▸ hp)]
      exact h

theorem StepsAlike.cases (h : a.StepsAlike R x y) : (x = none ∧ y = none) ∨
    ∃ v d hd v' d' hd', x = some ⟨v, d, hd⟩ ∧ y = some ⟨v', d', hd'⟩ ∧ R v v' ∧ a.Tracks d d' := by
  match x, y, h with
  | none, none, _ => exact .inl ⟨rfl, rfl⟩
  | some ⟨v, d, hd⟩, some ⟨v', d', hd'⟩, h =>
    exact .inr ⟨v, d, hd, v', d', hd', rfl, rfl, h.1, h.2⟩

variable {c c' : Cursor}

theorem Meets.nextRaw? (h : a.Meets c c') (hkeeps : ∀ t ∈ c.rest.head?, a.keeps t = true) :
    a.StepsAlike a.IsMoved c.nextRaw? c'.nextRaw? := by
  cases hr : c.rest with
  | nil =>
    have hr' : c'.rest = [] := by rw [h.rest, hr]; rfl
    rw [Cursor.nextRaw?_eq_none_iff.mpr hr, Cursor.nextRaw?_eq_none_iff.mpr hr']
    trivial
  | cons t ts =>
    have hr' : c'.rest = a.token t :: a.tokens ts := by
      rw [h.rest, hr, tokens_cons (hkeeps t (by rw [hr]; rfl))]
    obtain ⟨d, hd, hnext, hrest⟩ := Cursor.nextRaw?_of_rest hr
    obtain ⟨d', hd', hnext', hrest'⟩ := Cursor.nextRaw?_of_rest hr'
    have hshifts := Cursor.shifts_of_nextRaw? hnext
    have hshifts' := Cursor.shifts_of_nextRaw? hnext'
    rw [hnext, hnext']
    refine ⟨rfl, ⟨?_, ?_⟩, ?_⟩
    · rw [hrest', hrest]
    · rw [hshifts'.reaches.finish, hshifts.reaches.finish, h.finish]
    · rw [hshifts'.prevStop, hshifts.prevStop]
      rfl

theorem Meets.next? (h : a.Meets c c') : a.StepsAlike a.IsMoved c.next? c'.next? := by
  have hraw := h.skipComments.nextRaw? fun t ht => by
    obtain ⟨ts, hts⟩ := List.head?_eq_some_iff.mp ht
    exact keeps_of_skipComments hts
  rw [Cursor.next?, Cursor.next?]
  cases hc : c.skipComments.nextRaw? with
  | none =>
    rw [hc] at hraw
    cases hc' : c'.skipComments.nextRaw? with
    | none => trivial
    | some s' => rw [hc'] at hraw; exact hraw
  | some s =>
    rw [hc] at hraw
    cases hc' : c'.skipComments.nextRaw? with
    | none => rw [hc'] at hraw; exact hraw
    | some s' => rw [hc'] at hraw; exact hraw

theorem Meets.accept? (h : a.Meets c c') (k : TokenKind) :
    a.StepsAlike a.IsMoved (c.accept? k) (c'.accept? k) :=
  h.next?.filter fun _ _ (ht : _ = a.token _) => by rw [ht]; rfl

theorem Meets.take? {γ : Type} (h : a.Meets c c') (f : TokenKind → Option γ) :
    a.StepsAlike (· = ·) (c.take? f) (c'.take? f) := by
  have hnext := h.next?
  unfold Cursor.take?
  match hc : c.next?, hc' : c'.next? with
  | none, none => trivial
  | some s, some s' =>
    rw [hc, hc'] at hnext
    obtain ⟨hvalue, hrest⟩ := hnext
    have hkind : s'.value.kind = s.value.kind := by
      rw [show s'.value = a.token s.value from hvalue]
      rfl
    show a.StepsAlike _ ((f s.value.kind).map _) ((f s'.value.kind).map _)
    rw [hkind]
    cases f s.value.kind with
    | none => trivial
    | some v => exact ⟨rfl, hrest⟩
  | none, some s' => rw [hc, hc'] at hnext; exact hnext.elim
  | some s, none => rw [hc, hc'] at hnext; exact hnext.elim

/-- Where no comment comes next, or comments are left in, the next token is left in. -/
theorem keeps_of_comment? (hc : c.comment? = none ∨ a.drops = false) (ht : c.rest.head? = some t) :
    a.keeps t = true := by
  rcases hc with hnone | hdrops
  · apply keeps_of_proper
    obtain ⟨ts, hr⟩ := List.head?_eq_some_iff.mp ht
    obtain ⟨d, hd, hnext, -⟩ := Cursor.nextRaw?_of_rest hr
    rw [Cursor.comment?, Option.filter_eq_none_iff] at hnone
    exact Bool.eq_false_iff.mpr (hnone _ hnext)
  · rw [keeps, hdrops]
    rfl

theorem Meets.comment? (h : a.Meets c c') (hc : c.comment? = none ∨ a.drops = false) :
    a.StepsAlike a.IsMoved c.comment? c'.comment? :=
  (h.nextRaw? fun _ ht => keeps_of_comment? hc ht).filter
    fun _ _ (ht : _ = a.token _) => by rw [ht]; rfl

/-- A comment that is left out is passed by the first cursor alone. -/
theorem Meets.of_comment? (h : a.Meets c c') (hdrops : a.drops = true) {s : Step c.size Token}
    (hc : c.comment? = some s) : a.Meets s.rest c' := by
  obtain ⟨ht, hr⟩ := Cursor.rest_of_comment? hc
  refine ⟨?_, ?_⟩
  · rw [h.rest, hr, tokens_cons_dropped]
    rw [keeps, hdrops, ht]
    rfl
  · rw [(Cursor.Reaches.comment? hc).finish, h.finish]

/-- Where no comment comes next, or comments are left in, both cursors are before a token or neither
    is. -/
theorem Meets.rest_cases (h : a.Meets c c') (hc : c.comment? = none ∨ a.drops = false) :
    (c.rest = [] ∧ c'.rest = []) ∨
      ∃ t ts ts', c.rest = t :: ts ∧ c'.rest = a.token t :: ts' := by
  cases hr : c.rest with
  | nil => exact .inl ⟨rfl, by rw [h.rest, hr]; rfl⟩
  | cons t ts =>
    refine .inr ⟨t, ts, a.tokens ts, rfl, ?_⟩
    rw [h.rest, hr, tokens_cons (keeps_of_comment? hc (by rw [hr]; rfl))]

theorem Meets.atBlockEnd (h : a.Meets c c') (hc : c.comment? = none ∨ a.drops = false) :
    c'.atBlockEnd = c.atBlockEnd := by
  rcases h.rest_cases hc with ⟨hr, hr'⟩ | ⟨t, ts, ts', hr, hr'⟩
  · rw [Cursor.atBlockEnd_of_nil hr, Cursor.atBlockEnd_of_nil hr']
  · rw [Cursor.atBlockEnd_of_cons hr, Cursor.atBlockEnd_of_cons hr']
    rfl

theorem Meets.atEnd (h : a.Meets c c') (hc : c.comment? = none ∨ a.drops = false) :
    c'.atEnd = c.atEnd := by
  rw [Bool.eq_iff_iff, Cursor.atEnd_iff, Cursor.atEnd_iff]
  rcases h.rest_cases hc with ⟨hr, hr'⟩ | ⟨t, ts, ts', hr, hr'⟩
  · rw [hr, hr']
  · rw [hr, hr']
    exact iff_of_false (List.cons_ne_nil _ _) (List.cons_ne_nil _ _)

theorem Tracks.past (h : a.Tracks c c') (k : TokenKind) :
    a.Tracks (c.past k).1 (c'.past k).1 := by
  have haccept := h.accept? k
  unfold Cursor.past
  match hc : c.accept? k, hc' : c'.accept? k with
  | none, none => exact h
  | some s, some s' => rw [hc, hc'] at haccept; exact haccept.2
  | none, some s' => rw [hc, hc'] at haccept; exact haccept.elim
  | some s, none => rw [hc, hc'] at haccept; exact haccept.elim

end steps

/-! ## Readings -/

/-- Both readings succeed, with values that are related and cursors that keep step, or both fail
    with the same error. -/
def Follows (a : Edit) {m n : Nat} {α β : Type} (R : α → β → Prop) :
    Read (Step m α) → Read (Step n β) → Prop
  | .error e, .error e' => e' = a.error e
  | .ok s, .ok s' => R s.value s'.value ∧ a.Tracks s.rest s'.rest
  | _, _ => False

/-- Both checks succeed, with values that are related, or both fail with the same error. -/
def Agrees (a : Edit) {γ δ : Type} (R : γ → δ → Prop) :
    Except SyntaxError γ → Except SyntaxError δ → Prop
  | .error e, .error e' => e' = a.error e
  | .ok v, .ok v' => R v v'
  | _, _ => False

theorem Agrees.bind {γ δ γ' δ' : Type} {R : γ → δ → Prop} {S : γ' → δ' → Prop}
    {x : Except SyntaxError γ} {y : Except SyntaxError δ} {f : γ → Except SyntaxError γ'}
    {g : δ → Except SyntaxError δ'} (h : a.Agrees R x y)
    (hf : ∀ v v', R v v' → a.Agrees S (f v) (g v')) : a.Agrees S (x >>= f) (y >>= g) := by
  cases x with
  | error e =>
    cases y with
    | error e' => exact h
    | ok v' => exact h.elim
  | ok v =>
    cases y with
    | error e' => exact h.elim
    | ok v' => exact hf v v' h

/-- Where values are related by a function, the second check is the first one and that function. -/
theorem Agrees.eq_map {γ δ : Type} {f : γ → δ} {x : Except SyntaxError γ}
    {y : Except SyntaxError δ} (h : a.Agrees (fun v v' => v' = f v) x y) :
    y = (x.mapError a.error).map f := by
  cases x with
  | error e =>
    cases y with
    | error e' => exact congrArg Except.error h
    | ok v' => exact h.elim
  | ok v =>
    cases y with
    | error e' => exact h.elim
    | ok v' => exact congrArg Except.ok h

namespace Follows

variable {m n k l : Nat} {α β γ δ : Type} {R : α → β → Prop} {S : γ → δ → Prop}

theorem ok {v : α} {v' : β} {d d' : Cursor} (hv : R v v') (hd : a.Tracks d d') (h : d.size < m)
    (h' : d'.size < n) : a.Follows R (.ok ⟨v, d, h⟩) (.ok ⟨v', d', h'⟩) := ⟨hv, hd⟩

/-- One reading after another. -/
theorem bind {x : Read (Step m α)} {y : Read (Step n β)} {f : Step m α → Read (Step k γ)}
    {g : Step n β → Read (Step l δ)} (h : a.Follows R x y)
    (hf : ∀ v d hd v' d' hd', R v v' → a.Tracks d d' →
      a.Follows S (f ⟨v, d, hd⟩) (g ⟨v', d', hd'⟩)) : a.Follows S (x >>= f) (y >>= g) := by
  cases x with
  | error e =>
    cases y with
    | error e' => exact h
    | ok s' => exact h.elim
  | ok s =>
    cases y with
    | error e' => exact h.elim
    | ok s' => exact hf s.value s.rest s.lt s'.value s'.rest s'.lt h.1 h.2

/-- A reading after a check that takes no token. -/
theorem check {x : Except SyntaxError α} {y : Except SyntaxError β} {f : α → Read (Step k γ)}
    {g : β → Read (Step l δ)} (h : a.Agrees R x y)
    (hf : ∀ v v', R v v' → a.Follows S (f v) (g v')) : a.Follows S (x >>= f) (y >>= g) := by
  cases x with
  | error e =>
    cases y with
    | error e' => exact h
    | ok v' => exact h.elim
  | ok v =>
    cases y with
    | error e' => exact h.elim
    | ok v' => exact hf v v' h

theorem map {x : Read (Step m α)} {y : Read (Step n β)} {f : α → γ} {g : β → δ}
    (h : a.Follows R x y) (hf : ∀ v v', R v v' → S (f v) (g v')) :
    a.Follows S (x.map (Step.map f)) (y.map (Step.map g)) := by
  cases x with
  | error e =>
    cases y with
    | error e' => exact h
    | ok s' => exact h.elim
  | ok s =>
    cases y with
    | error e' => exact h.elim
    | ok s' => exact ⟨hf _ _ h.1, h.2⟩

/-- A reading, and then what is no step. -/
theorem agrees {x : Read (Step m α)} {y : Read (Step n β)} {f : Step m α → Except SyntaxError γ}
    {g : Step n β → Except SyntaxError δ} (h : a.Follows R x y)
    (hf : ∀ v d hd v' d' hd', R v v' → a.Tracks d d' →
      a.Agrees S (f ⟨v, d, hd⟩) (g ⟨v', d', hd'⟩)) : a.Agrees S (x >>= f) (y >>= g) := by
  cases x with
  | error e =>
    cases y with
    | error e' => exact h
    | ok s' => exact h.elim
  | ok s =>
    cases y with
    | error e' => exact h.elim
    | ok s' => exact hf s.value s.rest s.lt s'.value s'.rest s'.lt h.1 h.2

/-- What the first reading alone goes on with, taking no more tokens. -/
theorem left {x : Read (Step m α)} {y : Read (Step n β)} {f : Step m α → Read (Step k γ)}
    {T : γ → β → Prop} (h : a.Follows R x y)
    (hf : ∀ v d hd v', R v v' → ∃ w hw, f ⟨v, d, hd⟩ = .ok ⟨w, d, hw⟩ ∧ T w v') :
    a.Follows T (x >>= f) y := by
  cases x with
  | error e =>
    cases y with
    | error e' => exact h
    | ok s' => exact h.elim
  | ok s =>
    cases y with
    | error e' => exact h.elim
    | ok s' =>
      obtain ⟨w, hw, heq, hT⟩ := hf s.value s.rest s.lt s'.value h.1
      show a.Follows T (f s) (.ok s')
      rw [show f s = _ from heq]
      exact ⟨hT, h.2⟩

end Follows

/-- A node that ends here, or with the semicolon that comes next. -/
theorem Tracks.ended {m n : Nat} {α β : Type} {R : α → β → Prop} {d d' : Cursor}
    (h : a.Tracks d d') (start : Nat) {f : Span → α} {g : Span → β}
    (hfg : ∀ s, R (f s) (g (a.span s))) (hd : (d.past (.punctuation .semicolon)).1.size < m)
    (hd' : (d'.past (.punctuation .semicolon)).1.size < n) :
    a.Follows R (.ok ⟨f ((d.past (.punctuation .semicolon)).1.spanFrom start), _, hd⟩)
      (.ok ⟨g ((d'.past (.punctuation .semicolon)).1.spanFrom (a.move start)), _, hd'⟩) := by
  have hpast := h.past (.punctuation .semicolon)
  refine ⟨?_, hpast⟩
  show R _ (g _)
  rw [hpast.spanFrom]
  exact hfg _

theorem Meets.expect {c c' : Cursor} (h : a.Meets c c') (k : TokenKind) :
    a.Follows a.IsMoved (c.expect k) (c'.expect k) := by
  rw [Cursor.expect, Cursor.expect]
  rcases (h.accept? k).cases with ⟨hx, hy⟩ | ⟨t, d, hd, t', d', hd', hx, hy, ht, hdd⟩
  · rw [hx, hy]
    exact h.error _
  · rw [hx, hy]
    exact ⟨ht, hdd⟩

end Edit

namespace Grammar

open Edit

variable {a : Edit} {m n : Nat} {α β : Type}

theorem follows_name {c c' : Cursor} (h : a.Meets c c') :
    a.Follows (fun s s' => s' = s.rewrite a.rewriting) (name c) (name c') := by
  refine (h.expect .ident).map ?_
  rintro t _ rfl
  rfl

/-- A list keeps step if its items do. -/
theorem follows_delimited (close : Punctuation) {f : α → β}
    {item : (c : Cursor) → c.size < m → Read (Step c.size α)}
    {item' : (c : Cursor) → c.size < n → Read (Step c.size β)}
    (hitem : ∀ c c' h h', a.Meets c c' →
      a.Follows (fun x x' => x' = f x) (item c h) (item' c' h'))
    (comma : Bool) (c c' : Cursor) (h : c.size < m) (h' : c'.size < n) (hc : a.Meets c c') :
    a.Follows (fun l l' => l' = (l.1.map f, l.2)) (delimited close item comma c h)
      (delimited close item' comma c' h') := by
  -- on the tokens left to the first reading
  induction hk : c.size using Nat.strongRecOn generalizing c c' comma with
  | ind k ih =>
    rw [delimited, delimited]
    rcases (hc.accept? (.punctuation close)).cases with
      ⟨hx, hy⟩ | ⟨t, d, hd, t', d', hd', hx, hy, -, hdd⟩
    · rw [hx, hy]
      refine (hitem c c' h h' hc).bind fun x d hd x' d' hd' hxx hdd => ?_
      dsimp only
      rcases (hdd.accept? (.punctuation .comma)).cases with
        ⟨hx, hy⟩ | ⟨t, e, he, t', e', he', hx, hy, -, hee⟩
      · rw [hx, hy]
        refine (hdd.expect (.punctuation close)).bind fun _ e he _ e' he' _ hee => ?_
        exact .ok (by rw [hxx]; rfl) hee _ _
      · rw [hx, hy]
        refine (ih e.size (by omega) true e e' _ _ hee.toMeets rfl).bind ?_
        rintro ⟨xs, last⟩ f hf _ f' hf' rfl hff
        exact .ok (by rw [hxx]; rfl) hff _ _
    · rw [hx, hy]
      exact ⟨rfl, hdd⟩

/-- A line that is left in, with its spans moved and without what is left out of it. -/
def IsEdited (a : Edit) (s s' : Statement) : Prop :=
  s' = s.rewrite a.rewriting ∧ a.keepsLine s = true

/-- A block keeps step if its lines do.  A comment that is left out is a line of the first reading
    alone. -/
theorem follows_untilBrace {item : (c : Cursor) → c.size < m → Read (Step c.size Statement)}
    {item' : (c : Cursor) → c.size < n → Read (Step c.size Statement)}
    (hitem : ∀ c c' h h', a.Meets c c' → c.comment? = none ∨ a.drops = false →
      a.Follows (IsEdited a) (item c h) (item' c' h'))
    (hcomment : ∀ c h t d hd, c.comment? = some ⟨t, d, hd⟩ →
      item c h = .ok ⟨.comment t.span t.lexeme, d, hd⟩)
    (c c' : Cursor) (h : c.size < m) (h' : c'.size < n) (hc : a.Meets c c') :
    a.Follows (fun ss ss' => ss' = a.statements ss) (untilBrace item c h)
      (untilBrace item' c' h') := by
  induction hk : c.size using Nat.strongRecOn generalizing c c' with
  | ind k ih =>
    by_cases hstep : c.comment? = none ∨ a.drops = false
    · rw [untilBrace, untilBrace, hc.atBlockEnd hstep]
      split
      · refine (hc.expect (.punctuation .rBrace)).bind fun _ d hd _ d' hd' _ hdd => ?_
        exact .ok rfl hdd _ _
      · refine (hitem c c' h h' hc hstep).bind fun s d hd s' d' hd' hs hdd => ?_
        refine (ih d.size (by omega) d d' _ _ hdd.toMeets rfl).bind ?_
        intro ss e he ss' e' he' hss hee
        refine .ok ?_ hee _ _
        rw [statements_cons hs.2, hs.1, hss]
    · rw [not_or, Bool.not_eq_false] at hstep
      obtain ⟨hsome, hdrops⟩ := hstep
      obtain ⟨⟨t, d, hd⟩, ht⟩ := Option.ne_none_iff_exists'.mp hsome
      have hopen := Cursor.atBlockEnd_of_comment? ht
      rw [untilBrace, hopen, hcomment c h t d hd ht]
      refine (ih d.size (by omega) d c' _ _ (hc.of_comment? hdrops ht) rfl).left ?_
      intro ss e he ss' hss
      refine ⟨.comment t.span t.lexeme :: ss, _, rfl, ?_⟩
      rw [statements_cons_dropped, hss]
      rw [keepsLine, hdrops]
      rfl

end Grammar

end CurlyScript
