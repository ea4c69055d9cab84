import CurlyScript.Grammar.Cursor
import CurlyScript.Proofs.Token.Terminal
import Mathlib.Data.List.TakeWhile

/-
  What a cursor does, told by the tokens before the first end token, and by the terminals to come.

  A cursor has all tokens to come, those behind an end token too.  No step gets there: what a step
  takes is told by `rest`, the tokens before the first end token, and by `finish`, the place where
  that stands.  What one step can do is said once, by `Shifts`.

  Reading looks at the tokens only through `Token.terminal`; where they stand goes into the spans
  and nowhere else.  So each primitive step of a cursor has a lemma that says, from the terminals
  to come, whether it is taken and which terminals are left.
-/

namespace CurlyScript

/-- The class of the first terminal proper. -/
def Terminal.nextKind (ts : List Terminal) : TokenKind :=
  match ts.dropWhile isComment with
  | [] => .eof
  | t :: _ => t.kind

theorem Terminal.nextKind_cons {t : Terminal} (h : t.isComment = false) (ts : List Terminal) :
    nextKind (t :: ts) = t.kind := by
  rw [nextKind, List.dropWhile_cons_of_neg (by rw [h]; exact Bool.noConfusion)]

/-- Reading succeeds, with a step as described. -/
def Succeeds {α : Type} (x : Read α) (p : α → Prop) : Prop := ∃ a, x = .ok a ∧ p a

namespace Succeeds

variable {α β : Type} {x : Read α} {p q : α → Prop}

theorem mono (h : Succeeds x p) (hpq : ∀ a, p a → q a) : Succeeds x q := by
  obtain ⟨a, hx, ha⟩ := h
  exact ⟨a, hx, hpq a ha⟩

/-- One reading after another. -/
theorem bind {f : α → Read β} {r : β → Prop} (h : Succeeds x p)
    (hf : ∀ a, p a → Succeeds (f a) r) : Succeeds (x >>= f) r := by
  obtain ⟨a, rfl, ha⟩ := h
  exact hf a ha

theorem map {f : α → β} {r : β → Prop} (h : Succeeds x p) (hf : ∀ a, p a → r (f a)) :
    Succeeds (x.map f) r := by
  obtain ⟨a, rfl, ha⟩ := h
  exact ⟨f a, rfl, hf a ha⟩

end Succeeds

namespace Cursor

variable {c d e : Cursor} {tok : Token} {toks : List Token}

/-! ## Up to the first end token -/

/-- The tokens to come before the first end token. -/
def rest (c : Cursor) : List Token := c.tokens.takeWhile (·.kind ≠ .eof)

/-- Where the text ends: at the first end token, or where the last of all tokens stops. -/
def finish (c : Cursor) : Nat :=
  ((c.tokens.find? (·.kind = .eof)).getD (Token.endAt c.lastStop)).span.start

theorem kind_of_mem_rest (h : tok ∈ c.rest) : tok.kind ≠ .eof :=
  of_decide_eq_true (List.mem_takeWhile_imp (p := fun t : Token => decide (t.kind ≠ .eof)) h)

theorem rest_of_proper (h : ∀ t ∈ c.tokens, t.kind ≠ .eof) : c.rest = c.tokens :=
  List.takeWhile_eq_self_iff.mpr fun t ht => decide_eq_true (h t ht)

theorem finish_of_proper (h : ∀ t ∈ c.tokens, t.kind ≠ .eof) : c.finish = c.lastStop := by
  rw [finish, List.find?_eq_none.mpr fun t ht => by simpa using h t ht]
  rfl

/-- Between the cursors, which are in the same tokens, stand tokens, none of them an end token. -/
structure Reaches (c d : Cursor) : Prop where
  taken : ∃ taken, c.tokens = taken ++ d.tokens ∧ ∀ t ∈ taken, t.kind ≠ .eof
  lastStop : d.lastStop = c.lastStop

namespace Reaches

theorem refl (c : Cursor) : c.Reaches c := by
  refine ⟨⟨[], rfl, ?_⟩, rfl⟩
  intro t ht
  exact absurd ht List.not_mem_nil

theorem trans (h : c.Reaches d) (h' : d.Reaches e) : c.Reaches e := by
  obtain ⟨⟨taken, hc, htaken⟩, hlast⟩ := h
  obtain ⟨⟨taken', hd, htaken'⟩, hlast'⟩ := h'
  refine ⟨⟨taken ++ taken', by rw [hc, hd, List.append_assoc], ?_⟩, hlast'.trans hlast⟩
  intro t ht
  rcases List.mem_append.mp ht with ht | ht
  · exact htaken t ht
  · exact htaken' t ht

theorem rest_eq (hc : c.tokens = toks ++ d.tokens) (h : ∀ t ∈ toks, t.kind ≠ .eof) :
    c.rest = toks ++ d.rest := by
  rw [Cursor.rest, hc, List.takeWhile_append_of_pos fun t ht => decide_eq_true (h t ht)]
  rfl

theorem rest (h : c.Reaches d) : d.rest <:+ c.rest := by
  obtain ⟨taken, hc, htaken⟩ := h.taken
  exact ⟨taken, (rest_eq hc htaken).symm⟩

theorem finish (h : c.Reaches d) : d.finish = c.finish := by
  obtain ⟨taken, hc, htaken⟩ := h.taken
  have hnone : taken.find? (fun t => decide (t.kind = .eof)) = none :=
    List.find?_eq_none.mpr fun t ht => by simpa using htaken t ht
  rw [Cursor.finish, Cursor.finish, hc, List.find?_append, hnone, Option.none_or, h.lastStop]

/-- Who leaves fewer tokens leaves fewer of those before the end. -/
theorem rest_lt (h : c.Reaches d) (hlt : d.size < c.size) : d.rest.length < c.rest.length := by
  obtain ⟨taken, hc, htaken⟩ := h.taken
  rw [size, size, hc, List.length_append] at hlt
  rw [rest_eq hc htaken, List.length_append]
  omega

end Reaches

/-- Reading takes the token `t` from `c` to `d`. -/
structure Shifts (c : Cursor) (t : Token) (d : Cursor) : Prop where
  tokens : c.tokens = t :: d.tokens
  kind : t.kind ≠ .eof
  prevStop : d.prevStop = t.span.stop
  lastStop : d.lastStop = c.lastStop

theorem Shifts.reaches (h : c.Shifts tok d) : c.Reaches d :=
  ⟨⟨[tok], h.tokens, fun _ ht => List.mem_singleton.mp ht ▸ h.kind⟩, h.lastStop⟩

theorem Shifts.rest (h : c.Shifts tok d) : c.rest = tok :: d.rest :=
  Reaches.rest_eq (show c.tokens = [tok] ++ d.tokens from h.tokens)
    fun _ ht => List.mem_singleton.mp ht ▸ h.kind

/-- A step from a cursor takes the token that comes next, and that is no end token. -/
theorem shifts_of_nextRaw? {s : Step c.size Token} (h : c.nextRaw? = some s) :
    c.Shifts s.value s.rest := by
  unfold nextRaw? at h
  split at h
  · cases h
  · rename_i t ts ht
    split at h
    · cases h
    · rename_i hkind
      rw [← Option.some.inj h]
      exact ⟨ht, hkind, rfl, rfl⟩

/-- A token that is no end token can be taken. -/
theorem nextRaw?_of_tokens (h : c.tokens = tok :: toks) (hk : tok.kind ≠ .eof) :
    ∃ hd, c.nextRaw? = some ⟨tok, ⟨toks, tok.span.stop, c.lastStop⟩, hd⟩ := by
  obtain ⟨tokens, prevStop, lastStop⟩ := c
  obtain rfl : tokens = tok :: toks := h
  exact ⟨Nat.lt_succ_self _, if_neg hk⟩

/-- The next token stands before the first end token, or it is an end token. -/
theorem rest_cases (c : Cursor) :
    (c.rest = [] ∧ c.rawToken.kind = .eof ∧ c.rawToken.span.start = c.finish) ∨
      ∃ ts, c.tokens = c.rawToken :: ts ∧ c.rawToken.kind ≠ .eof ∧
        c.rest = c.rawToken :: ts.takeWhile (·.kind ≠ .eof) := by
  obtain ⟨tokens, prevStop, lastStop⟩ := c
  cases tokens with
  | nil => exact .inl ⟨rfl, rfl, rfl⟩
  | cons t ts =>
    by_cases hk : t.kind = .eof
    · refine .inl ⟨List.takeWhile_cons_of_neg (by simpa using hk), hk, ?_⟩
      rw [finish, List.find?_cons_of_pos (by simpa using hk)]
      rfl
    · exact .inr ⟨ts, rfl, hk, List.takeWhile_cons_of_pos (decide_eq_true hk)⟩

/-- What stands first before the end tokens comes next. -/
theorem rawToken_of_rest (h : c.rest = tok :: toks) : c.rawToken = tok := by
  rcases c.rest_cases with ⟨hnil, -, -⟩ | ⟨ts, -, -, hcons⟩
  · rw [hnil] at h
    cases h
  · exact (List.cons.inj (hcons.symm.trans h)).1

theorem kind_rawToken_of_nil (h : c.rest = []) : c.rawToken.kind = .eof := by
  rcases c.rest_cases with ⟨-, hkind, -⟩ | ⟨ts, -, -, hcons⟩
  · exact hkind
  · rw [hcons] at h
    cases h

theorem start_rawToken_of_nil (h : c.rest = []) : c.rawToken.span.start = c.finish := by
  rcases c.rest_cases with ⟨-, -, hstart⟩ | ⟨ts, -, -, hcons⟩
  · exact hstart
  · rw [hcons] at h
    cases h

/-- What stands first before the end tokens can be taken. -/
theorem nextRaw?_of_rest (h : c.rest = tok :: toks) : ∃ d hd,
    c.nextRaw? = some ⟨tok, d, hd⟩ ∧ d.rest = toks := by
  obtain rfl := rawToken_of_rest h
  rcases c.rest_cases with ⟨hnil, -, -⟩ | ⟨ts, htokens, hkind, hcons⟩
  · rw [hnil] at h
    cases h
  · obtain ⟨hd, hnext⟩ := nextRaw?_of_tokens htokens hkind
    exact ⟨_, hd, hnext, (List.cons.inj (hcons.symm.trans h)).2⟩

/-- Nothing can be taken where nothing stands before the end tokens. -/
theorem nextRaw?_eq_none_iff : c.nextRaw? = none ↔ c.rest = [] := by
  constructor
  · intro h
    cases hr : c.rest with
    | nil => rfl
    | cons t ts =>
      obtain ⟨d, hd, hnext, -⟩ := nextRaw?_of_rest hr
      rw [hnext] at h
      cases h
  · intro h
    cases hn : c.nextRaw? with
    | none => rfl
    | some s =>
      rw [(shifts_of_nextRaw? hn).rest] at h
      cases h

theorem atEnd_iff : c.atEnd = true ↔ c.rest = [] := by
  rw [atEnd, beq_iff_eq]
  rcases c.rest_cases with ⟨hnil, hkind, -⟩ | ⟨ts, -, hkind, hcons⟩
  · exact ⟨fun _ => hnil, fun _ => hkind⟩
  · rw [hcons]
    exact iff_of_false hkind (List.cons_ne_nil _ _)

theorem atBlockEnd_of_nil (h : c.rest = []) : c.atBlockEnd = true := by
  rw [atBlockEnd, atEnd_iff.mpr h, Bool.or_true]

theorem atBlockEnd_of_cons (h : c.rest = tok :: toks) :
    c.atBlockEnd = (tok.kind == .punctuation .rBrace) := by
  have hend : c.atEnd = false := by
    rw [Bool.eq_false_iff, Ne, atEnd_iff, h]
    exact List.cons_ne_nil _ _
  rw [atBlockEnd, hend, Bool.or_false, rawToken_of_rest h]

/-- A comment is no end token, so none is passed by skipping comments. -/
theorem kind_of_isComment (h : tok.isComment = true) : tok.kind ≠ .eof := by
  rw [beq_iff_eq.mp (show (tok.kind == .comment) = true from h)]
  decide

theorem Reaches.skipComments (c : Cursor) : c.Reaches c.skipComments := by
  refine ⟨⟨c.tokens.takeWhile Token.isComment, List.takeWhile_append_dropWhile.symm, ?_⟩, rfl⟩
  exact fun t ht => kind_of_isComment (List.mem_takeWhile_imp ht)

/-- Once comments are skipped, what comes next is none. -/
theorem isComment_token (c : Cursor) : c.token.isComment = false := by
  rw [token, rawToken, List.headD_eq_head?_getD]
  have hnot := List.head?_dropWhile_not Token.isComment c.tokens
  cases hhead : c.skipComments.tokens.head? with
  | none => rfl
  | some t =>
    rw [show (c.tokens.dropWhile Token.isComment).head? = some t from hhead] at hnot
    simpa using hnot

/-- Skipping comments skips those before the first end token. -/
theorem rest_skipComments (c : Cursor) :
    c.skipComments.rest = c.rest.dropWhile Token.isComment := by
  have hcomments : ∀ t ∈ c.tokens.takeWhile Token.isComment, t.isComment = true :=
    fun t ht => List.mem_takeWhile_imp ht
  have hsplit : c.rest = c.tokens.takeWhile Token.isComment ++ c.skipComments.rest :=
    Reaches.rest_eq List.takeWhile_append_dropWhile.symm
      fun t ht => kind_of_isComment (hcomments t ht)
  rw [hsplit, List.dropWhile_append_of_pos hcomments]
  cases hr : c.skipComments.rest with
  | nil => rfl
  | cons t ts =>
    have ht : t.isComment = false := rawToken_of_rest hr ▸ c.isComment_token
    rw [List.dropWhile_cons_of_neg (by rw [ht]; exact Bool.noConfusion)]

/-! Whatever step is taken leads on, and takes no end token. -/

namespace Reaches

variable {k : TokenKind} {s : Step c.size Token}

theorem nextRaw? (h : c.nextRaw? = some s) : c.Reaches s.rest := (shifts_of_nextRaw? h).reaches

theorem next? (h : c.next? = some s) : c.Reaches s.rest := by
  rw [Cursor.next?, Option.map_eq_some_iff] at h
  obtain ⟨s', hs, rfl⟩ := h
  exact (skipComments c).trans (nextRaw? hs)

theorem comment? (h : c.comment? = some s) : c.Reaches s.rest := by
  rw [Cursor.comment?, Option.filter_eq_some_iff] at h
  exact nextRaw? h.1

theorem accept? (h : c.accept? k = some s) : c.Reaches s.rest := by
  rw [Cursor.accept?, Option.filter_eq_some_iff] at h
  exact next? h.1

theorem take? {α : Type} {f : TokenKind → Option α} {s : Step c.size α} (h : c.take? f = some s) :
    c.Reaches s.rest := by
  unfold Cursor.take? at h
  split at h
  · cases h
  · rename_i t ht
    obtain ⟨a, -, rfl⟩ := Option.map_eq_some_iff.mp h
    exact next? ht

theorem past (c : Cursor) (k : TokenKind) : c.Reaches (c.past k).1 := by
  unfold Cursor.past
  split
  · rename_i s hs
    exact accept? hs
  · exact refl c

end Reaches

/-! ## Terminals -/

variable {t : Terminal} {ts : List Terminal}

/-- The terminals to come. -/
def terminals (c : Cursor) : List Terminal := c.rest.map Token.terminal

theorem isComment_terminal (tok : Token) : tok.terminal.isComment = tok.isComment := rfl

theorem terminals_skipComments (c : Cursor) :
    c.skipComments.terminals = c.terminals.dropWhile Terminal.isComment := by
  rw [terminals, rest_skipComments, terminals, List.dropWhile_map]
  rfl

/-- A cursor before a token proper has no comment to skip. -/
theorem skipComments_eq_self (h : c.rawToken.isComment = false) : c.skipComments = c := by
  obtain ⟨tokens, prevStop, lastStop⟩ := c
  cases tokens with
  | nil => rfl
  | cons t ts =>
    have ht : t.isComment = false := h
    rw [skipComments, List.dropWhile_cons_of_neg (by rw [ht]; exact Bool.noConfusion)]

theorem skipComments_eq (h : c.terminals = t :: ts) (ht : t.isComment = false) :
    c.skipComments = c := by
  obtain ⟨tok, toks, hr, rfl, -⟩ := List.map_eq_cons_iff.mp h
  exact skipComments_eq_self (by rw [rawToken_of_rest hr, ← isComment_terminal, ht])

/-- The class of the next token proper. -/
theorem kind_eq (c : Cursor) : c.kind = Terminal.nextKind c.terminals := by
  rw [kind, Terminal.nextKind, ← terminals_skipComments, terminals]
  cases hr : c.skipComments.rest with
  | nil => exact kind_rawToken_of_nil hr
  | cons tok toks => exact congrArg Token.kind (rawToken_of_rest hr)

theorem nextRaw?_eq (h : c.terminals = t :: ts) : ∃ sp d hd,
    c.nextRaw? = some ⟨⟨t.kind, t.text, sp⟩, d, hd⟩ ∧ d.terminals = ts := by
  obtain ⟨tok, toks, hr, rfl, rfl⟩ := List.map_eq_cons_iff.mp h
  obtain ⟨d, hd, hnext, rfl⟩ := nextRaw?_of_rest hr
  exact ⟨tok.span, d, hd, hnext, rfl⟩

theorem next?_eq (h : c.terminals = t :: ts) (ht : t.isComment = false) : ∃ sp d hd,
    c.next? = some ⟨⟨t.kind, t.text, sp⟩, d, hd⟩ ∧ d.terminals = ts := by
  have hs : c.skipComments.terminals = t :: ts := by rw [skipComments_eq h ht, h]
  obtain ⟨sp, d, hd, hn, hts⟩ := nextRaw?_eq hs
  exact ⟨sp, d, _, by rw [next?, hn]; rfl, hts⟩

/-- What comes next proper is the token that the cursor is before. -/
theorem token_of_next? {s : Step c.size Token} (h : c.next? = some s) : s.value = c.token := by
  rw [next?, Option.map_eq_some_iff] at h
  obtain ⟨s', hs, rfl⟩ := h
  exact (rawToken_of_rest (shifts_of_nextRaw? hs).rest).symm

/-- What comes next, if anything does, is of the class that comes next. -/
theorem kind_of_next? {s : Step c.size Token} (h : c.next? = some s) :
    s.value.kind = Terminal.nextKind c.terminals := by
  rw [token_of_next? h, ← kind_eq]
  rfl

theorem accept?_eq {k : TokenKind} (h : c.terminals = t :: ts) (hk : t.kind = k)
    (hc : k ≠ .comment) : ∃ sp d hd,
    c.accept? k = some ⟨⟨t.kind, t.text, sp⟩, d, hd⟩ ∧ d.terminals = ts := by
  have ht : t.isComment = false := by
    rw [Terminal.isComment, beq_eq_false_iff_ne, hk]
    exact hc
  obtain ⟨sp, d, hd, hn, hts⟩ := next?_eq h ht
  refine ⟨sp, d, hd, ?_, hts⟩
  rw [accept?, hn]
  exact Option.filter_some_pos (decide_eq_true hk)

theorem accept?_eq_none {k : TokenKind} (h : Terminal.nextKind c.terminals ≠ k) :
    c.accept? k = none := by
  rw [accept?, Option.filter_eq_none_iff]
  intro s hs
  rw [kind_of_next? hs, decide_eq_true_eq]
  exact h

theorem expect_eq {k : TokenKind} (h : c.terminals = t :: ts) (hk : t.kind = k)
    (hc : k ≠ .comment) : ∃ sp d hd,
    c.expect k = .ok ⟨⟨t.kind, t.text, sp⟩, d, hd⟩ ∧ d.terminals = ts := by
  obtain ⟨sp, d, hd, ha, hts⟩ := accept?_eq h hk hc
  exact ⟨sp, d, hd, by rw [expect, ha], hts⟩

theorem take?_eq {α : Type} {f : TokenKind → Option α} {a : α} (h : c.terminals = t :: ts)
    (ht : t.isComment = false) (hf : f t.kind = some a) : ∃ d hd,
    c.take? f = some ⟨a, d, hd⟩ ∧ d.terminals = ts := by
  obtain ⟨sp, d, hd, hn, hts⟩ := next?_eq h ht
  refine ⟨d, hd, ?_, hts⟩
  rw [take?, hn]
  show (f t.kind).map _ = _
  rw [hf]
  rfl

theorem take?_eq_none {α : Type} {f : TokenKind → Option α}
    (h : f (Terminal.nextKind c.terminals) = none) : c.take? f = none := by
  unfold take?
  split
  · rfl
  · rename_i s hs
    rw [kind_of_next? hs, h]
    rfl

theorem terminals_past {k : TokenKind} (h : c.terminals = t :: ts) (hk : t.kind = k)
    (hc : k ≠ .comment) : (c.past k).1.terminals = ts := by
  obtain ⟨sp, d, hd, ha, hts⟩ := accept?_eq h hk hc
  rw [past, ha]
  exact hts

theorem comment?_eq (h : c.terminals = t :: ts) (ht : t.isComment = true) : ∃ sp d hd,
    c.comment? = some ⟨⟨t.kind, t.text, sp⟩, d, hd⟩ ∧ d.terminals = ts := by
  obtain ⟨sp, d, hd, hn, hts⟩ := nextRaw?_eq h
  refine ⟨sp, d, hd, ?_, hts⟩
  rw [comment?, hn]
  exact Option.filter_some_pos ht

theorem comment?_eq_none (h : c.terminals = t :: ts) (ht : t.isComment = false) :
    c.comment? = none := by
  obtain ⟨sp, d, hd, hn, -⟩ := nextRaw?_eq h
  rw [comment?, hn]
  exact Option.filter_some_neg ht

theorem atBlockEnd_eq (h : c.terminals = t :: ts) :
    c.atBlockEnd = (t.kind == .punctuation .rBrace) := by
  obtain ⟨tok, toks, hr, rfl, rfl⟩ := List.map_eq_cons_iff.mp h
  exact atBlockEnd_of_cons hr

/-! ## The start of a text -/

/-- Reading starts before the first end token. -/
theorem rest_ofTokens_eq (ts : List Token) :
    (ofTokens ts).rest = ts.takeWhile (·.kind ≠ .eof) := rfl

section

variable {before : List Token} {last : Token}

/-- The tokens that are read are those before the first end token. -/
theorem rest_ofTokens (h : ∀ t ∈ before, t.kind ≠ .eof) (hlast : last.kind = .eof)
    (behind : List Token) : (ofTokens (before ++ last :: behind)).rest = before := by
  rw [rest_ofTokens_eq, List.takeWhile_append_of_pos fun t ht => decide_eq_true (h t ht),
    List.takeWhile_cons_of_neg (by simpa using hlast), List.append_nil]

/-- A text ends where its first end token stands. -/
theorem finish_ofTokens (h : ∀ t ∈ before, t.kind ≠ .eof) (hlast : last.kind = .eof)
    (behind : List Token) : (ofTokens (before ++ last :: behind)).finish = last.span.start := by
  have hnone : before.find? (fun t => decide (t.kind = .eof)) = none :=
    List.find?_eq_none.mpr fun t ht => by simpa using h t ht
  rw [finish, ofTokens, List.find?_append, hnone, Option.none_or,
    List.find?_cons_of_pos (by simpa using hlast)]
  rfl

end

end Cursor

end CurlyScript
