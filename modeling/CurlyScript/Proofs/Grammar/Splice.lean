import CurlyScript.Proofs.Grammar.Owned
import CurlyScript.Proofs.Grammar.Reread
import CurlyScript.Proofs.Grammar.Trailing

/-
  Splices: one sign put in or left out.

  At some place in the tokens stands a token that may end something, a semicolon or a sign that
  closes (`k.mark`).  A semicolon is left out there, or a comma is put in before a closing sign.
  A cursor in the tokens and its counterpart in the tokens that are spliced have the same tokens to
  come up to the place, or they are both past it (`k.Meets`).

  So they only ever see different things where the mark comes next (`k.At`).  Reading there takes
  one of few turns, and `k.Fits` says of the splice what each of them needs.  A node that takes the
  mark for itself owns it, and `k.Clears` says of the nodes that own it that they can do without
  (`k.Allows`).  `k.Carries` says of a reading that it goes the same way in the tokens that are
  spliced, from cursors that meet to cursors that meet.
-/

namespace CurlyScript

open Writing

/-- Whether a sign ends a statement, or what a bracket opened. -/
def TokenKind.isEnd : TokenKind → Bool
  | punctuation p => p = .semicolon || p = .rParen || p = .rBracket || p = .rBrace
  | _ => false

theorem TokenKind.beginsStatement_of_expression {k : TokenKind} (h : k.beginsExpression = true) :
    k.beginsStatement = true := by
  rw [beginsStatement, h]
  rfl

/-- No statement begins with a sign that ends something. -/
theorem TokenKind.isEnd_eq_false {k : TokenKind} (h : k.beginsStatement = true) :
    k.isEnd = false := by
  cases k with
  | punctuation p => cases p <;> first | rfl | exact Bool.noConfusion h
  | _ => rfl

/-- A place in a list of tokens, and what stands there instead. -/
structure Splice where
  /-- The tokens before the place. -/
  before : List Token
  /-- The token at the place. -/
  mark : Token
  /-- The tokens after it. -/
  after : List Token
  /-- What stands instead of the token and those after it. -/
  instead : List Token

namespace Splice

variable (k : Splice)

/-- All of the tokens. -/
def tokens : List Token := k.before ++ k.mark :: k.after

/-- The class of what comes next at the place, once the tokens are spliced. -/
def next : TokenKind := Terminal.nextKind (k.instead.map Token.terminal)

/-- What comes next then makes no operand longer. -/
def Quiet : Prop := k.next.isPostfix = false

/-- The mark comes next. -/
def At (c : Cursor) : Prop := c.rest = k.mark :: k.after

/-- The second cursor is in the spliced tokens where the first is in the tokens. -/
inductive Meets (c c' : Cursor) : Prop where
  | ahead (ts : List Token) (hc : c.rest = ts ++ k.mark :: k.after)
    (hc' : c'.rest = ts ++ k.instead) : Meets c c'
  | past (hc : c.rest <:+ k.after) (hc' : c'.rest = c.rest) : Meets c c'

/-- Parts that may own the mark, since they can do with what stands there instead. -/
def Allows : Part → Prop
  | .statement (.decl (.mk _ _ _ init)) => init.isSome = true → k.Quiet
  | .statement (.ret _ none) => k.next.beginsExpression = false
  | .statement (.ret _ (some _)) | .statement (.expr _ _) => k.Quiet
  | .statement (.function _ _ _ _) | .expr (.arrow _ _ _) => k.mark.kind ≠ .punctuation .rBrace
  | .expr (.call _ _ _) | .expr (.object _ _) | .expr (.array _ _) => True
  | _ => False

/-- If the part or one below it owns the mark, then one that may. -/
def Clears (a : Part) : Prop := ∀ b, a.Below b → b.Owns k.mark.span → k.Allows b

/-- A splice that keeps the nodes apart, and in one of the two ways: a semicolon is left out, or a
    comma is put in before a closing sign that stands after the last item of a list. -/
structure Fits : Prop where
  plain : ∀ t ∈ k.tokens, t.isComment = false
  plain_instead : ∀ t ∈ k.instead, t.isComment = false
  order : InOrder k.tokens
  isEnd : k.mark.kind.isEnd = true
  binary : k.next.binary? = none
  assign : k.next.assign? = none
  arrow : k.next ≠ .punctuation .fatArrow
  semicolon : k.next ≠ .punctuation .semicolon
  dropped : k.mark.kind = .punctuation .semicolon → k.instead = k.after
  added : k.mark.kind ≠ .punctuation .semicolon →
    ∃ comma, comma.kind = .punctuation .comma ∧ k.instead = comma :: k.mark :: k.after
  previous : k.mark.kind ≠ .punctuation .semicolon →
    ∀ t ∈ k.before.getLast?, t.kind.endsExpression = true

/-- Reading that gives a value and comes to `d` goes the same way from a cursor that meets `c` to one
    that meets `d`, and gives what is described by `same`. -/
def Carries {α : Type} (given : Prop) (same : α → Prop) (y : Cursor → α → Cursor → Prop)
    (c d : Cursor) : Prop :=
  given → ∀ c', k.Meets c c' → ∃ v' d', same v' ∧ k.Meets d d' ∧ y c' v' d'

variable {k : Splice} {a b : Part} {c c' d e f : Cursor} {t u : Token} {ts : List Token}
  {j : TokenKind}

theorem Clears.child (h : k.Clears a) (hb : b ∈ a.children) : k.Clears b :=
  fun x hx => h x (.step hb hx)

/-- The owner of the mark is one that may be. -/
theorem Clears.allows (h : k.Clears a) (ha : a.Owns k.mark.span) : k.Allows a := h a (.refl a) ha

theorem next_eq (hinstead : k.instead = t :: ts) (ht : t.isComment = false) : k.next = t.kind := by
  rw [next, hinstead, List.map_cons, Terminal.nextKind_cons ((Cursor.isComment_terminal t).trans ht)]
  rfl

/-! ## Where the mark comes next -/

theorem At.kind_eq (h : k.At c) (hk : k.Fits) : c.kind = k.mark.kind := by
  have hmark : k.mark.isComment = false :=
    hk.plain k.mark (List.mem_append_right k.before List.mem_cons_self)
  rw [Cursor.kind, Cursor.token_cons h hmark]

theorem not_at_of_kind (hk : k.Fits) (h : c.kind.isEnd = false) : ¬k.At c := by
  intro hat
  rw [hat.kind_eq hk, hk.isEnd] at h
  exact Bool.noConfusion h

theorem not_at_of_suffix (h : c.rest <:+ k.after) : ¬k.At c := by
  intro hat
  have hle := h.length_le
  rw [hat, List.length_cons] at hle
  omega

/-- Before the tokens after the mark the mark stands. -/
theorem eq_mark (h : t :: k.after <:+ k.tokens) : t = k.mark := by
  obtain ⟨front, hfront⟩ := h
  rw [tokens] at hfront
  exact (List.cons.inj (List.append_inj_right' hfront rfl)).1

/-- The token before the mark. -/
theorem mem_getLast? (hc : c.On k.tokens) (hr : c.rest = t :: d.rest) (hd : k.At d) :
    t ∈ k.before.getLast? := by
  obtain ⟨front, hfront⟩ := hc.2
  rw [hr, hd, tokens] at hfront
  have hbefore : front ++ [t] = k.before := by
    refine (List.append_left_inj (k.mark :: k.after)).mp ?_
    rw [List.append_assoc]
    exact hfront
  rw [← hbefore, List.getLast?_append]
  rfl

/-- After a sign with which no expression ends no closing sign is the mark. -/
theorem Fits.not_at_after (hk : k.Fits) (hc : c.On k.tokens) (hr : c.rest = t :: d.rest)
    (ht : t.kind.endsExpression = false) (hmark : k.mark.kind ≠ .punctuation .semicolon) :
    ¬k.At d := by
  intro hat
  have hends := hk.previous hmark t (mem_getLast? hc hr hat)
  rw [ht] at hends
  exact Bool.noConfusion hends

/-- A comma makes no operand longer. -/
theorem Fits.quiet (hk : k.Fits) (h : k.mark.kind ≠ .punctuation .semicolon) : k.Quiet := by
  obtain ⟨comma, hcomma, hinstead⟩ := hk.added h
  rw [Quiet, next_eq hinstead (by rw [Token.isComment, hcomma]; rfl), hcomma]
  rfl

theorem Fits.tidy (hk : k.Fits) (hc : c.On k.tokens) : c.Tidy := hk.order.sublist hc.2.sublist

/-! ## Cursors that meet -/

namespace Meets

theorem rest_eq_instead (h : k.Meets c c') (hat : k.At c) : c'.rest = k.instead := by
  cases h with
  | ahead ts hc hc' =>
    rw [hat] at hc
    have hnil : [] = ts := List.append_cancel_right hc
    rw [hc', ← hnil, List.nil_append]
  | past hc _ => exact absurd hat (not_at_of_suffix hc)

theorem kind_eq_next (h : k.Meets c c') (hat : k.At c) : c'.kind = k.next := by
  rw [Cursor.kind_eq, Cursor.terminals, h.rest_eq_instead hat, next]

/-- But where the mark comes next, the same comes next. -/
theorem rest_eq_cons (h : k.Meets c c') (hat : ¬k.At c) (hr : c.rest = t :: ts) :
    ∃ ts', c'.rest = t :: ts' ∧ ∀ d d' : Cursor, d.rest = ts → d'.rest = ts' → k.Meets d d' := by
  cases h with
  | ahead us hc hc' =>
    cases us with
    | nil => exact absurd hc hat
    | cons u us =>
      rw [hr] at hc
      obtain ⟨rfl, rfl⟩ := List.cons.inj hc
      exact ⟨us ++ k.instead, hc', fun d d' hd hd' => .ahead us hd hd'⟩
  | past hc hc' =>
    refine ⟨ts, hc'.trans hr, fun d d' hd hd' => .past ?_ (hd'.trans hd.symm)⟩
    rw [hr] at hc
    rw [hd]
    exact (List.suffix_cons t ts).trans hc

theorem rest_eq_nil (h : k.Meets c c') (hr : c.rest = []) : c'.rest = [] := by
  cases h with
  | ahead us hc _ =>
    rw [hr] at hc
    exact absurd hc.symm (List.append_ne_nil_of_right_ne_nil us (List.cons_ne_nil _ _))
  | past _ hc' => exact hc'.trans hr

theorem kind_eq (h : k.Meets c c') (hc : c.Plain) (hat : ¬k.At c) : c'.kind = c.kind := by
  cases hr : c.rest with
  | nil =>
    rw [Cursor.kind_eq, Cursor.kind_eq, Cursor.terminals, Cursor.terminals, h.rest_eq_nil hr, hr]
  | cons t ts =>
    have ht : t.isComment = false := hc t (hr ▸ List.mem_cons_self)
    obtain ⟨ts', hr', -⟩ := h.rest_eq_cons hat hr
    rw [Cursor.kind, Cursor.kind, Cursor.token_cons hr ht, Cursor.token_cons hr' ht]

theorem atBlockEnd (h : k.Meets c c') (hat : ¬k.At c) : c'.atBlockEnd = c.atBlockEnd := by
  cases hr : c.rest with
  | nil => rw [Cursor.atBlockEnd_of_nil hr, Cursor.atBlockEnd_of_nil (h.rest_eq_nil hr)]
  | cons t ts =>
    obtain ⟨ts', hr', -⟩ := h.rest_eq_cons hat hr
    rw [Cursor.atBlockEnd_of_cons hr, Cursor.atBlockEnd_of_cons hr']

/-- What really comes next is no comment. -/
theorem isComment_rawToken (h : k.Meets c c') (hc : c.Plain) (hat : ¬k.At c) :
    c'.rawToken.isComment = false := by
  cases hr : c.rest with
  | nil =>
    rw [Token.isComment, Cursor.kind_rawToken_of_nil (h.rest_eq_nil hr)]
    rfl
  | cons t ts =>
    obtain ⟨ts', hr', -⟩ := h.rest_eq_cons hat hr
    rw [Cursor.rawToken_of_rest hr']
    exact hc t (hr ▸ List.mem_cons_self)

theorem comment?_eq_none (h : k.Meets c c') (hc : c.Plain) (hat : ¬k.At c) :
    c'.comment? = none :=
  Cursor.comment?_of_proper (h.isComment_rawToken hc hat)

theorem skipComments_eq (h : k.Meets c c') (hc : c.Plain) (hat : ¬k.At c) :
    c'.skipComments = c' :=
  Cursor.skipComments_eq_self (h.isComment_rawToken hc hat)

theorem next? (h : k.Meets c c') (hc : c.Plain) (hat : ¬k.At c) {hd : d.size < c.size}
    (hnext : c.next? = some ⟨t, d, hd⟩) : ∃ d', k.Meets d d' ∧ Finds t d' c'.next? := by
  have hr := (hc.eq_of_next? hnext).1
  have ht : t.isComment = false := hc t (hr ▸ List.mem_cons_self)
  obtain ⟨ts', hr', hmeets⟩ := h.rest_eq_cons hat hr
  obtain ⟨d', hnext', hd', -⟩ := Cursor.next?_of_rest hr' ht
  exact ⟨d', hmeets d d' rfl hd', hnext'⟩

theorem take? {α : Type} {g : TokenKind → Option α} {v : α} (h : k.Meets c c') (hc : c.Plain)
    (hat : ¬k.At c) {hd : d.size < c.size} (htake : c.take? g = some ⟨v, d, hd⟩) :
    ∃ d', k.Meets d d' ∧ Finds v d' (c'.take? g) := by
  unfold Cursor.take? at htake
  split at htake
  · cases htake
  · rename_i s hs
    obtain ⟨x, hx, heq⟩ := Option.map_eq_some_iff.mp htake
    obtain ⟨t, e, he⟩ := s
    obtain ⟨rfl, rfl⟩ : x = v ∧ e = d := by simpa using heq
    obtain ⟨d', hmeets, hlt, hnext⟩ := h.next? hc hat hs
    refine ⟨d', hmeets, hlt, ?_⟩
    rw [Cursor.take?, hnext]
    exact congrArg (Option.map _) hx

theorem accept?_eq_none (h : k.Meets c c') (hc : c.Plain) (hat : ¬k.At c)
    (hnone : c.accept? j = none) (hj : j ≠ .eof) : c'.accept? j = none := by
  refine Cursor.accept?_eq_none_of_kind ?_
  rw [h.kind_eq hc hat]
  exact Cursor.kind_ne_of_accept?_eq_none hnone hj

theorem take?_eq_none {α : Type} {g : TokenKind → Option α} (h : k.Meets c c') (hc : c.Plain)
    (hat : ¬k.At c) (hnone : c.take? g = none) (hg : g .eof = none) : c'.take? g = none := by
  refine Cursor.take?_eq_none_of_kind ?_
  rw [h.kind_eq hc hat]
  exact Cursor.eq_none_of_take?_eq_none hnone hg

/-- Where no such sign comes next, none comes next in the spliced tokens. -/
theorem accept?_eq_none_of_next (h : k.Meets c c') (hc : c.Plain) (hnext : k.next ≠ j)
    (hnone : c.accept? j = none) (hj : j ≠ .eof) : c'.accept? j = none := by
  by_cases hat : k.At c
  · refine Cursor.accept?_eq_none_of_kind ?_
    rw [h.kind_eq_next hat]
    exact hnext
  · exact h.accept?_eq_none hc hat hnone hj

theorem take?_eq_none_of_next {α : Type} {g : TokenKind → Option α} (h : k.Meets c c')
    (hc : c.Plain) (hnext : g k.next = none) (hnone : c.take? g = none) (hg : g .eof = none) :
    c'.take? g = none := by
  by_cases hat : k.At c
  · refine Cursor.take?_eq_none_of_kind ?_
    rw [h.kind_eq_next hat]
    exact hnext
  · exact h.take?_eq_none hc hat hnone hg

end Meets

/-! ## Tokens that are taken -/

/-- A token of class `j` is taken at `c`, and at a cursor that meets it unless it is the mark. -/
structure Taken (k : Splice) (c : Cursor) (j : TokenKind) (t : Token) (d : Cursor) : Prop where
  on : d.On k.tokens
  rest : c.rest = t :: d.rest
  kind : t.kind = j
  passes : c.Passes (Writing.one j) d
  again : ¬k.At c → ∀ c', k.Meets c c' → ∃ d', k.Meets d d' ∧ Finds t d' (c'.accept? j)

theorem taken_of_accept? (hc : c.On k.tokens) {hd : d.size < c.size}
    (h : c.accept? j = some ⟨t, d, hd⟩) : k.Taken c j t d := by
  have hpasses := Cursor.Passes.accept? h
  rw [Cursor.accept?, Option.filter_eq_some_iff] at h
  have hr := (hc.plain.eq_of_next? h.1).1
  refine ⟨hc.of_suffix (hr ▸ List.suffix_cons t d.rest), hr, of_decide_eq_true h.2, hpasses,
    fun hat c' hm => ?_⟩
  obtain ⟨d', hmeets, hlt, hnext⟩ := hm.next? hc.plain hat h.1
  refine ⟨d', hmeets, hlt, ?_⟩
  rw [Cursor.accept?, hnext]
  exact Option.filter_some_pos h.2

theorem gives_expect_taken (hc : c.On k.tokens) (j : TokenKind) :
    Gives (k.Taken c j) (c.expect j) := by
  rw [Cursor.expect]
  split
  · rename_i s hs
    obtain ⟨t, d, hd⟩ := s
    exact .ok (taken_of_accept? hc hs) _
  · exact .error _

namespace Taken

variable (h : k.Taken c j t d)

include h

/-- What is no end is not the mark. -/
theorem not_at (hk : k.Fits) (hj : j.isEnd = false) : ¬k.At c := by
  intro hat
  have hmark : t = k.mark := (List.cons.inj (h.rest.symm.trans hat)).1
  have hend := hk.isEnd
  rw [← hmark, h.kind, hj] at hend
  exact Bool.noConfusion hend

/-- If the mark was taken, the tokens after it are to come. -/
theorem of_at (hat : k.At c) : d.rest = k.after ∧ k.mark.kind = j := by
  obtain ⟨hmark, hrest⟩ := List.cons.inj (h.rest.symm.trans hat)
  exact ⟨hrest, hmark ▸ h.kind⟩

/-- The same token is taken where it is demanded. -/
theorem expect (hat : ¬k.At c) (hm : k.Meets c c') :
    ∃ d', k.Meets d d' ∧ Arrives t d' (c'.expect j) := by
  obtain ⟨d', hmeets, hlt, haccept⟩ := h.again hat c' hm
  refine ⟨d', hmeets, hlt, ?_⟩
  rw [Cursor.expect, haccept]

end Taken

/-- If the mark comes next, and not any more past the semicolon, then it was the semicolon. -/
theorem At.rest_past (hat : k.At c) (hc : c.On k.tokens)
    (hend : ¬k.At (c.past (.punctuation .semicolon)).1) :
    (c.past (.punctuation .semicolon)).1.rest = k.after ∧
      k.mark.kind = .punctuation .semicolon := by
  unfold Cursor.past at hend ⊢
  split at hend
  · rename_i s hs
    obtain ⟨t, d, hd⟩ := s
    exact (taken_of_accept? hc hs).of_at hat
  · exact absurd hat hend

/-- A semicolon that may end a statement.  If it is the mark, it is left out. -/
theorem Meets.past_semicolon (hk : k.Fits) (h : k.Meets c c') (hc : c.On k.tokens)
    (hend : ¬k.At (c.past (.punctuation .semicolon)).1) :
    k.Meets (c.past (.punctuation .semicolon)).1 (c'.past (.punctuation .semicolon)).1 := by
  by_cases hat : k.At c
  · obtain ⟨hrest, hkind⟩ := hat.rest_past hc hend
    have hstays : c'.accept? (.punctuation .semicolon) = none := by
      refine Cursor.accept?_eq_none_of_kind ?_
      rw [h.kind_eq_next hat]
      exact hk.semicolon
    have hsame : (c'.past (.punctuation .semicolon)).1 = c' := by rw [Cursor.past, hstays]
    rw [hsame]
    refine .past (hrest ▸ List.suffix_rfl) ?_
    rw [h.rest_eq_instead hat, hk.dropped hkind, hrest]
  · unfold Cursor.past
    split
    · rename_i s hs
      obtain ⟨t, d, hd⟩ := s
      obtain ⟨d', hmeets, hlt, haccept⟩ := (taken_of_accept? hc hs).again hat c' h
      rw [haccept]
      exact hmeets
    · rename_i hnone
      rw [h.accept?_eq_none hc.plain hat hnone (by rintro ⟨⟩)]
      exact h

end Splice

namespace Grammar

open Splice

variable {k : Splice} {n : Nat} {α : Type}

/-- A rule that goes on by another one after its first token is carried if that one is. -/
theorem carries_of_next {given : α → Cursor → Prop} {same : α → α → Prop}
    {rule : (c : Cursor) → Read (Step c.size α)} {c d : Cursor} {t : Token} {hd : d.size < c.size}
    (hk : k.Fits) (hc : c.Plain) (hnext : c.next? = some ⟨t, d, hd⟩) (hend : t.kind.isEnd = false)
    (y : (n : Nat) → (c : Cursor) → c.size < n → Read (Step n α))
    (hy : ∀ {c' d'} {hlt : d'.size < c'.size}, c'.comment? = none →
      c'.next? = some ⟨t, d', hlt⟩ → rule c' = y _ d' hlt) {x : Read (Step c.size α)}
    (hx : Gives (fun v e => k.Carries (given v e) (same v)
      (fun d v e => ∀ n h, Arrives v e (y n d h)) d e) x) :
    Gives (fun v e => k.Carries (given v e) (same v) (fun c v e => Arrives v e (rule c)) c e) x := by
  refine hx.mono fun v e hv hgiven c' hm => ?_
  have hat : ¬k.At c := by
    refine not_at_of_kind hk ?_
    rw [Cursor.kind, ← Cursor.token_of_next? hnext]
    exact hend
  obtain ⟨d', hmd, hlt, hnext'⟩ := hm.next? hc hat hnext
  obtain ⟨v', e', hsame, hme, hread⟩ := hv hgiven d' hmd
  refine ⟨v', e', hsame, hme, ?_⟩
  show Arrives v' e' (rule c')
  rw [hy (hm.comment?_eq_none hc hat) hnext']
  exact hread _ hlt

/-- A name is read again as it is. -/
theorem gives_name_carried {c : Cursor} (hk : k.Fits) (hc : c.On k.tokens) :
    Gives (fun s d => (c.Passes (Writing.name s) d ∧ d.On k.tokens ∧ ¬k.At c) ∧
        ∀ c', k.Meets c c' → ∃ d', k.Meets d d' ∧ Arrives s d' (name c')) (name c) := by
  have hagain : Gives (fun s d => (d.On k.tokens ∧ ¬k.At c) ∧
      ∀ c', k.Meets c c' → ∃ d', k.Meets d d' ∧ Arrives s d' (name c')) (name c) := by
    refine (gives_expect_taken hc .ident).map fun t d ht => ?_
    have hat : ¬k.At c := ht.not_at hk rfl
    refine ⟨⟨ht.on, hat⟩, fun c' hm => ?_⟩
    obtain ⟨d', hmeets, harrives⟩ := ht.expect hat hm
    exact ⟨d', hmeets, harrives.map⟩
  exact ((gives_name c).and hagain).mono fun s d h => ⟨⟨h.1, h.2.1⟩, h.2.2⟩

/-! ## Lists -/

/-- A list is carried if its items are.  If the mark closes it, a comma stands there now. -/
theorem gives_delimited_carried (hk : k.Fits) (close : Punctuation)
    (hsemicolon : close ≠ .semicolon)
    {item : (n : Nat) → (c : Cursor) → c.size < n → Read (Step c.size α)} {same : α → α → Prop}
    {ok : α → Prop}
    (hitem : ∀ c h, c.On k.tokens → Gives (fun x d => (d.On k.tokens ∧ ¬k.At c) ∧
      k.Carries ((k.At d → k.Quiet) ∧ ok x) (same x)
        (fun c x d => ∀ n h, Arrives x d (item n c h)) c d) (item n c h))
    (comma : Bool) (c : Cursor) (h : c.size < n) (hc : c.On k.tokens)
    (hstart : k.mark.kind ≠ .punctuation .semicolon → ¬k.At c) :
    Gives (fun l d => d.On k.tokens ∧ k.Carries (∀ x ∈ l.1, ok x)
        (fun l' => List.Forall₂ same l.1 l'.1 ∧ (d.rest ≠ k.after → l'.2 = l.2))
        (fun c l d => ∀ n h, Arrives l d (delimited close (item n) comma c h)) c d)
      (delimited close (item n) comma c h) := by
  have hkind : k.mark.kind = .punctuation close → k.mark.kind ≠ .punctuation .semicolon := by
    rintro heq hmark
    exact hsemicolon (TokenKind.punctuation.inj (heq.symm.trans hmark))
  -- on the tokens left
  induction hsize : c.size using Nat.strongRecOn generalizing c comma with
  | ind m ih =>
    subst hsize
    rw [delimited]
    split
    · rename_i s hs
      obtain ⟨t, d, hd⟩ := s
      have hclose : k.Taken c (.punctuation close) t d := taken_of_accept? hc hs
      have hat : ¬k.At c := fun hat => hstart (hkind (hclose.of_at hat).2) hat
      refine .ok ⟨hclose.on, fun _ c' hm => ?_⟩ _
      obtain ⟨d', hmeets, hlt, haccept⟩ := hclose.again hat c' hm
      refine ⟨([], comma), d', ⟨.nil, fun _ => rfl⟩, hmeets, fun n h => ?_⟩
      rw [delimited, haccept]
      exact .ok _
    · rename_i hnone
      refine (hitem c h hc).bind fun x d hd hx => ?_
      obtain ⟨⟨hd', hat⟩, hagain⟩ := hx
      have hopen : ∀ {c'}, k.Meets c c' → c'.accept? (.punctuation close) = none :=
        fun hm => hm.accept?_eq_none hc.plain hat hnone (by rintro ⟨⟩)
      dsimp only
      split
      · rename_i hnocomma
        refine (gives_expect_taken hd' (.punctuation close)).bind fun t e he hclose => ?_
        refine .ok ⟨hclose.on, fun hok c' hm => ?_⟩ _
        have hgood := hok x List.mem_cons_self
        by_cases hatd : k.At d
        · -- the mark closes the list, and a comma comes before it
          obtain ⟨hrest, hmark⟩ := hclose.of_at hatd
          have hclosing := hkind hmark
          obtain ⟨sign, hsign, hinstead⟩ := hk.added hclosing
          obtain ⟨x', d', hxx, hmeets, hread⟩ := hagain ⟨fun _ => hk.quiet hclosing, hgood⟩ c' hm
          have hproper : ∀ u ∈ k.instead, u.isComment = false := hk.plain_instead
          rw [hinstead] at hproper
          obtain ⟨f, ⟨hlt₁, hfound⟩, hf, -⟩ := Cursor.accept?_of_rest
            ((hmeets.rest_eq_instead hatd).trans hinstead) (hproper sign List.mem_cons_self) hsign
          obtain ⟨g, ⟨hlt₂, hlast⟩, hg, -⟩ := Cursor.accept?_of_rest hf
            (hproper k.mark (List.mem_cons_of_mem sign List.mem_cons_self)) hmark
          refine ⟨([x'], true), g, ⟨.cons hxx .nil, fun hne => absurd hrest hne⟩,
            .past (hrest ▸ List.suffix_rfl) (hg.trans hrest.symm), fun n h => ?_⟩
          rw [delimited, hopen hm]
          refine (hread n h).bind fun _ => ?_
          dsimp only
          rw [hfound]
          dsimp only
          rw [delimited, hlast]
          exact .ok _
        · obtain ⟨x', d', hxx, hmeets, hread⟩ :=
            hagain ⟨fun hatd' => absurd hatd' hatd, hgood⟩ c' hm
          obtain ⟨e', hmeets', hclose'⟩ := hclose.expect hatd hmeets
          refine ⟨([x'], false), e', ⟨.cons hxx .nil, fun _ => rfl⟩, hmeets', fun n h => ?_⟩
          rw [delimited, hopen hm]
          refine (hread n h).bind fun _ => ?_
          dsimp only
          rw [hmeets.accept?_eq_none hd'.plain hatd hnocomma (by rintro ⟨⟩)]
          exact hclose'.bind fun _ => .ok _
      · rename_i t e he hsep
        have hsign : k.Taken d (.punctuation .comma) t e := taken_of_accept? hd' hsep
        have hatd : ¬k.At d := hsign.not_at hk rfl
        have hstart' : k.mark.kind ≠ .punctuation .semicolon → ¬k.At e :=
          hk.not_at_after hd' hsign.rest (by rw [hsign.kind]; rfl)
        refine (ih e.size (by omega) true e _ hsign.on hstart' rfl).bind ?_
        rintro ⟨xs, last⟩ f hf ⟨hf', hmore⟩
        refine .ok ⟨hf', fun hok c' hm => ?_⟩ _
        obtain ⟨hgood, hgoods⟩ := List.forall_mem_cons.mp hok
        obtain ⟨x', d', hxx, hmeets, hread⟩ :=
          hagain ⟨fun hatd' => absurd hatd' hatd, hgood⟩ c' hm
        obtain ⟨e', hmeets', hlt, hsep'⟩ := hsign.again hatd d' hmeets
        obtain ⟨⟨xs', last'⟩, f', hxs, hmeets'', hread'⟩ := hmore hgoods e' hmeets'
        refine ⟨(x' :: xs', last'), f', ⟨.cons hxx hxs.1, hxs.2⟩, hmeets'', fun n h => ?_⟩
        rw [delimited, hopen hm]
        refine (hread n h).bind fun _ => ?_
        dsimp only
        rw [hsep']
        exact (hread' n _).bind fun _ => .ok _

/-- A block is carried if its lines are, and if the mark does not close it. -/
theorem gives_untilBrace_carried
    {item : (n : Nat) → (c : Cursor) → c.size < n → Read (Step c.size α)} {same : α → α → Prop}
    {ok : α → Prop}
    (hitem : ∀ c h, c.On k.tokens → Gives (fun x d => (d.On k.tokens ∧ ¬k.At c) ∧
      k.Carries (¬k.At d ∧ ok x) (same x) (fun c x d => ∀ n h, Arrives x d (item n c h)) c d)
      (item n c h))
    (c : Cursor) (h : c.size < n) (hc : c.On k.tokens) :
    Gives (fun l d => (d.On k.tokens ∧ (k.At c → d.rest = k.after ∧
          k.mark.kind = .punctuation .rBrace)) ∧
        k.Carries (d.rest ≠ k.after ∧ ∀ x ∈ l, ok x) (List.Forall₂ same l)
          (fun c l d => ∀ n h, Arrives l d (untilBrace (item n) c h)) c d)
      (untilBrace (item n) c h) := by
  induction hsize : c.size using Nat.strongRecOn generalizing c with
  | ind m ih =>
    subst hsize
    rw [untilBrace]
    split
    · rename_i hend
      refine (gives_expect_taken hc (.punctuation .rBrace)).bind fun t d hd hclose => ?_
      refine .ok ⟨⟨hclose.on, hclose.of_at⟩, fun hok c' hm => ?_⟩ _
      have hat : ¬k.At c := fun hat => hok.1 (hclose.of_at hat).1
      obtain ⟨d', hmeets, hclose'⟩ := hclose.expect hat hm
      refine ⟨[], d', .nil, hmeets, fun n h => ?_⟩
      rw [untilBrace, hm.atBlockEnd hat, if_pos hend]
      exact hclose'.bind fun _ => .ok _
    · rename_i hend
      refine (hitem c h hc).bind fun x d hd hx => ?_
      obtain ⟨⟨hd', hat⟩, hagain⟩ := hx
      refine (ih d.size (by omega) d _ hd' rfl).bind fun xs e he hxs => ?_
      obtain ⟨⟨he', hclosed⟩, hmore⟩ := hxs
      refine .ok ⟨⟨he', fun hat' => absurd hat' hat⟩, fun hok c' hm => ?_⟩ _
      obtain ⟨hgood, hgoods⟩ := List.forall_mem_cons.mp hok.2
      have hatd : ¬k.At d := fun hatd => hok.1 (hclosed hatd).1
      obtain ⟨x', d', hxx, hmeets, hread⟩ := hagain ⟨hatd, hgood⟩ c' hm
      obtain ⟨xs', e', hxsx, hmeets', hread'⟩ := hmore ⟨hok.1, hgoods⟩ d' hmeets
      refine ⟨x' :: xs', e', .cons hxx hxsx, hmeets', fun n h => ?_⟩
      rw [untilBrace, hm.atBlockEnd hat, if_neg hend]
      refine (hread n h).bind fun _ => ?_
      exact (hread' n _).bind fun _ => .ok _

end Grammar

end CurlyScript
