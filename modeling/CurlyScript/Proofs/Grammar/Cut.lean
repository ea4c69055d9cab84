import CurlyScript.Proofs.Grammar.Derives

/-
  Cuts: the same tokens up to some place, and then the end.

  Reading an expression or a statement stops where it stops because of ONE token, the next one.  So
  it stops there too if the text ends or a parenthesis is closed instead, and gives the same: that
  is what `c.Again y v d` says, for all places at `d` or after it where the tokens may be cut.

  The place of a cut is fixed, and a cursor is taken to its counterpart by `k.cursor`.  Readings
  that are put together from others need then not speak about the tokens that each of them takes,
  only about cuts that are `Within` their last cursor and so within all before.
  `c.Repeats rule v d` says the same of a rule, for whatever number of tokens it is meant.
-/

namespace CurlyScript

/-- Reading gives `v` and comes to `d`. -/
def Arrives {n : Nat} {α : Type} (v : α) (d : Cursor) (x : Read (Step n α)) : Prop :=
  ∃ h, x = .ok ⟨v, d, h⟩

/-- A step that may be taken gives `v` and comes to `d`. -/
def Finds {n : Nat} {α : Type} (v : α) (d : Cursor) (x : Option (Step n α)) : Prop :=
  ∃ h, x = some ⟨v, d, h⟩

namespace Arrives

variable {m n : Nat} {α β : Type} {v : α} {w : β} {d e : Cursor}

theorem ok (hd : d.size < n) : Arrives v d (.ok ⟨v, d, hd⟩ : Read (Step n α)) := ⟨hd, rfl⟩

/-- One reading after another. -/
theorem bind {x : Read (Step m α)} {f : Step m α → Read (Step n β)} (hx : Arrives v d x)
    (hf : ∀ hd, Arrives w e (f ⟨v, d, hd⟩)) : Arrives w e (x >>= f) := by
  obtain ⟨hd, rfl⟩ := hx
  exact hf hd

/-- A reading whose step is turned into another one. -/
theorem map_step {x : Read (Step m α)} {f : Step m α → Step n β} (hx : Arrives v d x)
    (hf : ∀ hd, (f ⟨v, d, hd⟩).value = w ∧ (f ⟨v, d, hd⟩).rest = e) : Arrives w e (x.map f) := by
  obtain ⟨hd, rfl⟩ := hx
  obtain ⟨rfl, rfl⟩ := hf hd
  exact ⟨_, rfl⟩

theorem map {x : Read (Step m α)} {f : α → β} (hx : Arrives v d x) :
    Arrives (f v) d (x.map (Step.map f)) :=
  hx.map_step fun _ => ⟨rfl, rfl⟩

end Arrives

namespace Gives

variable {m n : Nat} {α β : Type} {p : α → Cursor → Prop} {q : β → Cursor → Prop}

/-- What is read has fewer tokens after it. -/
theorem lt {x : Read (Step n α)} (hx : Gives p x) : Gives (fun v d => p v d ∧ d.size < n) x :=
  fun s hs => ⟨hx s hs, s.lt⟩

end Gives

/-! ## Cuts -/

/-- Whether nothing that goes on comes next: the text ends, or a parenthesis is closed. -/
def Closes (ts : List Token) : Prop :=
  ts = [] ∨ ∃ t us, ts = t :: us ∧ t.kind = .punctuation .rParen

/-- A place where tokens are cut, and what stands there instead of those after it. -/
structure Cut where
  /-- The tokens after the place. -/
  after : List Token
  /-- The tokens that stand there instead. -/
  instead : List Token
  /-- Where the text ends then. -/
  finish : Nat
  closes : Closes instead

namespace Cut

variable (k : Cut)

/-- The place is not before the cursor. -/
def Within (c : Cursor) : Prop := k.after <:+ c.rest

/-- The place is past the next token. -/
def Before (c : Cursor) : Prop := ∃ t us, c.rest = t :: us ++ k.after

/-- The cursor in the tokens that are cut. -/
def cursor (c : Cursor) : Cursor where
  tokens := c.rest.take (c.rest.length - k.after.length) ++ k.instead
  prevStop := c.prevStop
  lastStop := k.finish

variable {k : Cut} {c d : Cursor} {us : List Token}

theorem cursor_eq (h : c.rest = us ++ k.after) :
    k.cursor c = ⟨us ++ k.instead, c.prevStop, k.finish⟩ := by
  rw [cursor, h, List.length_append, Nat.add_sub_cancel, List.take_left]

theorem Within.mono (h : k.Within d) (hd : c.Reaches d) : k.Within c :=
  List.IsSuffix.trans h hd.rest

theorem Within.before (h : k.Within d) (hd : c.Reaches d) (hlt : d.size < c.size) :
    k.Before c := by
  obtain ⟨us, hus⟩ := h
  obtain ⟨vs, hvs⟩ := hd.rest
  cases vs with
  | nil =>
    have hlength := hd.rest_lt hlt
    rw [← hvs] at hlength
    exact absurd hlength (Nat.lt_irrefl _)
  | cons v vs =>
    refine ⟨v, vs ++ us, ?_⟩
    rw [← hvs, ← hus, List.cons_append, List.cons_append, List.append_assoc]

theorem Before.within (h : k.Before c) : k.Within c := by
  obtain ⟨t, us, h⟩ := h
  exact ⟨t :: us, h.symm⟩

/-- The place comes right here, or later. -/
theorem Within.cases (h : k.Within c) : c.rest = k.after ∨ k.Before c := by
  obtain ⟨us, hus⟩ := h
  cases us with
  | nil => exact .inl hus.symm
  | cons u us => exact .inr ⟨u, us, hus.symm⟩

end Cut

namespace Cursor

open Cut

/-- No comments are to come. -/
def Plain (c : Cursor) : Prop := ∀ t ∈ c.rest, t.isComment = false

variable {c d : Cursor} {t : Token} {ts : List Token} {k : Cut} {j : TokenKind}

theorem skipComments_cons (hr : c.rest = t :: ts) (ht : t.isComment = false) :
    c.skipComments = c :=
  skipComments_eq_self (by rw [rawToken_of_rest hr, ht])

theorem token_cons (hr : c.rest = t :: ts) (ht : t.isComment = false) : c.token = t := by
  rw [token, skipComments_cons hr ht, rawToken_of_rest hr]

/-- What stands first before the end tokens is taken as it is if it is proper. -/
theorem next?_of_rest (hr : c.rest = t :: ts) (ht : t.isComment = false) : ∃ d,
    Finds t d c.next? ∧ d.rest = ts ∧ d.prevStop = t.span.stop := by
  have hraw : ∃ d h, c.skipComments.nextRaw? = some ⟨t, d, h⟩ ∧ d.rest = ts := by
    rw [skipComments_cons hr ht]
    exact nextRaw?_of_rest hr
  obtain ⟨d, h, hraw, hrest⟩ := hraw
  refine ⟨d, ?_, hrest, (shifts_of_nextRaw? hraw).prevStop⟩
  rw [next?, hraw]
  exact ⟨_, rfl⟩

theorem accept?_of_rest (hr : c.rest = t :: ts) (ht : t.isComment = false) (hk : t.kind = j) :
    ∃ d, Finds t d (c.accept? j) ∧ d.rest = ts ∧ d.prevStop = t.span.stop := by
  obtain ⟨d, ⟨h, hnext⟩, hd⟩ := next?_of_rest hr ht
  refine ⟨d, ⟨h, ?_⟩, hd⟩
  rw [accept?, hnext]
  exact Option.filter_some_pos (decide_eq_true hk)

/-- What really comes next is taken as it is if it is proper. -/
theorem next?_cons (hr : c.tokens = t :: ts) (ht : t.isComment = false) (hk : t.kind ≠ .eof) :
    Finds t ⟨ts, t.span.stop, c.lastStop⟩ c.next? := by
  have hskip : c.skipComments = c := skipComments_eq_self (by rw [rawToken, hr]; exact ht)
  have hraw : ∃ h, c.skipComments.nextRaw? = some ⟨t, ⟨ts, t.span.stop, c.lastStop⟩, h⟩ := by
    rw [hskip]
    exact nextRaw?_of_tokens hr hk
  obtain ⟨h, hraw⟩ := hraw
  rw [next?, hraw]
  exact ⟨_, rfl⟩

theorem accept?_eq_none_of_kind (h : c.kind ≠ j) : c.accept? j = none :=
  accept?_eq_none (by rwa [← kind_eq])

theorem take?_eq_none_of_kind {α : Type} {f : TokenKind → Option α} (h : f c.kind = none) :
    c.take? f = none :=
  take?_eq_none (by rwa [← kind_eq])

/-- Where no comments are to come, the next token proper is the next token. -/
theorem Plain.eq_of_next? (hc : c.Plain) {hd : d.size < c.size} (h : c.next? = some ⟨t, d, hd⟩) :
    c.rest = t :: d.rest ∧ d.prevStop = t.span.stop := by
  obtain ⟨⟨raw, hraw, hthin⟩, hstop⟩ := Takes.next? h
  have hraw' : [t] = raw := hthin.eq fun u hu => hc u (hraw ▸ List.mem_append_left _ hu)
  rw [← hraw'] at hraw
  exact ⟨hraw, hstop⟩

/-! ## Steps of a cursor that is cut -/

/-- The value is read once more, and up to the same token, wherever the tokens are cut after
    that. -/
def Again {α : Type} (c : Cursor) (y : Cursor → α → Cursor → Prop) (v : α) (d : Cursor) : Prop :=
  c.Reaches d ∧ ∀ k : Cut, k.Within d → y (k.cursor c) v (k.cursor d)

/-- A rule reads the value once more, and up to the same token, wherever the tokens are cut after
    that, whatever number of tokens the rule is for. -/
structure Repeats {α : Type} {m : Nat → Cursor → Nat} (c : Cursor)
    (rule : (n : Nat) → (c : Cursor) → c.size < n → Read (Step (m n c) α)) (v : α)
    (d : Cursor) : Prop where
  reaches : c.Reaches d
  again : ∀ k : Cut, k.Within d → ∀ n (h : (k.cursor c).size < n),
    Arrives v (k.cursor d) (rule n (k.cursor c) h)

/-- Before the place of the cut the same token comes next. -/
theorem rawToken_cut (h : k.Before c) : (k.cursor c).rawToken = c.rawToken := by
  obtain ⟨t, us, hr⟩ := h
  rw [rawToken_of_rest hr, rawToken, cursor_eq hr]
  rfl

theorem Plain.isComment_rawToken (hc : c.Plain) : c.rawToken.isComment = false := by
  rcases c.rest_cases with ⟨-, hkind, -⟩ | ⟨ts, -, -, hr⟩
  · rw [Token.isComment, hkind]
    rfl
  · exact hc c.rawToken (hr ▸ List.mem_cons_self)

theorem Plain.skipComments_eq (hc : c.Plain) : c.skipComments = c :=
  skipComments_eq_self hc.isComment_rawToken

theorem skipComments_cut (hc : c.Plain) (h : k.Before c) :
    (k.cursor c).skipComments = k.cursor c :=
  skipComments_eq_self (by rw [rawToken_cut h, hc.isComment_rawToken])

theorem token_cut (hc : c.Plain) (h : k.Before c) : (k.cursor c).token = c.token := by
  rw [token, token, skipComments_cut hc h, hc.skipComments_eq, rawToken_cut h]

theorem kind_cut (hc : c.Plain) (h : k.Before c) : (k.cursor c).kind = c.kind := by
  rw [kind, token_cut hc h]
  rfl

theorem start_cut (hc : c.Plain) (h : k.Before c) : (k.cursor c).start = c.start := by
  rw [start, token_cut hc h]
  rfl

theorem kind_of_nil (h : c.rest = []) : c.kind = .eof :=
  kind_rawToken_of_nil (by rw [rest_skipComments, h]; rfl)

/-- At the cut nothing that goes on comes next. -/
theorem kind_of_closes (h : Closes c.rest) : c.kind = .eof ∨ c.kind = .punctuation .rParen := by
  rcases h with hr | ⟨t, us, hr, ht⟩
  · exact .inl (kind_of_nil hr)
  · right
    have hproper : t.isComment = false := by
      rw [Token.isComment, ht]
      rfl
    rw [kind, token_cons hr hproper, ht]

theorem closes_cut (h : c.rest = k.after) : Closes (k.cursor c).rest := by
  have hinstead : (k.cursor c).rest = k.instead.takeWhile (·.kind ≠ .eof) := by
    rw [cursor_eq (show c.rest = [] ++ k.after from h)]
    rfl
  rw [hinstead]
  rcases k.closes with hnil | ⟨t, us, hcons, ht⟩
  · exact .inl (by rw [hnil]; rfl)
  · refine .inr ⟨t, us.takeWhile (·.kind ≠ .eof), ?_, ht⟩
    rw [hcons, List.takeWhile_cons_of_pos (by rw [ht]; rfl)]

/-- A kind that does not close is not found where it was not found before. -/
theorem kind_cut_ne (hc : c.Plain) (h : k.Within c) (hk : c.kind ≠ j) (heof : j ≠ .eof)
    (hclose : j ≠ .punctuation .rParen) : (k.cursor c).kind ≠ j := by
  rcases h.cases with hr | hbefore
  · rcases kind_of_closes (closes_cut hr) with hkind | hkind
    · exact hkind ▸ heof.symm
    · exact hkind ▸ hclose.symm
  · rw [kind_cut hc hbefore]
    exact hk

theorem again_next? (hc : c.Plain) {hd : d.size < c.size} (h : c.next? = some ⟨t, d, hd⟩) :
    c.Again (fun c t d => Finds t d c.next?) t d := by
  obtain ⟨hr, hstop⟩ := hc.eq_of_next? h
  refine ⟨.next? h, fun k hk => ?_⟩
  obtain ⟨us, hus⟩ := hk
  have hrest : c.rest = t :: us ++ k.after := by rw [hr, ← hus, List.cons_append]
  have hmem : t ∈ c.rest := hr ▸ List.mem_cons_self
  rw [cursor_eq hus.symm, cursor_eq hrest, hstop]
  exact next?_cons (c := ⟨t :: (us ++ k.instead), c.prevStop, k.finish⟩) rfl (hc t hmem)
    (kind_of_mem_rest hmem)

theorem again_accept? (hc : c.Plain) {hd : d.size < c.size} (h : c.accept? j = some ⟨t, d, hd⟩) :
    c.Again (fun c t d => Finds t d (c.accept? j)) t d := by
  rw [accept?, Option.filter_eq_some_iff] at h
  obtain ⟨hreach, hagain⟩ := again_next? hc h.1
  refine ⟨hreach, fun k hk => ?_⟩
  obtain ⟨hlt, hnext⟩ := hagain k hk
  exact ⟨hlt, by rw [accept?, hnext]; exact Option.filter_some_pos h.2⟩

theorem again_take? {α : Type} {f : TokenKind → Option α} {v : α} (hc : c.Plain)
    {hd : d.size < c.size} (h : c.take? f = some ⟨v, d, hd⟩) :
    c.Again (fun c v d => Finds v d (c.take? f)) v d := by
  unfold take? at h
  split at h
  · cases h
  · rename_i s hs
    obtain ⟨a, ha, heq⟩ := Option.map_eq_some_iff.mp h
    obtain ⟨t, e, he⟩ := s
    obtain ⟨rfl, rfl⟩ : a = v ∧ e = d := by simpa using heq
    obtain ⟨hreach, hagain⟩ := again_next? hc hs
    refine ⟨hreach, fun k hk => ?_⟩
    obtain ⟨hlt, hnext⟩ := hagain k hk
    refine ⟨hlt, ?_⟩
    rw [take?, hnext]
    exact congrArg (Option.map _) ha

theorem accept?_cut_eq_none (hc : c.Plain) (hk : k.Within c) (h : c.accept? j = none)
    (heof : j ≠ .eof) (hclose : j ≠ .punctuation .rParen) : (k.cursor c).accept? j = none :=
  accept?_eq_none_of_kind (kind_cut_ne hc hk (kind_ne_of_accept?_eq_none h heof) heof hclose)

theorem accept?_cut_eq_none_of_before (hc : c.Plain) (hk : k.Before c) (h : c.accept? j = none)
    (heof : j ≠ .eof) : (k.cursor c).accept? j = none := by
  refine accept?_eq_none_of_kind ?_
  rw [kind_cut hc hk]
  exact kind_ne_of_accept?_eq_none h heof

theorem take?_eq_none_of_closes {α : Type} {f : TokenKind → Option α} (h : Closes c.rest)
    (heof : f .eof = none) (hclose : f (.punctuation .rParen) = none) : c.take? f = none := by
  refine take?_eq_none_of_kind ?_
  rcases kind_of_closes h with hkind | hkind
  · rw [hkind, heof]
  · rw [hkind, hclose]

theorem take?_cut_eq_none {α : Type} {f : TokenKind → Option α} (hc : c.Plain) (hk : k.Within c)
    (h : c.take? f = none) (heof : f .eof = none) (hclose : f (.punctuation .rParen) = none) :
    (k.cursor c).take? f = none := by
  rcases hk.cases with hr | hbefore
  · exact take?_eq_none_of_closes (closes_cut hr) heof hclose
  · refine take?_eq_none_of_kind ?_
    rw [kind_cut hc hbefore]
    exact eq_none_of_take?_eq_none h heof

theorem past_cut (hc : c.Plain) (hk : k.Within (c.past j).1) (heof : j ≠ .eof)
    (hclose : j ≠ .punctuation .rParen) : ((k.cursor c).past j).1 = k.cursor (c.past j).1 := by
  unfold past at hk ⊢
  split at hk
  · rename_i s hs
    obtain ⟨t, d, hd⟩ := s
    obtain ⟨hlt, hagain⟩ := (again_accept? hc hs).2 k hk
    rw [hagain]
  · rename_i hs
    rw [accept?_cut_eq_none hc hk hs heof hclose]

theorem gives_expect_again (hc : c.Plain) (j : TokenKind) :
    Gives (c.Again fun c t d => Arrives t d (c.expect j)) (c.expect j) := by
  rw [expect]
  split
  · rename_i s hs
    obtain ⟨t, d, hd⟩ := s
    obtain ⟨hreach, hagain⟩ := again_accept? hc hs
    refine .ok ⟨hreach, fun k hk => ?_⟩ _
    obtain ⟨hlt, haccept⟩ := hagain k hk
    exact ⟨hlt, by rw [expect, haccept]⟩
  · exact .error _

theorem Plain.comment?_eq_none (hc : c.Plain) : c.comment? = none :=
  comment?_of_proper hc.isComment_rawToken

theorem comment?_cut (hc : c.Plain) (h : k.Before c) : (k.cursor c).comment? = none :=
  comment?_of_proper (by rw [rawToken_cut h, hc.isComment_rawToken])

theorem atBlockEnd_cut (h : k.Before c) : (k.cursor c).atBlockEnd = c.atBlockEnd := by
  rw [atBlockEnd, atBlockEnd, atEnd, atEnd, rawToken_cut h]

/-- A node that ends here, or with the semicolon that comes next. -/
theorem arrives_ended {n : Nat} {α : Type} (hc : c.Plain)
    (hk : k.Within (c.past (.punctuation .semicolon)).1) (f : Span → α) (start : Nat)
    (h : ((k.cursor c).past (.punctuation .semicolon)).1.size < n) :
    Arrives (f ((c.past (.punctuation .semicolon)).1.spanFrom start))
      (k.cursor (c.past (.punctuation .semicolon)).1)
      (.ok ⟨f (((k.cursor c).past (.punctuation .semicolon)).1.spanFrom start), _, h⟩) := by
  revert h
  rw [past_cut hc hk (by decide) (by decide)]
  exact fun h => .ok h

/-- The cursor is somewhere in the tokens, which have no comments among them. -/
def On (tokens : List Token) (c : Cursor) : Prop :=
  (∀ t ∈ tokens, t.isComment = false) ∧ c.rest <:+ tokens

theorem On.plain {tokens : List Token} (hc : c.On tokens) : c.Plain :=
  fun t ht => hc.1 t (hc.2.subset ht)

theorem On.of_suffix {tokens : List Token} (hc : c.On tokens) (h : d.rest <:+ c.rest) :
    d.On tokens :=
  ⟨hc.1, h.trans hc.2⟩

theorem On.of_reaches {tokens : List Token} (hc : c.On tokens) (h : c.Reaches d) : d.On tokens :=
  hc.of_suffix h.rest

namespace Passes

variable {l : Language Token}

/-- Where no comments are to come, all tokens up to `d` are those of the writing. -/
theorem eq_append (h : c.Passes l d) (hc : c.Plain) : ∃ ts ∈ l, c.rest = ts ++ d.rest := by
  obtain ⟨ts, hts, ⟨raw, hraw, hthin⟩, -⟩ := h
  have heq : ts = raw := hthin.eq fun t ht => hc t (hraw ▸ List.mem_append_left _ ht)
  exact ⟨ts, hts, heq ▸ hraw⟩

theorem on {tokens : List Token} (h : c.Passes l d) (hc : c.On tokens) : d.On tokens := by
  obtain ⟨ts, -, hr⟩ := h.eq_append hc.plain
  exact hc.of_suffix ⟨ts, hr.symm⟩

/-- What comes next is of a class with which the writings begin. -/
theorem kind {q : TokenKind → Prop} (h : c.Passes l d) (hc : c.Plain)
    (hl : Writing.BeginsWith q l) : q c.kind := by
  obtain ⟨ts, hts, hr⟩ := h.eq_append hc
  obtain ⟨t, us, rfl, ht⟩ := hl ts hts
  have hcons : c.rest = t :: (us ++ d.rest) := hr
  rw [Cursor.kind, token_cons hcons (hc t (hcons ▸ List.mem_cons_self))]
  exact ht

end Passes

end Cursor

namespace Grammar

open Cursor

variable {n : Nat} {α : Type} {q : α → Prop} {tokens : List Token}

theorem gives_name_again {c : Cursor} (hc : c.Plain) :
    Gives (c.Again fun c s d => Arrives s d (name c)) (name c) := by
  refine (gives_expect_again hc .ident).map fun t d ht => ⟨ht.1, fun k hk => ?_⟩
  exact (ht.2 k hk).map

/-- A list is read again if its items are. -/
theorem gives_delimited_again (close : Punctuation)
    {item : (n : Nat) → (c : Cursor) → c.size < n → Read (Step c.size α)}
    (hitem : ∀ c h, c.On tokens → Gives (fun x d => c.Repeats item x d ∧ q x) (item n c h))
    (comma : Bool) (c : Cursor) (h : c.size < n) (hc : c.On tokens) :
    Gives (fun l d => c.Repeats (fun n => delimited close (item n) comma) l d ∧
        d.size < c.size ∧ ∀ x ∈ l.1, q x) (delimited close (item n) comma c h) := by
  induction hk : c.size using Nat.strongRecOn generalizing c comma with
  | ind m ih =>
    subst hk
    rw [delimited]
    split
    · rename_i s hs
      obtain ⟨t, d, hd⟩ := s
      obtain ⟨hreach, hagain⟩ := again_accept? (hc.plain) hs
      refine .ok ⟨⟨hreach, fun k hk n h => ?_⟩, hd, fun _ hx => absurd hx List.not_mem_nil⟩ _
      obtain ⟨hlt, haccept⟩ := hagain k hk
      rw [delimited, haccept]
      exact .ok _
    · rename_i hnone
      refine (hitem c h hc).bind fun x d hd hx => ?_
      have hpd := hc.of_reaches hx.1.1
      -- the item took a token, so the cut is past the next token
      have hopen : ∀ {k : Cut}, k.Within d →
          (k.cursor c).accept? (.punctuation close) = none := fun hk =>
        accept?_cut_eq_none_of_before hc.plain (hk.before hx.1.1 hd) hnone (by rintro ⟨⟩)
      dsimp only
      split
      · rename_i hcomma
        refine (gives_expect_again (hpd.plain) (.punctuation close)).bind fun t e he hclose => ?_
        refine .ok ⟨⟨hx.1.1.trans hclose.1, fun k hk n h => ?_⟩,
          Cursor.size_lt₂ he hd, List.forall_mem_singleton.mpr hx.2⟩ _
        have hkd := hk.mono hclose.1
        rw [delimited, hopen hkd]
        refine (hx.1.2 k hkd n h).bind fun hd' => ?_
        dsimp only
        rw [accept?_cut_eq_none hpd.plain hkd hcomma (by decide) (by decide)]
        exact (hclose.2 k hk).bind fun he' => .ok _
      · rename_i t e he hcomma
        obtain ⟨hreach, hagain⟩ := again_accept? (hpd.plain) hcomma
        refine (ih e.size (by omega) true e _ (hpd.of_reaches hreach) rfl).bind ?_
        rintro ⟨xs, last⟩ f hf ⟨hxs, hlt, hq⟩
        refine .ok ⟨⟨(hx.1.1.trans hreach).trans hxs.1, fun k hk n h => ?_⟩,
          Cursor.size_lt₃ hlt he hd, List.forall_mem_cons.mpr ⟨hx.2, hq⟩⟩ _
        have hke := hk.mono hxs.1
        have hkd := hke.mono hreach
        obtain ⟨he', haccept⟩ := hagain k hke
        rw [delimited, hopen hkd]
        refine (hx.1.2 k hkd n h).bind fun hd' => ?_
        dsimp only
        rw [haccept]
        exact (hxs.2 k hk n _).bind fun hf' => .ok _

/-- A block is read again if its lines are. -/
theorem gives_untilBrace_again
    {item : (n : Nat) → (c : Cursor) → c.size < n → Read (Step c.size α)}
    (hitem : ∀ c h, c.On tokens → Gives (fun x d => c.Repeats item x d ∧ q x) (item n c h))
    (c : Cursor) (h : c.size < n) (hc : c.On tokens) :
    Gives (fun l d => c.Repeats (fun n => untilBrace (item n)) l d ∧
        d.size < c.size ∧ ∀ x ∈ l, q x) (untilBrace (item n) c h) := by
  induction hk : c.size using Nat.strongRecOn generalizing c with
  | ind m ih =>
    subst hk
    rw [untilBrace]
    split
    · rename_i hend
      refine (gives_expect_again (hc.plain) (.punctuation .rBrace)).bind fun t d hd hclose => ?_
      refine .ok ⟨⟨hclose.1, fun k hk n h => ?_⟩, hd, fun _ hx => absurd hx List.not_mem_nil⟩ _
      rw [untilBrace, atBlockEnd_cut (hk.before hclose.1 hd), if_pos hend]
      exact (hclose.2 k hk).bind fun hd' => .ok _
    · rename_i hend
      refine (hitem c h hc).bind fun x d hd hx => ?_
      refine (ih d.size (by omega) d _ (hc.of_reaches hx.1.1) rfl).bind fun xs e he hxs => ?_
      refine .ok ⟨⟨hx.1.1.trans hxs.1.1, fun k hk n h => ?_⟩,
        Cursor.size_lt₂ hxs.2.1 hd, List.forall_mem_cons.mpr ⟨hx.2, hxs.2.2⟩⟩ _
      have hkd := hk.mono hxs.1.1
      rw [untilBrace, atBlockEnd_cut (hkd.before hx.1.1 hd), if_neg hend]
      refine (hx.1.2 k hkd n h).bind fun hd' => ?_
      exact (hxs.1.2 k hk n _).bind fun he' => .ok _

end Grammar

end CurlyScript
