import CurlyScript.Proofs.Grammar.Writing
import CurlyScript.Proofs.Grammar.Yields

/-
  From the tokens that a reading takes to the writings of what it reads.

  `c.Takes ts d` says that reading from `c` to `d` took the tokens `ts` in order, with nothing but
  comments between them.  `c.Passes l d` says that they are one of the writings `l`, so one reading
  after another passes the product.  A node begins at the token that the cursor was before, and
  `c.Opens l d` keeps that: it is what a node under construction needs to be given its span.

  Spans are as the tokens have them only if the tokens stand in order (`InOrder`), as those of a
  text do.
-/

namespace CurlyScript

/-! ## From one cursor to another -/

namespace Cursor

/-- The tokens to come stand in order. -/
def Tidy (c : Cursor) : Prop := InOrder c.rest

/-- Reading from `c` to `d` took the tokens `ts`, and comments between them. -/
structure Takes (c : Cursor) (ts : List Token) (d : Cursor) : Prop where
  rest : ∃ raw, c.rest = raw ++ d.rest ∧ Thinned raw ts
  prevStop : d.prevStop = (ts.getLast?.map (·.span.stop)).getD c.prevStop

/-- Reading from `c` to `d` took one of the writings `l`. -/
def Passes (c : Cursor) (l : Language Token) (d : Cursor) : Prop := ∃ ts ∈ l, c.Takes ts d

/-- Reading from `c`, where the tokens stand in order, to `d` took one of the writings `l`, the
    first token of which is the next one at `c`. -/
def Opens (c : Cursor) (l : Language Token) (d : Cursor) : Prop :=
  c.Tidy ∧ ∃ ts ∈ l, ts.head? = some c.token ∧ c.Takes ts d

variable {c d e : Cursor} {ts us : List Token} {l m : Language Token}

namespace Takes

theorem refl (c : Cursor) : c.Takes [] c := ⟨⟨[], rfl, .refl []⟩, rfl⟩

theorem trans (h : c.Takes ts d) (h' : d.Takes us e) : c.Takes (ts ++ us) e := by
  obtain ⟨⟨raw, hraw, hts⟩, hstop⟩ := h
  obtain ⟨⟨raw', hraw', hus⟩, hstop'⟩ := h'
  refine ⟨⟨raw ++ raw', by rw [hraw, hraw', List.append_assoc], hts.append hus⟩, ?_⟩
  rw [hstop', hstop, List.getLast?_append]
  cases us.getLast? <;> rfl

theorem tidy (h : c.Takes ts d) (hc : c.Tidy) : d.Tidy := by
  obtain ⟨⟨raw, hraw, -⟩, -⟩ := h
  rw [Tidy, hraw] at hc
  exact hc.sublist (List.sublist_append_right raw d.rest)

theorem inOrder (h : c.Takes ts d) (hc : c.Tidy) : InOrder ts := by
  obtain ⟨⟨raw, hraw, hts⟩, -⟩ := h
  rw [Tidy, hraw] at hc
  exact hc.sublist (hts.1.trans (List.sublist_append_left raw d.rest))

/-- The first token that was taken is the next one proper. -/
theorem token_eq {t : Token} (h : c.Takes (t :: ts) d) (ht : t.isComment = false) :
    c.token = t := by
  obtain ⟨⟨raw, hraw, hts⟩, -⟩ := h
  obtain ⟨us, hus⟩ := hts.dropWhile_eq ht d.rest
  exact rawToken_of_rest (c.rest_skipComments.trans (hraw ▸ hus))

theorem skipComments (c : Cursor) : c.Takes [] c.skipComments := by
  refine ⟨⟨c.rest.takeWhile Token.isComment, ?_, ?_⟩, rfl⟩
  · rw [rest_skipComments, List.takeWhile_append_dropWhile]
  · exact .of_comments fun t ht => List.mem_takeWhile_imp ht

theorem nextRaw? {s : Step c.size Token} (h : c.nextRaw? = some s) :
    c.Takes [s.value] s.rest := by
  have hshifts := shifts_of_nextRaw? h
  exact ⟨⟨[s.value], hshifts.rest, .refl [s.value]⟩, hshifts.prevStop⟩

theorem next? {s : Step c.size Token} (h : c.next? = some s) : c.Takes [s.value] s.rest := by
  rw [Cursor.next?, Option.map_eq_some_iff] at h
  obtain ⟨s', hs, rfl⟩ := h
  exact (skipComments c).trans (nextRaw? hs)

end Takes

theorem kind_of_accept? {k : TokenKind} {s : Step c.size Token} (h : c.accept? k = some s) :
    c.kind = k := by
  rw [accept?, Option.filter_eq_some_iff] at h
  rw [kind, ← token_of_next? h.1]
  exact of_decide_eq_true h.2

/-- Where nothing comes next, the text ends. -/
theorem kind_of_next?_eq_none (h : c.next? = none) : c.kind = .eof := by
  rw [next?, Option.map_eq_none_iff, nextRaw?_eq_none_iff] at h
  exact kind_rawToken_of_nil h

theorem kind_ne_of_accept?_eq_none {k : TokenKind} (h : c.accept? k = none) (hk : k ≠ .eof) :
    c.kind ≠ k := by
  rw [accept?, Option.filter_eq_none_iff] at h
  intro hkind
  cases hn : c.next? with
  | none => exact hk (hkind.symm.trans (kind_of_next?_eq_none hn))
  | some s =>
    apply h s hn
    rw [token_of_next? hn]
    exact decide_eq_true hkind

theorem eq_some_of_take? {α : Type} {f : TokenKind → Option α} {s : Step c.size α}
    (h : c.take? f = some s) : f c.kind = some s.value := by
  unfold take? at h
  split at h
  · exact nomatch h
  · rename_i t ht
    obtain ⟨a, ha, rfl⟩ := Option.map_eq_some_iff.mp h
    rw [kind, ← token_of_next? ht]
    exact ha

theorem eq_none_of_take?_eq_none {α : Type} {f : TokenKind → Option α} (h : c.take? f = none)
    (hf : f .eof = none) : f c.kind = none := by
  unfold take? at h
  split at h
  · rename_i hn
    rw [kind_of_next?_eq_none hn]
    exact hf
  · rename_i s hs
    rw [kind, ← token_of_next? hs]
    exact Option.map_eq_none_iff.mp h

namespace Passes

theorem refl (c : Cursor) : c.Passes 1 c := ⟨[], rfl, .refl c⟩

theorem skipComments (c : Cursor) : c.Passes 1 c.skipComments := ⟨[], rfl, .skipComments c⟩

theorem trans (h : c.Passes l d) (h' : d.Passes m e) : c.Passes (l * m) e := by
  obtain ⟨ts, hts, htakes⟩ := h
  obtain ⟨us, hus, htakes'⟩ := h'
  exact ⟨ts ++ us, Language.append_mem_mul hts hus, htakes.trans htakes'⟩

theorem mono (h : c.Passes l d) (hlm : l ≤ m) : c.Passes m d := by
  obtain ⟨ts, hts, htakes⟩ := h
  exact ⟨ts, hlm hts, htakes⟩

theorem tidy (h : c.Passes l d) (hc : c.Tidy) : d.Tidy := by
  obtain ⟨ts, -, htakes⟩ := h
  exact htakes.tidy hc

theorem next? {p : Token → Prop} {s : Step c.size Token} (h : c.next? = some s) (hp : p s.value) :
    c.Passes (Writing.token p) s.rest :=
  ⟨[s.value], ⟨s.value, hp, rfl⟩, .next? h⟩

theorem accept? {k : TokenKind} {s : Step c.size Token} (h : c.accept? k = some s) :
    c.Passes (Writing.one k) s.rest := by
  rw [Cursor.accept?, Option.filter_eq_some_iff] at h
  exact next? h.1 (of_decide_eq_true h.2)

/-- A sign that was passed if it stood there may be left out. -/
theorem past (c : Cursor) (k : TokenKind) :
    c.Passes (Writing.optional (Writing.one k)) (c.past k).1 := by
  unfold Cursor.past
  split
  · rename_i s hs
    exact (accept? hs).mono le_add_self
  · exact (refl c).mono le_self_add

/-- The next token proper, of which a value was taken. -/
theorem take? {α : Type} {f : TokenKind → Option α} {k : TokenKind} {s : Step c.size α}
    (h : c.take? f = some s) (hf : ∀ k', f k' = some s.value → k' = k) :
    c.Passes (Writing.one k) s.rest := by
  unfold Cursor.take? at h
  split at h
  · exact nomatch h
  · rename_i t ht
    obtain ⟨a, ha, rfl⟩ := Option.map_eq_some_iff.mp h
    exact next? ht (hf _ ha)

/-- What begins with a token that is no comment begins with the next one proper. -/
theorem opens (h : c.Passes l d) (hc : c.Tidy) (hl : Writing.Begins l) : c.Opens l d := by
  obtain ⟨ts, hts, htakes⟩ := h
  obtain ⟨t, us, rfl, ht⟩ := hl ts hts
  refine ⟨hc, t :: us, hts, ?_, htakes⟩
  rw [htakes.token_eq (beq_eq_false_iff_ne.mpr ht)]
  rfl

end Passes

namespace Opens

theorem next? {p : Token → Prop} {s : Step c.size Token} (h : c.next? = some s) (hc : c.Tidy)
    (hp : p s.value) : c.Opens (Writing.token p) s.rest := by
  refine ⟨hc, [s.value], ⟨s.value, hp, rfl⟩, ?_, .next? h⟩
  rw [token_of_next? h]
  rfl

theorem passes (h : c.Opens l d) : c.Passes l d := by
  obtain ⟨-, ts, hts, -, htakes⟩ := h
  exact ⟨ts, hts, htakes⟩

theorem tidy (h : c.Opens l d) : d.Tidy := h.passes.tidy h.1

/-- What was begun goes on. -/
theorem trans (h : c.Opens l d) (h' : d.Passes m e) : c.Opens (l * m) e := by
  obtain ⟨hc, ts, hts, hhead, htakes⟩ := h
  obtain ⟨us, hus, htakes'⟩ := h'
  refine ⟨hc, ts ++ us, Language.append_mem_mul hts hus, ?_, htakes.trans htakes'⟩
  rw [List.head?_append, hhead]
  rfl

/-- What was begun goes on with two things at once. -/
theorem trans_mul {m' : Language Token} (h : c.Opens l d) (h' : d.Passes (m * m') e) :
    c.Opens (l * m * m') e := by
  rw [mul_assoc]
  exact h.trans h'

/-- What was begun is given its span when it ends. -/
theorem spanning (h : c.Opens l d) : c.Passes (Writing.spanning (d.spanFrom c.start) l) d := by
  obtain ⟨hc, ts, hts, hhead, htakes⟩ := h
  refine ⟨ts, ⟨hts, ?_⟩, htakes⟩
  have hstart : ts.head?.map (·.span.start) = some c.start := by rw [hhead]; rfl
  have hstop : ts.getLast?.map (·.span.stop) = some d.prevStop := by
    rw [htakes.prevStop]
    cases hlast : ts.getLast? with
    | none =>
      rw [List.getLast?_eq_none_iff.mp hlast] at hhead
      exact nomatch hhead
    | some t => rfl
  have hle : c.start ≤ d.prevStop :=
    (htakes.inOrder hc).start_le_stop (s := ⟨c.start, d.prevStop⟩) ⟨hstart, hstop⟩
  refine ⟨hstart, hstop.trans (congrArg some ?_)⟩
  exact (Nat.max_eq_left hle).symm

/-- A sign before an expression stands in the span from the sign to the end of the expression. -/
theorem before {x : Expr} (h : c.Opens l d) (h' : d.Passes x.writings e) :
    c.Passes (Writing.spanning ⟨c.start, x.span.stop⟩ (l * x.writings)) e := by
  obtain ⟨-, ts, hts, hhead, htakes⟩ := h
  obtain ⟨us, hus, htakes'⟩ := h'
  refine ⟨ts ++ us, ⟨Language.append_mem_mul hts hus, ?_, ?_⟩, htakes.trans htakes'⟩
  · rw [List.head?_append, hhead]
    rfl
  · obtain ⟨t, ht, hstop⟩ := Option.map_eq_some_iff.mp (x.covers us hus).2
    rw [List.getLast?_append, ht, ← hstop]
    rfl

end Opens

/-- An expression begins where the next token proper does. -/
theorem Passes.start_eq {x : Expr} (h : c.Passes x.writings d) (hc : c.Tidy) :
    x.span.start = c.start := by
  obtain ⟨-, ts, hts, hhead, -⟩ := h.opens hc x.begins
  have hcovers := (x.covers ts hts).1
  rw [hhead] at hcovers
  exact (Option.some.inj hcovers).symm

/-- Two operands with an operator between them stand in the span of both. -/
theorem Passes.merge {x y : Expr} (h : c.Passes (x.writings * m * y.writings) d) (hc : c.Tidy) :
    c.Passes (Writing.spanning (x.span.merge y.span) (x.writings * m * y.writings)) d := by
  obtain ⟨ts, hts, htakes⟩ := h
  refine ⟨ts, ⟨hts, ?_⟩, htakes⟩
  obtain ⟨as, has, zs, hzs, rfl⟩ := Language.mem_mul.mp hts
  obtain ⟨xs, hxs, ms, -, rfl⟩ := Language.mem_mul.mp has
  exact (htakes.inOrder hc).covers_merge (x.covers xs hxs) (y.covers zs hzs)

end Cursor

/-! ## Readings -/

theorem Cursor.gives_expect (c : Cursor) (k : TokenKind) :
    Gives (fun _ d => c.Passes (Writing.one k) d) (c.expect k) := by
  rw [expect]
  split
  · rename_i s hs
    intro s' hs'
    rw [← Except.ok.inj hs']
    exact .accept? hs
  · exact .error _

namespace Grammar

open Writing

variable {n : Nat} {α : Type} {w : α → Language Token}

theorem gives_name (c : Cursor) : Gives (fun s d => c.Passes (Writing.name s) d) (name c) := by
  refine Gives.map (p := fun t d => c.Passes (token (· = t)) d ∧ t.kind = .ident) ?_ ?_
  · rw [Cursor.expect]
    split
    · rename_i s hs
      rw [Cursor.accept?, Option.filter_eq_some_iff] at hs
      exact .ok ⟨.next? hs.1 rfl, of_decide_eq_true hs.2⟩ _
    · exact .error _
  · rintro t d ⟨h, hk⟩
    refine h.mono ?_
    rintro _ ⟨t, rfl, rfl⟩
    exact ⟨t, ⟨hk, rfl, rfl⟩, rfl⟩

theorem listed_cons_le (last : Bool) (l : Language Token) (ls : List (Language Token))
    (h : ls = [] → last = true) :
    l * punctuation .comma * listed last ls ≤ listed last (l :: ls) := by
  cases ls with
  | nil =>
    rw [h rfl]
    exact (mul_one _).le
  | cons m ls => exact le_rfl

theorem listed_le_separated (last : Bool) (ls : List (Language Token)) :
    listed last ls ≤ separated ls := by
  cases last
  · exact le_self_add
  · exact le_add_self

/-- What was begun goes on with a list and its closing sign. -/
theorem opens_separated {c d e : Cursor} {l m : Language Token} {last : Bool}
    {ls : List (Language Token)} (h : c.Opens l d) (h' : d.Passes (listed last ls * m) e) :
    c.Opens (l * separated ls * m) e :=
  h.trans_mul (h'.mono (mul_le_mul_left (listed_le_separated last ls) m))

/-- A list is passed if its items are, and `last` tells whether a comma stands after the last. -/
theorem gives_delimited (close : Punctuation)
    {item : (c : Cursor) → c.size < n → Read (Step c.size α)}
    (hitem : ∀ c h, c.Tidy → Gives (fun x d => c.Passes (w x) d) (item c h))
    (comma : Bool) (c : Cursor) (h : c.size < n) (hc : c.Tidy) :
    Gives (fun l d => c.Passes (listed l.2 (l.1.map w) * punctuation close) d ∧
        (l.1 = [] → l.2 = comma))
      (delimited close item comma c h) := by
  -- on the tokens left, since the list itself is not known before it was read
  induction hk : c.size using Nat.strongRecOn generalizing c comma with
  | ind k ih =>
    rw [delimited]
    split
    · rename_i s hs
      refine .ok ⟨?_, fun _ => rfl⟩ _
      exact (Cursor.Passes.refl c).trans (.accept? hs)
    · refine (hitem c h hc).bind fun x d hd hx => ?_
      dsimp only
      split
      · refine (d.gives_expect (.punctuation close)).bind fun _ e he hclose => ?_
        exact .ok ⟨hx.trans hclose, by rintro ⟨⟩⟩ _
      · rename_i t e he hcomma
        have hpassed := hx.trans (.accept? hcomma)
        refine (ih e.size (by omega) true e _ (hpassed.tidy hc) rfl).bind ?_
        rintro ⟨xs, last⟩ f hf ⟨hxs, hlast⟩
        refine .ok ⟨?_, by rintro ⟨⟩⟩ _
        refine (hpassed.trans hxs).mono ?_
        rw [← mul_assoc]
        refine mul_le_mul_left ?_ _
        exact listed_cons_le last (w x) (xs.map w) fun hnil => hlast (List.map_eq_nil_iff.mp hnil)

/-- A block is passed if its lines are. -/
theorem gives_untilBrace
    {item : (c : Cursor) → c.size < n → Read (Step c.size Statement)}
    (hitem : ∀ c h, c.Tidy → Gives (fun s d => c.Passes s.writings d) (item c h))
    (c : Cursor) (h : c.size < n) (hc : c.Tidy) :
    Gives (fun ss d => c.Passes (statementsWritings ss * punctuation .rBrace) d)
      (untilBrace item c h) := by
  induction hk : c.size using Nat.strongRecOn generalizing c with
  | ind k ih =>
    rw [untilBrace]
    split
    · refine (c.gives_expect (.punctuation .rBrace)).bind fun _ d hd hclose => ?_
      refine .ok ?_ _
      exact (Cursor.Passes.refl c).trans hclose
    · refine (hitem c h hc).bind fun s d hd hs => ?_
      refine (ih d.size (by omega) d _ (hs.tidy hc) rfl).bind fun ss e he hss => ?_
      refine .ok ?_ _
      rw [statementsWritings, mul_assoc]
      exact hs.trans hss

end Grammar

end CurlyScript
