import CurlyScript.Grammar.Rules
import CurlyScript.Proofs.Grammar.Cursor

/-
  What a reading yields.

  `Gives p` says of a reading that WHATEVER it reads, and the cursor after it, are as `p` describes;
  it says nothing of readings that fail.  `bind` puts readings one after another.

  `Yields p` is the case of spelled tokens: what is read is as `p` describes, and the tokens left
  are spelled too.  Each primitive step has its lemma.
-/

namespace CurlyScript

/-! ## Readings -/

/-- Whatever is read, and the cursor after it, are as described. -/
def Gives {n : Nat} {α : Type} (p : α → Cursor → Prop) (x : Read (Step n α)) : Prop :=
  ∀ s, x = .ok s → p s.value s.rest

namespace Gives

variable {m n : Nat} {α β : Type} {p : α → Cursor → Prop} {q : β → Cursor → Prop}

theorem error (e : SyntaxError) : Gives (n := n) p (.error e) :=
  fun _ h => nomatch h

theorem ok {v : α} {d : Cursor} (h : p v d) (hd : d.size < n) : Gives p (.ok ⟨v, d, hd⟩) := by
  intro s hs
  rw [← Except.ok.inj hs]
  exact h

theorem any (x : Read (Step n α)) : Gives (fun _ _ => True) x := fun _ _ => trivial

/-- One reading after another. -/
theorem bind {x : Read (Step m α)} {f : Step m α → Read (Step n β)} (hx : Gives p x)
    (hf : ∀ v d hd, p v d → Gives q (f ⟨v, d, hd⟩)) : Gives q (x >>= f) := by
  intro s hs
  cases x with
  | error e => exact nomatch hs
  | ok a => exact hf a.value a.rest a.lt (hx a rfl) s hs

/-- A reading after a check that takes no token. -/
theorem check {γ : Type} {x : Except SyntaxError γ} {f : γ → Read (Step n β)}
    (hf : ∀ v, x = .ok v → Gives q (f v)) : Gives q (x >>= f) := by
  intro s hs
  cases x with
  | error e => exact nomatch hs
  | ok v => exact hf v rfl s hs

theorem mono {x : Read (Step n α)} {p' : α → Cursor → Prop} (hx : Gives p x)
    (h : ∀ v d, p v d → p' v d) : Gives p' x :=
  fun s hs => h s.value s.rest (hx s hs)

/-- Two things that are known of one reading. -/
theorem and {x : Read (Step n α)} {p' : α → Cursor → Prop} (hx : Gives p x) (hx' : Gives p' x) :
    Gives (fun v d => p v d ∧ p' v d) x :=
  fun s hs => ⟨hx s hs, hx' s hs⟩

/-- What follows from one thing that is known of a reading is known as well. -/
theorem given {x : Read (Step n α)} {p' : α → Cursor → Prop} (hx : Gives p x)
    (h : Gives (fun v d => p v d → p' v d) x) : Gives p' x :=
  fun s hs => h s hs (hx s hs)

/-- A reading whose step is turned into another one. -/
theorem map_step {x : Read (Step m α)} {f : Step m α → Step n β} (hx : Gives p x)
    (hf : ∀ s, p s.value s.rest → q (f s).value (f s).rest) : Gives q (x.map f) := by
  intro s hs
  cases x with
  | error e => cases hs
  | ok a =>
    rw [← Except.ok.inj hs]
    exact hf a (hx a rfl)

theorem map {x : Read (Step n α)} {f : α → β} (hx : Gives p x) (hf : ∀ v d, p v d → q (f v) d) :
    Gives q (x.map (Step.map f)) :=
  hx.map_step fun s hs => hf s.value s.rest hs

end Gives

/-! ## Spelled tokens -/

/-- The tokens to come are such as the scanner gives. -/
def Cursor.Spelled (c : Cursor) : Prop := ∀ t ∈ c.rest, t.terminal.isSpelled = true

/-- Whatever is read is as described, and the tokens left are spelled. -/
def Yields {n : Nat} {α : Type} (p : α → Prop) (x : Read (Step n α)) : Prop :=
  ∀ s, x = .ok s → p s.value ∧ s.rest.Spelled

namespace Yields

variable {m n : Nat} {α β : Type} {p : α → Prop} {q : β → Prop}

theorem iff_gives {x : Read (Step n α)} : Yields p x ↔ Gives (fun v d => p v ∧ d.Spelled) x :=
  Iff.rfl

theorem error (e : SyntaxError) : Yields (n := n) p (.error e) := iff_gives.mpr (.error e)

theorem ok {v : α} {d : Cursor} (hv : p v) (hd : d.Spelled) (h : d.size < n) :
    Yields p (.ok ⟨v, d, h⟩) := iff_gives.mpr (.ok ⟨hv, hd⟩ h)

/-- One reading after another. -/
theorem bind {x : Read (Step m α)} {f : Step m α → Read (Step n β)} (hx : Yields p x)
    (hf : ∀ v d hd, p v → d.Spelled → Yields q (f ⟨v, d, hd⟩)) : Yields q (x >>= f) := by
  rw [iff_gives] at hx ⊢
  exact hx.bind fun v d hd h => iff_gives.mp (hf v d hd h.1 h.2)

/-- A reading after a check that takes no token. -/
theorem check {γ : Type} {x : Except SyntaxError γ} {f : γ → Read (Step n β)}
    (hf : ∀ v, x = .ok v → Yields q (f v)) : Yields q (x >>= f) :=
  iff_gives.mpr (.check fun v hv => iff_gives.mp (hf v hv))

theorem mono {x : Read (Step n α)} {p' : α → Prop} (hx : Yields p x) (h : ∀ v, p v → p' v) :
    Yields p' x :=
  iff_gives.mpr ((iff_gives.mp hx).mono fun v _ hv => ⟨h v hv.1, hv.2⟩)

theorem map {x : Read (Step n α)} {f : α → β} (hx : Yields p x) (hf : ∀ v, p v → q (f v)) :
    Yields q (x.map (Step.map f)) :=
  iff_gives.mpr ((iff_gives.mp hx).map fun v _ hv => ⟨hf v hv.1, hv.2⟩)

end Yields

/-! ## Steps of a cursor -/

namespace Cursor

variable {c : Cursor} {α : Type}

theorem Spelled.skipComments (hc : c.Spelled) : c.skipComments.Spelled :=
  fun t ht => hc t ((Reaches.skipComments c).rest.subset ht)

theorem Spelled.nextRaw? (hc : c.Spelled) {s : Step c.size Token} (h : c.nextRaw? = some s) :
    s.value.terminal.isSpelled = true ∧ s.rest.Spelled := by
  have hr := (shifts_of_nextRaw? h).rest
  refine ⟨hc s.value ?_, fun u hu => hc u ?_⟩
  · rw [hr]
    exact List.mem_cons_self
  · rw [hr]
    exact List.mem_cons_of_mem s.value hu

theorem Spelled.next? (hc : c.Spelled) {s : Step c.size Token} (h : c.next? = some s) :
    s.value.terminal.isSpelled = true ∧ s.rest.Spelled := by
  rw [Cursor.next?, Option.map_eq_some_iff] at h
  obtain ⟨s', hs, rfl⟩ := h
  exact hc.skipComments.nextRaw? hs

theorem Spelled.comment? (hc : c.Spelled) {s : Step c.size Token} (h : c.comment? = some s) :
    isCommentText s.value.lexeme = true ∧ s.rest.Spelled := by
  rw [Cursor.comment?, Option.filter_eq_some_iff] at h
  obtain ⟨hspelled, hrest⟩ := hc.nextRaw? h.1
  obtain ⟨⟨kind, lexeme, span⟩, d, hd⟩ := s
  have hkind : kind = .comment := beq_iff_eq.mp h.2
  subst hkind
  exact ⟨hspelled, hrest⟩

theorem Spelled.accept? (hc : c.Spelled) {k : TokenKind} {s : Step c.size Token}
    (h : c.accept? k = some s) :
    (s.value.kind = k ∧ s.value.terminal.isSpelled = true) ∧ s.rest.Spelled := by
  rw [Cursor.accept?, Option.filter_eq_some_iff] at h
  obtain ⟨hspelled, hrest⟩ := hc.next? h.1
  exact ⟨⟨of_decide_eq_true h.2, hspelled⟩, hrest⟩

theorem Spelled.take? (hc : c.Spelled) {f : TokenKind → Option α} {s : Step c.size α}
    (h : c.take? f = some s) : s.rest.Spelled := by
  unfold Cursor.take? at h
  split at h
  · exact nomatch h
  · rename_i t ht
    obtain ⟨a, -, rfl⟩ := Option.map_eq_some_iff.mp h
    exact (hc.next? ht).2

theorem Spelled.past (hc : c.Spelled) (k : TokenKind) : (c.past k).1.Spelled := by
  unfold Cursor.past
  split
  · rename_i s hs
    exact (hc.accept? hs).2
  · exact hc

theorem Spelled.expect (hc : c.Spelled) (k : TokenKind) :
    Yields (fun t => t.kind = k ∧ t.terminal.isSpelled = true) (c.expect k) := by
  rw [Cursor.expect]
  split
  · rename_i s hs
    intro s' hs'
    rw [← Except.ok.inj hs']
    exact hc.accept? hs
  · exact .error _

/-- Once comments are skipped, none comes next. -/
theorem comment?_skipComments (c : Cursor) : c.skipComments.comment? = none := by
  rw [comment?, Option.filter_eq_none_iff]
  intro s hs
  rw [← rawToken_of_rest (shifts_of_nextRaw? hs).rest]
  exact Bool.eq_false_iff.mp c.isComment_token

theorem comment?_of_proper (h : c.rawToken.isComment = false) : c.comment? = none := by
  rw [← skipComments_eq_self h]
  exact c.comment?_skipComments

end Cursor

/-! ## Lists -/

/-- What is known of a cursor is known still once a token proper was taken. -/
def Cursor.Lasts (q : Cursor → Prop) : Prop :=
  ∀ ⦃c : Cursor⦄ ⦃k : TokenKind⦄ ⦃s : Step c.size Token⦄, q c → c.accept? k = some s → q s.rest

theorem Cursor.Spelled.lasts : Cursor.Lasts Cursor.Spelled := fun _ _ _ hc hs => (hc.accept? hs).2

namespace Grammar

variable {n : Nat} {α : Type} {p : α → Prop} {q : Cursor → Prop}

theorem gives_expected (hq : Cursor.Lasts q) {c : Cursor} (hc : q c) (k : TokenKind) :
    Gives (fun _ d => q d) (c.expect k) := by
  rw [Cursor.expect]
  split
  · rename_i s hs
    exact .ok (hq hc hs) _
  · exact .error _

/-- A list between signs gives what its items give. -/
theorem gives_list (hq : Cursor.Lasts q) (close : Punctuation)
    {item : (c : Cursor) → c.size < n → Read (Step c.size α)}
    (hitem : ∀ c h, q c → Gives (fun x d => p x ∧ q d) (item c h)) (comma : Bool)
    (c : Cursor) (h : c.size < n) (hc : q c) :
    Gives (fun l d => (∀ x ∈ l.1, p x) ∧ q d) (delimited close item comma c h) := by
  -- on the tokens left, since the list itself is not known before it was read
  induction hk : c.size using Nat.strongRecOn generalizing c comma with
  | ind k ih =>
    rw [delimited]
    split
    · rename_i s hs
      exact .ok ⟨fun _ hx => absurd hx List.not_mem_nil, hq hc hs⟩ _
    · refine (hitem c h hc).bind fun x d hd hx => ?_
      dsimp only
      split
      · refine (gives_expected hq hx.2 (.punctuation close)).bind fun _ e he hes => ?_
        exact .ok ⟨List.forall_mem_singleton.mpr hx.1, hes⟩ _
      · rename_i t e he hcomma
        refine (ih e.size (by omega) true e _ (hq hx.2 hcomma) rfl).bind ?_
        rintro ⟨xs, last⟩ f hf ⟨hxs, hfs⟩
        exact .ok ⟨List.forall_mem_cons.mpr ⟨hx.1, hxs⟩, hfs⟩ _

/-- A block gives what its lines give. -/
theorem gives_block (hq : Cursor.Lasts q)
    {item : (c : Cursor) → c.size < n → Read (Step c.size α)}
    (hitem : ∀ c h, q c → Gives (fun x d => p x ∧ q d) (item c h)) (c : Cursor)
    (h : c.size < n) (hc : q c) :
    Gives (fun l d => (∀ x ∈ l, p x) ∧ q d) (untilBrace item c h) := by
  induction hk : c.size using Nat.strongRecOn generalizing c with
  | ind k ih =>
    rw [untilBrace]
    split
    · refine (gives_expected hq hc (.punctuation .rBrace)).bind fun _ d hd hds => ?_
      exact .ok ⟨fun _ hx => absurd hx List.not_mem_nil, hds⟩ _
    · refine (hitem c h hc).bind fun x d hd hx => ?_
      refine (ih d.size (by omega) d _ hx.2 rfl).bind fun xs e he hxs => ?_
      exact .ok ⟨List.forall_mem_cons.mpr ⟨hx.1, hxs.1⟩, hxs.2⟩ _

/-! ### Any tokens -/

theorem gives_items (close : Punctuation)
    {item : (c : Cursor) → c.size < n → Read (Step c.size α)}
    (hitem : ∀ c h, Gives (fun x _ => p x) (item c h)) (comma : Bool) (c : Cursor)
    (h : c.size < n) : Gives (fun l _ => ∀ x ∈ l.1, p x) (delimited close item comma c h) :=
  (gives_list (q := fun _ => True) (fun _ _ _ _ _ => trivial) close
    (fun c h _ => (hitem c h).mono fun _ _ hx => ⟨hx, trivial⟩) comma c h trivial).mono
    fun _ _ hl => hl.1

theorem gives_lines {item : (c : Cursor) → c.size < n → Read (Step c.size α)}
    (hitem : ∀ c h, Gives (fun x _ => p x) (item c h)) (c : Cursor) (h : c.size < n) :
    Gives (fun l _ => ∀ x ∈ l, p x) (untilBrace item c h) :=
  (gives_block (q := fun _ => True) (fun _ _ _ _ _ => trivial)
    (fun c h _ => (hitem c h).mono fun _ _ hx => ⟨hx, trivial⟩) c h trivial).mono
    fun _ _ hl => hl.1

/-! ### Spelled tokens -/

theorem yields_name {c : Cursor} (hc : c.Spelled) :
    Yields (fun s => isName s.text = true) (name c) := by
  refine (hc.expect .ident).map ?_
  rintro ⟨kind, lexeme, span⟩ ⟨hk, hs⟩
  obtain rfl : kind = .ident := hk
  exact hs

/-- A list yields what its items yield. -/
theorem yields_delimited (close : Punctuation)
    {item : (c : Cursor) → c.size < n → Read (Step c.size α)}
    (hitem : ∀ c h, c.Spelled → Yields p (item c h)) (comma : Bool) (c : Cursor) (h : c.size < n)
    (hc : c.Spelled) : Yields (fun l => ∀ x ∈ l.1, p x) (delimited close item comma c h) :=
  Yields.iff_gives.mpr (gives_list Cursor.Spelled.lasts close
    (fun c h hc => Yields.iff_gives.mp (hitem c h hc)) comma c h hc)

/-- A block yields what its lines yield. -/
theorem yields_untilBrace {item : (c : Cursor) → c.size < n → Read (Step c.size α)}
    (hitem : ∀ c h, c.Spelled → Yields p (item c h)) (c : Cursor) (h : c.size < n)
    (hc : c.Spelled) : Yields (fun l => ∀ x ∈ l, p x) (untilBrace item c h) :=
  Yields.iff_gives.mpr (gives_block Cursor.Spelled.lasts
    (fun c h hc => Yields.iff_gives.mp (hitem c h hc)) c h hc)

end Grammar

end CurlyScript
