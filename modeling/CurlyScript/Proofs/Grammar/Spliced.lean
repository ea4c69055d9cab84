import CurlyScript.Proofs.Grammar.Splice

/-
  Expressions are carried over splices.

  Each rule is carried if the rules for fewer tokens are (`Carried`).  Where the mark comes next a
  rule either stops, and then stops at what stands there instead as well, or takes the mark.  What
  takes it owns it, so a node that could not do without the mark does not take it.
-/

namespace CurlyScript

open Writing

/-! ## The same tree elsewhere -/

/-- The second is the first, perhaps in another place. -/
def Expr.Moved (e e' : Expr) : Prop := e'.rewrite .unspanned = e.rewrite .unspanned

/-- The second is the first, perhaps in another place. -/
def Statement.Moved (s s' : Statement) : Prop := s'.rewrite .unspanned = s.rewrite .unspanned

/-- The second is the first, perhaps in another place. -/
def Property.Moved (p p' : Property) : Prop := p'.rewrite .unspanned = p.rewrite .unspanned

/-- What `f` cannot tell apart item by item it cannot tell apart. -/
theorem map_eq_of_forall₂ {α β : Type} {f : α → β} {xs ys : List α}
    (h : List.Forall₂ (fun x y => f y = f x) xs ys) : ys.map f = xs.map f := by
  induction h with
  | nil => rfl
  | cons hx _ ih => rw [List.map_cons, List.map_cons, hx, ih]

namespace Grammar

/-- Elements that are taken for parameters are taken for them elsewhere. -/
theorem mapM_parameter_of_moved {ps ps' : List (TokenKind × Expr)}
    (h : List.Forall₂ (fun p p' => p.2.Moved p'.2) ps ps') {ss : List Name}
    (hss : ps.mapM parameter = .ok ss) : ∃ ss', ps'.mapM parameter = .ok ss' ∧
      ss'.map (Name.rewrite .unspanned) = ss.map (Name.rewrite .unspanned) := by
  induction h generalizing ss with
  | nil =>
    rw [← Except.ok.inj hss]
    exact ⟨[], rfl, rfl⟩
  | @cons p p' ps ps' hp _ ih =>
    obtain ⟨first, e⟩ := p
    obtain ⟨first', e'⟩ := p'
    rw [List.mapM_cons] at hss
    cases e with
    | ident sp name =>
      cases hrest : ps.mapM parameter with
      | error e => rw [hrest] at hss; cases hss
      | ok rest =>
        rw [hrest] at hss
        obtain ⟨rest', hrest', hmap⟩ := ih hrest
        obtain ⟨sp', rfl⟩ := Expr.eq_ident_of_unspanned hp
        refine ⟨⟨name, sp'⟩ :: rest', ?_, ?_⟩
        · rw [List.mapM_cons, hrest']
          rfl
        · rw [← Except.ok.inj hss, List.map_cons, List.map_cons, hmap]
          rfl
    | _ => cases hss

end Grammar

/-! ## Readings of nodes -/

namespace Splice

variable (k : Splice)

/-- The reading of an expression between two cursors goes the same way in the spliced tokens. -/
def CarriesExpr (y : Cursor → Expr → Cursor → Prop) (c : Cursor) (e : Expr) (d : Cursor) : Prop :=
  k.Carries ((k.At d → k.Quiet) ∧ k.Clears (.expr e)) e.Moved y c d

/-- The reading of a statement between two cursors goes the same way in the spliced tokens.  The
    mark does not come next after it: what ends with the mark has taken it. -/
def CarriesLine (y : Cursor → Statement → Cursor → Prop) (c : Cursor) (s : Statement)
    (d : Cursor) : Prop :=
  k.Carries (¬k.At d ∧ k.Clears (.statement s)) s.Moved y c d

end Splice

namespace Splice

variable {k : Splice} {c d e f : Cursor} {l m : Language Token} {a : Part}

/-- What takes the mark between parts of its own owns the mark. -/
theorem Fits.owns (hk : k.Fits) {as bs : List Part} (hc : c.On k.tokens)
    (ha : c.Passes a.writings d) (hl : c.Passes l e) (has : Holds l as) (hat : k.At e)
    (hf : f.rest = k.after) (hm : f.Passes m d) (hbs : Holds m bs)
    (hchildren : a.children = as ++ bs) : a.Owns k.mark.span := by
  obtain ⟨ts, hts, hr⟩ := ha.eq_append hc.plain
  obtain ⟨us, hus, hr'⟩ := hl.eq_append hc.plain
  have hplain : f.Plain := by
    intro t ht
    refine hk.plain t (List.mem_append_right k.before (List.mem_cons_of_mem k.mark ?_))
    exact hf ▸ ht
  obtain ⟨vs, hvs, hr''⟩ := hm.eq_append hplain
  have heq : ts = us ++ k.mark :: vs := by
    refine (List.append_left_inj d.rest).mp ?_
    rw [← hr, hr', hat, ← hf, hr'', List.append_assoc, List.cons_append]
  have horder : InOrder ts := by
    refine (hk.tidy hc).sublist ?_
    rw [hr]
    exact List.sublist_append_left ts d.rest
  subst heq
  exact Part.owns_of_stand horder (a.covers _ hts) (has us hus) (hbs vs hvs) hchildren

/-- What the mark closes owns the mark. -/
theorem Fits.owns_of_closes (hk : k.Fits) {j : TokenKind} (hc : c.On k.tokens)
    (ha : c.Passes (Writing.spanning a.span (l * one j)) d) (hd : d.rest = k.after)
    (has : Holds l a.children) : a.Owns k.mark.span ∧ k.mark.kind = j := by
  obtain ⟨ts, ⟨hts, hcovers⟩, hr⟩ := ha.eq_append hc.plain
  obtain ⟨us, hus, _, ⟨t, ht, rfl⟩, rfl⟩ := Language.mem_mul.mp hts
  have hsuffix : t :: k.after <:+ c.rest := by
    refine ⟨us, ?_⟩
    rw [hr, hd, List.append_assoc]
    rfl
  obtain rfl : t = k.mark := eq_mark (hsuffix.trans hc.2)
  have horder : InOrder (us ++ [k.mark]) := by
    refine (hk.tidy hc).sublist ?_
    rw [hr]
    exact List.sublist_append_left _ d.rest
  exact ⟨Part.owns_of_stand horder hcovers (has us hus) (.nil []) (List.append_nil _).symm, ht⟩

/-- The sign that closes a node is not the mark, unless the node may own that. -/
theorem Fits.rest_ne (hk : k.Fits) {j : TokenKind} (hc : c.On k.tokens) (hgood : k.Clears a)
    (ha : c.Passes (Writing.spanning a.span (l * one j)) d) (has : Holds l a.children)
    (hnot : k.mark.kind = j → ¬k.Allows a) : d.rest ≠ k.after := by
  intro hd
  obtain ⟨howns, hkind⟩ := hk.owns_of_closes hc ha hd has
  exact hnot hkind (hgood.allows howns)

/-- What ends with the mark, a semicolon, owns the mark. -/
theorem Fits.owns_of_ends (hk : k.Fits) (hc : c.On k.tokens)
    (ha : c.Passes a.writings (d.past (.punctuation .semicolon)).1) (hl : c.Passes l d)
    (has : Holds l a.children) (hat : k.At d) (hend : ¬k.At (d.past (.punctuation .semicolon)).1) :
    a.Owns k.mark.span :=
  hk.owns hc ha hl has hat (hat.rest_past (hl.on hc) hend).1 (.refl _) (.nothing 1)
    (List.append_nil _).symm

/-- A name is no owner of the mark, and so is none as an expression. -/
theorem Clears.ident {s : Name} (h : k.Clears (.name s)) :
    k.Clears (.expr (.ident s.span s.text)) := by
  intro b hb howns
  cases hb with
  | refl => exact (h.allows ⟨howns.start_le, howns.le_stop, fun _ hx => absurd hx List.not_mem_nil⟩).elim
  | step hmem _ => exact absurd hmem List.not_mem_nil

/-- An expression does not begin with the mark. -/
theorem Fits.not_at_expr (hk : k.Fits) (hc : c.On k.tokens) {x : Expr}
    (h : c.Passes x.writings d) : ¬k.At c := by
  have hbegins : c.kind.beginsExpression = true := h.kind hc.plain x.beginsWith
  exact not_at_of_kind hk (TokenKind.isEnd_eq_false (TokenKind.beginsStatement_of_expression hbegins))

/-- A statement does not begin with the mark. -/
theorem Fits.not_at_statement (hk : k.Fits) (hc : c.On k.tokens) {s : Statement}
    (h : c.Passes s.writings d) : ¬k.At c := by
  have hbegins : c.kind.beginsStatement = true := h.kind hc.plain s.beginsWith
  exact not_at_of_kind hk (TokenKind.isEnd_eq_false hbegins)

end Splice

namespace Grammar

open Cursor Splice

/-- The rules for fewer than `n` tokens go the same way in the spliced tokens. -/
structure Carried (k : Splice) (n : Nat) : Prop where
  expression : ∀ c, c.size < n → c.On k.tokens →
    Gives (k.CarriesExpr ReadsExpression c) (expression c (rules c.size))
  binary : ∀ least c, c.size < n → c.On k.tokens →
    Gives (k.CarriesExpr (ReadsBinary least) c) (binary least c (rules c.size))
  unary : ∀ c, c.size < n → c.On k.tokens →
    Gives (k.CarriesExpr ReadsUnary c) (unary c (rules c.size))
  statement : ∀ c, c.size < n → c.On k.tokens →
    Gives (k.CarriesLine ReadsStatement c) (statement c (rules c.size))

variable {k : Splice} {n : Nat} {c : Cursor}

theorem Carried.mono (hn : Carried k n) {m : Nat} (h : m ≤ n) : Carried k m where
  expression c hc := hn.expression c (Nat.lt_of_lt_of_le hc h)
  binary least c hc := hn.binary least c (Nat.lt_of_lt_of_le hc h)
  unary c hc := hn.unary c (Nat.lt_of_lt_of_le hc h)
  statement c hc := hn.statement c (Nat.lt_of_lt_of_le hc h)

/-- An expression is carried, whatever number of tokens the rule is for. -/
theorem Carried.item (hk : k.Fits) (hn : Carried k n) (c : Cursor) (h : c.size < n)
    (hc : c.On k.tokens) :
    Gives (fun e d => (c.Passes e.writings d ∧ d.On k.tokens ∧ ¬k.At c) ∧
        k.CarriesExpr (fun c e d => ∀ n h, Arrives e d ((rules n).expression c h)) c e d)
      ((rules n).expression c h) := by
  have hpasses := (rules_derive n).expression c h (hk.tidy hc)
  rw [rules_expression] at hpasses ⊢
  refine (hpasses.and (hn.expression c h hc)).mono fun e d he => ?_
  refine ⟨⟨he.1, he.1.on hc, hk.not_at_expr hc he.1⟩, fun hgiven c' hm => ?_⟩
  obtain ⟨e', d', hsame, hmeets, hread⟩ := he.2 hgiven c' hm
  exact ⟨e', d', hsame, hmeets, hread.arrives⟩

/-- A statement is carried, whatever number of tokens the rule is for. -/
theorem Carried.line (hk : k.Fits) (hn : Carried k n) (c : Cursor) (h : c.size < n)
    (hc : c.On k.tokens) :
    Gives (fun s d => (c.Passes s.writings d ∧ d.On k.tokens ∧ ¬k.At c) ∧
        k.CarriesLine (fun c s d => ∀ n h, Arrives s d ((rules n).statement c h)) c s d)
      ((rules n).statement c h) := by
  have hpasses := (rules_derive n).statement c h (hk.tidy hc)
  rw [rules_statement] at hpasses ⊢
  refine (hpasses.and (hn.statement c h hc)).mono fun s d hs => ?_
  refine ⟨⟨hs.1, hs.1.on hc, hk.not_at_statement hc hs.1⟩, fun hgiven c' hm => ?_⟩
  obtain ⟨s', d', hsame, hmeets, hread⟩ := hs.2 hgiven c' hm
  exact ⟨s', d', hsame, hmeets, hread.arrives⟩

/-! ## Operands -/

theorem carries_element (hk : k.Fits) (hn : Carried k n) (c : Cursor) (h : c.size < n)
    (hc : c.On k.tokens) :
    Gives (fun e d => (d.On k.tokens ∧ ¬k.At c) ∧
        k.Carries ((k.At d → k.Quiet) ∧ k.Clears (.expr e)) e.Moved
          (fun c e d => ∀ n h, Arrives e d ((rules n).expression c h)) c d)
      ((rules n).expression c h) :=
  (hn.item hk c h hc).mono fun _ _ he => ⟨he.1.2, he.2⟩

theorem carries_property (hk : k.Fits) (hn : Carried k n) (c : Cursor) (h : c.size < n)
    (hc : c.On k.tokens) :
    Gives (fun p d => (d.On k.tokens ∧ ¬k.At c) ∧
        k.Carries ((k.At d → k.Quiet) ∧ k.Clears (.expr p.value)) p.Moved
          (fun c p d => ∀ n h, Arrives p d (property (rules n) c h)) c d)
      (property (rules n) c h) := by
  refine (gives_name_carried hk hc).bind fun key d hd hkey => ?_
  obtain ⟨⟨-, hd', hat⟩, hkey⟩ := hkey
  refine (gives_expect_taken hd' (.punctuation .colon)).bind fun t e he hcolon => ?_
  have hatd : ¬k.At d := hcolon.not_at hk rfl
  refine (hn.item hk e _ hcolon.on).bind fun value f hf hvalue => ?_
  refine .ok ⟨⟨hvalue.1.2.1, hat⟩, fun hgiven c' hm => ?_⟩ _
  obtain ⟨d', hmd, hkey'⟩ := hkey c' hm
  obtain ⟨e', hme, hcolon'⟩ := hcolon.expect hatd hmd
  obtain ⟨value', f', hsame, hmf, hvalue'⟩ := hvalue.2 hgiven e' hme
  refine ⟨.mk key value', f', ?_, hmf, fun n h => ?_⟩
  · rw [Property.Moved, Property.rewrite, hsame]
    rfl
  · refine hkey'.bind fun _ => ?_
    refine hcolon'.bind fun _ => ?_
    exact (hvalue' n _).bind fun _ => .ok _

theorem carries_kinded (hk : k.Fits) (hn : Carried k n) (c : Cursor) (h : c.size < n)
    (hc : c.On k.tokens) :
    Gives (fun p d => (d.On k.tokens ∧ ¬k.At c) ∧
        k.Carries ((k.At d → k.Quiet) ∧ k.Clears (.expr p.2)) (fun p' => p.2.Moved p'.2)
          (fun c p d => ∀ n h, Arrives p d (element (rules n) c h)) c d)
      (element (rules n) c h) := by
  refine (hn.item hk c h hc).map fun e d he => ⟨he.1.2, fun hgiven c' hm => ?_⟩
  obtain ⟨e', d', hsame, hmd, hread⟩ := he.2 hgiven c' hm
  exact ⟨(c'.kind, e'), d', hsame, hmd, fun n h => (hread n h).map⟩

theorem carries_arrowStatement (hk : k.Fits) (hn : Carried k n) (c : Cursor) (h : c.size < n)
    (hc : c.On k.tokens) :
    Gives (fun s d => (d.On k.tokens ∧ ¬k.At c) ∧
        k.CarriesLine (fun c s d => ∀ n h, Arrives s d (arrowStatement (rules n) c h)) c s d)
      (arrowStatement (rules n) c h) := by
  have hsame : ∀ {c'}, k.Meets c c' → ¬k.At c →
      (c'.comment?.isSome || c'.kind = .keyword .return_) =
        (c.comment?.isSome || c.kind = .keyword .return_) := by
    intro c' hm hat
    rw [hm.kind_eq hc.plain hat, hm.comment?_eq_none hc.plain hat, hc.plain.comment?_eq_none]
    rfl
  refine (gives_arrowStatement (rules_derive n) c h (hk.tidy hc)).given ?_
  rw [arrowStatement]
  split
  · rename_i hreturn
    intro s hs _
    obtain ⟨⟨-, hd, hat⟩, hagain⟩ := hn.line hk c h hc s hs
    refine ⟨⟨hd, hat⟩, fun hgiven c' hm => ?_⟩
    obtain ⟨s', d', hmoved, hmd, hread⟩ := hagain hgiven c' hm
    refine ⟨s', d', hmoved, hmd, fun n h => ?_⟩
    rw [arrowStatement, hsame hm hat, if_pos hreturn]
    exact hread n h
  · rename_i hexpression
    refine (hn.item hk c h hc).bind fun e d hd he => ?_
    obtain ⟨⟨hpassed, hd', hat⟩, hagain⟩ := he
    refine .ok (fun hpasses => ⟨⟨hpasses.on hc, hat⟩, fun hgiven c' hm => ?_⟩) _
    have hquiet : k.At d → k.Quiet := fun hatd =>
      hgiven.2.allows (hk.owns_of_ends hc hpasses hpassed (.part (.expr e)) hatd hgiven.1)
    obtain ⟨e', d', hmoved, hmd, hread⟩ :=
      hagain ⟨hquiet, hgiven.2.child (List.mem_singleton_self _)⟩ c' hm
    refine ⟨.expr ((d'.past (.punctuation .semicolon)).1.spanFrom c'.start) e', _, ?_,
      hmd.past_semicolon hk hd' hgiven.1, fun n h => ?_⟩
    · rw [Statement.Moved, Statement.rewrite, Statement.rewrite, hmoved]
      rfl
    · rw [arrowStatement, hsame hm hat, if_neg hexpression]
      exact (hread n h).bind fun _ => .ok _

/-- A list in parentheses, which may turn out to be a group or the parameters of a function. -/
theorem carries_groupOrArrow (hk : k.Fits) (hn : Carried k n) {c₀ : Cursor} (hc₀ : c₀.On k.tokens)
    (c : Cursor) (h : c.size < n) (hc : c.On k.tokens) (h₀ : c₀.Opens (punctuation .lParen) c)
    (hstart : k.mark.kind ≠ .punctuation .semicolon → ¬k.At c) :
    Gives (fun e d => k.Carries (k.Clears (.expr e)) e.Moved
        (fun c e d => ∀ n h, Arrives e d (groupOrArrow (rules n) c₀.start c h)) c d)
      (groupOrArrow (rules n) c₀.start c h) := by
  refine (gives_groupOrArrow (rules_derive n) c h h₀).given ?_
  refine (gives_delimited_carried hk .rParen (by decide) (carries_kinded hk hn) false c h hc
    hstart).bind ?_
  rintro ⟨elements, comma⟩ d hd ⟨hd', hlist⟩
  dsimp only
  split
  · rename_i t e he harrow
    have hsign : k.Taken d (.punctuation .fatArrow) t e := taken_of_accept? hd' harrow
    have hatd : ¬k.At d := hsign.not_at hk rfl
    refine .check fun params hparams => ?_
    refine (gives_expect_taken hsign.on (.punctuation .lBrace)).bind fun _ f hf hbrace => ?_
    have hate : ¬k.At e := hbrace.not_at hk rfl
    refine (gives_untilBrace_carried (carries_arrowStatement hk hn) f _ hbrace.on).bind
      fun body g hg hbody => ?_
    refine .ok (fun hpasses hgood c' hm => ?_) _
    -- a parameter is a name, and owns what the name would own as an expression
    have helements : ∀ x ∈ elements, k.Clears (.expr x.2) := by
      intro x hx
      have hmem : x.2 ∈ elements.map Prod.snd := List.mem_map_of_mem hx
      rw [map_snd_of_mapM_parameter hparams] at hmem
      obtain ⟨s, hs, heq⟩ := List.mem_map.mp hmem
      rw [← heq]
      exact (hgood.child (List.mem_append_left _ (List.mem_map_of_mem hs))).ident
    have hbrace' : g.rest ≠ k.after := hk.rest_ne hc₀ hgood hpasses
      ((((Holds.params params).after _).after _).mul (.statements body)) fun h hne => hne h
    obtain ⟨⟨elements', comma'⟩, d', hsame, hmd, hlist'⟩ := hlist helements c' hm
    obtain ⟨e', hme, hlte, harrow'⟩ := hsign.again hatd d' hmd
    obtain ⟨params', hparams', hnames⟩ := mapM_parameter_of_moved hsame.1 hparams
    obtain ⟨f', hmf, hbrace''⟩ := hbrace.expect hate hme
    obtain ⟨body', g', hlines, hmg, hbody'⟩ := hbody.2 ⟨hbrace', fun s hs => hgood.child
      (List.mem_append_right _ (List.mem_map_of_mem hs))⟩ f' hmf
    refine ⟨.arrow (g'.spanFrom c₀.start) params' body', g', ?_, hmg, fun n h => ?_⟩
    · rw [Expr.Moved, Expr.rewrite, Expr.rewrite, rewriteStatements_eq_map,
        rewriteStatements_eq_map, hnames, map_eq_of_forall₂ hlines]
      rfl
    · rw [groupOrArrow]
      refine (hlist' n h).bind fun _ => ?_
      dsimp only
      rw [harrow']
      dsimp only
      rw [hparams']
      refine hbrace''.bind fun _ => ?_
      exact (hbody' n _).bind fun _ => .ok _
  · rename_i hnone
    split
    · rename_i first inner
      refine .ok (fun hpasses hgood c' hm => ?_) _
      have hopen : d.rest ≠ k.after :=
        hk.rest_ne hc₀ hgood hpasses ((Holds.part (.expr inner)).before _) fun _ => id
      have hinner : ∀ x ∈ [(first, inner)], k.Clears (.expr x.2) :=
        List.forall_mem_singleton.mpr (hgood.child (List.mem_singleton_self _))
      obtain ⟨⟨elements', comma'⟩, d', hsame, hmd, hlist'⟩ := hlist hinner c' hm
      have hnone' : d'.accept? (.punctuation .fatArrow) = none :=
        hmd.accept?_eq_none_of_next hd'.plain hk.arrow hnone (by rintro ⟨⟩)
      obtain ⟨hitems, hcomma⟩ := hsame
      obtain rfl : comma' = false := hcomma hopen
      cases hitems with
      | @cons _ x _ _ hx hnil =>
        cases hnil
        refine ⟨.paren (d'.spanFrom c₀.start) x.2, d', ?_, hmd, fun n h => ?_⟩
        · rw [Expr.Moved, Expr.rewrite, Expr.rewrite, hx]
          rfl
        · rw [groupOrArrow]
          refine (hlist' n h).bind fun _ => ?_
          dsimp only
          rw [hnone']
          exact .ok _
    · exact .error _

theorem carries_array (hk : k.Fits) (hn : Carried k n) (start : Nat) (c : Cursor) (h : c.size < n)
    (hc : c.On k.tokens) (hstart : k.mark.kind ≠ .punctuation .semicolon → ¬k.At c) :
    Gives (fun e d => k.Carries (k.Clears (.expr e)) e.Moved (fun c e d => ∀ n h, Arrives e d (do
        let ⟨(elements, _), e, he⟩ ← delimited .rBracket (rules n).expression false c h
        .ok (⟨.array (e.spanFrom start) elements, e, he⟩ : Step n Expr))) c d) (do
      let ⟨(elements, _), e, he⟩ ← delimited .rBracket (rules n).expression false c h
      .ok (⟨.array (e.spanFrom start) elements, e, he⟩ : Step n Expr)) := by
  refine (gives_delimited_carried hk .rBracket (by decide) (carries_element hk hn) false c h hc
    hstart).bind ?_
  rintro ⟨elements, comma⟩ d hd ⟨-, hlist⟩
  refine .ok (fun hgood c' hm => ?_) _
  obtain ⟨⟨elements', comma'⟩, d', hsame, hmd, hread⟩ :=
    hlist (fun x hx => hgood.child (List.mem_map_of_mem hx)) c' hm
  refine ⟨.array (d'.spanFrom start) elements', d', ?_, hmd, fun n h => ?_⟩
  · rw [Expr.Moved, Expr.rewrite, Expr.rewrite, rewriteExprs_eq_map, rewriteExprs_eq_map,
      map_eq_of_forall₂ hsame.1]
    rfl
  · exact (hread n h).bind fun _ => .ok _

theorem carries_object (hk : k.Fits) (hn : Carried k n) (start : Nat) (c : Cursor) (h : c.size < n)
    (hc : c.On k.tokens) (hstart : k.mark.kind ≠ .punctuation .semicolon → ¬k.At c) :
    Gives (fun e d => k.Carries (k.Clears (.expr e)) e.Moved (fun c e d => ∀ n h, Arrives e d (do
        let ⟨(properties, _), e, he⟩ ← delimited .rBrace (property (rules n)) false c h
        .ok (⟨.object (e.spanFrom start) properties, e, he⟩ : Step n Expr))) c d) (do
      let ⟨(properties, _), e, he⟩ ← delimited .rBrace (property (rules n)) false c h
      .ok (⟨.object (e.spanFrom start) properties, e, he⟩ : Step n Expr)) := by
  refine (gives_delimited_carried hk .rBrace (by decide) (carries_property hk hn) false c h hc
    hstart).bind ?_
  rintro ⟨properties, comma⟩ d hd ⟨-, hlist⟩
  refine .ok (fun hgood c' hm => ?_) _
  have hvalues : ∀ x ∈ properties, k.Clears (.expr x.value) := by
    rintro ⟨key, value⟩ hx
    refine hgood.child (List.mem_flatMap.mpr ⟨_, hx, ?_⟩)
    exact List.mem_cons_of_mem _ (List.mem_singleton_self _)
  obtain ⟨⟨properties', comma'⟩, d', hsame, hmd, hread⟩ := hlist hvalues c' hm
  refine ⟨.object (d'.spanFrom start) properties', d', ?_, hmd, fun n h => ?_⟩
  · rw [Expr.Moved, Expr.rewrite, Expr.rewrite, rewriteProperties_eq_map,
      rewriteProperties_eq_map, map_eq_of_forall₂ hsame.1]
    rfl
  · exact (hread n h).bind fun _ => .ok _

/-- Reading an operand without signs at `c` gives `e` and comes to `d`. -/
def ReadsPrimary (c : Cursor) (e : Expr) (d : Cursor) : Prop :=
  Arrives e d (primary c (rules c.size))

theorem carries_primary (hk : k.Fits) (c : Cursor) (hn : Carried k c.size) (hc : c.On k.tokens) :
    Gives (fun e d => k.Carries (k.Clears (.expr e)) e.Moved ReadsPrimary c d)
      (primary c (rules c.size)) := by
  rw [primary]
  split
  · exact .error _
  · rename_i t d hd hnext
    have hr := (hc.plain.eq_of_next? hnext).1
    have hd' : d.On k.tokens := hc.of_suffix (hr ▸ List.suffix_cons t d.rest)
    have hstart : t.span.start = c.start := congrArg (·.span.start) (token_of_next? hnext)
    have hnot : ∀ {j : TokenKind}, t.kind = j → j.endsExpression = false →
        k.mark.kind ≠ .punctuation .semicolon → ¬k.At d :=
      fun hj hends => hk.not_at_after hc hr (hj ▸ hends)
    -- what is read goes on after the first token, in the spliced tokens too
    have hgo : ∀ {x : Read (Step c.size Expr)}
        (y : (n : Nat) → (c : Cursor) → c.size < n → Read (Step n Expr)),
        (∀ {c' d'} {hlt : d'.size < c'.size}, c'.comment? = none →
          c'.next? = some ⟨t, d', hlt⟩ → primary c' (rules c'.size) = y _ d' hlt) →
        t.kind.isEnd = false →
        Gives (fun e f => k.Carries (k.Clears (.expr e)) e.Moved
          (fun d e f => ∀ n h, Arrives e f (y n d h)) d f) x →
        Gives (fun e f => k.Carries (k.Clears (.expr e)) e.Moved ReadsPrimary c f) x :=
      fun y hy hend hx => carries_of_next hk hc.plain hnext hend y hy hx
    split
    · rename_i hj
      exact hgo (fun _ d hd => .ok ⟨.ident t.span t.lexeme, d, hd⟩)
        (fun _ hn => by simp only [primary, hn, hj]) (by rw [hj]; rfl)
        (.ok (fun _ d' hm => ⟨_, d', rfl, hm, fun _ _ => .ok _⟩) _)
    · rename_i hj
      rw [hstart]
      exact hgo (fun n => groupOrArrow (rules n) c.start)
        (fun _ hn => by simp only [primary, hn, hj, hstart]) (by rw [hj]; rfl)
        (carries_groupOrArrow hk hn hc d hd hd' (.next? hnext (hk.tidy hc) hj) (hnot hj rfl))
    · rename_i hj
      exact hgo _ (fun _ hn => by simp only [primary, hn, hj]) (by rw [hj]; rfl)
        (carries_array hk hn t.span.start d hd hd' (hnot hj rfl))
    · rename_i hj
      exact hgo _ (fun _ hn => by simp only [primary, hn, hj]) (by rw [hj]; rfl)
        (carries_object hk hn t.span.start d hd hd' (hnot hj rfl))
    · rename_i hident hparen hbracket hbrace
      split
      · rename_i value hvalue
        have hbegins := (Literal.isValueOf_of_literal? hvalue).beginsExpression
        refine hgo (fun _ d hd => .ok ⟨.literal t.span value, d, hd⟩) (fun _ hn => ?_)
          (TokenKind.isEnd_eq_false (TokenKind.beginsStatement_of_expression hbegins))
          (.ok (fun _ d' hm => ⟨_, d', rfl, hm, fun _ _ => .ok _⟩) _)
        simp only [primary, hn, hvalue]
      · exact .error _

/-! ## Signs after an operand and before it -/

/-- Where no sign comes next, none comes next in the spliced tokens. -/
theorem isPostfix_of_meets {c c' : Cursor} (hm : k.Meets c c') (hc : c.Plain)
    (hquiet : k.At c → k.Quiet) (h : c.kind.isPostfix = false) : c'.kind.isPostfix = false := by
  by_cases hat : k.At c
  · rw [hm.kind_eq_next hat]
    exact hquiet hat
  · rw [hm.kind_eq hc hat]
    exact h

/-- What an operand grows into has it as a part, and grows from it in the spliced tokens too. -/
def Extends (k : Splice) (e : Expr) (c : Cursor) (v : Expr) (d : Cursor) : Prop :=
  (k.Clears (.expr v) → k.Clears (.expr e)) ∧ ∀ first start e', e.Moved e' →
    k.CarriesExpr (fun c v d => ∀ n h, Arrives v d (postfixes (rules n) first start e' c h)) c v d

/-! One sign at a time. -/

section signs

variable {c d f g i : Cursor} {t : Token} {hd : d.size < c.size} {sp : Span} {e v : Expr}

theorem extends_stop (hc : c.Plain) (hnone : c.kind.isPostfix = false) : Extends k e c e c := by
  refine ⟨id, fun first start e' hmoved hgiven c' hm => ⟨e', c', hmoved, hm, fun n h => ?_⟩⟩
  rw [postfixes_stop h (isPostfix_of_meets hm hc hgiven.1 hnone)]
  exact .ok _

variable (hk : k.Fits) (hc : c.Plain) (hnext : c.next? = some ⟨t, d, hd⟩)

include hk hc hnext

/-- What grows from an operand with a sign grows from the operand. -/
theorem Extends.of_sign {e₁ : Expr} (h : Extends k e₁ f v g) (hchild : .expr e ∈ e₁.parts)
    (hend : t.kind.isEnd = false)
    (hstep : k.Clears (.expr e₁) → ∀ first start e', e.Moved e' → ∀ d', k.Meets d d' →
      ∃ e₁' f', e₁.Moved e₁' ∧ k.Meets f f' ∧ ∀ c', Finds t d' c'.next? → ∀ n h v g,
        (∀ h, Arrives v g (postfixes (rules n) first start e₁' f' h)) →
          Arrives v g (postfixes (rules n) first start e' c' h)) :
    Extends k e c v g := by
  refine ⟨fun hgood => (h.1 hgood).child hchild, fun first start e' hmoved hgiven c' hm => ?_⟩
  have hat : ¬k.At c := by
    refine not_at_of_kind hk ?_
    rw [kind, ← token_of_next? hnext]
    exact hend
  obtain ⟨d', hmd, hfound⟩ := hm.next? hc hat hnext
  obtain ⟨e₁', f', hmoved₁, hmf, hgo⟩ := hstep (h.1 hgiven.2) first start e' hmoved d' hmd
  obtain ⟨v', g', hmoved', hmg, hread⟩ := h.2 first start e₁' hmoved₁ hgiven f' hmf
  exact ⟨v', g', hmoved', hmg, fun n h => hgo c' hfound n h v' g' (hread n)⟩

theorem extends_call {args : List Expr × Bool} (hkind : t.kind = .punctuation .lParen)
    (hlist : k.Carries (∀ x ∈ args.1, k.Clears (.expr x))
      (fun l => List.Forall₂ Expr.Moved args.1 l.1 ∧ (f.rest ≠ k.after → l.2 = args.2))
      (fun c l d => ∀ n h, Arrives l d (delimited .rParen (rules n).expression false c h)) d f)
    (h : Extends k (.call sp e args.1) f v g) : Extends k e c v g := by
  refine h.of_sign hk hc hnext List.mem_cons_self (by rw [hkind]; rfl) ?_
  intro hgood first start e' hmoved d' hmd
  have hargs : ∀ x ∈ args.1, k.Clears (.expr x) := fun x hx =>
    hgood.child (List.mem_cons_of_mem _ (List.mem_map_of_mem hx))
  obtain ⟨args', f', hsame, hmf, hread⟩ := hlist hargs d' hmd
  refine ⟨.call (f'.spanFrom start) e' args'.1, f', ?_, hmf, ?_⟩
  · rw [Expr.Moved, Expr.rewrite, Expr.rewrite, rewriteExprs_eq_map, rewriteExprs_eq_map,
      map_eq_of_forall₂ hsame.1, hmoved]
    rfl
  · rintro c' ⟨hlt, hnext'⟩ n h v g hgo
    rw [postfixes, hnext']
    dsimp only
    rw [hkind, restrict_rules]
    exact (hread _ _).bind fun _ => hgo _

theorem extends_member {property : Name} (hkind : t.kind = .punctuation .dot)
    (hname : ∀ d', k.Meets d d' → ∃ f', k.Meets f f' ∧ Arrives property f' (name d'))
    (h : Extends k (.member sp e property) f v g) : Extends k e c v g := by
  refine h.of_sign hk hc hnext List.mem_cons_self (by rw [hkind]; rfl) ?_
  intro _ first start e' hmoved d' hmd
  obtain ⟨f', hmf, hread⟩ := hname d' hmd
  refine ⟨.member (f'.spanFrom start) e' property, f', ?_, hmf, ?_⟩
  · rw [Expr.Moved, Expr.rewrite, Expr.rewrite, hmoved]
    rfl
  · rintro c' ⟨hlt, hnext'⟩ n h v g hgo
    rw [postfixes, hnext']
    dsimp only
    rw [hkind]
    exact hread.bind fun _ => hgo _

theorem extends_index {key : Expr} {u : Token} (hkind : t.kind = .punctuation .lBracket)
    (hkey : k.CarriesExpr (fun c e d => ∀ n h, Arrives e d ((rules n).expression c h)) d key f)
    (hclose : k.Taken f (.punctuation .rBracket) u i)
    (hkeeps : k.Clears (.expr (.index sp e key)) → ¬k.At f)
    (h : Extends k (.index sp e key) i v g) : Extends k e c v g := by
  refine h.of_sign hk hc hnext List.mem_cons_self (by rw [hkind]; rfl) ?_
  intro hgood first start e' hmoved d' hmd
  have hat := hkeeps hgood
  obtain ⟨key', f', hsame, hmf, hread⟩ := hkey ⟨fun hat' => absurd hat' hat,
    hgood.child (List.mem_cons_of_mem _ (List.mem_singleton_self _))⟩ d' hmd
  obtain ⟨i', hmi, hclose'⟩ := hclose.expect hat hmf
  refine ⟨.index (i'.spanFrom start) e' key', i', ?_, hmi, ?_⟩
  · rw [Expr.Moved, Expr.rewrite, Expr.rewrite, hmoved, hsame]
    rfl
  · rintro c' ⟨hlt, hnext'⟩ n h v g hgo
    rw [postfixes, hnext']
    dsimp only
    rw [hkind]
    refine (hread _ _).bind fun _ => ?_
    exact hclose'.bind fun _ => hgo _

theorem extends_update {op : UpdateOp} {first : TokenKind} {u : Unit}
    (hop : t.kind.update? = some op) (htarget : checkTarget e first = .ok u)
    (h : Extends k (.update sp op false e) d v g) : Extends k e c v g := by
  have hkind := TokenKind.eq_of_update? hop
  refine h.of_sign hk hc hnext (List.mem_singleton_self _) (by rw [hkind]; rfl) ?_
  intro _ first' start e' hmoved d' hmd
  refine ⟨.update (d'.spanFrom start) op false e', d', ?_, hmd, ?_⟩
  · rw [Expr.Moved, Expr.rewrite, Expr.rewrite, hmoved]
    rfl
  · rintro c' ⟨hlt, hnext'⟩ n h v g hgo
    rw [postfixes, hnext']
    simp only [hkind] at hop ⊢
    simp only [hop, Expr.checkTarget_eq hmoved (isTarget_of_checkTarget htarget)]
    exact hgo _

end signs

/-- The signs after an operand make it longer. -/
theorem carries_postfixes (hk : k.Fits) (hn : Carried k n) (first : TokenKind) {c₀ : Cursor}
    (hc₀ : c₀.On k.tokens) (e : Expr) (c : Cursor) (h : c.size < n)
    (hpassed : c₀.Passes e.writings c) :
    Gives (Extends k e c) (postfixes (rules n) first c₀.start e c h) := by
  induction hsize : c.size using Nat.strongRecOn generalizing c e with
  | ind m ih =>
    subst hsize
    have hc : c.On k.tokens := hpassed.on hc₀
    have hopened := hpassed.opens (hk.tidy hc₀) e.begins
    rw [postfixes]
    split
    · rename_i hnone
      refine .ok (extends_stop hc.plain ?_) _
      rw [kind_of_next?_eq_none hnone]
      rfl
    · rename_i t d hd hnext
      have hr := (hc.plain.eq_of_next? hnext).1
      have hd' : d.On k.tokens := hc.of_suffix (hr ▸ List.suffix_cons t d.rest)
      have hsign : ∀ {j : TokenKind}, t.kind = j → c₀.Opens (e.writings * one j) d :=
        fun hj => hopened.trans (.next? hnext hj)
      split
      · rename_i hparen
        have hcall := hsign hparen
        rw [restrict_rules]
        refine ((gives_delimited .rParen (rules_derive c.size).expression false d hd
          hcall.tidy).and (gives_delimited_carried hk .rParen (by decide)
          (carries_element hk (hn.mono (Nat.le_of_lt h))) false d hd hd'
          (hk.not_at_after hc hr (by rw [hparen]; rfl)))).bind ?_
        rintro ⟨args, comma⟩ f hf ⟨⟨hlisted, -⟩, hf', hlist⟩
        have hnode : c₀.Passes (Expr.call (f.spanFrom c₀.start) e args).writings f := by
          rw [Expr.writings, exprsWritings_eq_map]
          exact (opens_separated hcall hlisted).spanning
        exact (ih f.size hf _ f _ hnode rfl).mono fun _ _ =>
          extends_call hk hc.plain hnext hparen hlist
      · rename_i hdot
        refine (gives_name_carried hk hd').bind fun property f hf hname => ?_
        have hnode : c₀.Passes (Expr.member (f.spanFrom c₀.start) e property).writings f :=
          ((hsign hdot).trans hname.1.1).spanning
        exact (ih f.size (Nat.lt_trans hf hd) _ f _ hnode rfl).mono fun _ _ =>
          extends_member hk hc.plain hnext hdot hname.2
      · rename_i hbracket
        refine (hn.item hk d _ hd').bind fun key f hf hkey => ?_
        refine (gives_expect_taken hkey.1.2.1 (.punctuation .rBracket)).bind fun u g hg hclose => ?_
        have hnode : c₀.Passes (Expr.index (g.spanFrom c₀.start) e key).writings g :=
          (((hsign hbracket).trans hkey.1.1).trans hclose.passes).spanning
        -- the mark is not the sign that closes the index: it would be the index's own
        have hkeeps : k.Clears (.expr (.index (g.spanFrom c₀.start) e key)) → ¬k.At f := by
          intro hgood hat
          exact hk.rest_ne hc₀ hgood hnode (((Holds.part (.expr e)).after _).mul
            (.part (.expr key))) (fun _ => id) (hclose.of_at hat).1
        exact (ih g.size (Cursor.size_lt₃ hg hf hd) _ g _ hnode rfl).mono fun _ _ =>
          extends_index hk hc.plain hnext hbracket hkey.2 hclose hkeeps
      · rename_i hparen hdot hbracket
        split
        · rename_i op hop
          refine .check fun _ htarget => ?_
          have hnode : c₀.Passes (Expr.update (d.spanFrom c₀.start) op false e).writings d :=
            (hsign (TokenKind.eq_of_update? hop)).spanning
          exact (ih d.size hd _ d _ hnode rfl).mono fun _ _ =>
            extends_update hk hc.plain hnext hop htarget
        · rename_i hnone
          refine .ok (extends_stop hc.plain ?_) _
          rw [kind, ← token_of_next? hnext]
          exact TokenKind.isPostfix_eq_false hparen hdot hbracket hnone

theorem carries_unary (hk : k.Fits) (c : Cursor) (hn : Carried k c.size) (hc : c.On k.tokens) :
    Gives (k.CarriesExpr ReadsUnary c) (unary c (rules c.size)) := by
  rw [unary]
  split
  · rename_i op d hd hop
    have hkind := TokenKind.eq_of_update? (eq_some_of_take? hop)
    have hpassed : c.Passes (operator op.operator) d :=
      .take? hop fun _ => TokenKind.eq_of_update?
    rw [rules_unary]
    refine (hn.unary d hd (hpassed.on hc)).bind fun argument e he hargument => ?_
    refine .check fun _ htarget => ?_
    refine .ok (fun hgiven c' hm => ?_) _
    obtain ⟨d', hmd, hlt, hop'⟩ := hm.take? hc.plain (not_at_of_kind hk (by rw [hkind]; rfl)) hop
    obtain ⟨argument', e', hmoved, hme, hread⟩ :=
      hargument ⟨hgiven.1, hgiven.2.child (List.mem_singleton_self _)⟩ d' hmd
    refine ⟨.update ⟨c'.start, argument'.span.stop⟩ op true argument', e', ?_, hme, ?_⟩
    · rw [Expr.Moved, Expr.rewrite, Expr.rewrite, hmoved]
      rfl
    · rw [ReadsUnary, unary, hop']
      refine (hread.arrives _ hlt).bind fun _ => ?_
      dsimp only
      rw [Expr.checkTarget_eq hmoved (isTarget_of_checkTarget htarget)]
      exact .ok _
  · rename_i hnone
    refine ((gives_primary c (rules_derive c.size) (hk.tidy hc)).and
      (carries_primary hk c hn hc)).bind fun e d hd hboth => ?_
    obtain ⟨hpassed, he⟩ := hboth
    show Gives _ (postfixes (rules c.size) c.kind e.span.start e d hd)
    rw [hpassed.start_eq (hk.tidy hc)]
    refine (carries_postfixes hk hn c.kind hc e d hd hpassed).mono fun v f hv hgiven c' hm => ?_
    obtain ⟨e', d', hmoved, hmd, hread⟩ := he (hv.1 hgiven.2) c' hm
    obtain ⟨v', f', hmoved', hmf, hread'⟩ := hv.2 c'.kind e'.span.start e' hmoved hgiven d' hmd
    refine ⟨v', f', hmoved', hmf, ?_⟩
    rw [ReadsUnary, unary, hm.take?_eq_none hc.plain (hk.not_at_expr hc hpassed) hnone rfl]
    exact Arrives.bind hread fun _ => hread' _ _

/-! ## Operators between operands -/

/-- Operands are carried, whatever number of tokens the rule is for. -/
theorem Carried.operand (hk : k.Fits) (hn : Carried k n) (least : Nat) (c : Cursor)
    (h : c.size < n) (hc : c.On k.tokens) :
    Gives (fun e d => d.On k.tokens ∧
        k.CarriesExpr (fun c e d => ∀ n h, Arrives e d ((rules n).binary least c h)) c e d)
      ((rules n).binary least c h) := by
  have hpasses := (rules_derive n).binary least c h (hk.tidy hc)
  rw [rules_binary] at hpasses ⊢
  refine (hpasses.and (hn.binary least c h hc)).mono fun e d he => ⟨he.1.on hc, ?_⟩
  intro hgiven c' hm
  obtain ⟨e', d', hsame, hmeets, hread⟩ := he.2 hgiven c' hm
  exact ⟨e', d', hsame, hmeets, hread.arrives⟩

/-- What operands are joined to has those that were read before as a part, and they are joined to it
    in the spliced tokens too.  Where the mark comes next no operator does. -/
def Joins (k : Splice) (least : Nat) (left : Expr) (c : Cursor) (v : Expr) (d : Cursor) : Prop :=
  (k.Clears (.expr v) → k.Clears (.expr left)) ∧ (k.At c → d = c) ∧ ∀ left', left.Moved left' →
    k.CarriesExpr (fun c v d => ∀ n h, Arrives v d (operands (rules n) least left' c h)) c v d

theorem carries_operands (hk : k.Fits) (hn : Carried k n) (least : Nat) (left : Expr) (c : Cursor)
    (h : c.size < n) (hc : c.On k.tokens) :
    Gives (Joins k least left c) (operands (rules n) least left c h) := by
  induction hsize : c.size using Nat.strongRecOn generalizing c left with
  | ind m ih =>
    subst hsize
    rw [operands]
    split
    · rename_i hnone
      refine .ok ⟨id, fun _ => rfl, fun left' hmoved _ c' hm => ?_⟩ _
      refine ⟨left', c', hmoved, hm, fun n h => ?_⟩
      have hnext : binaryFrom? least k.next = none := by
        rw [binaryFrom?_eq, hk.binary]
        rfl
      rw [operands, hm.take?_eq_none_of_next hc.plain hnext hnone rfl]
      exact .ok _
    · rename_i op d hd hop
      have hkind := TokenKind.eq_of_binary? (binaryFrom?_eq_some (eq_some_of_take? hop)).1
      have hat : ¬k.At c := not_at_of_kind hk (by rw [hkind]; rfl)
      have hpassed : c.Passes (operator op.operator) d :=
        .take? hop fun _ hj => TokenKind.eq_of_binary? (binaryFrom?_eq_some hj).1
      refine (hn.operand hk _ d _ (hpassed.on hc)).bind fun right e he hright => ?_
      refine (ih e.size (Nat.lt_trans he hd) _ e _ hright.1 rfl).mono fun v f hv => ?_
      obtain ⟨hclears, hstays, hjoins⟩ := hv
      refine ⟨fun hgood => (hclears hgood).child List.mem_cons_self, fun hat' => absurd hat' hat,
        fun left' hmoved hgiven c' hm => ?_⟩
      obtain ⟨d', hmd, hlt, hop'⟩ := hm.take? hc.plain hat hop
      obtain ⟨right', e', hsame, hme, hread⟩ := hright.2 ⟨fun hate => hgiven.1 (hstays hate ▸ hate),
        (hclears hgiven.2).child (List.mem_cons_of_mem _ (List.mem_singleton_self _))⟩ d' hmd
      have hjoined : (Expr.binary (left.span.merge right.span) op left right).Moved
          (.binary (left'.span.merge right'.span) op left' right') := by
        rw [Expr.Moved, Expr.rewrite, Expr.rewrite, hmoved, hsame]
        rfl
      obtain ⟨v', f', hmoved', hmf, hread'⟩ := hjoins _ hjoined hgiven e' hme
      refine ⟨v', f', hmoved', hmf, fun n h => ?_⟩
      rw [operands, hop']
      exact (hread _ _).bind fun _ => hread' _ _

theorem carries_binary (hk : k.Fits) (least : Nat) (c : Cursor) (hn : Carried k c.size)
    (hc : c.On k.tokens) :
    Gives (k.CarriesExpr (ReadsBinary least) c) (binary least c (rules c.size)) := by
  refine ((gives_unary c (rules_derive c.size) (hk.tidy hc)).and
    (carries_unary hk c hn hc)).bind fun left d hd hboth => ?_
  obtain ⟨hpassed, hleft⟩ := hboth
  refine (carries_operands hk hn least left d hd (hpassed.on hc)).mono fun v f hv hgiven c' hm => ?_
  obtain ⟨hclears, hstays, hjoins⟩ := hv
  obtain ⟨left', d', hmoved, hmd, hread⟩ :=
    hleft ⟨fun hatd => hgiven.1 (hstays hatd ▸ hatd), hclears hgiven.2⟩ c' hm
  obtain ⟨v', f', hmoved', hmf, hread'⟩ := hjoins left' hmoved hgiven d' hmd
  exact ⟨v', f', hmoved', hmf, Arrives.bind hread fun _ => hread' _ _⟩

theorem carries_expression (hk : k.Fits) (c : Cursor) (hn : Carried k c.size)
    (hc : c.On k.tokens) :
    Gives (k.CarriesExpr ReadsExpression c) (expression c (rules c.size)) := by
  refine ((gives_binary c (rules_derive c.size) (hk.tidy hc)).and
    (carries_binary hk 0 c hn hc)).bind fun target d hd hboth => ?_
  obtain ⟨hpassed, ht⟩ := hboth
  have hd' := hpassed.on hc
  dsimp only
  split
  · rename_i hnone
    refine .ok (fun hgiven c' hm => ?_) _
    obtain ⟨target', d', hmoved, hmd, hread⟩ := ht hgiven c' hm
    refine ⟨target', d', hmoved, hmd, Arrives.bind hread fun _ => ?_⟩
    dsimp only
    rw [hmd.take?_eq_none_of_next hd'.plain hk.assign hnone rfl]
    exact .ok _
  · rename_i op e he hop
    have hkind := TokenKind.eq_of_assign? (eq_some_of_take? hop)
    have hat : ¬k.At d := not_at_of_kind hk (by rw [hkind]; rfl)
    have hsign : d.Passes (operator op.operator) e := .take? hop fun _ => TokenKind.eq_of_assign?
    refine .check fun _ htarget => ?_
    refine (hn.item hk e _ (hsign.on hd')).bind fun value f hf hvalue => ?_
    refine .ok (fun hgiven c' hm => ?_) _
    obtain ⟨target', d', hmoved, hmd, hread⟩ :=
      ht ⟨fun hat' => absurd hat' hat, hgiven.2.child List.mem_cons_self⟩ c' hm
    obtain ⟨e', hme, hlt, hop'⟩ := hmd.take? hd'.plain hat hop
    obtain ⟨value', f', hsame, hmf, hread'⟩ := hvalue.2 ⟨hgiven.1,
      hgiven.2.child (List.mem_cons_of_mem _ (List.mem_singleton_self _))⟩ e' hme
    refine ⟨.assign (target'.span.merge value'.span) op target' value', f', ?_, hmf,
      Arrives.bind hread fun _ => ?_⟩
    · rw [Expr.Moved, Expr.rewrite, Expr.rewrite, hmoved, hsame]
      rfl
    · dsimp only
      rw [hop']
      dsimp only
      rw [Expr.checkTarget_eq hmoved (isTarget_of_checkTarget htarget)]
      exact (hread' _ _).bind fun _ => .ok _

end Grammar

end CurlyScript
