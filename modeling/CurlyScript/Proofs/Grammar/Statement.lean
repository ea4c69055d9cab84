import CurlyScript.Proofs.Grammar.Operand

/-
  Reading statements back, and with them whole trees.

  A plain tree is read from its terminals (`readable_tree`), and so is a plain program
  (`Program.readFrom_eq_ok`).  The tree that is read differs in its spans only.
-/

namespace CurlyScript

open Terminal Grammar

/-- The three ways in which an expression is read. -/
structure Expr.Readable (e : Expr) : Prop where
  chains : e.groupsBeforePostfix = false → e.Chains
  climbs : 0 < e.precedence → e.Climbs
  reads : e.Reads

/-- A declaration is read, after its keyword and without its semicolon. -/
def Decl.Reads : Decl → Prop
  | .mk _ _ s init =>
    ∀ m n (hmn : m ≤ n) (c : Cursor) (h : c.size < m) more,
      c.terminals = Terminal.name s.text :: optionTerminals [operator .eq] init ++ more →
      (nextKind more).continuesExpression = false →
      Succeeds (declared ((rules n).restrict hmn) c h)
        (Step.Gives (fun p => (p.1.text, p.2.map (Expr.rewrite .unspanned)))
          (s.text, init.map (Expr.rewrite .unspanned)) more)

/-- The ways in which a statement is read. -/
structure Statement.Readable (s : Statement) : Prop where
  reads : s.Reads
  line : s.isArrowLine = true → s.ReadsInArrow

theorem Expr.Chains.readable {e : Expr} (he : e.Chains) (hf : e.first.kind.update? = none)
    (hp : 0 < e.precedence) : e.Readable :=
  ⟨fun _ => he, fun _ => (he.stands hf).climbs, (he.stands hf).climbs.reads hp⟩

/-! ## Parts of statements -/

section parts

variable {m n : Nat} (hmn : m ≤ n) (c : Cursor) (h : c.size < m) (more : List Terminal)

/-- The body of an `if` or a loop is read. -/
theorem nested_succeeds {s : Statement} (hs : s.Reads) (hcomment : s.isComment = false)
    (hc : c.terminals = s.terminals ++ more)
    (helse : s.endsWithOpenIf = true → nextKind more ≠ .keyword .else_) :
    Succeeds (nested ((rules n).restrict hmn) c h)
      (Step.Gives (Statement.rewrite .unspanned) (s.rewrite .unspanned) more) := by
  obtain ⟨t, ts, hts, -, -, ht⟩ := s.terminals_eq_cons
  -- comments before a body are skipped, and `s` begins with none
  have hskip : c.skipComments.terminals = s.terminals ++ more := by
    rw [Cursor.skipComments_eq (by rw [hc, hts]; rfl) (ht.trans hcomment), hc]
  have hle := c.size_skipComments_le
  refine (hs n c.skipComments (by omega) more hskip helse).bind ?_
  rintro ⟨v, d, hd⟩ hgives
  exact ⟨_, rfl, hgives⟩

/-- A part of a loop's head is read, if it is there. -/
theorem clause_succeeds {stop : Punctuation} {o : Option Expr} (ho : ∀ e ∈ o, e.Reads)
    (hstop : (TokenKind.punctuation stop).continuesExpression = false)
    (hbegin : (TokenKind.punctuation stop).beginsExpression = false)
    (hc : c.terminals = optionTerminals [] o ++ punctuation stop :: more) :
    Succeeds (clause stop ((rules n).restrict hmn) c h)
      (Step.Gives (Option.map (Expr.rewrite .unspanned)) (o.map (Expr.rewrite .unspanned))
        (punctuation stop :: more)) := by
  cases o with
  | none =>
    have hk : c.kind = .punctuation stop := by
      rw [c.kind_eq, hc]
      rfl
    rw [clause, if_pos hk]
    exact ⟨_, rfl, rfl, hc⟩
  | some e =>
    rw [optionTerminals, List.nil_append] at hc
    have hk : ¬ c.kind = .punctuation stop := by
      rw [c.kind_eq, hc]
      exact e.nextKind_terminals_ne _ hbegin
    rw [clause, if_neg hk]
    refine (ho e rfl n c (Nat.lt_of_lt_of_le h hmn) _ hc hstop).bind ?_
    rintro ⟨v, d, hd⟩ ⟨hv, hm⟩
    exact ⟨_, rfl, congrArg some hv, hm⟩

/-- The first part of a loop's head is read if it is an expression or left out. -/
theorem loopInit_clause {o : Option Expr} (ho : ∀ e ∈ o, e.Reads)
    (hc : c.terminals = optionTerminals [] o ++ punctuation .semicolon :: more) :
    Succeeds (loopInit ((rules n).restrict hmn) c h)
      (Step.Gives (rewriteLoopInit .unspanned) (rewriteLoopInit .unspanned (o.map .expr))
        (punctuation .semicolon :: more)) := by
  have hmap : ∀ x : Option Expr, rewriteLoopInit .unspanned (x.map .expr) =
      (x.map (Expr.rewrite .unspanned)).map .expr := by
    intro x
    cases x <;> rfl
  -- no keyword of a declaration begins an expression
  have hnone : c.take? TokenKind.decl? = none := by
    refine Cursor.take?_eq_none ?_
    rw [hc]
    cases o with
    | none => rfl
    | some e =>
      rw [optionTerminals, List.nil_append, e.nextKind_terminals]
      have hb := e.first_beginsExpression
      cases hk : e.first.kind with
      | keyword k =>
        rw [hk] at hb
        cases k <;> first | rfl | exact Bool.noConfusion hb
      | _ => rfl
  rw [loopInit, hnone]
  refine (clause_succeeds hmn c h more ho rfl rfl hc).map ?_
  rintro ⟨v, d, hd⟩ ⟨hv, hm⟩
  refine ⟨?_, hm⟩
  show rewriteLoopInit .unspanned (v.map .expr) = _
  rw [hmap, hmap]
  exact congrArg (Option.map LoopInit.expr) hv

/-- The first part of a loop's head is read, if it is there. -/
theorem loopInit_succeeds {init : Option LoopInit} (hd : ∀ d, init = some (.decl d) → d.Reads)
    (he : ∀ e, init = some (.expr e) → e.Reads)
    (hc : c.terminals = loopInitTerminals init ++ punctuation .semicolon :: more) :
    Succeeds (loopInit ((rules n).restrict hmn) c h)
      (Step.Gives (rewriteLoopInit .unspanned) (rewriteLoopInit .unspanned init)
        (punctuation .semicolon :: more)) := by
  cases init with
  | none => exact loopInit_clause hmn c h more (o := none) (by rintro _ ⟨⟩) hc
  | some i =>
    cases i with
    | decl d =>
      obtain ⟨sp, kind, s, init⟩ := d
      obtain ⟨d, hdc, htake, hm⟩ := Cursor.take?_eq (f := TokenKind.decl?) (a := kind) hc rfl
        (by cases kind <;> rfl)
      have hread := hd _ rfl m n hmn d (by omega) (punctuation .semicolon :: more) hm rfl
      rw [loopInit, htake]
      refine hread.bind ?_
      rintro ⟨⟨⟨t, spn⟩, i⟩, e, he⟩ ⟨hv, hm'⟩
      obtain ⟨rfl, hi⟩ := Prod.mk.inj hv
      refine ⟨_, rfl, ?_, hm'⟩
      simp only [rewriteLoopInit, Decl.rewrite, rewriteOption_eq_map]
      exact congrArg (fun o => some (LoopInit.decl (.mk .none kind ⟨s.text, .none⟩ o))) hi
    | expr e =>
      have ho : ∀ x ∈ some e, x.Reads := by
        intro x hx
        rw [← Option.some.inj hx]
        exact he e rfl
      exact loopInit_clause hmn c h more ho hc

end parts

/-! ## Statements -/

/-- A declaration is read if its value is. -/
theorem Decl.reads {sp : Span} {kind : DeclKind} {s : Name} {init : Option Expr}
    (hi : ∀ e ∈ init, e.Reads) : (Decl.mk sp kind s init).Reads := by
  intro m n hmn c h more hc hk
  obtain ⟨spn, d, hd, hname, hm⟩ := name_eq hc
  cases init with
  | none =>
    -- an `=` would make an expression longer, so none follows
    have hnone : d.accept? (.operator .eq) = none := by
      refine Cursor.accept?_eq_none ?_
      rw [hm]
      intro heq
      have heq' : nextKind more = .operator .eq := heq
      rw [heq'] at hk
      exact Bool.noConfusion hk
    rw [declared, hname]
    simp only [ok_bind, hnone]
    exact ⟨_, rfl, rfl, hm⟩
  | some e =>
    obtain ⟨spe, d2, hd2, heq, hm2⟩ := Cursor.accept?_eq (k := .operator .eq) hm rfl (by decide)
    obtain ⟨⟨v, f, hf⟩, hread, hv, hmore⟩ := hi e rfl n d2 (by omega) more hm2 hk
    have hvalue : ((rules n).restrict hmn).expression d2 (by omega) = .ok ⟨v, f, hf⟩ := hread
    rw [declared, hname]
    simp only [ok_bind, heq, hvalue]
    exact ⟨_, rfl, Prod.ext rfl (congrArg some hv), hmore⟩

namespace Statement

/-- After what is no comment, a statement is read by its first token. -/
theorem reads_of_first {s : Statement} (hs : s.isComment = false)
    (h : ∀ n (c : Cursor) (h : c.size ≤ n) more, c.terminals = s.terminals ++ more →
      (s.endsWithOpenIf = true → nextKind more ≠ .keyword .else_) → c.comment? = none →
      Succeeds (Grammar.statement c (rulesFor c h))
        (Step.Gives (Statement.rewrite .unspanned) (s.rewrite .unspanned) more)) : s.Reads := by
  intro n c hcn more hc helse
  obtain ⟨t, ts, hts, -, -, ht⟩ := s.terminals_eq_cons
  have hnone : c.comment? = none := Cursor.comment?_eq_none (by rw [hc, hts]; rfl) (ht.trans hs)
  cases n with
  | zero => exact absurd hcn (Nat.not_lt_zero _)
  | succ n => exact h n c (Nat.le_of_lt_succ hcn) more hc helse hnone

theorem reads_comment (sp : Span) (text : String) : (comment sp text).Reads := by
  intro n c hcn more hc _
  cases n with
  | zero => exact absurd hcn (Nat.not_lt_zero _)
  | succ n =>
    obtain ⟨spc, d, hd, hcomment, hm⟩ := Cursor.comment?_eq hc rfl
    show Succeeds (Grammar.statement c (rulesFor c (Nat.le_of_lt_succ hcn))) _
    rw [Grammar.statement, hcomment]
    exact ⟨_, rfl, rfl, hm⟩

theorem reads_decl {d : Decl} (hd : d.Reads) : (decl d).Reads := by
  obtain ⟨sp, kind, s, init⟩ := d
  refine reads_of_first rfl fun n c h more hc _ hnone => ?_
  rw [terminals, List.append_assoc] at hc
  obtain ⟨spk, d, hdc, hn, hm⟩ := Cursor.next?_eq hc rfl
  obtain ⟨⟨⟨⟨t, spn⟩, i⟩, e, he⟩, hread, hv, hm'⟩ :=
    hd c.size n h d hdc (punctuation .semicolon :: more) hm rfl
  obtain ⟨rfl, hi⟩ := Prod.mk.inj hv
  have hpast := Cursor.terminals_past (k := .punctuation .semicolon) hm' rfl (by decide)
  have hdecl : Grammar.statement c (rulesFor c h) =
      declaration (rulesFor c h) spk.start kind d hdc := by
    rw [Grammar.statement, hnone]
    simp only [hn]
    cases kind <;> rfl
  rw [hdecl, declaration, hread]
  refine ⟨_, rfl, ?_, hpast⟩
  simp only [rewrite, Decl.rewrite, rewriteOption_eq_map]
  exact congrArg (fun o => decl (.mk .none kind ⟨s.text, .none⟩ o)) hi

/-- The lines of a block are read if its statements are. -/
theorem untilBrace_statements {body : List Statement} (hb : ∀ s ∈ body, s.Reads) {m n : Nat}
    (hmn : m ≤ n) (c : Cursor) (h : c.size < m) (more : List Terminal)
    (hc : c.terminals = statementsTerminals body ++ punctuation .rBrace :: more) :
    Succeeds (untilBrace ((rules n).restrict hmn).statement c h)
      (Step.Gives (List.map (Statement.rewrite .unspanned))
        (body.map (Statement.rewrite .unspanned)) more) :=
  untilBrace_succeeds (fun s hs c' h' more' hc' helse =>
    hb s hs n c' (Nat.lt_of_lt_of_le h' hmn) more' hc' fun _ => helse) c h more hc

theorem reads_block (sp : Span) {body : List Statement} (hb : ∀ s ∈ body, s.Reads) :
    (block sp body).Reads := by
  refine reads_of_first rfl fun n c h more hc _ hnone => ?_
  simp only [terminals, List.cons_append, List.append_assoc, List.nil_append] at hc
  obtain ⟨spk, d, hd, hn, hm⟩ := Cursor.next?_eq hc rfl
  obtain ⟨⟨ss, e, he⟩, hread, hv, hmore⟩ := untilBrace_statements hb h d hd more hm
  rw [Grammar.statement, hnone]
  simp only [hn, Terminal.punctuation, Terminal.sign, TokenKind.ofSign, hread, ok_bind]
  refine ⟨_, rfl, ?_, hmore⟩
  simp only [rewrite, rewriteStatements_eq_map]
  exact congrArg (block Span.none) hv

theorem reads_function (sp : Span) (s : Name) (params : List Name) {body : List Statement}
    (hb : ∀ s ∈ body, s.Reads) : (function sp s params body).Reads := by
  refine reads_of_first rfl fun n c h more hc _ hnone => ?_
  simp only [terminals, Terminal.params, List.cons_append, List.append_assoc,
    List.nil_append] at hc
  obtain ⟨spk, d, hd, hn, hm⟩ := Cursor.next?_eq hc rfl
  obtain ⟨spn, e, he, hname, hm1⟩ := name_eq hm
  obtain ⟨spl, f, hf, hopen, hm2⟩ :=
    Cursor.expect_eq (k := .punctuation .lParen) hm1 rfl (by decide)
  have hitem : ∀ p ∈ params, ∀ c' (h' : c'.size < c.size) more',
      c'.terminals = [Terminal.name p.text] ++ more' →
      nextKind more' = .punctuation .comma ∨ nextKind more' = .punctuation .rParen →
      Succeeds (Grammar.name c')
        (Step.Gives (Name.rewrite .unspanned) (p.rewrite .unspanned) more') := by
    intro p _ c' h' more' hc' _
    obtain ⟨spp, d', hd', hp, hm'⟩ := name_eq hc'
    exact ⟨_, hp, rfl, hm'⟩
  obtain ⟨⟨⟨ps, last⟩, g, hg⟩, hparams, hps, hm3⟩ :=
    delimited_succeeds Expr.rParen_ne_comma hitem (fun _ _ _ => TokenKind.noConfusion) false f
      (by omega) _ hm2
  obtain ⟨spb, i, hi, hbrace, hm4⟩ :=
    Cursor.expect_eq (k := .punctuation .lBrace) hm3 rfl (by decide)
  have hgc : g.size < c.size := hg
  have hig : i.size < g.size := hi
  obtain ⟨⟨ss, j, hj⟩, hread, hv, hmore⟩ :=
    untilBrace_statements hb h i (by omega) more hm4
  rw [Grammar.statement, hnone]
  simp only [hn, Terminal.keyword, Grammar.function, hname, hopen, hparams, hbrace, hread, ok_bind]
  refine ⟨_, rfl, ?_, hmore⟩
  simp only [rewrite, rewriteStatements_eq_map]
  exact congrArg₂ (function Span.none ⟨s.text, .none⟩) (Prod.mk.inj hps).1 hv

theorem reads_ret (sp : Span) {argument : Option Expr} (ha : ∀ e ∈ argument, e.Reads) :
    (ret sp argument).Reads := by
  refine reads_of_first rfl fun n c h more hc _ hnone => ?_
  simp only [terminals, List.cons_append, List.append_assoc, List.nil_append] at hc
  obtain ⟨spk, d, hd, hn, hm⟩ := Cursor.next?_eq hc rfl
  rw [Grammar.statement, hnone]
  simp only [hn, Terminal.keyword]
  show Succeeds (returning (rulesFor c h) spk.start d hd) _
  cases argument with
  | none =>
    have hk : ¬ d.kind.beginsExpression = true := by
      rw [d.kind_eq, hm]
      exact Bool.noConfusion
    rw [returning, if_neg hk]
    exact ⟨_, rfl, rfl, Cursor.terminals_past (k := .punctuation .semicolon) hm rfl (by decide)⟩
  | some e =>
    have hk : d.kind.beginsExpression = true := by
      rw [d.kind_eq, hm, optionTerminals, List.nil_append, e.nextKind_terminals]
      exact e.first_beginsExpression
    obtain ⟨⟨v, f, hf⟩, hread, hv, hm'⟩ := ha e rfl n d (by omega) _ hm rfl
    have hvalue : (rulesFor c h).expression d hd = .ok ⟨v, f, hf⟩ := hread
    rw [returning, if_pos hk, hvalue]
    refine ⟨_, rfl, ?_, Cursor.terminals_past (k := .punctuation .semicolon) hm' rfl (by decide)⟩
    simp only [rewrite, rewriteOption_eq_map]
    exact congrArg (fun x => ret Span.none (some x)) hv

theorem reads_cond (sp : Span) {test : Expr} {consequent : Statement}
    {alternate : Option Statement} (ht : test.Reads) (hc : consequent.Reads)
    (ha : ∀ s ∈ alternate, s.Reads) (hcomment : consequent.isComment = false)
    (hacomment : ∀ s ∈ alternate, s.isComment = false)
    (hopen : alternate.isSome = true → consequent.endsWithOpenIf = false) :
    (cond sp test consequent alternate).Reads := by
  refine reads_of_first rfl fun n c h more hterm helse hnone => ?_
  simp only [terminals, List.cons_append, List.append_assoc] at hterm
  obtain ⟨spk, d, hd, hn, hm⟩ := Cursor.next?_eq hterm rfl
  obtain ⟨spl, e, he, hlp, hm1⟩ := Cursor.expect_eq (k := .punctuation .lParen) hm rfl (by decide)
  obtain ⟨⟨t, f, hf⟩, htest, htv, hm2⟩ := ht n e (by omega) _ hm1 rfl
  have hfe : f.size < e.size := hf
  obtain ⟨spr, g, hg, hrp, hm3⟩ := Cursor.expect_eq (k := .punctuation .rParen) hm2 rfl (by decide)
  have hgf : g.size < f.size := hg
  have htest' : (rulesFor c h).expression e (by omega) = .ok ⟨t, f, hf⟩ := htest
  -- the consequent ends before the `else` of this `if`: where there is one it ends with no open
  -- `if`, and where there is none the statement itself would take an `else`
  have hfollow : consequent.endsWithOpenIf = true →
      nextKind (alternateTerminals alternate ++ more) ≠ .keyword .else_ := by
    intro hends
    cases alternate with
    | none => exact helse rfl
    | some a => exact absurd (hopen rfl) (by rw [hends]; exact Bool.noConfusion)
  obtain ⟨⟨v, i, hi⟩, hnest, hv, hm4⟩ :=
    nested_succeeds h g (by omega) _ hc hcomment hm3 hfollow
  have hstmt : Grammar.statement c (rulesFor c h) =
      conditional (rulesFor c h) spk.start d hd := by
    rw [Grammar.statement, hnone]
    simp only [hn]
    rfl
  rw [hstmt, conditional, hlp]
  simp only [ok_bind, htest', hrp, hnest]
  cases alternate with
  | none =>
    have hno : i.accept? (.keyword .else_) = none := by
      refine Cursor.accept?_eq_none ?_
      rw [hm4]
      exact helse rfl
    simp only [hno]
    refine ⟨_, rfl, ?_, hm4⟩
    simp only [rewrite, rewriteBranch_eq_map]
    exact congrArg₂ (fun x y => cond Span.none x y none) htv hv
  | some a =>
    obtain ⟨spe, j, hj, hyes, hm5⟩ := Cursor.accept?_eq (k := .keyword .else_) hm4 rfl (by decide)
    have hic : i.size < c.size := hi
    have hji : j.size < i.size := hj
    obtain ⟨⟨w, l, hl⟩, hnest2, hw, hmore⟩ :=
      nested_succeeds h j (by omega) more (ha a rfl) (hacomment a rfl) hm5 helse
    simp only [hyes, hnest2, ok_bind]
    refine ⟨_, rfl, ?_, hmore⟩
    simp only [rewrite, rewriteBranch_eq_map, Option.map_some]
    have hw' : w.rewrite .unspanned = a.rewrite .unspanned := hw
    rw [hw']
    exact congrArg₂ (fun x y => cond Span.none x y (some (a.rewrite .unspanned))) htv hv

theorem reads_loop (sp : Span) {init : Option LoopInit} {test update : Option Expr}
    {body : Statement} (hd : ∀ d, init = some (.decl d) → d.Reads)
    (he : ∀ e, init = some (.expr e) → e.Reads) (ht : ∀ e ∈ test, e.Reads)
    (hu : ∀ e ∈ update, e.Reads) (hb : body.Reads) (hcomment : body.isComment = false) :
    (loop sp init test update body).Reads := by
  refine reads_of_first rfl fun n c h more hterm helse hnone => ?_
  simp only [terminals, List.cons_append, List.append_assoc] at hterm
  obtain ⟨spk, d0, hd0, hn, hm0⟩ := Cursor.next?_eq hterm rfl
  obtain ⟨spl, d1, hd1, hlp, hm1⟩ :=
    Cursor.expect_eq (k := .punctuation .lParen) hm0 rfl (by decide)
  obtain ⟨⟨i, d2, hd2⟩, hinit, hiv, hm2⟩ := loopInit_succeeds h d1 (by omega) _ hd he hm1
  have h2 : d2.size < c.size := hd2
  obtain ⟨sps, d3, hd3, hsemi, hm3⟩ :=
    Cursor.expect_eq (k := .punctuation .semicolon) hm2 rfl (by decide)
  have h3 : d3.size < d2.size := hd3
  obtain ⟨⟨t, d4, hd4⟩, htest, htv, hm4⟩ := clause_succeeds h d3 (by omega) _ ht rfl rfl hm3
  have h4 : d4.size < c.size := hd4
  obtain ⟨sps', d5, hd5, hsemi', hm5⟩ :=
    Cursor.expect_eq (k := .punctuation .semicolon) hm4 rfl (by decide)
  have h5 : d5.size < d4.size := hd5
  obtain ⟨⟨u, d6, hd6⟩, hupdate, huv, hm6⟩ := clause_succeeds h d5 (by omega) _ hu rfl rfl hm5
  have h6 : d6.size < c.size := hd6
  obtain ⟨spr, d7, hd7, hrp, hm7⟩ :=
    Cursor.expect_eq (k := .punctuation .rParen) hm6 rfl (by decide)
  have h7 : d7.size < d6.size := hd7
  obtain ⟨⟨b, d8, hd8⟩, hnest, hbv, hmore⟩ :=
    nested_succeeds h d7 (by omega) more hb hcomment hm7 helse
  have hstmt : Grammar.statement c (rulesFor c h) =
      Grammar.loop (rulesFor c h) spk.start d0 hd0 := by
    rw [Grammar.statement, hnone]
    simp only [hn]
    rfl
  rw [hstmt, Grammar.loop, hlp]
  simp only [ok_bind, hinit, hsemi, htest, hsemi', hupdate, hrp, hnest]
  refine ⟨_, rfl, ?_, hmore⟩
  simp only [rewrite, rewriteOption_eq_map]
  have hi' : rewriteLoopInit .unspanned i = rewriteLoopInit .unspanned init := hiv
  have ht' : t.map (Expr.rewrite .unspanned) = test.map (Expr.rewrite .unspanned) := htv
  have hu' : u.map (Expr.rewrite .unspanned) = update.map (Expr.rewrite .unspanned) := huv
  have hb' : b.rewrite .unspanned = body.rewrite .unspanned := hbv
  rw [hi', ht', hu', hb']
  rfl

/-- What begins an expression and no block is read as an expression. -/
theorem statement_eq_expression {c d : Cursor} {r : Rules c.size} {t : Token}
    {hd : d.size < c.size} (hnone : c.comment? = none) (hn : c.next? = some ⟨t, d, hd⟩)
    (hb : t.kind.beginsExpression = true) (hne : t.kind ≠ .punctuation .lBrace) :
    Grammar.statement c r = expressionStatement c r := by
  rw [Grammar.statement, hnone]
  simp only [hn]
  split <;> first
    | (rename_i heq; rw [heq] at hb; exact Bool.noConfusion hb)
    | (rename_i heq; exact absurd heq hne)
    | rw [if_pos hb]

theorem reads_expr (sp : Span) {e : Expr} (he : e.Reads)
    (hne : e.first.kind ≠ .punctuation .lBrace) : (expr sp e).Reads := by
  refine reads_of_first rfl fun n c h more hc _ hnone => ?_
  rw [terminals, List.append_assoc] at hc
  obtain ⟨ts, hts⟩ := e.terminals_eq_first
  have hc' : c.terminals = e.first :: (ts ++ ([punctuation .semicolon] ++ more)) := by
    rw [hc, hts]
    rfl
  obtain ⟨spk, d, hd, hn, -⟩ := Cursor.next?_eq hc' e.first_isComment
  -- by its first token the statement is no block, and nothing but an expression is left
  rw [statement_eq_expression hnone hn e.first_beginsExpression hne]
  obtain ⟨⟨v, f, hf⟩, hread, hv, hm⟩ := he (n + 1) c (Nat.lt_succ_of_le h) _ hc rfl
  have hvalue : expression c (rulesFor c h) = .ok ⟨v, f, hf⟩ := hread
  rw [expressionStatement, hvalue]
  exact ⟨_, rfl, congrArg (expr Span.none) hv,
    Cursor.terminals_past (k := .punctuation .semicolon) hm rfl (by decide)⟩

/-- In an arrow function, what is no comment and no `return` is read as an expression, whatever it
    begins with. -/
theorem readsInArrow_expr (sp : Span) {e : Expr} (he : e.Reads) : (expr sp e).ReadsInArrow := by
  intro m n hmn c h more hc
  rw [terminals, List.append_assoc] at hc
  obtain ⟨ts, hts⟩ := e.terminals_eq_first
  have hb := e.first_beginsExpression
  have hnone : c.comment? = none :=
    Cursor.comment?_eq_none (by rw [hc, hts]; rfl) e.first_isComment
  have hreturn : c.kind ≠ .keyword .return_ := by
    rw [c.kind_eq, hc, e.nextKind_terminals]
    intro hk
    rw [hk] at hb
    exact Bool.noConfusion hb
  -- here no look at the first token sends a brace to the rule for blocks
  have hcond : ¬ (c.comment?.isSome || decide (c.kind = .keyword .return_)) = true := by
    rw [hnone, decide_eq_false hreturn]
    exact Bool.noConfusion
  obtain ⟨⟨v, d, hd⟩, hread, hv, hm⟩ := he n c (Nat.lt_of_lt_of_le h hmn) _ hc rfl
  have hvalue : ((rules n).restrict hmn).expression c h = .ok ⟨v, d, hd⟩ := hread
  rw [arrowStatement, if_neg hcond, hvalue]
  exact ⟨_, rfl, congrArg (expr Span.none) hv,
    Cursor.terminals_past (k := .punctuation .semicolon) hm rfl (by decide)⟩

/-- Comments and `return` are read in an arrow function as they are elsewhere. -/
theorem Reads.inArrow {s : Statement} (hs : s.Reads) (hopen : s.endsWithOpenIf = false)
    (h : s.shape = .returnStatement ∨ s.shape = .comment) : s.ReadsInArrow := by
  intro m n hmn c hcm more hc
  have hcond : (c.comment?.isSome || decide (c.kind = .keyword .return_)) = true := by
    cases s with
    | ret sp argument =>
      have hk : c.kind = .keyword .return_ := by
        rw [c.kind_eq, hc]
        rfl
      rw [decide_eq_true hk, Bool.or_true]
    | comment sp text =>
      obtain ⟨spc, d, hd, hcomment, -⟩ := Cursor.comment?_eq hc rfl
      rw [hcomment]
      rfl
    | decl d => rcases h with h | h <;> exact Shape.noConfusion h
    | function | block | cond | loop | expr => rcases h with h | h <;> exact Shape.noConfusion h
  rw [arrowStatement, if_pos hcond]
  refine hs n c (Nat.lt_of_lt_of_le hcm hmn) more hc ?_
  rw [hopen]
  exact nofun

end Statement

/-! ## Trees -/

theorem Expr.precedence_of_isTarget {e : Expr} (h : e.isTarget = true) : 0 < e.precedence := by
  cases e with
  | ident | member | index => exact Nat.succ_pos 254
  | _ => exact Bool.noConfusion h

theorem Expr.groupsBeforePostfix_of_isTarget {e : Expr} (h : e.isTarget = true) :
    e.groupsBeforePostfix = false := by
  cases e with
  | ident | member | index => rfl
  | _ => exact Bool.noConfusion h

/-- **A plain tree is read from its terminals.** -/
theorem readable_tree :
    Syntax.Cases (fun e => e.Everywhere Node.IsPlain → e.Readable)
      (fun d => d.Everywhere Node.IsPlain → d.Reads)
      (fun s => s.Everywhere Node.IsPlain → s.Readable) where
  ident sp name _ := (Expr.chains_ident sp name).readable rfl (Nat.succ_pos 254)
  literal sp value he := by
    obtain ⟨hw, -⟩ := Expr.everywhere_literal.mp he
    have hg : (Expr.literal sp value).groupsBeforePostfix = false := rfl
    exact (Expr.chains_literal sp hw).readable (Expr.first_not_update he hg) (Nat.succ_pos 254)
  binary sp op left right ihl ihr he := by
    obtain ⟨⟨-, hx⟩, hl, hr⟩ := Expr.everywhere_binary.mp he
    rw [Node.isExplicit, Bool.and_eq_true, Bool.not_eq_true', Bool.not_eq_true'] at hx
    have hlp : 0 < left.precedence :=
      Nat.lt_of_le_of_lt (Nat.zero_le _) (Nat.not_le.mp (of_decide_eq_false hx.1))
    have hrp : 0 < right.precedence :=
      Nat.lt_of_le_of_lt (Nat.zero_le _) (Nat.not_le.mp (of_decide_eq_false hx.2))
    have hclimbs := Expr.climbs_binary sp ((ihl hl).climbs hlp) ((ihr hr).climbs hrp) hx.1 hx.2
    exact ⟨Bool.noConfusion, fun _ => hclimbs, hclimbs.reads (Nat.succ_pos _)⟩
  assign sp op target value iht ihv he := by
    obtain ⟨⟨hw, -⟩, ht, hv⟩ := Expr.everywhere_assign.mp he
    have hclimbs := (iht ht).climbs (Expr.precedence_of_isTarget hw)
    exact ⟨Bool.noConfusion, by rintro ⟨⟩, Expr.reads_assign sp op hclimbs hw (ihv hv).reads⟩
  update sp op isPrefix argument iha he := by
    obtain ⟨⟨hw, -⟩, ha⟩ := Expr.everywhere_update.mp he
    have hg := Expr.groupsBeforePostfix_of_isTarget hw
    have hchains := (iha ha).chains hg
    -- a step before an operand is no start of a chain, one after it is a part of the chain
    cases isPrefix with
    | true =>
      have hstands := Expr.stands_prefix sp op (hchains.stands (Expr.first_not_update ha hg)) hw
      exact ⟨Bool.noConfusion, fun _ => hstands.climbs, hstands.climbs.reads (Nat.succ_pos 254)⟩
    | false =>
      exact (Expr.chains_update sp op hchains hw).readable (Expr.first_not_update he rfl)
        (Nat.succ_pos 254)
  call sp callee args ihc iha he := by
    obtain ⟨⟨-, hx⟩, hc, ha⟩ := Expr.everywhere_call.mp he
    rw [Node.isExplicit, Bool.not_eq_true'] at hx
    exact (Expr.chains_call sp ((ihc hc).chains hx) fun a hm => (iha a hm (ha a hm)).reads).readable
      (Expr.first_not_update he rfl) (Nat.succ_pos 254)
  member sp owner property iho he := by
    obtain ⟨⟨-, hx⟩, ho⟩ := Expr.everywhere_member.mp he
    rw [Node.isExplicit, Bool.not_eq_true'] at hx
    exact (Expr.chains_member sp property ((iho ho).chains hx)).readable
      (Expr.first_not_update he rfl) (Nat.succ_pos 254)
  index sp owner key iho ihk he := by
    obtain ⟨⟨-, hx⟩, ho, hk⟩ := Expr.everywhere_index.mp he
    rw [Node.isExplicit, Bool.not_eq_true'] at hx
    exact (Expr.chains_index sp ((iho ho).chains hx) (ihk hk).reads).readable
      (Expr.first_not_update he rfl) (Nat.succ_pos 254)
  arrow sp params body ihb he := by
    obtain ⟨-, ⟨hw, -⟩, hb⟩ := Expr.everywhere_arrow.mp he
    rw [Node.isWritable, Bool.and_eq_true, List.all_eq_true, List.all_eq_true] at hw
    exact (Expr.chains_arrow sp params fun s hm => (ihb s hm (hb s hm)).line (hw.2 s hm)).readable
      rfl (Nat.succ_pos 254)
  object sp properties ihp he := by
    obtain ⟨-, hp⟩ := Expr.everywhere_object.mp he
    exact (Expr.chains_object sp fun key value hm =>
      (ihp key value hm (hp key value hm)).reads).readable rfl (Nat.succ_pos 254)
  array sp elements ihe he := by
    obtain ⟨-, hes⟩ := Expr.everywhere_array.mp he
    exact (Expr.chains_array sp fun e hm => (ihe e hm (hes e hm)).reads).readable rfl
      (Nat.succ_pos 254)
  paren sp inner ihi he := by
    obtain ⟨-, hi⟩ := Expr.everywhere_paren.mp he
    exact (Expr.chains_paren sp (ihi hi).reads).readable rfl (Nat.succ_pos 254)
  declaration sp kind name init ihi hd := by
    obtain ⟨-, hi⟩ := Decl.everywhere_mk.mp hd
    exact Decl.reads fun e hm => (ihi e hm (hi e hm)).reads
  decl d ihd hs := by
    obtain ⟨-, hd⟩ := Statement.everywhere_decl.mp hs
    exact ⟨Statement.reads_decl (ihd hd), Bool.noConfusion⟩
  function sp name params body ihb hs := by
    obtain ⟨-, -, hb⟩ := Statement.everywhere_function.mp hs
    exact ⟨Statement.reads_function sp name params fun s hm => (ihb s hm (hb s hm)).reads,
      Bool.noConfusion⟩
  block sp body ihb hs := by
    obtain ⟨-, -, hb⟩ := Statement.everywhere_block.mp hs
    exact ⟨Statement.reads_block sp fun s hm => (ihb s hm (hb s hm)).reads, Bool.noConfusion⟩
  ret sp argument iha hs := by
    obtain ⟨-, ha⟩ := Statement.everywhere_ret.mp hs
    have hreads := Statement.reads_ret sp fun e hm => (iha e hm (ha e hm)).reads
    exact ⟨hreads, fun _ => hreads.inArrow rfl (Or.inl rfl)⟩
  cond sp test consequent alternate iht ihc iha hs := by
    obtain ⟨⟨hw, hx⟩, ht, hc, ha⟩ := Statement.everywhere_cond.mp hs
    rw [Node.isWritable, Bool.and_eq_true, Bool.not_eq_true'] at hw
    refine ⟨Statement.reads_cond sp (iht ht).reads (ihc hc).reads
      (fun s hm => (iha s hm (ha s hm)).reads) hw.1 (fun s hm => ?_) (fun hsome => ?_),
      Bool.noConfusion⟩
    · obtain rfl : alternate = some s := hm
      exact (Bool.not_eq_true' _).mp hw.2
    · cases alternate with
      | none => exact Bool.noConfusion hsome
      | some a => exact (Bool.not_eq_true' _).mp hx
  loop sp init test update body ihd ihe iht ihu ihb hs := by
    obtain ⟨⟨hw, -⟩, ⟨hd, he⟩, ht, hu, hb⟩ := Statement.everywhere_loop.mp hs
    exact ⟨Statement.reads_loop sp (fun d hm => ihd d hm (hd d hm))
      (fun e hm => (ihe e hm (he e hm)).reads) (fun e hm => (iht e hm (ht e hm)).reads)
      (fun e hm => (ihu e hm (hu e hm)).reads) (ihb hb).reads ((Bool.not_eq_true' _).mp hw),
      Bool.noConfusion⟩
  expr sp e ihe hs := by
    obtain ⟨⟨-, hx⟩, he⟩ := Statement.everywhere_expr.mp hs
    rw [Node.isExplicit, Bool.not_eq_true'] at hx
    have hreads := (ihe he).reads
    refine ⟨Statement.reads_expr sp hreads fun hk => ?_, fun _ =>
      Statement.readsInArrow_expr sp hreads⟩
    rw [Expr.startsWithObject_of_first he hk] at hx
    exact Bool.noConfusion hx
  comment sp text _ :=
    ⟨Statement.reads_comment sp text, fun _ =>
      (Statement.reads_comment sp text).inArrow rfl (Or.inr rfl)⟩

end CurlyScript
