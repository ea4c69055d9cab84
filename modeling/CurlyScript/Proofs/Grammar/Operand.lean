import CurlyScript.Proofs.Grammar.Levels

/-
  Reading operands back.

  Every operand but a step before another operand begins with a PRIMARY part: a name, a literal, or
  something in brackets.  After it come calls, members and steps, each of which goes on from the
  operand before it.
-/

namespace CurlyScript

open Terminal Grammar

/-- A token that stands for a value is an operand. -/
theorem Grammar.primary_literal {c d : Cursor} {r : Rules c.size} {t : Token}
    {hd : d.size < c.size} {value : Literal} (hn : c.next? = some ⟨t, d, hd⟩)
    (hv : literal? t = some value) : primary c r = .ok ⟨.literal t.span value, d, hd⟩ := by
  have hother : ∀ k, t.kind = k → (k = .ident ∨ ∃ p, k = .punctuation p) → False := by
    rintro k hk (rfl | ⟨p, rfl⟩) <;> (rw [literal?, hk] at hv; exact absurd hv (by simp))
  rw [primary, hn]
  dsimp only
  -- names and brackets are tried first, and no value has their classes
  split
  · rename_i hk; exact (hother _ hk (Or.inl rfl)).elim
  · rename_i hk; exact (hother _ hk (Or.inr ⟨_, rfl⟩)).elim
  · rename_i hk; exact (hother _ hk (Or.inr ⟨_, rfl⟩)).elim
  · rename_i hk; exact (hother _ hk (Or.inr ⟨_, rfl⟩)).elim
  · rw [hv]

/-! ## Operands -/

namespace Expr

/-- What follows a whole expression follows an expression between commas. -/
theorem Reads.item {e : Expr} (he : e.Reads) {n : Nat} {c : Cursor} (h : c.size < n)
    {close : Punctuation} (hclose : (TokenKind.punctuation close).continuesExpression = false)
    {more : List Terminal} (hc : c.terminals = e.terminals ++ more)
    (hm : nextKind more = .punctuation .comma ∨ nextKind more = .punctuation close) :
    Succeeds ((rules n).expression c h)
      (Step.Gives (Expr.rewrite .unspanned) (e.rewrite .unspanned) more) := by
  refine he n c h more hc ?_
  rcases hm with hm | hm <;> rw [hm]
  · rfl
  · exact hclose

/-- Expressions between commas are read if each of them is. -/
theorem reads_list {es : List Expr} (hes : ∀ e ∈ es, e.Reads) (close : Punctuation)
    (hcomma : close ≠ .comma)
    (hclose : (TokenKind.punctuation close).continuesExpression = false)
    (hbegin : (TokenKind.punctuation close).beginsExpression = false)
    {m n : Nat} (hmn : m ≤ n) (c : Cursor) (h : c.size < m) (more : List Terminal)
    (hc : c.terminals = separated close (es.map Expr.terminals) ++ more) :
    Succeeds (delimited close ((rules n).restrict hmn).expression false c h)
      (Step.Gives (fun p => p.1.map (Expr.rewrite .unspanned))
        (es.map (Expr.rewrite .unspanned)) more) := by
  refine (delimited_succeeds hcomma (f := Expr.rewrite .unspanned) (g := Expr.rewrite .unspanned)
    (fun e he c h more hc hm => (hes e he).item (Nat.lt_of_lt_of_le h hmn) hclose hc hm)
    (fun e _ more => e.nextKind_terminals_ne more hbegin) false c h more hc).mono ?_
  rintro ⟨⟨vs, last⟩, d, hd⟩ ⟨hv, hm⟩
  exact ⟨(Prod.mk.inj hv).1, hm⟩

/-- A name is an operand. -/
theorem chains_ident (sp : Span) (s : String) : (ident sp s).Chains := by
  intro n c h more hc _
  obtain ⟨spt, d, hd, hn, hm⟩ := Cursor.next?_eq hc rfl
  have hp : primary c (rulesFor c h) = .ok ⟨.ident spt s, d, hd⟩ := by
    rw [primary, hn]
    rfl
  exact ⟨_, .ident spt s, d, hd, rfl, hm, signed_of_primary hp⟩

/-- A literal is an operand. -/
theorem chains_literal (sp : Span) {value : Literal}
    (hw : (Node.expr (.literal sp value)).isWritable Number.isPlain = true) :
    (literal sp value).Chains := by
  intro n c h more hc _
  have hcomment : value.terminal.isComment = false := by
    cases value with
    | bool b => cases b <;> rfl
    | _ => rfl
  obtain ⟨spt, d, hd, hn, hm⟩ := Cursor.next?_eq hc hcomment
  have hread : literal? ⟨value.terminal.kind, value.terminal.text, spt⟩ = some value := by
    cases value with
    | number x =>
      show (Number.ofText? x.text).map Literal.number = _
      rw [Number.ofText?_text hw]
      rfl
    | string s => exact congrArg (fun v => some (Literal.string v)) (Text.decode_encode s)
    | bool b => cases b <;> rfl
    | _ => rfl
  exact ⟨_, .literal spt value, d, hd, rfl, hm, signed_of_primary (primary_literal hn hread)⟩

/-- An array is an operand. -/
theorem chains_array (sp : Span) {elements : List Expr} (hes : ∀ e ∈ elements, e.Reads) :
    (array sp elements).Chains := by
  intro n c h more hc _
  rw [terminals, exprsTerminals_eq_map] at hc
  obtain ⟨spt, d, hd, hn, hm⟩ := Cursor.next?_eq hc rfl
  obtain ⟨⟨⟨vs, last⟩, e, he⟩, hread, hv, hmore⟩ :=
    reads_list hes .rBracket (by decide) rfl rfl h d hd more hm
  have hp : primary c (rulesFor c h) = .ok ⟨.array (e.spanFrom spt.start) vs, e, he⟩ := by
    rw [primary, hn]
    show (delimited .rBracket (rulesFor c h).expression false d hd >>= _) = _
    rw [hread]
    rfl
  refine ⟨_, _, e, he, ?_, hmore, signed_of_primary hp⟩
  rw [rewrite, rewrite, rewriteExprs_eq_map, rewriteExprs_eq_map]
  exact congrArg (Expr.array Span.none) hv

/-- An entry of an object is read if its value is. -/
theorem property_succeeds {p : Property} (hp : ∀ key value, p = .mk key value → value.Reads)
    {m n : Nat} (hmn : m ≤ n) (c : Cursor) (h : c.size < m) (more : List Terminal)
    (hc : c.terminals = p.terminals ++ more)
    (hm : nextKind more = .punctuation .comma ∨ nextKind more = .punctuation .rBrace) :
    Succeeds (property ((rules n).restrict hmn) c h)
      (Step.Gives (Property.rewrite .unspanned) (p.rewrite .unspanned) more) := by
  obtain ⟨key, value⟩ := p
  obtain ⟨spn, d, hd, hname, hd'⟩ := name_eq hc
  obtain ⟨spc, e, he, hcolon, he'⟩ := Cursor.expect_eq (k := .punctuation .colon) hd' rfl nofun
  have hen : e.size < n := by omega
  obtain ⟨⟨v, f, hf⟩, hread, hv, hmore⟩ := (hp key value rfl).item hen rfl he' hm
  have hf' : f.size < e.size := hf
  refine ⟨⟨.mk ⟨key.text, spn⟩ v, f, by omega⟩, ?_, ?_, hmore⟩
  · rw [property, hname]
    show (d.expect (.punctuation .colon) >>= _) = _
    rw [hcolon]
    show ((rules n).expression e _ >>= _) = _
    rw [hread]
    rfl
  · exact congrArg (Property.mk ⟨key.text, .none⟩) hv

/-- An object is an operand. -/
theorem chains_object (sp : Span) {properties : List Property}
    (hps : ∀ key value, .mk key value ∈ properties → value.Reads) :
    (object sp properties).Chains := by
  intro n c h more hc _
  rw [terminals, propertiesTerminals_eq_map] at hc
  obtain ⟨spt, d, hd, hn, hm⟩ := Cursor.next?_eq hc rfl
  have hitem : ∀ p ∈ properties, ∀ c' (h' : c'.size < c.size) more',
      c'.terminals = p.terminals ++ more' →
      nextKind more' = .punctuation .comma ∨ nextKind more' = .punctuation .rBrace →
      Succeeds (property (rulesFor c h) c' h')
        (Step.Gives (Property.rewrite .unspanned) (p.rewrite .unspanned) more') := by
    intro p hp c' h' more' hc' hm'
    refine property_succeeds (fun key value he => ?_) h c' h' more' hc' hm'
    rw [he] at hp
    exact hps key value hp
  have hcomma : Punctuation.rBrace ≠ .comma := by decide
  have hhead : ∀ p ∈ properties, ∀ more', nextKind (p.terminals ++ more') ≠
      .punctuation .rBrace := by
    rintro ⟨key, value⟩ _ more'
    exact TokenKind.noConfusion
  obtain ⟨⟨⟨vs, last⟩, e, he⟩, hread, hv, hmore⟩ :=
    delimited_succeeds hcomma hitem hhead false d hd more hm
  have hp : primary c (rulesFor c h) = .ok ⟨.object (e.spanFrom spt.start) vs, e, he⟩ := by
    rw [primary, hn]
    show (delimited .rBrace (property (rulesFor c h)) false d hd >>= _) = _
    rw [hread]
    rfl
  refine ⟨_, _, e, he, ?_, hmore, signed_of_primary hp⟩
  rw [rewrite, rewrite, rewriteProperties_eq_map, rewriteProperties_eq_map]
  exact congrArg (Expr.object Span.none) (Prod.mk.inj hv).1

/-- An element of a list in parentheses is read with the class of its first token. -/
theorem Reads.element {e : Expr} (he : e.Reads) {m n : Nat} (hmn : m ≤ n) {c : Cursor}
    (h : c.size < m) {more : List Terminal} (hc : c.terminals = e.terminals ++ more)
    (hm : nextKind more = .punctuation .comma ∨ nextKind more = .punctuation .rParen) :
    Succeeds (element ((rules n).restrict hmn) c h)
      (Step.Gives (fun p => p.2.rewrite .unspanned) (e.rewrite .unspanned) more) := by
  refine (he.item (Nat.lt_of_lt_of_le h hmn) rfl hc hm).map ?_
  rintro ⟨v, d, hd⟩ ⟨hv, hmore⟩
  exact ⟨hv, hmore⟩

theorem rParen_ne_comma : Punctuation.rParen ≠ .comma := nofun

/-- A group is an operand. -/
theorem chains_paren (sp : Span) {inner : Expr} (hi : inner.Reads) : (paren sp inner).Chains := by
  intro n c h more hc hmore
  have hc' : c.terminals = punctuation .lParen ::
      (separated .rParen ([inner].map Expr.terminals) ++ more) := by
    rw [hc, List.map_singleton, separated_singleton]
    rfl
  obtain ⟨spt, d, hd, hn, hm⟩ := Cursor.next?_eq hc' rfl
  have hitem : ∀ x ∈ [inner], ∀ c' (h' : c'.size < c.size) more',
      c'.terminals = x.terminals ++ more' →
      nextKind more' = .punctuation .comma ∨ nextKind more' = .punctuation .rParen →
      Succeeds (element (rulesFor c h) c' h')
        (Step.Gives (fun p => p.2.rewrite .unspanned) (x.rewrite .unspanned) more') := by
    intro x hx c' h' more' hcx hmx
    rw [List.mem_singleton.mp hx] at hcx ⊢
    exact hi.element h h' hcx hmx
  obtain ⟨⟨⟨vs, last⟩, e, he⟩, hread, hv, hend⟩ :=
    delimited_succeeds rParen_ne_comma hitem
      (fun x _ more' => x.nextKind_terminals_ne more' rfl) false d hd more hm
  obtain ⟨hvs, hlast⟩ := Prod.mk.inj hv
  obtain ⟨⟨k, v⟩, rfl, hv1⟩ := List.map_eq_singleton_iff.mp hvs
  have hlast' : last = false := hlast
  subst hlast'
  -- what follows is no arrow, so this is a group and no list of parameters
  have harrow : e.accept? (.punctuation .fatArrow) = none :=
    Cursor.accept?_eq_none (by rw [hend]; exact hmore)
  have hp : primary c (rulesFor c h) = .ok ⟨.paren (e.spanFrom spt.start) v, e, he⟩ := by
    rw [primary, hn]
    show groupOrArrow (rulesFor c h) spt.start d hd = _
    rw [groupOrArrow, hread]
    simp only [ok_bind, harrow]
  refine ⟨_, .paren (e.spanFrom spt.start) v, e, he, ?_, hend, signed_of_primary hp⟩
  exact congrArg (Expr.paren Span.none) hv1

/-- A name is a whole expression. -/
theorem reads_ident (sp : Span) (s : String) : (ident sp s).Reads :=
  ((chains_ident sp s).stands rfl).climbs.reads (Nat.succ_pos 254)

/-- What reads like a name is taken for a parameter. -/
theorem mapM_parameter {params : List Name} {vs : List (TokenKind × Expr)}
    (h : vs.map (fun p => p.2.rewrite .unspanned) =
      params.map fun p => Expr.ident Span.none p.text) :
    ∃ ps, vs.mapM parameter = .ok ps ∧
      ps.map (Name.rewrite .unspanned) = params.map (Name.rewrite .unspanned) := by
  induction params generalizing vs with
  | nil =>
    rw [List.map_eq_nil_iff.mp h]
    exact ⟨[], rfl, rfl⟩
  | cons p params ih =>
    obtain ⟨⟨k, v⟩, vs, rfl, hv, hvs⟩ := List.map_eq_cons_iff.mp h
    obtain ⟨ps, hps, hpsn⟩ := ih hvs
    obtain ⟨sp, rfl⟩ : ∃ sp, v = .ident sp p.text := by
      cases v with
      | ident sp s => exact ⟨sp, congrArg (Expr.ident sp) (Expr.ident.inj hv).2⟩
      | _ => exact Expr.noConfusion hv
    refine ⟨⟨p.text, sp⟩ :: ps, ?_, congrArg (List.cons _) hpsn⟩
    rw [List.mapM_cons, hps]
    rfl

/-- An arrow function is an operand. -/
theorem chains_arrow (sp : Span) (params : List Name) {body : List Statement}
    (hbody : ∀ s ∈ body, s.ReadsInArrow) : (arrow sp params body).Chains := by
  intro n c h more hc _
  simp only [terminals, Terminal.params, List.cons_append, List.append_assoc,
    List.nil_append] at hc
  obtain ⟨spt, d, hd, hn, hm⟩ := Cursor.next?_eq hc rfl
  -- parameters are read as elements of a group, before the arrow is seen
  have hitem : ∀ p ∈ params, ∀ c' (h' : c'.size < c.size) more',
      c'.terminals = [Terminal.name p.text] ++ more' →
      nextKind more' = .punctuation .comma ∨ nextKind more' = .punctuation .rParen →
      Succeeds (Grammar.element (rulesFor c h) c' h')
        (Step.Gives (fun p => p.2.rewrite .unspanned) (Expr.ident Span.none p.text) more') := by
    intro p _ c' h' more' hc' hm'
    exact (reads_ident .none p.text).element h h' hc' hm'
  obtain ⟨⟨⟨vs, last⟩, e, he⟩, hread, hv, hend⟩ :=
    delimited_succeeds rParen_ne_comma hitem (fun _ _ _ => TokenKind.noConfusion) false d hd _ hm
  obtain ⟨ps, hps, hpsn⟩ := mapM_parameter (Prod.mk.inj hv).1
  obtain ⟨spa, f, hf, harrow, hf'⟩ :=
    Cursor.accept?_eq (k := .punctuation .fatArrow) hend rfl (by decide)
  obtain ⟨spb, g, hg, hbrace, hg'⟩ :=
    Cursor.expect_eq (k := .punctuation .lBrace) hf' rfl (by decide)
  have he' : e.size < c.size := he
  have hfe : f.size < e.size := hf
  have hgc : g.size < c.size := by omega
  -- lines of the body are read by a rule of their own, so the `else` does not matter to them
  have hline : ∀ s ∈ body, ∀ c' (h' : c'.size < c.size) more', c'.terminals = s.terminals ++ more' →
      nextKind more' ≠ .keyword .else_ → Succeeds (arrowStatement (rulesFor c h) c' h')
        (Step.Gives (Statement.rewrite .unspanned) (s.rewrite .unspanned) more') :=
    fun s hs c' h' more' hc' _ => hbody s hs c.size n h c' h' more' hc'
  obtain ⟨⟨ss, i, hi⟩, hblock, hss, hmore⟩ := untilBrace_succeeds hline g hgc more hg'
  have hp : primary c (rulesFor c h) = .ok ⟨.arrow (i.spanFrom spt.start) ps ss, i, hi⟩ := by
    rw [primary, hn]
    show groupOrArrow (rulesFor c h) spt.start d hd = _
    rw [groupOrArrow, hread]
    simp only [ok_bind, harrow, hps, hbrace, hblock]
  refine ⟨_, .arrow (i.spanFrom spt.start) ps ss, i, hi, ?_, hmore, signed_of_primary hp⟩
  rw [rewrite, rewrite, rewriteStatements_eq_map, rewriteStatements_eq_map]
  exact congrArg₂ (Expr.arrow Span.none) hpsn hss

/-! ## Signs after an operand -/

/-- A call is an operand if its callee is. -/
theorem chains_call (sp : Span) {callee : Expr} {args : List Expr} (hcallee : callee.Chains)
    (hargs : ∀ a ∈ args, a.Reads) : (call sp callee args).Chains := by
  intro n c h more hc _
  simp only [terminals, exprsTerminals_eq_map, List.cons_append, List.append_assoc] at hc
  obtain ⟨start, e', d, hd, he', hm, hs⟩ := hcallee n c h _ hc (by rintro ⟨⟩)
  have hdn : d.size ≤ n := Nat.le_of_lt (Nat.lt_of_lt_of_le hd h)
  obtain ⟨spc, args', f, hf, hv, hmore, hgo⟩ := postfixes_call (r := rulesFor c h) hd hm
    (fun d' hd' hm' => reads_list hargs .rParen (by decide) rfl rfl hdn d' hd' more hm')
  refine ⟨start, .call spc e' args', f, hf, ?_, hmore, hs.trans hgo⟩
  rw [rewrite, rewrite, rewriteExprs_eq_map, rewriteExprs_eq_map]
  exact congrArg₂ (Expr.call Span.none) he' hv

/-- A member is an operand if its owner is. -/
theorem chains_member (sp : Span) {owner : Expr} (property : Name) (howner : owner.Chains) :
    (member sp owner property).Chains := by
  intro n c h more hc _
  rw [terminals, List.append_assoc] at hc
  obtain ⟨start, e', d, hd, he', hm, hs⟩ := howner n c h _ hc (by rintro ⟨⟩)
  obtain ⟨spm, spn, f, hf, hmore, hgo⟩ := postfixes_dot hd hm
  refine ⟨start, .member spm e' ⟨property.text, spn⟩, f, hf, ?_, hmore, hs.trans hgo⟩
  exact congrArg (fun o => Expr.member Span.none o ⟨property.text, .none⟩) he'

/-- A member by a computed value is an operand if its owner is. -/
theorem chains_index (sp : Span) {owner key : Expr} (howner : owner.Chains) (hkey : key.Reads) :
    (index sp owner key).Chains := by
  intro n c h more hc _
  simp only [terminals, List.cons_append, List.append_assoc, List.nil_append] at hc
  obtain ⟨start, e', d, hd, he', hm, hs⟩ := howner n c h _ hc (by rintro ⟨⟩)
  obtain ⟨spi, key', f, hf, hv, hmore, hgo⟩ := postfixes_index (r := rulesFor c h) hd hm
    (fun d' hd' hm' => hkey n d' (Nat.lt_of_lt_of_le hd' h) _ hm' rfl)
  refine ⟨start, .index spi e' key', f, hf, ?_, hmore, hs.trans hgo⟩
  exact congrArg₂ (Expr.index Span.none) he' hv

/-- A step after an operand is an operand. -/
theorem chains_update (sp : Span) (op : UpdateOp) {argument : Expr} (ha : argument.Chains)
    (ht : argument.isTarget = true) : (update sp op false argument).Chains := by
  intro n c h more hc _
  have hc' : c.terminals = argument.terminals ++ Terminal.operator op.operator :: more := by
    rw [hc, terminals, if_neg Bool.false_ne_true, List.append_assoc]
    rfl
  obtain ⟨start, e', d, hd, he', hm, hs⟩ := ha n c h _ hc' (by rintro ⟨⟩)
  have ht' : e'.isTarget = true := by
    rw [← isTarget_unspanned, he', isTarget_unspanned, ht]
  obtain ⟨spu, f, hf, hmore, hgo⟩ := postfixes_update hd ht' hm
  refine ⟨start, .update spu op false e', f, hf, ?_, hmore, hs.trans hgo⟩
  exact congrArg (Expr.update Span.none op false) he'

end Expr

end CurlyScript
