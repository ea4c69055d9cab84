import CurlyScript.Grammar.Program
import CurlyScript.Proofs.Grammar.Edit

/-
  Reading keeps step with edits.

  Each rule keeps step if the rules for fewer tokens do (`Rules.Follow`), and the knot is tied by
  induction on the number of tokens.  A program that is read from edited tokens is the edited
  program, and an error the edited error (`Program.ofTokens_edited`).
-/

namespace CurlyScript

open Grammar

/-- Rules that keep step. -/
structure Rules.Follow (a : Edit) {m n : Nat} (r : Rules m) (r' : Rules n) : Prop where
  expression : ∀ c c' h h', a.Meets c c' →
    a.Follows (fun e e' => e' = e.rewrite a.rewriting) (r.expression c h) (r'.expression c' h')
  binary : ∀ least c c' h h', a.Meets c c' →
    a.Follows (fun e e' => e' = e.rewrite a.rewriting) (r.binary least c h)
      (r'.binary least c' h')
  unary : ∀ c c' h h', a.Meets c c' →
    a.Follows (fun e e' => e' = e.rewrite a.rewriting) (r.unary c h) (r'.unary c' h')
  statement : ∀ c c' h h', a.Meets c c' → c.comment? = none ∨ a.drops = false →
    a.Follows (IsEdited a) (r.statement c h) (r'.statement c' h')
  comment : ∀ c h t d hd, c.comment? = some ⟨t, d, hd⟩ →
    r.statement c h = .ok ⟨.comment t.span t.lexeme, d, hd⟩

theorem Rules.Follow.restrict {a : Edit} {m n : Nat} {r : Rules m} {r' : Rules n}
    (hr : r.Follow a r') {k l : Nat} (hk : k ≤ m) (hl : l ≤ n) :
    (r.restrict hk).Follow a (r'.restrict hl) where
  expression c c' h h' := hr.expression c c' (Nat.lt_of_lt_of_le h hk) (Nat.lt_of_lt_of_le h' hl)
  binary least c c' h h' :=
    hr.binary least c c' (Nat.lt_of_lt_of_le h hk) (Nat.lt_of_lt_of_le h' hl)
  unary c c' h h' := hr.unary c c' (Nat.lt_of_lt_of_le h hk) (Nat.lt_of_lt_of_le h' hl)
  statement c c' h h' := hr.statement c c' (Nat.lt_of_lt_of_le h hk) (Nat.lt_of_lt_of_le h' hl)
  comment c h := hr.comment c (Nat.lt_of_lt_of_le h hk)

namespace Grammar

open Edit

variable {a : Edit} {m n : Nat} {r : Rules m} {r' : Rules n}

/-! ## Operands -/

theorem agrees_checkTarget (e : Expr) (first : TokenKind) :
    a.Agrees (fun _ _ => True) (checkTarget e first)
      (checkTarget (e.rewrite a.rewriting) first) := by
  cases e with
  | ident | member | index => trivial
  | _ => rfl

theorem follows_property (hr : r.Follow a r') (c c' : Cursor) (h : c.size < m) (h' : c'.size < n)
    (hc : a.Meets c c') :
    a.Follows (fun p p' => p' = p.rewrite a.rewriting) (property r c h) (property r' c' h') := by
  refine (follows_name hc).bind fun key d hd key' d' hd' hkey hdd => ?_
  refine (hdd.expect (.punctuation .colon)).bind fun _ e he _ e' he' _ hee => ?_
  refine (hr.expression e e' _ _ hee.toMeets).bind fun value f hf value' f' hf' hvalue hff => ?_
  exact .ok (by rw [hkey, hvalue]; rfl) hff _ _

theorem follows_element (hr : r.Follow a r') (c c' : Cursor) (h : c.size < m) (h' : c'.size < n)
    (hc : a.Meets c c') :
    a.Follows (fun p p' => p' = (p.1, p.2.rewrite a.rewriting)) (element r c h)
      (element r' c' h') := by
  refine (hr.expression c c' h h' hc).map ?_
  rintro e _ rfl
  rw [hc.kind]

theorem agrees_parameter (p : TokenKind × Expr) :
    a.Agrees (fun s s' => s' = s.rewrite a.rewriting) (parameter p)
      (parameter (p.1, p.2.rewrite a.rewriting)) := by
  obtain ⟨first, e⟩ := p
  cases e <;> rfl

theorem agrees_mapM_parameter (ps : List (TokenKind × Expr)) :
    a.Agrees (fun ss ss' => ss' = ss.map (Name.rewrite a.rewriting)) (ps.mapM parameter)
      ((ps.map fun p => (p.1, p.2.rewrite a.rewriting)).mapM parameter) := by
  induction ps with
  | nil => rfl
  | cons p ps ih =>
    rw [List.map_cons, List.mapM_cons, List.mapM_cons]
    refine Agrees.bind (agrees_parameter p) ?_
    rintro s _ rfl
    refine Agrees.bind ih ?_
    rintro ss _ rfl
    rfl

theorem follows_arrowStatement (hr : r.Follow a r') (c c' : Cursor) (h : c.size < m)
    (h' : c'.size < n) (hc : a.Meets c c') (hstep : c.comment? = none ∨ a.drops = false) :
    a.Follows (IsEdited a) (arrowStatement r c h) (arrowStatement r' c' h') := by
  have hsame : c'.comment?.isSome = c.comment?.isSome := by
    rcases (hc.comment? hstep).cases with ⟨hx, hy⟩ | ⟨_, _, _, _, _, _, hx, hy, -, -⟩
    · rw [hx, hy]
      rfl
    · rw [hx, hy]
      rfl
  rw [arrowStatement, arrowStatement, hsame, hc.kind]
  split
  · exact hr.statement c c' h h' hc hstep
  · refine (hr.expression c c' h h' hc).bind fun e d hd e' d' hd' he hdd => ?_
    rw [hc.start, he]
    exact hdd.ended (R := IsEdited a) (f := (.expr · e)) (g := (.expr · (e.rewrite a.rewriting)))
      c.start (fun _ => ⟨rfl, keepsLine_of_proper rfl⟩) _ _

/-- A comment is a line of an arrow function as it is. -/
theorem arrowStatement_comment (hr : r.Follow a r') (c : Cursor) (h : c.size < m) (t : Token)
    (d : Cursor) (hd : d.size < c.size) (hc : c.comment? = some ⟨t, d, hd⟩) :
    arrowStatement r c h = .ok ⟨.comment t.span t.lexeme, d, hd⟩ := by
  rw [arrowStatement, hc]
  exact hr.comment c h t d hd hc

theorem follows_groupOrArrow (hr : r.Follow a r') (start : Nat) (c c' : Cursor) (h : c.size < m)
    (h' : c'.size < n) (hc : a.Meets c c') :
    a.Follows (fun e e' => e' = e.rewrite a.rewriting) (groupOrArrow r start c h)
      (groupOrArrow r' (a.move start) c' h') := by
  refine (follows_delimited .rParen (follows_element hr) false c c' h h' hc).bind ?_
  rintro ⟨elements, comma⟩ d hd _ d' hd' rfl hdd
  dsimp only
  rcases (hdd.accept? (.punctuation .fatArrow)).cases with
    ⟨hx, hy⟩ | ⟨t, e, he, t', e', he', hx, hy, -, hee⟩
  · rw [hx, hy]
    have herror := hdd.error (.token (.punctuation .fatArrow))
    match elements, comma with
    | [], _ => exact herror
    | [(_, inner)], false =>
      refine Follows.ok ?_ hdd _ _
      rw [hdd.spanFrom]
      rfl
    | [(_, inner)], true => exact herror
    | _ :: _ :: _, _ => exact herror
  · rw [hx, hy]
    refine Follows.check (agrees_mapM_parameter elements) ?_
    rintro params _ rfl
    refine (hee.expect (.punctuation .lBrace)).bind fun _ f hf _ f' hf' _ hff => ?_
    refine (follows_untilBrace (follows_arrowStatement hr) (arrowStatement_comment hr) f f' _ _
      hff.toMeets).bind ?_
    rintro body g hg _ g' hg' rfl hgg
    refine Follows.ok ?_ hgg _ _
    rw [hgg.spanFrom, Expr.rewrite, rewriteStatements_eq_map]
    rfl

theorem follows_primary (c c' : Cursor) {r : Rules c.size} {r' : Rules c'.size}
    (hr : r.Follow a r') (hc : a.Meets c c') :
    a.Follows (fun e e' => e' = e.rewrite a.rewriting) (primary c r) (primary c' r') := by
  rw [primary, primary]
  rcases hc.next?.cases with ⟨hx, hy⟩ | ⟨t, d, hd, t', d', hd', hx, hy, ht, hdd⟩
  · rw [hx, hy]
    exact hc.error _
  · obtain rfl : t' = a.token t := ht
    rw [hx, hy]
    have hkind : (a.token t).kind = t.kind := rfl
    simp only [hkind]
    split
    · exact ⟨rfl, hdd⟩
    · exact follows_groupOrArrow hr _ d d' hd hd' hdd.toMeets
    · refine (follows_delimited .rBracket hr.expression false d d' hd hd' hdd.toMeets).bind ?_
      rintro ⟨elements, last⟩ e he _ e' he' rfl hee
      refine Follows.ok ?_ hee _ _
      rw [Expr.rewrite, rewriteExprs_eq_map]
      exact congrArg (Expr.array · _) (hee.spanFrom _)
    · refine (follows_delimited .rBrace (follows_property hr) false d d' hd hd'
        hdd.toMeets).bind ?_
      rintro ⟨properties, last⟩ e he _ e' he' rfl hee
      refine Follows.ok ?_ hee _ _
      rw [Expr.rewrite, rewriteProperties_eq_map]
      exact congrArg (Expr.object · _) (hee.spanFrom _)
    · have hsame : literal? (a.token t) = literal? t := rfl
      rw [hsame]
      split
      · exact ⟨rfl, hdd⟩
      · exact hc.error _

/-! ## Signs after an operand and before it -/

theorem follows_postfixes (hr : r.Follow a r') (first : TokenKind) (start : Nat) (e : Expr)
    (c c' : Cursor) (h : c.size < m) (h' : c'.size < n) (hc : a.Tracks c c') :
    a.Follows (fun e e' => e' = e.rewrite a.rewriting) (postfixes r first start e c h)
      (postfixes r' first (a.move start) (e.rewrite a.rewriting) c' h') := by
  -- on the tokens left to the first reading, for whatever was read so far
  induction hk : c.size using Nat.strongRecOn generalizing c c' e with
  | ind k ih =>
    have hgo : ∀ {x x' : Expr} {f f' : Cursor} (hf : f.size < m) (hf' : f'.size < n),
        x' = x.rewrite a.rewriting → a.Tracks f f' → f.size < k →
        a.Follows (fun e e' => e' = e.rewrite a.rewriting) (postfixes r first start x f hf)
          (postfixes r' first (a.move start) x' f' hf') := by
      rintro x _ f f' hf hf' rfl hff hlt
      exact ih f.size hlt x f f' hf hf' hff rfl
    rw [postfixes, postfixes]
    rcases hc.next?.cases with ⟨hx, hy⟩ | ⟨t, d, hd, t', d', hd', hx, hy, ht, hdd⟩
    · rw [hx, hy]
      exact ⟨rfl, hc⟩
    · obtain rfl : t' = a.token t := ht
      rw [hx, hy]
      have hkind : (a.token t).kind = t.kind := rfl
      simp only [hkind]
      split
      · refine (follows_delimited .rParen
          (hr.restrict (Nat.le_of_lt h) (Nat.le_of_lt h')).expression false d d' hd hd'
          hdd.toMeets).bind ?_
        rintro ⟨args, last⟩ f hf _ f' hf' rfl hff
        refine hgo (f := f) _ _ ?_ hff (by omega)
        rw [hff.spanFrom, Expr.rewrite, rewriteExprs_eq_map]
        rfl
      · refine (follows_name hdd.toMeets).bind fun property f hf property' f' hf' hp hff => ?_
        refine hgo (f := f) _ _ ?_ hff (by omega)
        rw [hff.spanFrom, hp]
        rfl
      · refine (hr.expression d d' _ _ hdd.toMeets).bind fun key f hf key' f' hf' hkey hff => ?_
        refine (hff.expect (.punctuation .rBracket)).bind fun _ g hg _ g' hg' _ hgg => ?_
        refine hgo (f := g) _ _ ?_ hgg (by omega)
        rw [hgg.spanFrom, hkey]
        rfl
      · split
        · refine Follows.check (agrees_checkTarget e first) fun _ _ _ => ?_
          refine hgo _ _ ?_ hdd (by omega)
          rw [hdd.spanFrom]
          rfl
        · exact ⟨rfl, hc⟩

theorem follows_unary (c c' : Cursor) {r : Rules c.size} {r' : Rules c'.size}
    (hr : r.Follow a r') (hc : a.Meets c c') :
    a.Follows (fun e e' => e' = e.rewrite a.rewriting) (unary c r) (unary c' r') := by
  rw [unary, unary]
  rcases (hc.take? TokenKind.update?).cases with
    ⟨hx, hy⟩ | ⟨op, d, hd, op', d', hd', hx, hy, hop, hdd⟩
  · rw [hx, hy]
    refine (follows_primary c c' hr hc).bind fun e d hd e' d' hd' he hdd => ?_
    obtain rfl : e' = e.rewrite a.rewriting := he
    show a.Follows _ (postfixes r c.kind e.span.start e d hd)
      (postfixes r' c'.kind (e.rewrite a.rewriting).span.start (e.rewrite a.rewriting) d' hd')
    rw [hc.kind, rewriting, Rewriting.span_filtering]
    exact follows_postfixes hr c.kind e.span.start e d d' hd hd' hdd
  · obtain rfl : op = op' := hop
    rw [hx, hy]
    refine (hr.unary d d' hd hd' hdd.toMeets).bind fun e f hf e' f' hf' he hff => ?_
    obtain rfl : e' = e.rewrite a.rewriting := he
    dsimp only
    rw [hdd.kind]
    refine Follows.check (agrees_checkTarget e d.kind) fun _ _ _ => ?_
    refine Follows.ok ?_ hff _ _
    rw [hc.start, rewriting, Rewriting.span_filtering]
    rfl

/-! ## Operators between operands -/

theorem follows_operands (hr : r.Follow a r') (least : Nat) (left : Expr) (c c' : Cursor)
    (h : c.size < m) (h' : c'.size < n) (hc : a.Tracks c c') :
    a.Follows (fun e e' => e' = e.rewrite a.rewriting) (operands r least left c h)
      (operands r' least (left.rewrite a.rewriting) c' h') := by
  induction hk : c.size using Nat.strongRecOn generalizing c c' left with
  | ind k ih =>
    rw [operands, operands]
    rcases (hc.take? (binaryFrom? least)).cases with
      ⟨hx, hy⟩ | ⟨op, d, hd, op', d', hd', hx, hy, hop, hdd⟩
    · rw [hx, hy]
      exact ⟨rfl, hc⟩
    · obtain rfl : op = op' := hop
      rw [hx, hy]
      refine (hr.binary _ d d' _ _ hdd.toMeets).bind fun right e he right' e' he' hright hee => ?_
      obtain rfl : right' = right.rewrite a.rewriting := hright
      have hgo := ih e.size (by omega) (.binary (left.span.merge right.span) op left right) e e'
        (by omega) (by omega) hee rfl
      show a.Follows _ _ (operands r' least (.binary ((left.rewrite a.rewriting).span.merge
        (right.rewrite a.rewriting).span) op (left.rewrite a.rewriting)
        (right.rewrite a.rewriting)) e' _)
      rw [rewriting, Rewriting.span_filtering, Rewriting.span_filtering, span_merge]
      exact hgo

theorem follows_binary (least : Nat) (c c' : Cursor) {r : Rules c.size} {r' : Rules c'.size}
    (hr : r.Follow a r') (hc : a.Meets c c') :
    a.Follows (fun e e' => e' = e.rewrite a.rewriting) (binary least c r) (binary least c' r') := by
  refine (follows_unary c c' hr hc).bind ?_
  rintro left d hd _ d' hd' rfl hdd
  exact follows_operands hr least left d d' hd hd' hdd

theorem follows_expression (c c' : Cursor) {r : Rules c.size} {r' : Rules c'.size}
    (hr : r.Follow a r') (hc : a.Meets c c') :
    a.Follows (fun e e' => e' = e.rewrite a.rewriting) (expression c r) (expression c' r') := by
  refine (follows_binary 0 c c' hr hc).bind ?_
  rintro target d hd _ d' hd' rfl hdd
  dsimp only
  rcases (hdd.take? TokenKind.assign?).cases with
    ⟨hx, hy⟩ | ⟨op, e, he, op', e', he', hx, hy, hop, hee⟩
  · rw [hx, hy]
    exact ⟨rfl, hdd⟩
  · obtain rfl : op = op' := hop
    rw [hx, hy, hc.kind]
    refine Follows.check (agrees_checkTarget target c.kind) fun _ _ _ => ?_
    refine (hr.expression e e' _ _ hee.toMeets).bind fun value f hf value' f' hf' hv hff => ?_
    obtain rfl : value' = value.rewrite a.rewriting := hv
    refine Follows.ok ?_ hff _ _
    rw [rewriting, Rewriting.span_filtering, Rewriting.span_filtering, span_merge]
    rfl

/-! ## Statements -/

/-- Comments before a nested statement are skipped, so none of them is left out or in. -/
theorem follows_nested (hr : r.Follow a r') (c c' : Cursor) (h : c.size < m) (h' : c'.size < n)
    (hc : a.Meets c c') :
    a.Follows (fun s s' => s' = s.rewrite a.rewriting) (nested r c h) (nested r' c' h') := by
  have hskip := hc.skipComments
  refine (hr.statement c.skipComments c'.skipComments _ _ hskip
    (.inl c.comment?_skipComments)).bind fun s d hd s' d' hd' hs hdd => ?_
  exact ⟨hs.1, hdd⟩

theorem follows_declared (hr : r.Follow a r') (c c' : Cursor) (h : c.size < m) (h' : c'.size < n)
    (hc : a.Meets c c') :
    a.Follows (fun p p' => p' = (p.1.rewrite a.rewriting, p.2.map (Expr.rewrite a.rewriting)))
      (declared r c h) (declared r' c' h') := by
  refine (follows_name hc).bind ?_
  rintro s d hd _ d' hd' rfl hdd
  dsimp only
  rcases (hdd.accept? (.operator .eq)).cases with
    ⟨hx, hy⟩ | ⟨t, e, he, t', e', he', hx, hy, -, hee⟩
  · rw [hx, hy]
    exact ⟨rfl, hdd⟩
  · rw [hx, hy]
    refine (hr.expression e e' _ _ hee.toMeets).bind ?_
    rintro init f hf _ f' hf' rfl hff
    exact ⟨rfl, hff⟩

theorem follows_clause (stop : Punctuation) (hr : r.Follow a r') (c c' : Cursor) (h : c.size < m)
    (h' : c'.size < n) (hc : a.Tracks c c') :
    a.Follows (fun o o' => o' = o.map (Expr.rewrite a.rewriting)) (clause stop r c h)
      (clause stop r' c' h') := by
  rw [clause, clause, hc.kind]
  split
  · exact ⟨rfl, hc⟩
  · refine (hr.expression c c' h h' hc.toMeets).bind ?_
    rintro e d hd _ d' hd' rfl hdd
    exact ⟨rfl, hdd⟩

theorem follows_loopInit (hr : r.Follow a r') (c c' : Cursor) (h : c.size < m) (h' : c'.size < n)
    (hc : a.Tracks c c') :
    a.Follows (fun i i' => i' = rewriteLoopInit a.rewriting i) (loopInit r c h)
      (loopInit r' c' h') := by
  rw [loopInit, loopInit]
  rcases (hc.take? TokenKind.decl?).cases with
    ⟨hx, hy⟩ | ⟨kind, d, hd, kind', d', hd', hx, hy, hk, hdd⟩
  · rw [hx, hy]
    refine (follows_clause .semicolon hr c c' h h' hc).map ?_
    rintro o _ rfl
    cases o <;> rfl
  · obtain rfl : kind = kind' := hk
    rw [hx, hy]
    refine (follows_declared hr d d' _ _ hdd.toMeets).bind ?_
    rintro ⟨s, init⟩ e he _ e' he' rfl hee
    refine Follows.ok ?_ hee _ _
    rw [hc.start, hee.spanFrom, rewriteLoopInit, Decl.rewrite, rewriteOption_eq_map]
    rfl

theorem follows_function (hr : r.Follow a r') (start : Nat) (c c' : Cursor) (h : c.size < m)
    (h' : c'.size < n) (hc : a.Meets c c') :
    a.Follows (IsEdited a) (function r start c h) (function r' (a.move start) c' h') := by
  refine (follows_name hc).bind ?_
  rintro s d hd _ d' hd' rfl hdd
  refine (hdd.expect (.punctuation .lParen)).bind fun _ e he _ e' he' _ hee => ?_
  refine (follows_delimited .rParen (f := Name.rewrite a.rewriting)
    (fun _ _ _ _ hc => follows_name hc) false e e' _ _ hee.toMeets).bind ?_
  rintro ⟨params, last⟩ f hf _ f' hf' rfl hff
  refine (hff.expect (.punctuation .lBrace)).bind fun _ g hg _ g' hg' _ hgg => ?_
  refine (follows_untilBrace hr.statement hr.comment g g' _ _ hgg.toMeets).bind ?_
  rintro body i hi _ i' hi' rfl hii
  refine Follows.ok ⟨?_, keepsLine_of_proper rfl⟩ hii _ _
  rw [hii.spanFrom, Statement.rewrite, rewriteStatements_eq_map]
  rfl

theorem follows_conditional (hr : r.Follow a r') (start : Nat) (c c' : Cursor) (h : c.size < m)
    (h' : c'.size < n) (hc : a.Meets c c') :
    a.Follows (IsEdited a) (conditional r start c h) (conditional r' (a.move start) c' h') := by
  refine (hc.expect (.punctuation .lParen)).bind fun _ d hd _ d' hd' _ hdd => ?_
  refine (hr.expression d d' _ _ hdd.toMeets).bind ?_
  rintro test e he _ e' he' rfl hee
  refine (hee.expect (.punctuation .rParen)).bind fun _ f hf _ f' hf' _ hff => ?_
  refine (follows_nested hr f f' _ _ hff.toMeets).bind ?_
  rintro consequent g hg _ g' hg' rfl hgg
  dsimp only
  rcases (hgg.accept? (.keyword .else_)).cases with
    ⟨hx, hy⟩ | ⟨t, i, hi, t', i', hi', hx, hy, -, hii⟩
  · rw [hx, hy]
    refine Follows.ok ⟨?_, keepsLine_of_proper rfl⟩ hgg _ _
    rw [hgg.spanFrom]
    rfl
  · rw [hx, hy]
    refine (follows_nested hr i i' _ _ hii.toMeets).bind ?_
    rintro alternate j hj _ j' hj' rfl hjj
    refine Follows.ok ⟨?_, keepsLine_of_proper rfl⟩ hjj _ _
    rw [hjj.spanFrom]
    rfl

theorem follows_loop (hr : r.Follow a r') (start : Nat) (c c' : Cursor) (h : c.size < m)
    (h' : c'.size < n) (hc : a.Meets c c') :
    a.Follows (IsEdited a) (loop r start c h) (loop r' (a.move start) c' h') := by
  refine (hc.expect (.punctuation .lParen)).bind fun _ d hd _ d' hd' _ hdd => ?_
  refine (follows_loopInit hr d d' _ _ hdd).bind ?_
  rintro init e he _ e' he' rfl hee
  refine (hee.expect (.punctuation .semicolon)).bind fun _ f hf _ f' hf' _ hff => ?_
  refine (follows_clause .semicolon hr f f' _ _ hff).bind ?_
  rintro test g hg _ g' hg' rfl hgg
  refine (hgg.expect (.punctuation .semicolon)).bind fun _ i hi _ i' hi' _ hii => ?_
  refine (follows_clause .rParen hr i i' _ _ hii).bind ?_
  rintro update j hj _ j' hj' rfl hjj
  refine (hjj.expect (.punctuation .rParen)).bind fun _ k hk _ k' hk' _ hkk => ?_
  refine (follows_nested hr k k' _ _ hkk.toMeets).bind ?_
  rintro body l hl _ l' hl' rfl hll
  refine Follows.ok ⟨?_, keepsLine_of_proper rfl⟩ hll _ _
  rw [hll.spanFrom, Statement.rewrite, rewriteOption_eq_map, rewriteOption_eq_map]
  rfl

theorem follows_returning (hr : r.Follow a r') (start : Nat) (c c' : Cursor) (h : c.size < m)
    (h' : c'.size < n) (hc : a.Tracks c c') :
    a.Follows (IsEdited a) (returning r start c h) (returning r' (a.move start) c' h') := by
  -- the value stands in one branch only, so what follows it is shown once for both
  have hend : ∀ (argument : Option Expr) {d d' : Cursor}
      (hd : (d.past (.punctuation .semicolon)).1.size < m)
      (hd' : (d'.past (.punctuation .semicolon)).1.size < n), a.Tracks d d' →
      a.Follows (IsEdited a)
        (.ok ⟨.ret ((d.past (.punctuation .semicolon)).1.spanFrom start) argument, _, hd⟩)
        (.ok ⟨.ret ((d'.past (.punctuation .semicolon)).1.spanFrom (a.move start))
          (argument.map (Expr.rewrite a.rewriting)), _, hd'⟩) := by
    intro argument d d' hd hd' hdd
    refine hdd.ended (R := IsEdited a) (f := (.ret · argument)) (g := (.ret · _)) start
      (fun s => ⟨?_, keepsLine_of_proper rfl⟩) hd hd'
    rw [Statement.rewrite, rewriteOption_eq_map]
    rfl
  rw [returning, returning, hc.kind]
  split
  · have hargument : a.Follows (m := m) (n := n)
        (fun o o' => o' = o.map (Expr.rewrite a.rewriting))
        ((r.expression c h).map fun s => ⟨some s.value, s.rest, Nat.lt_trans s.lt h⟩)
        ((r'.expression c' h').map fun s => ⟨some s.value, s.rest, Nat.lt_trans s.lt h'⟩) := by
      have hboth := hr.expression c c' h h' hc.toMeets
      cases hx : r.expression c h with
      | error e =>
        cases hy : r'.expression c' h' with
        | error e' => rw [hx, hy] at hboth; exact hboth
        | ok s' => rw [hx, hy] at hboth; exact hboth.elim
      | ok s =>
        cases hy : r'.expression c' h' with
        | error e' => rw [hx, hy] at hboth; exact hboth.elim
        | ok s' => rw [hx, hy] at hboth; exact ⟨congrArg some hboth.1, hboth.2⟩
    refine hargument.bind ?_
    rintro argument d hd _ d' hd' rfl hdd
    exact hend argument _ _ hdd
  · exact hend none _ _ hc

theorem follows_declaration (hr : r.Follow a r') (start : Nat) (kind : DeclKind) (c c' : Cursor)
    (h : c.size < m) (h' : c'.size < n) (hc : a.Meets c c') :
    a.Follows (IsEdited a) (declaration r start kind c h)
      (declaration r' (a.move start) kind c' h') := by
  refine (follows_declared hr c c' h h' hc).bind ?_
  rintro ⟨s, init⟩ d hd _ d' hd' rfl hdd
  refine hdd.ended (R := IsEdited a) (f := fun sp => .decl (.mk sp kind s init))
    (g := fun sp => .decl (.mk sp kind _ _)) start (fun sp => ⟨?_, keepsLine_of_proper rfl⟩) _ _
  rw [Statement.rewrite, Decl.rewrite, rewriteOption_eq_map]
  rfl

theorem follows_expressionStatement (c c' : Cursor) {r : Rules c.size} {r' : Rules c'.size}
    (hr : r.Follow a r') (hc : a.Meets c c') :
    a.Follows (IsEdited a) (expressionStatement c r) (expressionStatement c' r') := by
  refine (follows_expression c c' hr hc).bind ?_
  rintro x d hd _ d' hd' rfl hdd
  rw [hc.start]
  exact hdd.ended (R := IsEdited a) (f := (.expr · x)) (g := (.expr · (x.rewrite a.rewriting)))
    c.start (fun _ => ⟨rfl, keepsLine_of_proper rfl⟩) _ _

theorem follows_statement (c c' : Cursor) {r : Rules c.size} {r' : Rules c'.size}
    (hr : r.Follow a r') (hc : a.Meets c c') (hstep : c.comment? = none ∨ a.drops = false) :
    a.Follows (IsEdited a) (statement c r) (statement c' r') := by
  rw [statement, statement]
  rcases (hc.comment? hstep).cases with ⟨hx, hy⟩ | ⟨t, d, hd, t', d', hd', hx, hy, ht, hdd⟩
  · rw [hx, hy]
    dsimp only
    rcases hc.next?.cases with ⟨hx, hy⟩ | ⟨t, d, hd, t', d', hd', hx, hy, ht, hdd⟩
    · rw [hx, hy]
      exact hc.error _
    · obtain rfl : t' = a.token t := ht
      rw [hx, hy]
      have hmeets := hdd.toMeets
      have hkind : (a.token t).kind = t.kind := rfl
      simp only [hkind]
      split
      · exact follows_declaration hr _ .const d d' hd hd' hmeets
      · exact follows_declaration hr _ .let_ d d' hd hd' hmeets
      · exact follows_declaration hr _ .var d d' hd hd' hmeets
      · exact follows_function hr _ d d' hd hd' hmeets
      · exact follows_returning hr _ d d' hd hd' hdd
      · exact follows_conditional hr _ d d' hd hd' hmeets
      · exact follows_loop hr _ d d' hd hd' hmeets
      · refine (follows_untilBrace hr.statement hr.comment d d' hd hd' hmeets).bind ?_
        rintro body e he _ e' he' rfl hee
        refine Follows.ok ⟨?_, keepsLine_of_proper rfl⟩ hee _ _
        rw [Statement.rewrite, rewriteStatements_eq_map]
        exact congrArg (Statement.block · _) (hee.spanFrom _)
      · split
        · exact follows_expressionStatement c c' hr hc
        · exact hc.error _
  · -- a comment that is read is one that is left in
    obtain rfl : t' = a.token t := ht
    rw [hx, hy]
    refine ⟨⟨rfl, ?_⟩, hdd⟩
    rcases hstep with hnone | hdrops
    · rw [hnone] at hx
      cases hx
    · rw [keepsLine, hdrops]
      rfl

/-! ## All rules -/

theorem statement_comment (c : Cursor) (r : Rules c.size) (t : Token) (d : Cursor)
    (hd : d.size < c.size) (hc : c.comment? = some ⟨t, d, hd⟩) :
    statement c r = .ok ⟨.comment t.span t.lexeme, d, hd⟩ := by
  rw [statement, hc]

/-- All rules keep step, on cursors with whatever numbers of tokens left. -/
theorem rules_follow (a : Edit) : ∀ m n, (rules m).Follow a (rules n)
  | 0, _ => {
      expression := fun _ _ h => absurd h (Nat.not_lt_zero _)
      binary := fun _ _ _ h => absurd h (Nat.not_lt_zero _)
      unary := fun _ _ h => absurd h (Nat.not_lt_zero _)
      statement := fun _ _ h => absurd h (Nat.not_lt_zero _)
      comment := fun _ h => absurd h (Nat.not_lt_zero _) }
  | _ + 1, 0 => {
      expression := fun _ _ _ h' => absurd h' (Nat.not_lt_zero _)
      binary := fun _ _ _ _ h' => absurd h' (Nat.not_lt_zero _)
      unary := fun _ _ _ h' => absurd h' (Nat.not_lt_zero _)
      statement := fun _ _ _ h' => absurd h' (Nat.not_lt_zero _)
      comment := fun c _ => statement_comment c _ }
  | m + 1, n + 1 => {
      expression := fun c c' h h' => follows_expression c c'
        ((rules_follow a m n).restrict (Nat.le_of_lt_succ h) (Nat.le_of_lt_succ h'))
      binary := fun least c c' h h' => follows_binary least c c'
        ((rules_follow a m n).restrict (Nat.le_of_lt_succ h) (Nat.le_of_lt_succ h'))
      unary := fun c c' h h' => follows_unary c c'
        ((rules_follow a m n).restrict (Nat.le_of_lt_succ h) (Nat.le_of_lt_succ h'))
      statement := fun c c' h h' => follows_statement c c'
        ((rules_follow a m n).restrict (Nat.le_of_lt_succ h) (Nat.le_of_lt_succ h'))
      comment := fun c _ => statement_comment c _ }

end Grammar

namespace Program

open Edit

variable {a : Edit}

/-- Statements that were left in stay in, and comments that are left out stay out. -/
theorem agrees_readFrom {done : List Statement} {c c' : Cursor} (hc : a.Meets c c') :
    a.Agrees (fun p p' => p' = a.statements p) (readFrom done c)
      (readFrom (a.statements done) c') := by
  -- on the tokens left to the first reading, for every list of statements read so far
  induction hk : c.size using Nat.strongRecOn generalizing c c' done with
  | ind k ih =>
    by_cases hstep : c.comment? = none ∨ a.drops = false
    · rw [readFrom, readFrom, hc.atEnd hstep]
      split
      · exact (statements_reverse done).symm
      · refine (Grammar.follows_statement c c' (Grammar.rules_follow a _ _) hc hstep).agrees ?_
        intro s d hd s' d' hd' hs hdd
        have hgo : a.Agrees (fun p p' => p' = a.statements p) (readFrom (s :: done) d)
            (readFrom (a.statements (s :: done)) d') := ih d.size (by omega) hdd.toMeets rfl
        rw [statements_cons hs.2, ← hs.1] at hgo
        exact hgo
    · rw [not_or, Bool.not_eq_false] at hstep
      obtain ⟨hsome, hdrops⟩ := hstep
      obtain ⟨⟨t, d, hd⟩, ht⟩ := Option.ne_none_iff_exists'.mp hsome
      have hgo : a.Agrees (fun p p' => p' = a.statements p)
          (readFrom (.comment t.span t.lexeme :: done) d)
          (readFrom (a.statements (.comment t.span t.lexeme :: done)) c') :=
        ih d.size (by omega) (hc.of_comment? hdrops ht) rfl
      have hdropped : a.keepsLine (.comment t.span t.lexeme) = false := by
        rw [keepsLine, hdrops]
        rfl
      rw [statements_cons_dropped hdropped] at hgo
      have hmore : c.atEnd = false := by
        rw [Bool.eq_false_iff, Ne, Cursor.atEnd_iff, (Cursor.rest_of_comment? ht).2]
        exact List.cons_ne_nil _ _
      rw [readFrom, hmore, Grammar.statement_comment c _ t d hd ht]
      exact hgo

theorem tokens_concat_endAt (before : List Token) (stop : Nat) :
    a.tokens (before ++ [Token.endAt stop]) = a.tokens before ++ [Token.endAt (a.move stop)] := by
  rw [tokens, List.filter_append, List.map_append]
  refine congrArg (a.tokens before ++ ·) ?_
  rw [List.filter_cons_of_pos (keeps_of_proper rfl)]
  rfl

/-- The cursors at the start of two texts, one edited into the other. -/
theorem meets_ofTokens {before : List Token} (h : ∀ t ∈ before, t.kind ≠ .eof) (stop : Nat) :
    a.Meets (.ofTokens (before ++ [Token.endAt stop]))
      (.ofTokens (a.tokens (before ++ [Token.endAt stop]))) := by
  have hmoved : ∀ t ∈ a.tokens before, t.kind ≠ .eof := by
    intro t ht
    obtain ⟨u, hu, rfl⟩ := List.mem_map.mp ht
    exact h u (List.mem_filter.mp hu).1
  rw [tokens_concat_endAt]
  refine ⟨?_, ?_⟩
  · rw [Cursor.rest_ofTokens h rfl, Cursor.rest_ofTokens hmoved rfl]
  · rw [Cursor.finish_ofTokens h rfl, Cursor.finish_ofTokens hmoved rfl]
    rfl

/-- **Reading commutes with edits**: from edited tokens the edited program is read, or there is the
    same error at the place where its token has gone. -/
theorem ofTokens_edited {before : List Token} (h : ∀ t ∈ before, t.kind ≠ .eof) (stop : Nat) :
    a.Agrees (fun p p' => p' = a.statements p) (ofTokens (before ++ [Token.endAt stop]))
      (ofTokens (a.tokens (before ++ [Token.endAt stop]))) :=
  agrees_readFrom (meets_ofTokens h stop)

end Program

end CurlyScript
