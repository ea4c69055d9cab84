import CurlyScript.Grammar.Program
import CurlyScript.Proofs.Grammar.Lists

/-
  Reading expressions back, level by level.

  The grammar of expressions has three levels, and each has its own way of going on after a part
  was read.  So an explicit expression is read in three ways, the looser from the tighter:

  1. `Chains`  — an operand, after which signs may follow: reading goes on with the signs after it;
  2. `Climbs`  — operands under some operator: reading goes on with the operators after it;
  3. `Reads`   — a whole expression: nothing may follow that would make it longer.

  The first two say that reading the expression and then going on IS going on from the expression.
  This is what makes the left operand of an operator, which is read before its operator is seen,
  no harder than the right one.
-/

namespace CurlyScript

open Terminal

/-- Whether a class makes an operand before it longer, or turns a group into parameters. -/
def TokenKind.continuesOperand : TokenKind → Bool
  | punctuation p => p = .lParen || p = .lBracket || p = .dot || p = .fatArrow
  | k => k.update?.isSome

theorem TokenKind.update?_eq_none {k : TokenKind} (h : k.continuesOperand = false) :
    k.update? = none := by
  cases k with
  | operator o =>
    cases ho : (operator o).update? with
    | none => rfl
    | some op =>
      rw [continuesOperand, ho] at h
      · exact Bool.noConfusion h
      · exact nofun
  | _ => rfl

/-- Whether a class makes an expression before it longer. -/
def TokenKind.continuesExpression (k : TokenKind) : Bool :=
  k.continuesOperand || k.binary?.isSome || k.assign?.isSome

namespace Grammar

/-- The rules for the tokens that are left. -/
abbrev rulesFor {n : Nat} (c : Cursor) (h : c.size ≤ n) : Rules c.size := (rules n).restrict h

/-- An operand with the signs after it. -/
def signed (c : Cursor) (r : Rules c.size) : Read (Step c.size Expr) := do
  let ⟨e, d, hd⟩ ← primary c r
  postfixes r c.kind e.span.start e d hd

theorem ok_bind {α β : Type} (a : α) (f : α → Read β) : (Except.ok a >>= f) = f a := rfl

theorem signed_of_primary {c d : Cursor} {r : Rules c.size} {e : Expr} {hd : d.size < c.size}
    (h : primary c r = .ok ⟨e, d, hd⟩) : signed c r = postfixes r c.kind e.span.start e d hd := by
  rw [signed, h]
  rfl

theorem unary_eq_signed {c : Cursor} {r : Rules c.size}
    (h : (nextKind c.terminals).update? = none) : unary c r = signed c r := by
  rw [unary, Cursor.take?_eq_none h, signed]

end Grammar

open Grammar

/-- An expression is read as an operand after which signs may follow. -/
def Expr.Chains (e : Expr) : Prop :=
  ∀ n (c : Cursor) (h : c.size ≤ n) more, c.terminals = e.terminals ++ more →
    nextKind more ≠ .punctuation .fatArrow →
    ∃ start e' d, ∃ hd : d.size < c.size,
      e'.rewrite .unspanned = e.rewrite .unspanned ∧ d.terminals = more ∧
      signed c (rulesFor c h) = postfixes (rulesFor c h) c.kind start e' d hd

/-- An expression is read as operands of looser operators, which may follow. -/
def Expr.Climbs (e : Expr) : Prop :=
  ∀ n (c : Cursor) (h : c.size ≤ n) least more, c.terminals = e.terminals ++ more →
    least < e.precedence → (nextKind more).continuesOperand = false →
    (∀ op, (nextKind more).binary? = some op → op.precedence < e.precedence) →
    ∃ e' d, ∃ hd : d.size < c.size,
      e'.rewrite .unspanned = e.rewrite .unspanned ∧ d.terminals = more ∧
      Grammar.binary least c (rulesFor c h) = operands (rulesFor c h) least e' d hd

/-- A whole expression is read, with nothing after it that makes it longer. -/
def Expr.Reads (e : Expr) : Prop :=
  ∀ n (c : Cursor) (h : c.size < n) more, c.terminals = e.terminals ++ more →
    (nextKind more).continuesExpression = false →
    Succeeds ((rules n).expression c h)
      (Step.Gives (Expr.rewrite .unspanned) (e.rewrite .unspanned) more)

/-- A statement is read, if no `else` follows that would go to it. -/
def Statement.Reads (s : Statement) : Prop :=
  ∀ n (c : Cursor) (h : c.size < n) more, c.terminals = s.terminals ++ more →
    (s.endsWithOpenIf = true → nextKind more ≠ .keyword .else_) →
    Succeeds ((rules n).statement c h)
      (Step.Gives (Statement.rewrite .unspanned) (s.rewrite .unspanned) more)

/-- A statement is read in the body of an arrow function. -/
def Statement.ReadsInArrow (s : Statement) : Prop :=
  ∀ m n (hmn : m ≤ n) (c : Cursor) (h : c.size < m) more, c.terminals = s.terminals ++ more →
    Succeeds (arrowStatement ((rules n).restrict hmn) c h)
      (Step.Gives (Statement.rewrite .unspanned) (s.rewrite .unspanned) more)

/-! ## Signs after an operand -/

namespace Grammar

variable {n : Nat} {r : Rules n} {first : TokenKind} {start : Nat} {e : Expr} {c : Cursor}
  {more : List Terminal}

/-- Without a sign after it an operand ends. -/
theorem postfixes_end (h : c.size < n) (hk : (nextKind c.terminals).continuesOperand = false) :
    postfixes r first start e c h = .ok ⟨e, c, h⟩ := by
  rw [postfixes]
  split
  · rfl
  · rename_i s t d hd hs
    have hkind : t.kind = nextKind c.terminals := Cursor.kind_of_next? hs
    rw [← hkind] at hk
    split
    · rename_i heq; rw [heq] at hk; exact Bool.noConfusion hk
    · rename_i heq; rw [heq] at hk; exact Bool.noConfusion hk
    · rename_i heq; rw [heq] at hk; exact Bool.noConfusion hk
    · rw [TokenKind.update?_eq_none hk]

/-- A member by its name goes on. -/
theorem postfixes_dot (h : c.size < n) {s : String}
    (hc : c.terminals = punctuation .dot :: Terminal.name s :: more) :
    ∃ sp spn d, ∃ hd : d.size < n, d.terminals = more ∧
      postfixes r first start e c h = postfixes r first start (.member sp e ⟨s, spn⟩) d hd := by
  obtain ⟨spt, d, hd, hn, hm⟩ := Cursor.next?_eq hc rfl
  obtain ⟨spn, f, hf, hname, hmore⟩ := name_eq hm
  refine ⟨f.spanFrom start, spn, f, by omega, hmore, ?_⟩
  rw [postfixes, hn]
  show (name d >>= _) = _
  rw [hname]
  rfl

/-- A step goes on, after what can be stored into. -/
theorem postfixes_update (h : c.size < n) {op : UpdateOp} (ht : e.isTarget = true)
    (hc : c.terminals = Terminal.operator op.operator :: more) :
    ∃ sp d, ∃ hd : d.size < n, d.terminals = more ∧
      postfixes r first start e c h = postfixes r first start (.update sp op false e) d hd := by
  obtain ⟨spt, d, hd, hn, hm⟩ := Cursor.next?_eq hc (by cases op <;> rfl)
  refine ⟨d.spanFrom start, d, by omega, hm, ?_⟩
  have hcheck : checkTarget e first = .ok () := by
    cases e with
    | ident | member | index => rfl
    | _ => exact Bool.noConfusion ht
  rw [postfixes, hn]
  cases op <;> (show (checkTarget e first >>= _) = _; rw [hcheck]; rfl)

/-- A call goes on. -/
theorem postfixes_call (h : c.size < n) {args : List Expr}
    (hc : c.terminals =
      punctuation .lParen :: separated .rParen (args.map Expr.terminals) ++ more)
    (hargs : ∀ d (hd : d.size < c.size),
      d.terminals = separated .rParen (args.map Expr.terminals) ++ more →
      Succeeds (delimited .rParen (r.restrict (Nat.le_of_lt h)).expression false d hd)
        (Step.Gives (fun p => p.1.map (Expr.rewrite .unspanned))
          (args.map (Expr.rewrite .unspanned)) more)) :
    ∃ sp args' d, ∃ hd : d.size < n,
      args'.map (Expr.rewrite .unspanned) = args.map (Expr.rewrite .unspanned) ∧
      d.terminals = more ∧
      postfixes r first start e c h = postfixes r first start (.call sp e args') d hd := by
  obtain ⟨spt, d, hd, hn, hm⟩ := Cursor.next?_eq hc rfl
  obtain ⟨⟨⟨args', last⟩, f, hf⟩, hread, hv, hmore⟩ := hargs d hd hm
  refine ⟨f.spanFrom start, args', f, Nat.lt_trans hf h, hv, hmore, ?_⟩
  rw [postfixes, hn]
  show (delimited .rParen (r.restrict (Nat.le_of_lt h)).expression false d hd >>= _) = _
  rw [hread]
  rfl

/-- A member by a computed value goes on. -/
theorem postfixes_index (h : c.size < n) {key : Expr}
    (hc : c.terminals =
      punctuation .lBracket :: key.terminals ++ punctuation .rBracket :: more)
    (hkey : ∀ d (hd : d.size < n), d.terminals = key.terminals ++ punctuation .rBracket :: more →
      Succeeds (r.expression d hd) (Step.Gives (Expr.rewrite .unspanned)
        (key.rewrite .unspanned) (punctuation .rBracket :: more))) :
    ∃ sp key' d, ∃ hd : d.size < n,
      key'.rewrite .unspanned = key.rewrite .unspanned ∧ d.terminals = more ∧
      postfixes r first start e c h = postfixes r first start (.index sp e key') d hd := by
  obtain ⟨spt, d, hd, hn, hm⟩ := Cursor.next?_eq hc rfl
  obtain ⟨⟨key', f, hf⟩, hread, hv, hm'⟩ := hkey d (Nat.lt_trans hd h) hm
  obtain ⟨spb, g, hg, hex, hmore⟩ := Cursor.expect_eq (k := .punctuation .rBracket) hm' rfl nofun
  have hf' : f.size < d.size := hf
  have hg' : g.size < f.size := hg
  refine ⟨g.spanFrom start, key', g, by omega, hv, hmore, ?_⟩
  rw [postfixes, hn]
  show (r.expression d (Nat.lt_trans hd h) >>= _) = _
  rw [hread]
  show (f.expect (.punctuation .rBracket) >>= _) = _
  rw [hex]
  rfl

end Grammar

/-! ## From level to level -/

theorem Grammar.binaryFrom?_operator {op : BinaryOp} {least : Nat} (h : least ≤ op.precedence) :
    binaryFrom? least (.operator op.operator) = some op := by
  rw [binaryFrom?_eq]
  show (op.operator.binary?).filter _ = some op
  rw [Operator.binary?_operator]
  exact Option.filter_some_pos (decide_eq_true h)

/-- Without an operator after them operands end. -/
theorem Grammar.operands_end {n least : Nat} {r : Rules n} {left : Expr} {c : Cursor}
    (h : c.size < n)
    (hk : ∀ op, (nextKind c.terminals).binary? = some op → op.precedence < least) :
    operands r least left c h = .ok ⟨left, c, h⟩ := by
  have hnone : c.take? (binaryFrom? least) = none := by
    refine Cursor.take?_eq_none ?_
    rw [binaryFrom?_eq, Option.filter_eq_none_iff]
    intro op hop
    rw [decide_eq_true_eq, Nat.not_le]
    exact hk op hop
  rw [operands, hnone]

namespace Expr

theorem first_isComment (e : Expr) : e.first.isComment = false := by
  have hb := e.first_beginsExpression
  rw [Terminal.isComment, beq_eq_false_iff_ne]
  intro hk
  rw [hk] at hb
  exact Bool.noConfusion hb

theorem nextKind_terminals (e : Expr) (more : List Terminal) :
    nextKind (e.terminals ++ more) = e.first.kind := by
  obtain ⟨ts, hts⟩ := e.terminals_eq_first
  rw [hts, List.cons_append, nextKind_cons e.first_isComment]

/-- No expression begins with a closing sign. -/
theorem nextKind_terminals_ne (e : Expr) (more : List Terminal) {p : Punctuation}
    (hp : (TokenKind.punctuation p).beginsExpression = false) :
    nextKind (e.terminals ++ more) ≠ .punctuation p := by
  rw [nextKind_terminals]
  intro hk
  have hb := e.first_beginsExpression
  rw [hk, hp] at hb
  exact Bool.noConfusion hb

theorem isTarget_unspanned (e : Expr) : (e.rewrite .unspanned).isTarget = e.isTarget := by
  cases e <;> rfl

/-- What can be stored into passes the check, wherever it stands. -/
theorem checkTarget_eq {e e' : Expr} (he : e'.rewrite .unspanned = e.rewrite .unspanned)
    (ht : e.isTarget = true) (k : TokenKind) : checkTarget e' k = .ok () := by
  have ht' : e'.isTarget = true := by
    rw [← isTarget_unspanned, he, isTarget_unspanned, ht]
  cases e' with
  | ident | member | index => rfl
  | _ => exact Bool.noConfusion ht'

/-- An expression is read as an operand with all its signs. -/
def Stands (e : Expr) : Prop :=
  ∀ n (c : Cursor) (h : c.size ≤ n) more, c.terminals = e.terminals ++ more →
    (nextKind more).continuesOperand = false →
    Succeeds (unary c (rulesFor c h))
      (Step.Gives (Expr.rewrite .unspanned) (e.rewrite .unspanned) more)

/-- An operand ends where no sign follows. -/
theorem Chains.stands {e : Expr} (he : e.Chains) (hf : e.first.kind.update? = none) : e.Stands := by
  intro n c h more hc hk
  -- what does not go on with the operand is no arrow either
  have hne : nextKind more ≠ .punctuation .fatArrow := by
    intro heq
    rw [heq] at hk
    exact Bool.noConfusion hk
  obtain ⟨start, e', d, hd, he', hm, hs⟩ := he n c h more hc hne
  have hu : (nextKind c.terminals).update? = none := by
    rw [hc, nextKind_terminals]
    exact hf
  rw [unary_eq_signed hu, hs, postfixes_end hd (by rw [hm]; exact hk)]
  exact ⟨_, rfl, he', hm⟩

/-- A step before an operand. -/
theorem stands_prefix (sp : Span) (op : UpdateOp) {argument : Expr} (ha : argument.Stands)
    (ht : argument.isTarget = true) : (update sp op true argument).Stands := by
  intro n c h more hc hk
  obtain ⟨d, hd, htake, hm⟩ := Cursor.take?_eq (f := TokenKind.update?) (a := op) hc
    (by cases op <;> rfl) (by cases op <;> rfl)
  -- the rules below are those of a smaller bound, so the bound has to be opened first
  cases n with
  | zero => exact absurd (Nat.lt_of_lt_of_le hd h) (Nat.not_lt_zero _)
  | succ n =>
    have hdn : d.size ≤ n := by omega
    obtain ⟨⟨a, e, he⟩, hread, hv, hmore⟩ := ha n d hdn more hm hk
    have hunary : (rulesFor c h).unary d hd = .ok ⟨a, e, he⟩ := hread
    rw [unary, htake]
    simp only [hunary, ok_bind, checkTarget_eq hv ht]
    exact ⟨_, rfl, congrArg (Expr.update Span.none op true) hv, hmore⟩

/-- What is no binary operation is an operand under every operator. -/
theorem Stands.climbs {e : Expr} (he : e.Stands) : e.Climbs := by
  intro n c h least more hc _ hk _
  obtain ⟨⟨e', d, hd⟩, hread, hv, hm⟩ := he n c h more hc hk
  refine ⟨e', d, hd, hv, hm, ?_⟩
  rw [Grammar.binary, hread]
  rfl

/-- Operands that need no parentheses are read as the operands of their operator. -/
theorem climbs_binary (sp : Span) {op : BinaryOp} {left right : Expr} (hl : left.Climbs)
    (hr : right.Climbs) (hgl : op.groupsLeft left = false) (hgr : op.groupsRight right = false) :
    (binary sp op left right).Climbs := by
  intro n c h least more hc hleast hk hop
  have hleft : op.precedence < left.precedence := Nat.not_le.mp (of_decide_eq_false hgl)
  have hright : op.precedence + 1 < right.precedence := Nat.not_le.mp (of_decide_eq_false hgr)
  have hprec : (binary sp op left right).precedence = op.precedence + 1 := rfl
  rw [hprec] at hleast hop
  rw [terminals, List.append_assoc] at hc
  have hsign : (TokenKind.operator op.operator).continuesOperand = false := by cases op <;> rfl
  -- the left operand is read before the operator is seen
  obtain ⟨l, d, hd, hlv, hm, hfirst⟩ := hl n c h least _ hc (by omega)
    (by rw [List.cons_append, nextKind_cons rfl]; exact hsign)
    (by
      intro op' hop'
      have heq : op.operator.binary? = some op' := hop'
      rw [Operator.binary?_operator] at heq
      rw [← Option.some.inj heq]
      exact hleft)
  obtain ⟨d2, hd2, htake, hm2⟩ := Cursor.take?_eq (f := binaryFrom? least) (a := op) hm rfl
    (binaryFrom?_operator (by omega))
  cases n with
  | zero => exact absurd (Nat.lt_of_lt_of_le hd h) (Nat.not_lt_zero _)
  | succ n =>
    -- the right operand ends before any operator that is not tighter
    have hd2n : d2.size ≤ n := by omega
    obtain ⟨r, d3, hd3, hrv, hm3, hsecond⟩ := hr n d2 hd2n (op.precedence + 1) more hm2 hright hk
      (fun op' hop' => Nat.lt_trans (hop op' hop') hright)
    have hend : operands (rulesFor d2 hd2n) (op.precedence + 1) r d3 hd3 = .ok ⟨r, d3, hd3⟩ :=
      operands_end hd3 (by rw [hm3]; exact hop)
    have hread : (rulesFor c h).binary (op.precedence + 1) d2 (by omega) = .ok ⟨r, d3, hd3⟩ :=
      hsecond.trans hend
    refine ⟨.binary (l.span.merge r.span) op l r, d3, by omega, ?_, hm3, ?_⟩
    · exact congrArg₂ (Expr.binary Span.none op) hlv hrv
    · rw [hfirst, operands, htake]
      simp only [hread, ok_bind]

/-- What does not assign is a whole expression if no operator follows. -/
theorem Climbs.reads {e : Expr} (he : e.Climbs) (hp : 0 < e.precedence) : e.Reads := by
  intro n c h more hc hk
  rw [TokenKind.continuesExpression, Bool.or_eq_false_iff, Bool.or_eq_false_iff,
    Option.isSome_eq_false_iff, Option.isSome_eq_false_iff] at hk
  obtain ⟨⟨hsign, hbin⟩, hassign⟩ := hk
  have hnone : (nextKind more).binary? = none := Option.isNone_iff_eq_none.mp hbin
  cases n with
  | zero => exact absurd h (Nat.not_lt_zero _)
  | succ n =>
    obtain ⟨e', d, hd, hv, hm, hb⟩ := he n c (Nat.le_of_lt_succ h) 0 more hc hp hsign
      (by rw [hnone]; exact nofun)
    -- neither an operator nor an assignment follows, so the climb ends where it has come to
    have hend : Grammar.binary 0 c (rulesFor c (Nat.le_of_lt_succ h)) = .ok ⟨e', d, hd⟩ := by
      rw [hb]
      exact operands_end hd (by rw [hm, hnone]; exact nofun)
    have htake : d.take? TokenKind.assign? = none := by
      refine Cursor.take?_eq_none ?_
      rw [hm]
      exact Option.isNone_iff_eq_none.mp hassign
    show Succeeds (expression c (rulesFor c (Nat.le_of_lt_succ h))) _
    rw [expression, hend]
    simp only [ok_bind, htake]
    exact ⟨_, rfl, hv, hm⟩

/-- An assignment is a whole expression. -/
theorem reads_assign (sp : Span) (op : AssignOp) {target value : Expr} (ht : target.Climbs)
    (htarget : target.isTarget = true) (hv : value.Reads) : (assign sp op target value).Reads := by
  intro n c h more hc hk
  rw [terminals, List.append_assoc] at hc
  have htight : target.precedence = tightest := by
    cases target with
    | ident | member | index => rfl
    | _ => exact Bool.noConfusion htarget
  -- the target is read as an operand, and the sign of an assignment is no operator
  have hnone : ∀ op', (TokenKind.operator op.operator).binary? ≠ some op' := by
    intro op' h
    cases op <;> cases h
  cases n with
  | zero => exact absurd h (Nat.not_lt_zero _)
  | succ n =>
    obtain ⟨t, d, hd, htv, hm, hb⟩ := ht n c (Nat.le_of_lt_succ h) 0 _ hc
      (by rw [htight]; decide)
      (by rw [List.cons_append, nextKind_cons rfl]; cases op <;> rfl)
      (fun op' hop' => absurd hop' (hnone op'))
    have hend : Grammar.binary 0 c (rulesFor c (Nat.le_of_lt_succ h)) = .ok ⟨t, d, hd⟩ := by
      rw [hb]
      refine operands_end hd ?_
      rw [hm]
      exact fun op' hop' => absurd hop' (hnone op')
    obtain ⟨d2, hd2, htake, hm2⟩ := Cursor.take?_eq (f := TokenKind.assign?) (a := op) hm
      rfl (by cases op <;> rfl)
    obtain ⟨⟨v, e, he⟩, hread, hvv, hmore⟩ := hv n d2 (by omega) more hm2 hk
    have hvalue : (rulesFor c (Nat.le_of_lt_succ h)).expression d2 (by omega) = .ok ⟨v, e, he⟩ :=
      hread
    show Succeeds (expression c (rulesFor c (Nat.le_of_lt_succ h))) _
    rw [expression, hend]
    simp only [ok_bind, htake, checkTarget_eq htv htarget, hvalue]
    exact ⟨_, rfl, congrArg₂ (Expr.assign Span.none op) htv hvv, hmore⟩

end Expr

end CurlyScript
