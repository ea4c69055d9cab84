import CurlyScript.Proofs.Grammar.Linear
import CurlyScript.Proofs.Grammar.Paired
import CurlyScript.Proofs.Grammar.Program
import CurlyScript.Proofs.Layout.Beside
import CurlyScript.Proofs.Layout.Rewritten
import CurlyScript.Proofs.Syntax.Ungrouped

/-
  Parentheses around operands: never too few, never too many.

  A printer puts an operand, a callee or an owner in parentheses if it binds too loosely for its
  slot.  Here the printer is set aside: the text of an expression is put into the slot WITHOUT
  parentheses, and what is read there is that expression if and only if the printer would have put
  none (`Slot.reads_iff`).

  * Where none are needed, the tree with the expression in the slot is a plain one, and its
    terminals are those of the text.
  * Where they are needed and the expression were read all the same, it would have been read in
    parentheses, since nothing that was read needs any.  But the text has none there: they would be
    the first and the last sign of the expression, and parentheses are paired.
-/

namespace CurlyScript

open Terminal TokenKind Writing

/-- An expression begins with no comment. -/
theorem Expr.kinds_terminals (e : Expr) :
    ∃ ks, Terminal.kinds e.terminals = e.first.kind :: ks := by
  obtain ⟨ts, hts⟩ := e.terminals_eq_first
  have hcomment : (e.first.kind == .comment) = false := e.first_isComment
  refine ⟨Terminal.kinds ts, ?_⟩
  rw [hts, Terminal.kinds, List.map_cons, List.filter_cons, bne, hcomment]
  rfl

/-- A slot beside a name where an expression may stand. -/
inductive Slot where
  /-- The left operand of an operator, the right one being the name. -/
  | left (op : BinaryOp)
  /-- The right operand of an operator. -/
  | right (op : BinaryOp)
  /-- What a member by its name is taken of. -/
  | owner
  /-- What a member by a computed value is taken of. -/
  | indexed
  /-- What is called. -/
  | callee
deriving DecidableEq, Repr

namespace Slot

/-- The text of an expression in the slot, beside the name `x` and all in parentheses.  The
    expression itself gets none. -/
def text (x e : String) : Slot → String
  | left op => "(" ++ e ++ (" " ++ op.spelling ++ " " ++ x ++ ")")
  | right op => "(" ++ x ++ (" " ++ op.spelling ++ " ") ++ e ++ ")"
  | owner => "(" ++ e ++ ("." ++ x ++ ")")
  | indexed => "(" ++ e ++ ("[" ++ x ++ "])")
  | callee => "(" ++ e ++ ("(" ++ x ++ "))")

/-- What has the expression `e` in the slot, beside the name `x`. -/
inductive Holds (x : String) (e : Expr) : Slot → Expr → Prop
  | left (s t : Span) (op : BinaryOp) : Holds x e (.left op) (.binary s op e (.ident t x))
  | right (s t : Span) (op : BinaryOp) : Holds x e (.right op) (.binary s op (.ident t x) e)
  | owner (s t : Span) : Holds x e .owner (.member s e ⟨x, t⟩)
  | indexed (s t : Span) : Holds x e .indexed (.index s e (.ident t x))
  | callee (s t : Span) : Holds x e .callee (.call s e [.ident t x])

/-- Whether a printer puts an expression in the slot in parentheses. -/
def groups (e : Expr) : Slot → Bool
  | left op => op.groupsLeft e
  | right op => op.groupsRight e
  | owner | indexed | callee => e.groupsBeforePostfix

/-- The tree with the expression in the slot. -/
def fill (x : String) (e : Expr) : Slot → Expr
  | left op => .binary .none op e (.ident .none x)
  | right op => .binary .none op (.ident .none x) e
  | owner => .member .none e ⟨x, .none⟩
  | indexed => .index .none e (.ident .none x)
  | callee => .call .none e [.ident .none x]

/-- The terminals before the expression. -/
def before (x : String) : Slot → List Terminal
  | right op => [name x, operator op.operator]
  | left _ | owner | indexed | callee => []

/-- The terminals after the expression. -/
def after (x : String) : Slot → List Terminal
  | left op => [operator op.operator, name x]
  | right _ => []
  | owner => [punctuation .dot, name x]
  | indexed => [punctuation .lBracket, name x, punctuation .rBracket]
  | callee => [punctuation .lParen, name x, punctuation .rParen]

variable {p : Slot} {x : String} {e e' u : Expr} {st : Style}

theorem terminals_fill (p : Slot) (x : String) (e : Expr) :
    (p.fill x e).terminals = p.before x ++ (e.terminals ++ p.after x) := by
  cases p with
  | callee => rfl
  | _ => simp [fill, before, after, Expr.terminals]

/-! ## What the printer asks -/

/-- Only what does not bind tightest is put in parentheses. -/
theorem groupsBeforePostfix_of_groups (h : p.groups e = true) : e.groupsBeforePostfix = true := by
  have hloose : ∀ op : BinaryOp, e.precedence ≤ op.precedence + 1 →
      e.groupsBeforePostfix = true := by
    intro op hle
    have hop := op.precedence_le
    cases e with
    | assign | binary => rfl
    | _ =>
      have hle : 255 ≤ op.precedence + 1 := hle
      omega
  cases p with
  | left op => exact hloose op (Nat.le_succ_of_le (of_decide_eq_true h))
  | right op => exact hloose op (of_decide_eq_true h)
  | _ => exact h

/-- It asks of an expression no more than how tightly it binds. -/
theorem groups_congr (h : e.precedence = e'.precedence)
    (h' : e.groupsBeforePostfix = e'.groupsBeforePostfix) (p : Slot) :
    p.groups e = p.groups e' := by
  cases p with
  | left op => exact congrArg (fun n => decide (n ≤ op.precedence)) h
  | right op => exact congrArg (fun n => decide (n ≤ op.precedence + 1)) h
  | _ => exact h'

/-- What was read needs no parentheses. -/
theorem Holds.groups_eq_false (h : p.Holds x e u) (hu : Node.IsGrouped (.expr u)) :
    p.groups e = false := by
  cases h with
  | left s t op => exact Bool.not_eq_true' _ ▸ (Bool.and_eq_true_iff.mp hu).1
  | right s t op => exact Bool.not_eq_true' _ ▸ (Bool.and_eq_true_iff.mp hu).2
  | _ => exact Bool.not_eq_true' _ ▸ hu

/-! ## The text -/

theorem scans_close : Scans (")".toList) [punctuation .rParen] :=
  Spells.punctuation .rParen [] [] trivial .nil

theorem breaks_close (cs : List Char) : Breaks (')' :: cs) :=
  breaks_cons (by decide) (by decide) cs

/-- An expression between what is before it and what is after it. -/
theorem scans_between (he : e.Everywhere Node.IsPlain) (st : Style) {s t : String}
    (hbefore : Spells Anything s.toList (punctuation .lParen :: p.before x))
    (hafter : Scans t.toList (p.after x ++ [Terminal.punctuation .rParen]))
    (hbreaks : Breaks t.toList) :
    Scans (s ++ e.format st ++ t).toList (Expr.paren .none (p.fill x e)).terminals := by
  rw [Expr.terminals, terminals_fill]
  simpa using Expr.scans_beside st he hbefore hafter hbreaks

/-- The text is spelled out by the terminals of the tree, in parentheses. -/
theorem scans_text (he : e.Everywhere Node.IsPlain) (hx : isName x = true) (p : Slot) (st : Style) :
    Scans (p.text x (e.format st)).toList (Expr.paren .none (p.fill x e)).terminals := by
  have hopen : Spells Anything ("(".toList) [punctuation .lParen] := Spells.punctuation .lParen
  have hname : ∀ {rest ts}, Breaks rest → Scans rest ts →
      Scans (x.toList ++ rest) (name x :: ts) := fun hb hs => Spells.name hx _ _ hb hs
  cases p with
  | left op =>
    have hafter : Scans (" " ++ op.spelling ++ " " ++ x ++ ")").toList
        [operator op.operator, name x, punctuation .rParen] := by
      rw [String.toList_append, String.toList_append, List.append_assoc]
      exact Spells.spacedOperator op.operator _ _ trivial (hname (breaks_close []) scans_close)
    refine scans_between he st hopen hafter ?_
    simp only [String.toList_append]
    exact breaks_space _
  | right op =>
    have hbefore : Spells Anything ("(" ++ x ++ (" " ++ op.spelling ++ " ")).toList
        [punctuation .lParen, name x, operator op.operator] := by
      rw [String.toList_append, String.toList_append]
      have hhead := hopen.append (Spells.name hx) fun _ _ => trivial
      refine hhead.append (Spells.spacedOperator op.operator) fun rest _ => ?_
      simp only [String.toList_append]
      exact breaks_space _
    exact scans_between he st hbefore scans_close (breaks_close [])
  | owner =>
    have hafter : Scans ("." ++ x ++ ")").toList
        [punctuation .dot, name x, punctuation .rParen] := by
      rw [String.toList_append, String.toList_append, List.append_assoc]
      exact Spells.punctuation .dot _ _ trivial (hname (breaks_close []) scans_close)
    refine scans_between he st hopen hafter ?_
    rw [String.toList_append, String.toList_append, List.append_assoc]
    exact breaks_dot hx _
  | indexed =>
    have hclose : Scans ("])".toList) [punctuation .rBracket, punctuation .rParen] :=
      Spells.punctuation .rBracket _ _ trivial scans_close
    have hafter : Scans ("[" ++ x ++ "])").toList
        [punctuation .lBracket, name x, punctuation .rBracket, punctuation .rParen] := by
      rw [String.toList_append, String.toList_append, List.append_assoc]
      exact Spells.punctuation .lBracket _ _ trivial
        (hname (breaks_cons (by decide) (by decide) _) hclose)
    refine scans_between he st hopen hafter ?_
    simp only [String.toList_append]
    exact breaks_cons (by decide) (by decide) _
  | callee =>
    have hclose : Scans ("))".toList) [punctuation .rParen, punctuation .rParen] :=
      Spells.punctuation .rParen _ _ trivial scans_close
    have hafter : Scans ("(" ++ x ++ "))").toList
        [punctuation .lParen, name x, punctuation .rParen, punctuation .rParen] := by
      rw [String.toList_append, String.toList_append, List.append_assoc]
      exact Spells.punctuation .lParen _ _ trivial (hname (breaks_close _) hclose)
    refine scans_between he st hopen hafter ?_
    simp only [String.toList_append]
    exact breaks_cons (by decide) (by decide) _

/-! ## Where no parentheses are needed -/

theorem fill_plain (he : e.Everywhere Node.IsPlain) (hx : isName x = true)
    (h : p.groups e = false) : (p.fill x e).Everywhere Node.IsPlain := by
  have hident : (Expr.ident .none x).Everywhere Node.IsPlain :=
    Expr.everywhere_ident.mpr ⟨⟨rfl, rfl⟩, ⟨hx, rfl⟩⟩
  -- a name binds tighter than any operator
  have hgroup : ∀ op : BinaryOp, op.groupsLeft (.ident .none x) = false ∧
      op.groupsRight (.ident .none x) = false := by
    intro op
    cases op <;> exact ⟨rfl, rfl⟩
  cases p with
  | left op =>
    have h : op.groupsLeft e = false := h
    refine Expr.everywhere_binary.mpr ⟨⟨rfl, ?_⟩, he, hident⟩
    rw [Node.isExplicit, h, (hgroup op).2]
    rfl
  | right op =>
    have h : op.groupsRight e = false := h
    refine Expr.everywhere_binary.mpr ⟨⟨rfl, ?_⟩, hident, he⟩
    rw [Node.isExplicit, h, (hgroup op).1]
    rfl
  | owner => exact Expr.everywhere_member.mpr ⟨⟨hx, Bool.not_eq_true' _ ▸ h⟩, he⟩
  | indexed => exact Expr.everywhere_index.mpr ⟨⟨rfl, Bool.not_eq_true' _ ▸ h⟩, he, hident⟩
  | callee =>
    refine Expr.everywhere_call.mpr ⟨⟨rfl, Bool.not_eq_true' _ ▸ h⟩, he, fun a ha => ?_⟩
    rw [List.mem_singleton.mp ha]
    exact hident

/-- What is the tree but for its spans has the expression in the slot, but for its spans. -/
theorem exists_holds (h : u.rewrite .unspanned = (p.fill x e).rewrite .unspanned) :
    ∃ e', p.Holds x e' u ∧ e'.rewrite .unspanned = e.rewrite .unspanned := by
  cases p with
  | left op =>
    cases u with
    | binary s op' l r =>
      obtain ⟨-, rfl, hl, hr⟩ := Expr.binary.inj h
      obtain ⟨t, rfl⟩ := Expr.eq_ident_of_unspanned hr
      exact ⟨l, .left s t op', hl⟩
    | _ => exact Expr.noConfusion h
  | right op =>
    cases u with
    | binary s op' l r =>
      obtain ⟨-, rfl, hl, hr⟩ := Expr.binary.inj h
      obtain ⟨t, rfl⟩ := Expr.eq_ident_of_unspanned hl
      exact ⟨r, .right s t op', hr⟩
    | _ => exact Expr.noConfusion h
  | owner =>
    cases u with
    | member s o property =>
      obtain ⟨-, ho, hn⟩ := Expr.member.inj h
      obtain ⟨y, t⟩ := property
      obtain rfl : y = x := (Name.mk.inj hn).1
      exact ⟨o, .owner s t, ho⟩
    | _ => exact Expr.noConfusion h
  | indexed =>
    cases u with
    | index s o key =>
      obtain ⟨-, ho, hk⟩ := Expr.index.inj h
      obtain ⟨t, rfl⟩ := Expr.eq_ident_of_unspanned hk
      exact ⟨o, .indexed s t, ho⟩
    | _ => exact Expr.noConfusion h
  | callee =>
    cases u with
    | call s c args =>
      obtain ⟨-, hc, ha⟩ := Expr.call.inj h
      rcases args with _ | ⟨a, _ | ⟨b, args⟩⟩
      · exact absurd ha.symm (List.cons_ne_nil _ _)
      · obtain ⟨t, rfl⟩ := Expr.eq_ident_of_unspanned (List.cons.inj ha).1
        exact ⟨c, .callee s t, hc⟩
      · exact absurd (List.cons.inj ha).2 (List.cons_ne_nil _ _)
    | _ => exact Expr.noConfusion h

/-- What is in parentheses does not begin with a brace. -/
theorem first_ne_brace (e : Expr) : (Expr.paren .none e).first.kind ≠ .punctuation .lBrace := by
  show TokenKind.punctuation .lParen ≠ .punctuation .lBrace
  decide

/-- Where no parentheses are needed, the text is read as the tree. -/
theorem exists_reads (he : e.Everywhere Node.IsPlain) (hx : isName x = true)
    (h : p.groups e = false) (st : Style) : ∃ s t u e',
      Program.ofSource (p.text x (e.format st)) true = .ok [.expr s (.paren t u)] ∧
        p.Holds x e' u ∧ e'.rewrite .unspanned = e.rewrite .unspanned := by
  have hplain : (Expr.paren .none (p.fill x e)).Everywhere Node.IsPlain :=
    Expr.everywhere_paren.mpr ⟨⟨rfl, rfl⟩, fill_plain he hx h⟩
  obtain ⟨s, v, hread, hv⟩ :=
    Program.ofSource_eq_ok_expr (scans_text he hx p st) hplain (first_ne_brace _)
  cases v with
  | paren t u =>
    obtain ⟨e', hholds, hsame⟩ := exists_holds (Expr.paren.inj hv).2
    exact ⟨s, t, u, e', hread, hholds, hsame⟩
  | _ => exact Expr.noConfusion hv

/-! ## Where parentheses are needed -/

/-- What was read in the slot has a writing with the classes of the text that was put there. -/
theorem Holds.exists_mem_writings (h : p.Holds x e' u) {us : List Token} (hus : us ∈ u.writings)
    (hkinds : Token.kinds us = Terminal.kinds (p.fill x e).terminals) :
    ∃ ws ∈ e'.writings, Token.kinds ws = Terminal.kinds e.terminals := by
  rw [terminals_fill, Terminal.kinds_append, Terminal.kinds_append] at hkinds
  cases h with
  | left s t op =>
    obtain ⟨as, ha, ns, hn, rfl⟩ := Language.mem_mul.mp hus.1
    obtain ⟨ws, hw, os, ho, rfl⟩ := Language.mem_mul.mp ha
    rw [Token.kinds_append, Token.kinds_append, kinds_operator ho, kinds_name hn,
      List.append_assoc] at hkinds
    exact ⟨ws, hw, List.append_cancel_right hkinds⟩
  | right s t op =>
    obtain ⟨as, ha, ws, hw, rfl⟩ := Language.mem_mul.mp hus.1
    obtain ⟨ns, hn, os, ho, rfl⟩ := Language.mem_mul.mp ha
    rw [Token.kinds_append, Token.kinds_append, kinds_operator ho, kinds_name hn] at hkinds
    have hsame := List.append_cancel_left hkinds
    exact ⟨ws, hw, hsame.trans (List.append_nil _)⟩
  | owner s t =>
    obtain ⟨as, ha, ns, hn, rfl⟩ := Language.mem_mul.mp hus.1
    obtain ⟨ws, hw, os, ho, rfl⟩ := Language.mem_mul.mp ha
    rw [Token.kinds_append, Token.kinds_append, kinds_punctuation ho, kinds_name hn,
      List.append_assoc] at hkinds
    exact ⟨ws, hw, List.append_cancel_right hkinds⟩
  | indexed s t =>
    obtain ⟨as, ha, cs, hc, rfl⟩ := Language.mem_mul.mp hus.1
    obtain ⟨bs, hb, ns, hn, rfl⟩ := Language.mem_mul.mp ha
    obtain ⟨ws, hw, os, ho, rfl⟩ := Language.mem_mul.mp hb
    simp only [Token.kinds_append, kinds_punctuation ho, kinds_name hn, kinds_punctuation hc,
      List.append_assoc] at hkinds
    exact ⟨ws, hw, List.append_cancel_right hkinds⟩
  | callee s t =>
    obtain ⟨as, ha, cs, hc, rfl⟩ := Language.mem_mul.mp hus.1
    obtain ⟨bs, hb, ns, hn, rfl⟩ := Language.mem_mul.mp ha
    obtain ⟨ws, hw, os, ho, rfl⟩ := Language.mem_mul.mp hb
    refine ⟨ws, hw, ?_⟩
    rcases hn with hone | hcomma
    · simp only [Token.kinds_append, kinds_punctuation ho, kinds_name hone, kinds_punctuation hc,
        List.append_assoc] at hkinds
      exact List.append_cancel_right hkinds
    · -- the text has no comma after the argument
      obtain ⟨ms, hm, ds, hd, rfl⟩ := Language.mem_mul.mp hcomma
      simp only [Token.kinds_append, kinds_punctuation ho, kinds_name hm, kinds_punctuation hd,
        kinds_punctuation hc, List.append_assoc] at hkinds
      have hends : Token.kinds ws ++ [.punctuation .lParen, .ident] ++
          [.punctuation .comma, .punctuation .rParen] =
            Terminal.kinds e.terminals ++ [.punctuation .lParen] ++
              [.ident, .punctuation .rParen] := by
        rw [List.append_assoc, List.append_assoc]
        exact hkinds
      have hlast := (List.append_inj' hends rfl).2
      exact TokenKind.noConfusion (List.cons.inj hlast).1

/-- The classes of a plain expression are those of one of its writings, for it can be read. -/
theorem paired_terminals (he : e.Everywhere Node.IsPlain) :
    TokenKind.Paired (Terminal.kinds e.terminals) := by
  have hopen : Spells Anything ("(".toList) [Terminal.punctuation .lParen] :=
    Spells.punctuation .lParen
  have hscans := Expr.scans_beside .standard he hopen scans_close (breaks_close [])
  have hplain : (Expr.paren .none e).Everywhere Node.IsPlain :=
    Expr.everywhere_paren.mpr ⟨⟨rfl, rfl⟩, he⟩
  obtain ⟨s, v, hread, hv⟩ := Program.ofSource_eq_ok_expr hscans hplain (first_ne_brace _)
  cases v with
  | paren t u =>
    obtain ⟨us, hus, hkinds⟩ := Program.exists_mem_writings_of_parens hscans hread
    exact hkinds ▸ paired_writings.all.1 u us hus
  | _ => exact Expr.noConfusion hv

/-- What does not bind tightest is not written in parentheses. -/
theorem ne_paren (he : e.Everywhere Node.IsPlain) (hg : e.groupsBeforePostfix = true)
    {ws : List Token} (hws : ws ∈ e'.writings)
    (hkinds : Token.kinds ws = Terminal.kinds e.terminals) (sp : Span) (inner : Expr) :
    e' ≠ .paren sp inner := by
  rintro rfl
  -- the two parentheses are the first and the last sign of the writing
  obtain ⟨as, ha, close, hclose, rfl⟩ := Language.mem_mul.mp hws.1
  obtain ⟨opening, hopening, us, hus, rfl⟩ := Language.mem_mul.mp ha
  rw [Token.kinds_append, Token.kinds_append, kinds_punctuation hopening,
    kinds_punctuation hclose] at hkinds
  have hpaired := paired_writings.all.1 inner us hus
  have hne : ∀ a : Expr, Terminal.kinds a.terminals ≠ [] := by
    intro a
    obtain ⟨ks, hks⟩ := a.kinds_terminals
    rw [hks]
    exact List.cons_ne_nil _ _
  cases e with
  | binary s op l r =>
    obtain ⟨-, hl, -⟩ := Expr.everywhere_binary.mp he
    rw [Expr.terminals, Terminal.kinds_append] at hkinds
    exact hpaired.ne_parens (paired_terminals hl) (hne l) (.operator op.operator) _ hkinds.symm
  | assign s op target value =>
    obtain ⟨-, ht, -⟩ := Expr.everywhere_assign.mp he
    rw [Expr.terminals, Terminal.kinds_append] at hkinds
    exact hpaired.ne_parens (paired_terminals ht) (hne target) (.operator op.operator) _
      hkinds.symm
  | update s op isPrefix argument =>
    -- a step before its argument begins with its own sign
    obtain rfl : isPrefix = true := hg
    exact TokenKind.noConfusion (List.cons.inj hkinds).1
  | _ => exact Bool.noConfusion hg

/-- What is read as something with the expression in the slot needs no parentheses there. -/
theorem groups_eq_false_of_reads (he : e.Everywhere Node.IsPlain) (hx : isName x = true)
    {s t : Span}
    (hread : Program.ofSource (p.text x (e.format st)) true = .ok [.expr s (.paren t u)])
    (hholds : p.Holds x e' u) (hsame : e'.rewrite .ungrouped = e.rewrite .ungrouped) :
    p.groups e = false := by
  have hfalse : p.groups e' = false := by
    obtain ⟨tokens, -, htokens⟩ := Program.ofSource_eq_ok_iff.mp hread
    have hgrouped := Program.everywhere_iff.mp (Program.isGrouped_of_ofTokens htokens) _
      List.mem_cons_self
    obtain ⟨-, hparen⟩ := Statement.everywhere_expr.mp hgrouped
    obtain ⟨-, hu⟩ := Expr.everywhere_paren.mp hparen
    exact hholds.groups_eq_false (Expr.everywhere_iff_tail.mp hu).1
  cases hgroups : p.groups e with
  | false => rfl
  | true =>
    -- neither the expression nor what was read is one in parentheses, so they bind alike
    have hg := groupsBeforePostfix_of_groups hgroups
    have hscans := scans_text he hx p st
    obtain ⟨us, hus, hkinds⟩ := Program.exists_mem_writings_of_parens hscans hread
    obtain ⟨ws, hws, hwkinds⟩ := hholds.exists_mem_writings hus hkinds
    obtain ⟨hp', hb'⟩ := Expr.face_ungrouped (ne_paren he hg hws hwkinds)
    obtain ⟨hp, hb⟩ := @Expr.face_ungrouped e (by rintro sp inner rfl; exact Bool.noConfusion hg)
    rw [hsame] at hp' hb'
    rw [groups_congr (hp.symm.trans hp') (hb.symm.trans hb'), hfalse] at hgroups
    exact hgroups.symm

/-! ## Printable expressions -/

/-- **Parentheses around operands are exact.**  The text of a printable expression, put into a slot
    as it stands, is read as something with that expression in the slot, but for spans and
    parentheses within it, if and only if the printer puts no parentheses around it there. -/
theorem reads_iff (he : e.Printable) (hx : isName x = true) (p : Slot) (st : Style) :
    (∃ s t u e', Program.ofSource (p.text x (e.format st)) true = .ok [.expr s (.paren t u)] ∧
      p.Holds x e' u ∧ e'.rewrite .ungrouped = e.rewrite .ungrouped) ↔ p.groups e = false := by
  have hplain := he.explicit_plain
  -- with its parentheses written down the expression has the same text, and binds as tightly
  have halike := Rewriting.keeps_explicit.tree.all.1 e
  have hformat : (e.rewrite .explicit).format st = e.format st :=
    congrArg (render st.indent) (halike.layout st)
  have hgroups : p.groups (e.rewrite .explicit) = p.groups e :=
    groups_congr (congrArg Face.precedence halike.face)
      (congrArg Face.groupsBeforePostfix halike.face) p
  constructor
  · rintro ⟨s, t, u, e', hread, hholds, hsame⟩
    rw [← hformat] at hread
    rw [← he.ungrouped_explicit] at hsame
    exact hgroups ▸ groups_eq_false_of_reads hplain hx hread hholds hsame
  · intro h
    obtain ⟨s, t, u, e', hread, hholds, hsame⟩ := exists_reads hplain hx (hgroups.trans h) st
    refine ⟨s, t, u, e', hformat ▸ hread, hholds, ?_⟩
    rw [← Rewriting.ungrouped_absorbs_unspanned.tree.all.1 e', hsame,
      Rewriting.ungrouped_absorbs_unspanned.tree.all.1, he.ungrouped_explicit]

/-- An operator in which each operand begins with the sign of the operator. -/
def stepping : Expr :=
  .binary .none .sub (.update .none .decrement true (.ident .none "a"))
    (.update .none .decrement true (.ident .none "b"))

/-- It may be the left operand of its own operator, but not the right one. -/
theorem reads_iff_stepping : (stepping.Printable ∧ isName "x" = true) ∧
    (∃ s t u e', Program.ofSource ((Slot.left .sub).text "x" (stepping.format .standard)) true =
        .ok [.expr s (.paren t u)] ∧
      (Slot.left .sub).Holds "x" e' u ∧ e'.rewrite .ungrouped = stepping.rewrite .ungrouped) ∧
    ¬ ∃ s t u e', Program.ofSource ((Slot.right .sub).text "x" (stepping.format .standard)) true =
        .ok [.expr s (.paren t u)] ∧
      (Slot.right .sub).Holds "x" e' u ∧
        e'.rewrite .ungrouped = stepping.rewrite .ungrouped := by
  have he : stepping.Printable := by decide
  have hx : isName "x" = true := by decide
  refine ⟨⟨he, hx⟩, (reads_iff he hx (.left .sub) .standard).mpr (by decide), fun h => ?_⟩
  exact Bool.noConfusion ((reads_iff he hx (.right .sub) .standard).mp h)

end Slot

end CurlyScript
