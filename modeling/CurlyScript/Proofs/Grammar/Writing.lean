import CurlyScript.Grammar.Statement
import CurlyScript.Proofs.Token.Stream
import Mathlib.Computability.Language
import Mathlib.Order.CompletePartialOrder

/-
  The writings of a tree: the grammar, read from trees to tokens.

  A tree can be written with more than one list of tokens.  The grammar leaves some signs to the
  writer, a literal has many spellings, and a token stands somewhere.  So the writings of a tree are
  a LANGUAGE of tokens, and that of a node is the product of those of its parts and of the signs
  between them, as the grammar has it:

  * a semicolon may end a declaration, a `return` or an expression, and nothing else;
  * a comma may stand before the sign that closes a list, if the list has items;
  * no other sign may be left out or added.

  A node stands where its tokens do, from the first to the last (`Span.Covers`).
-/

namespace CurlyScript

/-- The value that a literal token stands for. -/
def Literal.IsValueOf (t : Token) : Literal → Prop
  | number x => t.kind = .number ∧ Number.ofText? t.lexeme = some x
  | string s => t.kind = .string ∧ Text.decode t.lexeme = s
  | bool true => t.kind = .keyword .true_
  | bool false => t.kind = .keyword .false_
  | null => t.kind = .keyword .null
  | undefined => t.kind = .keyword .undefined

namespace Writing

/-- One token, of which `p` holds. -/
def token (p : Token → Prop) : Language Token := {ts | ∃ t, p t ∧ ts = [t]}

/-- One token of class `k`. -/
def one (k : TokenKind) : Language Token := token (·.kind = k)

/-- A keyword. -/
def keyword (k : Keyword) : Language Token := one (.keyword k)

/-- An operator. -/
def operator (o : Operator) : Language Token := one (.operator o)

/-- A punctuation sign. -/
def punctuation (p : Punctuation) : Language Token := one (.punctuation p)

/-- What may be left out. -/
def optional (l : Language Token) : Language Token := 1 + l

/-- A semicolon that may be left out. -/
def semicolon : Language Token := optional (punctuation .semicolon)

/-- The writings that a span covers. -/
def spanning (s : Span) (l : Language Token) : Language Token := {ts | ts ∈ l ∧ s.Covers ts}

/-- Items with commas between them, and one after the last if `last` is set. -/
def listed (last : Bool) : List (Language Token) → Language Token
  | [] => 1
  | [l] => if last then l * punctuation .comma else l
  | l :: ls => l * punctuation .comma * listed last ls

/-- Items with commas between them, and perhaps one after the last. -/
def separated (ls : List (Language Token)) : Language Token := listed false ls + listed true ls

/-- A name. -/
def name (n : Name) : Language Token :=
  token fun t => t.kind = .ident ∧ t.lexeme = n.text ∧ t.span = n.span

/-- Names in parentheses. -/
def params (ps : List Name) : Language Token :=
  punctuation .lParen * separated (ps.map name) * punctuation .rParen

end Writing

open Writing

mutual

/-- The writings of an expression. -/
def Expr.writings : Expr → Language Token
  | .ident s n => name ⟨n, s⟩
  | .literal s value => token fun t => value.IsValueOf t ∧ t.span = s
  | .binary s op left right => spanning s (left.writings * operator op.operator * right.writings)
  | .assign s op target value =>
    spanning s (target.writings * operator op.operator * value.writings)
  | .update s op isPrefix argument =>
    spanning s (if isPrefix then operator op.operator * argument.writings
      else argument.writings * operator op.operator)
  | .call s callee args =>
    spanning s (callee.writings * punctuation .lParen * separated (exprsWritings args) *
      punctuation .rParen)
  | .member s owner property =>
    spanning s (owner.writings * punctuation .dot * name property)
  | .index s owner key =>
    spanning s (owner.writings * punctuation .lBracket * key.writings * punctuation .rBracket)
  | .arrow s ps body =>
    spanning s (params ps * punctuation .fatArrow * punctuation .lBrace *
      statementsWritings body * punctuation .rBrace)
  | .object s properties =>
    spanning s (punctuation .lBrace * separated (propertiesWritings properties) *
      punctuation .rBrace)
  | .array s elements =>
    spanning s (punctuation .lBracket * separated (exprsWritings elements) *
      punctuation .rBracket)
  | .paren s inner => spanning s (punctuation .lParen * inner.writings * punctuation .rParen)

/-- The writings of expressions one by one. -/
def exprsWritings : List Expr → List (Language Token)
  | [] => []
  | e :: es => e.writings :: exprsWritings es

/-- The writings of the entries of an object one by one. -/
def propertiesWritings : List Property → List (Language Token)
  | [] => []
  | .mk key value :: ps =>
    (name key * punctuation .colon * value.writings) :: propertiesWritings ps

/-- The writings of an expression that may be left out, with `before` before it. -/
def optionWritings (before : Language Token) : Option Expr → Language Token
  | none => 1
  | some e => before * e.writings

/-- The writings of a declaration, with `after` after it. -/
def Decl.writings (after : Language Token) : Decl → Language Token
  | .mk s kind n init =>
    spanning s (keyword kind.keyword * name n * optionWritings (operator .eq) init * after)

/-- The writings of the first part of a loop's head. -/
def loopInitWritings : Option LoopInit → Language Token
  | none => 1
  | some (.decl d) => d.writings 1
  | some (.expr e) => e.writings

/-- The writings of a statement. -/
def Statement.writings : Statement → Language Token
  | .decl d => d.writings semicolon
  | .function s n ps body =>
    spanning s (keyword .function * name n * params ps * punctuation .lBrace *
      statementsWritings body * punctuation .rBrace)
  | .block s body =>
    spanning s (punctuation .lBrace * statementsWritings body * punctuation .rBrace)
  | .ret s argument => spanning s (keyword .return_ * optionWritings 1 argument * semicolon)
  | .cond s test consequent alternate =>
    spanning s (keyword .if_ * punctuation .lParen * test.writings * punctuation .rParen *
      consequent.writings * alternateWritings alternate)
  | .loop s init test update body =>
    spanning s (keyword .for_ * punctuation .lParen * loopInitWritings init *
      punctuation .semicolon * optionWritings 1 test * punctuation .semicolon *
      optionWritings 1 update * punctuation .rParen * body.writings)
  | .expr s e => spanning s (e.writings * semicolon)
  | .comment s text => token fun t => t.kind = .comment ∧ t.lexeme = text ∧ t.span = s

/-- The writings of an `else` and what follows it. -/
def alternateWritings : Option Statement → Language Token
  | none => 1
  | some s => keyword .else_ * s.writings

/-- The writings of statements in order. -/
def statementsWritings : List Statement → Language Token
  | [] => 1
  | s :: ss => s.writings * statementsWritings ss

end

/-- The writings of a program. -/
def Program.writings (p : Program) : Language Token := statementsWritings p

/-! ## Where writings begin and end -/

/-- Whether a statement can begin with a token of this class. -/
def TokenKind.beginsStatement (k : TokenKind) : Bool :=
  k.beginsExpression || k.decl?.isSome || k == .comment || k == .keyword .function ||
    k == .keyword .return_ || k == .keyword .if_ || k == .keyword .for_

namespace Writing

/-- Every writing begins with a token of such a class. -/
def BeginsWith (p : TokenKind → Prop) (l : Language Token) : Prop :=
  ∀ ts ∈ l, ∃ t us, ts = t :: us ∧ p t.kind

/-- Every writing begins with a token, and that is no comment. -/
def Begins (l : Language Token) : Prop :=
  ∀ ts ∈ l, ∃ t us, ts = t :: us ∧ t.kind ≠ .comment

variable {l : Language Token} {s : Span} {p q : TokenKind → Prop}

namespace BeginsWith

theorem head {t : Token} {ts : List Token} (h : BeginsWith p l) (hts : t :: ts ∈ l) : p t.kind := by
  obtain ⟨u, us, heq, hu⟩ := h _ hts
  rw [(List.cons.inj heq).1]
  exact hu

theorem mono (h : BeginsWith p l) (hpq : ∀ k, p k → q k) : BeginsWith q l := by
  intro ts hts
  obtain ⟨t, us, rfl, ht⟩ := h ts hts
  exact ⟨t, us, rfl, hpq t.kind ht⟩

theorem mul (h : BeginsWith p l) (m : Language Token) : BeginsWith p (l * m) := by
  intro ts hts
  obtain ⟨as, ha, bs, -, rfl⟩ := Language.mem_mul.mp hts
  obtain ⟨t, us, rfl, ht⟩ := h as ha
  exact ⟨t, us ++ bs, rfl, ht⟩

theorem spanning (h : BeginsWith p l) (s : Span) : BeginsWith p (spanning s l) :=
  fun ts hts => h ts hts.1

theorem token {f : Token → Prop} (h : ∀ t, f t → p t.kind) : BeginsWith p (token f) := by
  rintro ts ⟨t, ht, rfl⟩
  exact ⟨t, [], rfl, h t ht⟩

theorem one {k : TokenKind} (h : p k) : BeginsWith p (one k) :=
  token fun t ht => by rw [show t.kind = k from ht]; exact h

end BeginsWith

theorem begins_keyword (k : Keyword) : Begins (keyword k) :=
  BeginsWith.one (p := (· ≠ .comment)) nofun

theorem begins_operator (o : Operator) : Begins (operator o) :=
  BeginsWith.one (p := (· ≠ .comment)) nofun

theorem covers_token {p : Token → Prop} (h : ∀ t, p t → t.span = s) :
    ∀ ts ∈ token p, s.Covers ts := by
  rintro ts ⟨t, ht, rfl⟩
  rw [← h t ht]
  exact ⟨rfl, rfl⟩

end Writing

theorem Literal.IsValueOf.beginsExpression {t : Token} {value : Literal} (h : value.IsValueOf t) :
    t.kind.beginsExpression = true := by
  cases value with
  | number x => rw [h.1]; rfl
  | string s => rw [h.1]; rfl
  | bool b => cases b <;> (rw [show t.kind = _ from h]; rfl)
  | null => rw [show t.kind = _ from h]; rfl
  | undefined => rw [show t.kind = _ from h]; rfl

theorem Literal.IsValueOf.kind_ne {t : Token} {value : Literal} (h : value.IsValueOf t) :
    t.kind ≠ .comment := by
  intro hk
  have hbegins := h.beginsExpression
  rw [hk] at hbegins
  exact Bool.noConfusion hbegins

/-- An expression is written with a token first with which one can begin. -/
theorem Expr.beginsWith (e : Expr) : BeginsWith (·.beginsExpression = true) e.writings := by
  cases e with
  | ident _ _ =>
    refine .token fun t ht => ?_
    rw [ht.1]
    rfl
  | literal _ _ => exact .token fun _ ht => ht.1.beginsExpression
  | binary _ _ left _ => exact ((left.beginsWith.mul _).mul _).spanning _
  | assign _ _ target _ => exact ((target.beginsWith.mul _).mul _).spanning _
  | update _ op isPrefix argument =>
    cases isPrefix with
    | true =>
      refine ((BeginsWith.one ?_).mul _).spanning _
      cases op <;> rfl
    | false => exact (argument.beginsWith.mul _).spanning _
  | call _ callee _ => exact (((callee.beginsWith.mul _).mul _).mul _).spanning _
  | member _ owner _ => exact ((owner.beginsWith.mul _).mul _).spanning _
  | index _ owner _ => exact (((owner.beginsWith.mul _).mul _).mul _).spanning _
  | arrow _ _ _ =>
    refine (((((((BeginsWith.one ?_).mul _).mul _).mul _).mul _).mul _).mul _).spanning _
    rfl
  | object _ _ =>
    refine (((BeginsWith.one ?_).mul _).mul _).spanning _
    rfl
  | array _ _ =>
    refine (((BeginsWith.one ?_).mul _).mul _).spanning _
    rfl
  | paren _ _ =>
    refine (((BeginsWith.one ?_).mul _).mul _).spanning _
    rfl

/-- An expression is written with a token first, and that is no comment. -/
theorem Expr.begins (e : Expr) : Begins e.writings := by
  refine e.beginsWith.mono (q := (· ≠ .comment)) ?_
  rintro _ hbegins rfl
  exact Bool.noConfusion hbegins

/-- A statement is written with a token first with which one can begin. -/
theorem Statement.beginsWith (s : Statement) :
    BeginsWith (·.beginsStatement = true) s.writings := by
  cases s with
  | decl d =>
    obtain ⟨sp, kind, n, init⟩ := d
    refine ((((BeginsWith.one ?_).mul _).mul _).mul _).spanning _
    cases kind <;> rfl
  | function _ _ _ _ =>
    refine ((((((BeginsWith.one ?_).mul _).mul _).mul _).mul _).mul _).spanning _
    rfl
  | block _ _ =>
    refine (((BeginsWith.one ?_).mul _).mul _).spanning _
    rfl
  | ret _ _ =>
    refine (((BeginsWith.one ?_).mul _).mul _).spanning _
    rfl
  | cond _ _ _ _ =>
    refine ((((((BeginsWith.one ?_).mul _).mul _).mul _).mul _).mul _).spanning _
    rfl
  | loop _ _ _ _ _ =>
    refine BeginsWith.spanning ?_ _
    refine ((((((((BeginsWith.one ?_).mul _).mul _).mul _).mul _).mul _).mul _).mul _).mul _
    rfl
  | expr _ e =>
    refine ((e.beginsWith.mono fun k hk => ?_).mul _).spanning _
    rw [TokenKind.beginsStatement, hk]
    rfl
  | comment _ _ =>
    refine .token fun t ht => ?_
    rw [ht.1]
    rfl

/-- An expression stands where its tokens do. -/
theorem Expr.covers (e : Expr) : ∀ ts ∈ e.writings, e.span.Covers ts := by
  cases e with
  | ident s n => exact covers_token fun _ ht => ht.2.2
  | literal s value => exact covers_token fun _ ht => ht.2
  | _ => exact fun _ hts => hts.2

/-- A statement stands where its tokens do. -/
theorem Statement.covers (s : Statement) : ∀ ts ∈ s.writings, s.span.Covers ts := by
  cases s with
  | decl d => cases d with | mk => exact fun _ hts => hts.2
  | comment => exact covers_token fun _ ht => ht.2.2
  | _ => exact fun _ hts => hts.2

end CurlyScript
