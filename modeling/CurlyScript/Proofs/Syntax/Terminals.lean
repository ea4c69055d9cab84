import CurlyScript.Grammar.Statement
import CurlyScript.Proofs.Syntax.Printable
import CurlyScript.Proofs.Token.Terminal

/-
  The terminals of trees.

  This is what a tree is written with, blanks and line ends left aside, so it depends on no style.
  It adds no parentheses and no braces: for an explicit tree (`Node.isExplicit`) none are missing.

  What reading decides on is the FIRST terminal of a tree, and that is found along the left edge
  of the tree (`Expr.first`).
-/

namespace CurlyScript

/-- The terminal of a literal. -/
def Literal.terminal : Literal → Terminal
  | number x => ⟨.number, x.text⟩
  | string s => ⟨.string, Text.encode s⟩
  | bool true => .keyword .true_
  | bool false => .keyword .false_
  | null => .keyword .null
  | undefined => .keyword .undefined

namespace Terminal

/-- Items with commas between them, and a closing sign after them. -/
def separated (close : Punctuation) (items : List (List Terminal)) : List Terminal :=
  List.intercalate [punctuation .comma] items ++ [punctuation close]

/-- Names in parentheses. -/
def params (ps : List Name) : List Terminal :=
  punctuation .lParen :: separated .rParen (ps.map fun p => [name p.text])

end Terminal

open Terminal

mutual

/-- The terminals of an expression. -/
def Expr.terminals : Expr → List Terminal
  | .ident _ s => [name s]
  | .literal _ value => [value.terminal]
  | .binary _ op left right => left.terminals ++ operator op.operator :: right.terminals
  | .assign _ op target value => target.terminals ++ operator op.operator :: value.terminals
  | .update _ op isPrefix argument =>
    if isPrefix then operator op.operator :: argument.terminals
    else argument.terminals ++ [operator op.operator]
  | .call _ callee args =>
    callee.terminals ++ punctuation .lParen :: separated .rParen (exprsTerminals args)
  | .member _ owner property => owner.terminals ++ [punctuation .dot, name property.text]
  | .index _ owner key =>
    owner.terminals ++ punctuation .lBracket :: key.terminals ++ [punctuation .rBracket]
  | .arrow _ ps body =>
    params ps ++ punctuation .fatArrow :: punctuation .lBrace :: statementsTerminals body ++
      [punctuation .rBrace]
  | .object _ properties =>
    punctuation .lBrace :: separated .rBrace (propertiesTerminals properties)
  | .array _ elements => punctuation .lBracket :: separated .rBracket (exprsTerminals elements)
  | .paren _ inner => punctuation .lParen :: inner.terminals ++ [punctuation .rParen]

/-- The terminals of expressions one by one. -/
def exprsTerminals : List Expr → List (List Terminal)
  | [] => []
  | e :: es => e.terminals :: exprsTerminals es

/-- The terminals of the entries of an object one by one. -/
def propertiesTerminals : List Property → List (List Terminal)
  | [] => []
  | .mk key value :: ps =>
    (name key.text :: punctuation .colon :: value.terminals) :: propertiesTerminals ps

/-- The terminals of an expression that may be left out, with `before` before them. -/
def optionTerminals (before : List Terminal) : Option Expr → List Terminal
  | none => []
  | some e => before ++ e.terminals

/-- The terminals of a declaration, without a semicolon. -/
def Decl.terminals : Decl → List Terminal
  | .mk _ kind n init =>
    keyword kind.keyword :: name n.text :: optionTerminals [operator .eq] init

/-- The terminals of the first part of a loop's head. -/
def loopInitTerminals : Option LoopInit → List Terminal
  | none => []
  | some (.decl d) => d.terminals
  | some (.expr e) => e.terminals

/-- The terminals of a statement. -/
def Statement.terminals : Statement → List Terminal
  | .decl d => d.terminals ++ [punctuation .semicolon]
  | .function _ n ps body =>
    keyword .function :: name n.text :: params ps ++
      punctuation .lBrace :: statementsTerminals body ++ [punctuation .rBrace]
  | .block _ body => punctuation .lBrace :: statementsTerminals body ++ [punctuation .rBrace]
  | .ret _ argument =>
    keyword .return_ :: optionTerminals [] argument ++ [punctuation .semicolon]
  | .cond _ test consequent alternate =>
    keyword .if_ :: punctuation .lParen :: test.terminals ++ punctuation .rParen ::
      consequent.terminals ++ alternateTerminals alternate
  | .loop _ init test update body =>
    keyword .for_ :: punctuation .lParen :: loopInitTerminals init ++ punctuation .semicolon ::
      optionTerminals [] test ++ punctuation .semicolon ::
      optionTerminals [] update ++ punctuation .rParen :: body.terminals
  | .expr _ e => e.terminals ++ [punctuation .semicolon]
  | .comment _ s => [⟨.comment, s⟩]

/-- The terminals of an `else` and what follows it. -/
def alternateTerminals : Option Statement → List Terminal
  | none => []
  | some s => keyword .else_ :: s.terminals

/-- The terminals of statements in order. -/
def statementsTerminals : List Statement → List Terminal
  | [] => []
  | s :: ss => s.terminals ++ statementsTerminals ss

end

/-- The terminals of a program. -/
def Program.terminals (p : Program) : List Terminal := statementsTerminals p

theorem exprsTerminals_eq_map (es : List Expr) : exprsTerminals es = es.map Expr.terminals := by
  induction es with
  | nil => rfl
  | cons e es ih => rw [exprsTerminals, ih, List.map_cons]

/-- The terminals of one entry of an object. -/
def Property.terminals : Property → List Terminal
  | .mk key value => name key.text :: punctuation .colon :: value.terminals

theorem propertiesTerminals_eq_map (ps : List Property) :
    propertiesTerminals ps = ps.map Property.terminals := by
  induction ps with
  | nil => rfl
  | cons p ps ih =>
    cases p
    rw [propertiesTerminals, ih, List.map_cons, Property.terminals]

theorem statementsTerminals_eq_flatMap (ss : List Statement) :
    statementsTerminals ss = ss.flatMap Statement.terminals := by
  induction ss with
  | nil => rfl
  | cons s ss ih => rw [statementsTerminals, ih, List.flatMap_cons]

/-! ## The first terminal -/

/-- The terminal that an expression begins with. -/
def Expr.first : Expr → Terminal
  | .ident _ s => name s
  | .literal _ value => value.terminal
  | .binary _ _ left _ => left.first
  | .assign _ _ target _ => target.first
  | .update _ op isPrefix argument => if isPrefix then operator op.operator else argument.first
  | .call _ callee _ => callee.first
  | .member _ owner _ => owner.first
  | .index _ owner _ => owner.first
  | .arrow _ _ _ => punctuation .lParen
  | .object _ _ => punctuation .lBrace
  | .array _ _ => punctuation .lBracket
  | .paren _ _ => punctuation .lParen

/-- An expression begins with its first terminal. -/
theorem Expr.terminals_eq_first (e : Expr) : ∃ ts, e.terminals = e.first :: ts := by
  cases e with
  | binary _ _ left _ =>
    obtain ⟨ts, h⟩ := left.terminals_eq_first
    exact ⟨_, by rw [Expr.terminals, h]; rfl⟩
  | assign _ _ target _ =>
    obtain ⟨ts, h⟩ := target.terminals_eq_first
    exact ⟨_, by rw [Expr.terminals, h]; rfl⟩
  | update _ _ isPrefix argument =>
    obtain ⟨ts, h⟩ := argument.terminals_eq_first
    cases isPrefix with
    | true => exact ⟨_, rfl⟩
    | false => exact ⟨_, by rw [Expr.terminals, h]; rfl⟩
  | call _ callee _ =>
    obtain ⟨ts, h⟩ := callee.terminals_eq_first
    exact ⟨_, by rw [Expr.terminals, h]; rfl⟩
  | member _ owner _ =>
    obtain ⟨ts, h⟩ := owner.terminals_eq_first
    exact ⟨_, by rw [Expr.terminals, h]; rfl⟩
  | index _ owner _ =>
    obtain ⟨ts, h⟩ := owner.terminals_eq_first
    exact ⟨_, by rw [Expr.terminals, h]; rfl⟩
  | _ => exact ⟨_, rfl⟩

theorem Literal.terminal_beginsExpression (value : Literal) :
    value.terminal.kind.beginsExpression = true := by
  cases value with
  | bool b => cases b <;> rfl
  | _ => rfl

theorem Expr.first_beginsExpression (e : Expr) : e.first.kind.beginsExpression = true := by
  cases e with
  | literal _ value => exact value.terminal_beginsExpression
  | binary _ _ left _ => exact left.first_beginsExpression
  | assign _ _ target _ => exact target.first_beginsExpression
  | update _ op isPrefix argument =>
    cases isPrefix with
    | true => cases op <;> rfl
    | false => exact argument.first_beginsExpression
  | call _ callee _ => exact callee.first_beginsExpression
  | member _ owner _ => exact owner.first_beginsExpression
  | index _ owner _ => exact owner.first_beginsExpression
  | _ => rfl

/-! On an explicit tree, what a printer asks of the first part of a text can be read off the first
    terminal. -/

/-- Only what starts with an object begins with a brace. -/
theorem Expr.startsWithObject_of_first : ∀ {e : Expr}, e.Everywhere Node.IsPlain →
    e.first.kind = .punctuation .lBrace → e.startsWithObject = true
  | .ident _ _, _, h => TokenKind.noConfusion h
  | .literal _ value, _, h => by
    have hb := value.terminal_beginsExpression
    cases value with
    | bool b => cases b <;> exact TokenKind.noConfusion h
    | _ => exact TokenKind.noConfusion h
  | .binary _ op left _, he, h => by
    obtain ⟨⟨-, hx⟩, hl, -⟩ := Expr.everywhere_binary.mp he
    rw [Node.isExplicit, Bool.and_eq_true] at hx
    rw [Expr.startsWithObject, hx.1, startsWithObject_of_first hl h]
    rfl
  | .assign _ _ target _, he, h => by
    obtain ⟨-, ht, -⟩ := Expr.everywhere_assign.mp he
    exact @startsWithObject_of_first target ht h
  | .update _ op isPrefix argument, he, h => by
    obtain ⟨-, ha⟩ := Expr.everywhere_update.mp he
    cases isPrefix with
    | true => exact TokenKind.noConfusion h
    | false =>
      rw [Expr.startsWithObject, startsWithObject_of_first ha h]
      rfl
  | .call _ callee _, he, h => by
    obtain ⟨⟨-, hx⟩, hc, -⟩ := Expr.everywhere_call.mp he
    rw [Expr.startsWithObject, startsWithObject_of_first hc h, Bool.and_true]
    exact hx
  | .member _ owner _, he, h => by
    obtain ⟨⟨-, hx⟩, ho⟩ := Expr.everywhere_member.mp he
    rw [Expr.startsWithObject, startsWithObject_of_first ho h, Bool.and_true]
    exact hx
  | .index _ owner _, he, h => by
    obtain ⟨⟨-, hx⟩, ho, -⟩ := Expr.everywhere_index.mp he
    rw [Expr.startsWithObject, startsWithObject_of_first ho h, Bool.and_true]
    exact hx
  | .arrow _ _ _, _, h => by cases h
  | .object _ _, _, _ => rfl
  | .array _ _, _, h => by cases h
  | .paren _ _, _, h => by cases h

/-- The update operator that an expression begins with is its leading one. -/
theorem Expr.leadingUpdate?_of_first : ∀ {e : Expr} {op : UpdateOp}, e.Everywhere Node.IsPlain →
    e.first = operator op.operator → e.leadingUpdate? = some op
  | .ident _ _, op, _, h => by cases op <;> cases congrArg Terminal.kind h
  | .literal _ value, op, _, h => by
    have hk := congrArg Terminal.kind h
    cases value with
    | bool b => cases b <;> cases op <;> cases hk
    | _ => cases op <;> cases hk
  | .binary _ bop left _, op, he, h => by
    obtain ⟨⟨-, hx⟩, hl, -⟩ := Expr.everywhere_binary.mp he
    rw [Node.isExplicit, Bool.and_eq_true, Bool.not_eq_true'] at hx
    rw [Expr.leadingUpdate?, hx.1, leadingUpdate?_of_first hl h]
    rfl
  | .assign _ _ target _, op, he, h => by
    obtain ⟨-, ht, -⟩ := Expr.everywhere_assign.mp he
    exact @leadingUpdate?_of_first target op ht h
  | .update _ uop isPrefix argument, op, he, h => by
    obtain ⟨-, ha⟩ := Expr.everywhere_update.mp he
    cases isPrefix with
    | true => cases op <;> cases uop <;> first | rfl | cases congrArg Terminal.kind h
    | false => exact @leadingUpdate?_of_first argument op ha h
  | .call _ callee _, op, he, h => by
    obtain ⟨⟨-, hx⟩, hc, -⟩ := Expr.everywhere_call.mp he
    rw [Node.isExplicit, Bool.not_eq_true'] at hx
    rw [Expr.leadingUpdate?, hx, leadingUpdate?_of_first hc h]
    rfl
  | .member _ owner _, op, he, h => by
    obtain ⟨⟨-, hx⟩, ho⟩ := Expr.everywhere_member.mp he
    rw [Node.isExplicit, Bool.not_eq_true'] at hx
    rw [Expr.leadingUpdate?, hx, leadingUpdate?_of_first ho h]
    rfl
  | .index _ owner _, op, he, h => by
    obtain ⟨⟨-, hx⟩, ho, -⟩ := Expr.everywhere_index.mp he
    rw [Node.isExplicit, Bool.not_eq_true'] at hx
    rw [Expr.leadingUpdate?, hx, leadingUpdate?_of_first ho h]
    rfl
  | .arrow _ _ _, op, _, h => by cases op <;> cases congrArg Terminal.kind h
  | .object _ _, op, _, h => by cases op <;> cases congrArg Terminal.kind h
  | .array _ _, op, _, h => by cases op <;> cases congrArg Terminal.kind h
  | .paren _ _, op, _, h => by cases op <;> cases congrArg Terminal.kind h

/-- What takes a sign after it begins with no update operator. -/
theorem Expr.first_not_update : ∀ {e : Expr}, e.Everywhere Node.IsPlain →
    e.groupsBeforePostfix = false → e.first.kind.update? = none
  | .ident _ _, _, _ => rfl
  | .literal _ value, _, _ => by
    cases value with
    | bool b => cases b <;> rfl
    | _ => rfl
  | .binary _ _ _ _, _, h => Bool.noConfusion h
  | .assign _ _ _ _, _, h => Bool.noConfusion h
  | .update _ _ isPrefix argument, he, h => by
    obtain ⟨⟨hw, -⟩, ha⟩ := Expr.everywhere_update.mp he
    cases isPrefix with
    | true => exact Bool.noConfusion h
    | false =>
      have hg : argument.groupsBeforePostfix = false := by
        cases argument with
        | ident | member | index => rfl
        | _ => exact Bool.noConfusion hw
      exact @first_not_update argument ha hg
  | .call _ callee _, he, _ => by
    obtain ⟨⟨-, hx⟩, hc, -⟩ := Expr.everywhere_call.mp he
    rw [Node.isExplicit, Bool.not_eq_true'] at hx
    exact @first_not_update callee hc hx
  | .member _ owner _, he, _ => by
    obtain ⟨⟨-, hx⟩, ho⟩ := Expr.everywhere_member.mp he
    rw [Node.isExplicit, Bool.not_eq_true'] at hx
    exact @first_not_update owner ho hx
  | .index _ owner _, he, _ => by
    obtain ⟨⟨-, hx⟩, ho, -⟩ := Expr.everywhere_index.mp he
    rw [Node.isExplicit, Bool.not_eq_true'] at hx
    exact @first_not_update owner ho hx
  | .arrow _ _ _, _, _ => rfl
  | .object _ _, _, _ => rfl
  | .array _ _, _, _ => rfl
  | .paren _ _, _, _ => rfl

/-- A statement begins with a terminal that ends no block and goes to no `if`; it is a comment only
    if the statement is one. -/
theorem Statement.terminals_eq_cons (s : Statement) : ∃ t ts, s.terminals = t :: ts ∧
    t.kind ≠ .punctuation .rBrace ∧ t.kind ≠ .keyword .else_ ∧ (t.isComment = s.isComment) := by
  cases s with
  | decl d =>
    obtain ⟨_, kind, _, _⟩ := d
    refine ⟨_, _, rfl, ?_⟩
    cases kind <;> exact ⟨nofun, nofun, rfl⟩
  | expr sp e =>
    obtain ⟨ts, h⟩ := e.terminals_eq_first
    have hb := e.first_beginsExpression
    refine ⟨e.first, ts ++ [punctuation .semicolon], by rw [Statement.terminals, h]; rfl, ?_, ?_,
      ?_⟩
    · intro hk; rw [hk] at hb; exact Bool.noConfusion hb
    · intro hk; rw [hk] at hb; exact Bool.noConfusion hb
    · show (e.first.kind == .comment) = false
      rw [beq_eq_false_iff_ne]
      intro hk; rw [hk] at hb; exact Bool.noConfusion hb
  | _ => exact ⟨_, _, rfl, nofun, nofun, rfl⟩

end CurlyScript
