import CurlyScript.Grammar.Expression

/-
  The rules of statements.

  A semicolon after a declaration, a `return` or an expression may be left out, and belongs to
  the statement if it stands there.  A comment is a statement only where one can begin; a comment
  before the body of an `if` or a loop is passed over.
-/

namespace CurlyScript

/-- Whether an expression can begin with a token of this class. -/
def TokenKind.beginsExpression : TokenKind → Bool
  | ident | number | string => true
  | keyword k => k.category = .literal
  | punctuation p => p = .lParen || p = .lBracket || p = .lBrace
  | operator o => o.update?.isSome
  | _ => false

/-- The kind of declaration that a class begins. -/
def TokenKind.decl? : TokenKind → Option DeclKind
  | keyword k => k.decl?
  | _ => none

namespace Grammar

variable {n : Nat}

/-- The statement that is the body of an `if`, an `else` or a loop. -/
def nested (r : Rules n) (c : Cursor) (h : c.size < n) : Read (Step n Statement) := do
  have := c.size_skipComments_le
  let ⟨s, d, hd⟩ ← r.statement c.skipComments (by omega)
  .ok ⟨s, d, by omega⟩

/-- What a declaration goes on with after its keyword: a name, and a value if `=` follows. -/
def declared (r : Rules n) (c : Cursor) (h : c.size < n) : Read (Step n (Name × Option Expr)) := do
  let ⟨name, d, hd⟩ ← name c
  match d.accept? (.operator .eq) with
  | none => .ok ⟨(name, none), d, Cursor.size_lt₂ hd h⟩
  | some ⟨_, e, he⟩ =>
    let ⟨init, f, hf⟩ ← r.expression e (Cursor.size_lt₃ he hd h)
    .ok ⟨(name, some init), f, Cursor.size_lt₄ hf he hd h⟩

/-- A part of a loop's head: an expression, unless the sign after it stands here already. -/
def clause (stop : Punctuation) (r : Rules n) (c : Cursor) (h : c.size < n) :
    Read (Step n (Option Expr)) :=
  if c.kind = .punctuation stop then .ok ⟨none, c, h⟩
  else do
    let ⟨e, d, hd⟩ ← r.expression c h
    .ok ⟨some e, d, Cursor.size_lt₂ hd h⟩

/-- The first part of a loop's head. -/
def loopInit (r : Rules n) (c : Cursor) (h : c.size < n) : Read (Step n (Option LoopInit)) :=
  match c.take? TokenKind.decl? with
  | some ⟨kind, d, hd⟩ => do
    let ⟨(name, init), e, he⟩ ← declared r d (Cursor.size_lt₂ hd h)
    .ok ⟨some (.decl (.mk (e.spanFrom c.start) kind name init)), e, he⟩
  | none => (clause .semicolon r c h).map (·.map (·.map .expr))

/-- A function after its keyword, which stands at `start`. -/
def function (r : Rules n) (start : Nat) (c : Cursor) (h : c.size < n) : Read (Step n Statement) := do
  let ⟨name, d, hd⟩ ← name c
  let ⟨_, e, he⟩ ← d.expect (.punctuation .lParen)
  let ⟨(params, _), f, hf⟩ ← delimited .rParen (n := n) (fun c _ => Grammar.name c) false e
    (Cursor.size_lt₃ he hd h)
  let ⟨_, g, hg⟩ ← f.expect (.punctuation .lBrace)
  let ⟨body, i, hi⟩ ← untilBrace r.statement g (Cursor.size_lt₂ hg hf)
  .ok ⟨.function (i.spanFrom start) name params body, i, hi⟩

/-- An `if` after its keyword.  An `else` goes to the nearest `if` before it. -/
def conditional (r : Rules n) (start : Nat) (c : Cursor) (h : c.size < n) :
    Read (Step n Statement) := do
  let ⟨_, d, hd⟩ ← c.expect (.punctuation .lParen)
  let ⟨test, e, he⟩ ← r.expression d (Cursor.size_lt₂ hd h)
  let ⟨_, f, hf⟩ ← e.expect (.punctuation .rParen)
  let ⟨consequent, g, hg⟩ ← nested r f (Cursor.size_lt₄ hf he hd h)
  match g.accept? (.keyword .else_) with
  | none => .ok ⟨.cond (g.spanFrom start) test consequent none, g, hg⟩
  | some ⟨_, i, hi⟩ =>
    let ⟨alternate, j, hj⟩ ← nested r i (Cursor.size_lt₂ hi hg)
    .ok ⟨.cond (j.spanFrom start) test consequent (some alternate), j, hj⟩

/-- A loop after its keyword. -/
def loop (r : Rules n) (start : Nat) (c : Cursor) (h : c.size < n) : Read (Step n Statement) := do
  let ⟨_, d, hd⟩ ← c.expect (.punctuation .lParen)
  let ⟨init, e, he⟩ ← loopInit r d (Cursor.size_lt₂ hd h)
  let ⟨_, f, hf⟩ ← e.expect (.punctuation .semicolon)
  let ⟨test, g, hg⟩ ← clause .semicolon r f (Cursor.size_lt₂ hf he)
  let ⟨_, i, hi⟩ ← g.expect (.punctuation .semicolon)
  let ⟨update, j, hj⟩ ← clause .rParen r i (Cursor.size_lt₂ hi hg)
  let ⟨_, k, hk⟩ ← j.expect (.punctuation .rParen)
  let ⟨body, l, hl⟩ ← nested r k (Cursor.size_lt₂ hk hj)
  .ok ⟨.loop (l.spanFrom start) init test update body, l, hl⟩

/-- A `return` after its keyword. -/
def returning (r : Rules n) (start : Nat) (c : Cursor) (h : c.size < n) : Read (Step n Statement) := do
  let ⟨argument, d, hd⟩ ←
    if c.kind.beginsExpression then
      (r.expression c h).map fun s => (⟨some s.value, s.rest, Nat.lt_trans s.lt h⟩ : Step n _)
    else .ok ⟨none, c, h⟩
  let ⟨e, he⟩ := d.past (.punctuation .semicolon)
  .ok ⟨.ret (e.spanFrom start) argument, e, Cursor.size_lt_of_le he hd⟩

/-- A declaration after its keyword. -/
def declaration (r : Rules n) (start : Nat) (kind : DeclKind) (c : Cursor) (h : c.size < n) :
    Read (Step n Statement) := do
  let ⟨(name, init), d, hd⟩ ← declared r c h
  let ⟨e, he⟩ := d.past (.punctuation .semicolon)
  .ok ⟨.decl (.mk (e.spanFrom start) kind name init), e, Cursor.size_lt_of_le he hd⟩

/-- An expression as a statement. -/
def expressionStatement (c : Cursor) (r : Rules c.size) : Read (Step c.size Statement) := do
  let ⟨x, d, hd⟩ ← expression c r
  let ⟨e, he⟩ := d.past (.punctuation .semicolon)
  .ok ⟨.expr (e.spanFrom c.start) x, e, by omega⟩

/-- A statement. -/
def statement (c : Cursor) (r : Rules c.size) : Read (Step c.size Statement) :=
  match c.comment? with
  | some ⟨t, d, hd⟩ => .ok ⟨.comment t.span t.lexeme, d, hd⟩
  | none => match c.next? with
    | none => .error (c.error .statement)
    | some ⟨t, d, hd⟩ =>
      let start := t.span.start
      match t.kind with
      | .keyword .const => declaration r start .const d hd
      | .keyword .let_ => declaration r start .let_ d hd
      | .keyword .var => declaration r start .var d hd
      | .keyword .function => function r start d hd
      | .keyword .return_ => returning r start d hd
      | .keyword .if_ => conditional r start d hd
      | .keyword .for_ => loop r start d hd
      | .punctuation .lBrace => do
        let ⟨body, e, he⟩ ← untilBrace r.statement d hd
        .ok ⟨.block (e.spanFrom start) body, e, he⟩
      | kind =>
        if kind.beginsExpression then expressionStatement c r
        else .error (c.error .statement)

end Grammar

end CurlyScript
