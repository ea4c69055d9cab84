import CurlyScript.Grammar.Cursor
import CurlyScript.Syntax.Basic

/-
  The recursive rules, as values.

  Expressions and statements contain each other, but only past at least one token.  So a rule for
  a cursor with `n` tokens left is written over `Rules n`, the rules for FEWER than `n` tokens,
  and each rule is a definition of its own.  The knot is tied in `Grammar.Program`, by recursion
  on `n`.
-/

namespace CurlyScript

/-- The rules that refer to each other, for cursors with fewer than `n` tokens left. -/
structure Rules (n : Nat) where
  /-- A whole expression, assignments included. -/
  expression : (c : Cursor) → c.size < n → Read (Step c.size Expr)
  /-- Operands joined by binary operators of at least the given precedence. -/
  binary : Nat → (c : Cursor) → c.size < n → Read (Step c.size Expr)
  /-- One operand with the signs before and after it. -/
  unary : (c : Cursor) → c.size < n → Read (Step c.size Expr)
  /-- A statement. -/
  statement : (c : Cursor) → c.size < n → Read (Step c.size Statement)

/-- The same rules for still fewer tokens. -/
def Rules.restrict {m n : Nat} (r : Rules n) (h : m ≤ n) : Rules m where
  expression c hc := r.expression c (Nat.lt_of_lt_of_le hc h)
  binary p c hc := r.binary p c (Nat.lt_of_lt_of_le hc h)
  unary c hc := r.unary c (Nat.lt_of_lt_of_le hc h)
  statement c hc := r.statement c (Nat.lt_of_lt_of_le hc h)

namespace Grammar

variable {n : Nat} {α : Type}

/-- A name. -/
def name (c : Cursor) : Read (Step c.size Name) :=
  (c.expect .ident).map (·.map fun t => ⟨t.lexeme, t.span⟩)

/-- Items separated by commas up to the closing sign, and whether a comma stands before that
    sign.  `comma` says whether one stands before the cursor. -/
def delimited (close : Punctuation) (item : (c : Cursor) → c.size < n → Read (Step c.size α))
    (comma : Bool) (c : Cursor) (h : c.size < n) : Read (Step n (List α × Bool)) :=
  match c.accept? (.punctuation close) with
  | some s => .ok ⟨([], comma), s.rest, Nat.lt_trans s.lt h⟩
  | none => do
    let ⟨x, d, hd⟩ ← item c h
    match d.accept? (.punctuation .comma) with
    | none =>
      let ⟨_, e, he⟩ ← d.expect (.punctuation close)
      .ok ⟨([x], false), e, Cursor.size_lt₃ he hd h⟩
    | some ⟨_, e, he⟩ =>
      let ⟨(xs, last), f, hf⟩ ← delimited close item true e (Cursor.size_lt₃ he hd h)
      .ok ⟨(x :: xs, last), f, hf⟩
termination_by c.size

/-- Items up to the closing brace of a block. -/
def untilBrace (item : (c : Cursor) → c.size < n → Read (Step c.size α))
    (c : Cursor) (h : c.size < n) : Read (Step n (List α)) := do
  if c.atBlockEnd then
    let ⟨_, d, hd⟩ ← c.expect (.punctuation .rBrace)
    .ok ⟨[], d, Cursor.size_lt₂ hd h⟩
  else
    let ⟨x, d, hd⟩ ← item c h
    let ⟨xs, e, he⟩ ← untilBrace item d (Cursor.size_lt₂ hd h)
    .ok ⟨x :: xs, e, he⟩
termination_by c.size

end Grammar

end CurlyScript
