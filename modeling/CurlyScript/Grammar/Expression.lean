import CurlyScript.Grammar.Rules
import CurlyScript.Number.Decimal
import CurlyScript.Text.Quoted

/-
  The rules of expressions, from the loosest to the tightest: assignment, binary operators by
  precedence, signs before an operand, signs after it, and the operand itself.

  What may stand left of an assignment or next to `++` is found out AFTER it was read as an
  expression.  Likewise a list in parentheses is read before it is known whether it is a group or
  the parameters of an arrow function.
-/

namespace CurlyScript.Grammar

variable {n : Nat}

/-- Demands something that can be stored into: a name or a member.  `first` is the class of the
    first token of `e`. -/
def checkTarget (e : Expr) (first : TokenKind) : Except SyntaxError Unit :=
  match e with
  | .ident _ _ | .member _ _ _ | .index _ _ _ => .ok ()
  | e => .error ⟨.target, first, e.span.start⟩

/-! ## Operands -/

/-- An entry of an object literal. -/
def property (r : Rules n) (c : Cursor) (h : c.size < n) : Read (Step c.size Property) := do
  let ⟨key, d, hd⟩ ← name c
  let ⟨_, e, he⟩ ← d.expect (.punctuation .colon)
  let ⟨value, f, hf⟩ ← r.expression e (Cursor.size_lt₃ he hd h)
  .ok ⟨.mk key value, f, by omega⟩

/-- An expression, and the class of its first token. -/
def element (r : Rules n) (c : Cursor) (h : c.size < n) : Read (Step c.size (TokenKind × Expr)) :=
  (r.expression c h).map (·.map fun e => (c.kind, e))

/-- Takes an element of a list in parentheses for a parameter. -/
def parameter : TokenKind × Expr → Except SyntaxError Name
  | (_, .ident span name) => .ok ⟨name, span⟩
  | (first, e) => .error ⟨.token .ident, first, e.span.start⟩

/-- A statement in the body of an arrow function: a comment, a `return`, or an expression. -/
def arrowStatement (r : Rules n) (c : Cursor) (h : c.size < n) : Read (Step c.size Statement) :=
  if c.comment?.isSome || c.kind = .keyword .return_ then r.statement c h
  else do
    let ⟨e, d, hd⟩ ← r.expression c h
    let ⟨f, hf⟩ := d.past (.punctuation .semicolon)
    .ok ⟨.expr (f.spanFrom c.start) e, f, by omega⟩

/-- What follows an opening parenthesis that stands at `start`: a group, or an arrow function. -/
def groupOrArrow (r : Rules n) (start : Nat) (c : Cursor) (h : c.size < n) : Read (Step n Expr) := do
  let ⟨(elements, comma), d, hd⟩ ← delimited .rParen (element r) false c h
  match d.accept? (.punctuation .fatArrow) with
  | some ⟨_, e, he⟩ =>
    let params ← elements.mapM parameter
    let ⟨_, f, hf⟩ ← e.expect (.punctuation .lBrace)
    let ⟨body, g, hg⟩ ← untilBrace (arrowStatement r) f (Cursor.size_lt₃ hf he hd)
    .ok ⟨.arrow (g.spanFrom start) params body, g, hg⟩
  | none =>
    match elements, comma with
    | [(_, inner)], false => .ok ⟨.paren (d.spanFrom start) inner, d, hd⟩
    | _, _ => .error (d.error (.token (.punctuation .fatArrow)))

/-- The value that a token alone stands for. -/
def literal? (t : Token) : Option Literal :=
  match t.kind with
  | .number => (Number.ofText? t.lexeme).map .number
  | .string => some (.string (Text.decode t.lexeme))
  | .keyword .true_ => some (.bool true)
  | .keyword .false_ => some (.bool false)
  | .keyword .null => some .null
  | .keyword .undefined => some .undefined
  | _ => none

/-- An operand without signs. -/
def primary (c : Cursor) (r : Rules c.size) : Read (Step c.size Expr) :=
  match c.next? with
  | none => .error (c.error .expression)
  | some ⟨t, d, hd⟩ =>
    match t.kind with
    | .ident => .ok ⟨.ident t.span t.lexeme, d, hd⟩
    | .punctuation .lParen => groupOrArrow r t.span.start d hd
    | .punctuation .lBracket => do
      let ⟨(elements, _), e, he⟩ ← delimited .rBracket r.expression false d hd
      .ok ⟨.array (e.spanFrom t.span.start) elements, e, he⟩
    | .punctuation .lBrace => do
      let ⟨(properties, _), e, he⟩ ← delimited .rBrace (property r) false d hd
      .ok ⟨.object (e.spanFrom t.span.start) properties, e, he⟩
    | _ => match literal? t with
      | some value => .ok ⟨.literal t.span value, d, hd⟩
      | none => .error (c.error .expression)

/-! ## Signs after an operand and before it -/

/-- Calls, members and steps that follow `e`, whose first token is of class `first` and stands at
    `start`. -/
def postfixes (r : Rules n) (first : TokenKind) (start : Nat) (e : Expr)
    (c : Cursor) (h : c.size < n) : Read (Step n Expr) :=
  match c.next? with
  | none => .ok ⟨e, c, h⟩
  | some ⟨t, d, hd⟩ =>
    match t.kind with
    | .punctuation .lParen => do
      let ⟨(args, _), f, hf⟩ ← delimited .rParen (r.restrict (Nat.le_of_lt h)).expression false d hd
      postfixes r first start (.call (f.spanFrom start) e args) f (Cursor.size_lt₂ hf h)
    | .punctuation .dot => do
      let ⟨property, f, hf⟩ ← name d
      postfixes r first start (.member (f.spanFrom start) e property) f (Cursor.size_lt₃ hf hd h)
    | .punctuation .lBracket => do
      let ⟨key, f, hf⟩ ← r.expression d (Cursor.size_lt₂ hd h)
      let ⟨_, g, hg⟩ ← f.expect (.punctuation .rBracket)
      postfixes r first start (.index (g.spanFrom start) e key) g (Cursor.size_lt₄ hg hf hd h)
    | kind => match kind.update? with
      | some op => do
        checkTarget e first
        postfixes r first start (.update (d.spanFrom start) op false e) d (Cursor.size_lt₂ hd h)
      | none => .ok ⟨e, c, h⟩
termination_by c.size

/-- An operand with the signs before and after it.  Those after it bind tighter. -/
def unary (c : Cursor) (r : Rules c.size) : Read (Step c.size Expr) :=
  match c.take? TokenKind.update? with
  | some ⟨op, d, hd⟩ => do
    let ⟨argument, e, he⟩ ← r.unary d hd
    checkTarget argument d.kind
    .ok ⟨.update ⟨c.start, argument.span.stop⟩ op true argument, e, by omega⟩
  | none => do
    let ⟨e, d, hd⟩ ← primary c r
    postfixes r c.kind e.span.start e d hd

/-! ## Operators between operands -/

/-- The binary operator of a class, if its sign binds at least as tightly as `least`. -/
def binaryFrom? (least : Nat) (k : TokenKind) : Option BinaryOp :=
  match k.precedence?, k.binary? with
  | some precedence, some op => if least ≤ precedence then some op else none
  | _, _ => none

theorem binaryFrom?_eq (least : Nat) (k : TokenKind) :
    binaryFrom? least k = k.binary?.filter (least ≤ ·.precedence) := by
  rw [binaryFrom?, k.precedence?_eq]
  cases k.binary? with
  | none => rfl
  | some op => simp [Option.filter_some]

/-- The operators of at least the given precedence that follow `left`, with their operands.  Each
    takes all that was read before it as its left operand. -/
def operands (r : Rules n) (least : Nat) (left : Expr) (c : Cursor) (h : c.size < n) :
    Read (Step n Expr) :=
  match c.take? (binaryFrom? least) with
  | none => .ok ⟨left, c, h⟩
  | some ⟨op, d, hd⟩ => do
    let ⟨right, e, he⟩ ← r.binary (op.precedence + 1) d (Cursor.size_lt₂ hd h)
    operands r least (.binary (left.span.merge right.span) op left right) e
      (Cursor.size_lt₃ he hd h)
termination_by c.size

/-- Operands joined by operators of at least the given precedence. -/
def binary (least : Nat) (c : Cursor) (r : Rules c.size) : Read (Step c.size Expr) := do
  let ⟨left, d, hd⟩ ← unary c r
  operands r least left d hd

/-- A whole expression.  Assignments bind to the right. -/
def expression (c : Cursor) (r : Rules c.size) : Read (Step c.size Expr) := do
  let ⟨target, d, hd⟩ ← binary 0 c r
  match d.take? TokenKind.assign? with
  | none => .ok ⟨target, d, hd⟩
  | some ⟨op, e, he⟩ =>
    checkTarget target c.kind
    let ⟨value, f, hf⟩ ← r.expression e (by omega)
    .ok ⟨.assign (target.span.merge value.span) op target value, f, by omega⟩

end CurlyScript.Grammar
