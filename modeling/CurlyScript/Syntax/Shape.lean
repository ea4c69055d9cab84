import CurlyScript.Syntax.Basic

/-
  Shapes: what can be told of a tree from its outermost constructors.

  Besides the names of the constructors these are the questions that a printer asks before it
  writes a tree next to other text: does an operand need parentheses, would a statement be taken
  for a block, would an `else` go to the wrong `if`, would two signs run together.
-/

namespace CurlyScript

/-- The constructors of trees, as messages name them. -/
inductive Shape where
  | variableDeclaration | functionDeclaration | blockStatement | returnStatement | ifStatement
  | forStatement | expressionStatement | comment
  | arrowFunctionExpression | callExpression | memberExpression | binaryExpression
  | assignmentExpression | updateExpression | objectExpression | arrayExpression
  | parenthesizedExpression | literal | identifier
deriving DecidableEq, Repr

/-- The name of a shape. -/
def Shape.name : Shape → String
  | variableDeclaration => "VariableDeclaration"
  | functionDeclaration => "FunctionDeclaration"
  | blockStatement => "BlockStatement"
  | returnStatement => "ReturnStatement"
  | ifStatement => "IfStatement"
  | forStatement => "ForStatement"
  | expressionStatement => "ExpressionStatement"
  | comment => "Comment"
  | arrowFunctionExpression => "ArrowFunctionExpression"
  | callExpression => "CallExpression"
  | memberExpression => "MemberExpression"
  | binaryExpression => "BinaryExpression"
  | assignmentExpression => "AssignmentExpression"
  | updateExpression => "UpdateExpression"
  | objectExpression => "ObjectExpression"
  | arrayExpression => "ArrayExpression"
  | parenthesizedExpression => "ParenthesizedExpression"
  | literal => "Literal"
  | identifier => "Identifier"

/-- The shape of an expression. -/
def Expr.shape : Expr → Shape
  | ident _ _ => .identifier
  | literal _ _ => .literal
  | binary _ _ _ _ => .binaryExpression
  | assign _ _ _ _ => .assignmentExpression
  | update _ _ _ _ => .updateExpression
  | call _ _ _ => .callExpression
  | member _ _ _ | index _ _ _ => .memberExpression
  | arrow _ _ _ => .arrowFunctionExpression
  | object _ _ => .objectExpression
  | array _ _ => .arrayExpression
  | paren _ _ => .parenthesizedExpression

/-- The shape of a statement. -/
def Statement.shape : Statement → Shape
  | decl _ => .variableDeclaration
  | function _ _ _ _ => .functionDeclaration
  | block _ _ => .blockStatement
  | ret _ _ => .returnStatement
  | cond _ _ _ _ => .ifStatement
  | loop _ _ _ _ _ => .forStatement
  | expr _ _ => .expressionStatement
  | comment _ _ => .comment

/-! ## Binding strength -/

/-- The binding strength of what neither assigns nor has two operands. -/
def tightest : Nat := 255

/-- How tightly the text of an expression holds together: an assignment least, then the binary
    operators by level, and all else most. -/
def Expr.precedence : Expr → Nat
  | assign _ _ _ _ => 0
  | binary _ op _ _ => op.precedence + 1
  | _ => tightest

/-- Whether an expression needs parentheses as the left operand of `op`. -/
def BinaryOp.groupsLeft (op : BinaryOp) (e : Expr) : Bool := e.precedence ≤ op.precedence

/-- Whether an expression needs parentheses as the right operand of `op`.  All levels bind to the
    left, so here an equal level needs them too. -/
def BinaryOp.groupsRight (op : BinaryOp) (e : Expr) : Bool := e.precedence ≤ op.precedence + 1

/-- Whether an expression needs parentheses to be called or to have a member taken. -/
def Expr.groupsBeforePostfix : Expr → Bool
  | assign _ _ _ _ | binary _ _ _ _ => true
  | update _ _ isPrefix _ => isPrefix
  | _ => false

/-! ## The first and the last part of a text -/

/-- Whether the text of an expression, with the parentheses that operands get, begins with the
    brace of an object.  As a statement it would be taken for a block. -/
def Expr.startsWithObject : Expr → Bool
  | object _ _ => true
  | binary _ op left _ => !op.groupsLeft left && left.startsWithObject
  | assign _ _ target _ => target.startsWithObject
  | call _ callee _ => !callee.groupsBeforePostfix && callee.startsWithObject
  | member _ owner _ => !owner.groupsBeforePostfix && owner.startsWithObject
  | index _ owner _ => !owner.groupsBeforePostfix && owner.startsWithObject
  | update _ _ isPrefix argument => !isPrefix && argument.startsWithObject
  | _ => false

/-- The update operator with which the text of an expression begins. -/
def Expr.leadingUpdate? : Expr → Option UpdateOp
  | update _ op isPrefix argument => if isPrefix then some op else argument.leadingUpdate?
  | binary _ op left _ => if op.groupsLeft left then none else left.leadingUpdate?
  | assign _ _ target _ => target.leadingUpdate?
  | call _ callee _ => if callee.groupsBeforePostfix then none else callee.leadingUpdate?
  | member _ owner _ => if owner.groupsBeforePostfix then none else owner.leadingUpdate?
  | index _ owner _ => if owner.groupsBeforePostfix then none else owner.leadingUpdate?
  | _ => none

/-- Whether the text of a statement ends in an `if` without `else`.  An `else` written after it
    would go to that `if`. -/
def Statement.endsWithOpenIf : Statement → Bool
  | cond _ _ _ none => true
  | cond _ _ _ (some alternate) => alternate.endsWithOpenIf
  | loop _ _ _ _ body => body.endsWithOpenIf
  | _ => false

end CurlyScript
