import CurlyScript.Layout.Tree

/-
  Flat text: a small part of the language in one fixed layout.

  Only declarations, blocks, `return`, `if` and expressions of operators and literals have a flat
  text.  Every line begins at the margin, a literal stands on one line, and no line end follows the
  last line.

  The text of a node is put together from the texts of its parts.  The first part that has none, in
  the order in which they are asked for, leaves the whole without one; of an `if` the first branch
  is asked before the test.
-/

namespace CurlyScript

/-- A node that has no flat text. -/
structure Unsupported where
  /-- Its shape. -/
  shape : Shape
deriving DecidableEq, Repr

/-- The message of an unsupported node. -/
def Unsupported.message (u : Unsupported) : String :=
  "code generation does not support " ++ u.shape.name ++ " nodes"

/-- What comes of a node of a shape that has no flat text. -/
def unsupported (shape : Shape) : Except Unsupported String := .error ⟨shape⟩

/-- Code in parentheses if `wrap` is set. -/
def wrapped (wrap : Bool) (code : String) : String :=
  if wrap then "(" ++ code ++ ")" else code

mutual

/-- The flat text of an expression. -/
def Expr.generate : Expr → Except Unsupported String
  | .ident _ name => return name
  | .literal _ value => return value.text
  | .binary _ op left right => do
    let l ← left.generate
    let r ← right.generate
    return wrapped (op.groupsLeft left) l ++ " " ++ op.spelling ++ " " ++
      wrapped (op.groupsRight right) r
  | .array _ elements => do
    let items ← exprsGenerate elements
    return "[" ++ ", ".intercalate items ++ "]"
  | .object _ properties => do
    let items ← propertiesGenerate properties
    return "\x7b" ++ ", ".intercalate items ++ "\x7d"
  | .paren _ inner => do
    let code ← inner.generate
    return "(" ++ code ++ ")"
  | .arrow _ _ _ => unsupported .arrowFunctionExpression
  | .call _ _ _ => unsupported .callExpression
  | .member _ _ _ | .index _ _ _ => unsupported .memberExpression
  | .assign _ _ _ _ => unsupported .assignmentExpression
  | .update _ _ _ _ => unsupported .updateExpression

/-- The flat texts of expressions one by one. -/
def exprsGenerate : List Expr → Except Unsupported (List String)
  | [] => return []
  | e :: es => do
    let code ← e.generate
    let rest ← exprsGenerate es
    return code :: rest

/-- The flat texts of the entries of an object one by one. -/
def propertiesGenerate : List Property → Except Unsupported (List String)
  | [] => return []
  | .mk key value :: ps => do
    let code ← value.generate
    let rest ← propertiesGenerate ps
    return (key.text ++ ": " ++ code) :: rest

end

/-- The flat text of a block with these lines. -/
def blockText (lines : List String) : String :=
  if lines.isEmpty then "\x7b\n\x7d" else "\x7b\n" ++ "\n".intercalate lines ++ "\n\x7d"

mutual

/-- The flat text of a statement. -/
def Statement.generate : Statement → Except Unsupported String
  | .decl (.mk _ kind name none) => return kind.spelling ++ " " ++ name.text ++ ";"
  | .decl (.mk _ kind name (some init)) => do
    let code ← init.generate
    return kind.spelling ++ " " ++ name.text ++ " = " ++ code ++ ";"
  | .function _ name params body => do
    let lines ← statementsGenerate body
    return "function " ++ name.text ++ "(" ++ ", ".intercalate (params.map (·.text)) ++ ") " ++
      blockText lines
  | .block _ body => do
    let lines ← statementsGenerate body
    return blockText lines
  | .ret _ none => return "return;"
  | .ret _ (some argument) => do
    let code ← argument.generate
    return "return " ++ code ++ ";"
  | .cond _ test consequent alternate => do
    let code ← consequent.generate
    let first := if alternate.isSome && consequent.endsWithOpenIf then "\x7b\n" ++ code ++ "\n\x7d"
      else code
    let condition ← test.generate
    let second ← alternateGenerate alternate
    return "if (" ++ condition ++ ") " ++ first ++ second
  | .expr _ e => do
    let code ← e.generate
    return wrapped e.startsWithObject code ++ ";"
  | .loop _ _ _ _ _ => unsupported .forStatement
  | .comment _ _ => unsupported .comment

/-- The flat text of an `else` and what follows it. -/
def alternateGenerate : Option Statement → Except Unsupported String
  | none => return ""
  | some s => do
    let code ← s.generate
    return " else " ++ code

/-- The flat texts of statements one by one. -/
def statementsGenerate : List Statement → Except Unsupported (List String)
  | [] => return []
  | s :: ss => do
    let code ← s.generate
    let rest ← statementsGenerate ss
    return code :: rest

end

/-- The flat text of a program, or the first node that has none. -/
def Program.generate (p : Program) : Except Unsupported String := do
  let lines ← statementsGenerate p
  return "\n".intercalate lines

end CurlyScript
