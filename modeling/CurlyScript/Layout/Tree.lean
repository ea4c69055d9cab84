import CurlyScript.Layout.Piece
import CurlyScript.Layout.Style
import CurlyScript.Number.Notation
import CurlyScript.Syntax.Shape
import CurlyScript.Text.Quoted

/-
  The layout of trees.

  Parentheses stand where a tree without them would be read as another tree, and nowhere else:
  around operands that bind too loosely, and around a statement that would begin with the brace of
  an object.  For the same reason braces are put around the first branch of an `if` that would
  take the `else`, and spaces around an operator that would run together with `++` or `--`.
-/

namespace CurlyScript

/-- How a literal is written.  Strings get double quotes. -/
def Literal.text : Literal → String
  | number x => x.text
  | string s => Text.encode s
  | bool true => "true"
  | bool false => "false"
  | null => "null"
  | undefined => "undefined"

open Piece in
/-- Names in parentheses. -/
def paramsLayout (st : Style) (params : List Name) : List Piece :=
  text "(" :: inline st.comma (params.map fun p => [text p.text]) ++ [text ")"]

/-- Whether the sign of an operator would run together with the text of its right operand. -/
def gluesTo (sign : String) (right : Expr) : Bool :=
  match right.leadingUpdate? with
  | some op => sign.toList.getLast? == some op.sign
  | none => false

/-- An operator between its operands. -/
def operatorLayout (st : Style) (sign : String) (right : Expr) (grouped : Bool) : List Piece :=
  if st.spacedOperators || (!grouped && gluesTo sign right) then [.text (" " ++ sign ++ " ")]
  else [.text sign]

/-- The entries of a literal between its brackets. -/
def entriesLayout (st : Style) (items : List (List Piece)) : List Piece :=
  if items.isEmpty then []
  else if st.brokenLiterals then Piece.stacked items
  else Piece.inline st.comma items

/-- The lines of a block between its braces. -/
def blockLayout (st : Style) (lines : List Piece) : List Piece :=
  if lines.isEmpty && !st.openBlocks then [.text "\x7b\x7d"] else Piece.braces lines

open Piece

mutual

/-- The layout of an expression. -/
def Expr.layout (st : Style) : Expr → List Piece
  | .ident _ name => [text name]
  | .literal _ value => [text value.text]
  | .binary _ op left right =>
    grouped (op.groupsLeft left) (left.layout st) ++
      operatorLayout st op.spelling right (op.groupsRight right) ++
      grouped (op.groupsRight right) (right.layout st)
  | .assign _ op target value =>
    target.layout st ++ operatorLayout st op.spelling value false ++ value.layout st
  | .update _ op isPrefix argument =>
    if isPrefix then text op.spelling :: argument.layout st
    else argument.layout st ++ [text op.spelling]
  | .call _ callee args =>
    grouped callee.groupsBeforePostfix (callee.layout st) ++
      text "(" :: inline st.comma (exprsLayout st args) ++ [text ")"]
  | .member _ owner property =>
    grouped owner.groupsBeforePostfix (owner.layout st) ++ [text ".", text property.text]
  | .index _ owner key =>
    grouped owner.groupsBeforePostfix (owner.layout st) ++ text "[" :: key.layout st ++ [text "]"]
  | .arrow _ params body =>
    paramsLayout st params ++ text " => " :: blockLayout st (linesLayout st body)
  | .object _ properties =>
    text "\x7b" :: entriesLayout st (propertiesLayout st properties) ++ [text "\x7d"]
  | .array _ elements => text "[" :: entriesLayout st (exprsLayout st elements) ++ [text "]"]
  | .paren _ inner => text "(" :: inner.layout st ++ [text ")"]

/-- The layouts of expressions one by one. -/
def exprsLayout (st : Style) : List Expr → List (List Piece)
  | [] => []
  | e :: es => e.layout st :: exprsLayout st es

/-- The layouts of the entries of an object one by one. -/
def propertiesLayout (st : Style) : List Property → List (List Piece)
  | [] => []
  | .mk key value :: ps => (text (key.text ++ ": ") :: value.layout st) :: propertiesLayout st ps

/-- The layout of an expression that may be left out, with `before` before it. -/
def optionLayout (st : Style) (before : String) : Option Expr → List Piece
  | none => []
  | some e => text before :: e.layout st

/-- The layout of a declaration, without a semicolon. -/
def Decl.layout (st : Style) : Decl → List Piece
  | .mk _ kind name init => text (kind.spelling ++ " " ++ name.text) :: optionLayout st " = " init

/-- The layout of the first part of a loop's head. -/
def loopInitLayout (st : Style) : Option LoopInit → List Piece
  | none => []
  | some (.decl d) => d.layout st
  | some (.expr e) => e.layout st

/-- The layout of a statement, without the end of its last line. -/
def Statement.layout (st : Style) : Statement → List Piece
  | .decl d => d.layout st ++ [text ";"]
  | .function _ name params body =>
    text ("function " ++ name.text) :: paramsLayout st params ++
      text " " :: blockLayout st (linesLayout st body)
  | .block _ body => blockLayout st (linesLayout st body)
  | .ret _ argument => text "return" :: optionLayout st " " argument ++ [text ";"]
  | .cond _ test consequent alternate =>
    text "if (" :: test.layout st ++ text ") " ::
      (if alternate.isSome && consequent.endsWithOpenIf then
        braces (consequent.layout st ++ [newline])
      else consequent.layout st) ++ alternateLayout st alternate
  | .loop _ init test update body =>
    text "for (" :: loopInitLayout st init ++ text ";" :: optionLayout st " " test ++
      text ";" :: optionLayout st " " update ++ text ")" ::
      (if body.shape = .blockStatement then text " " :: body.layout st
      else newline :: enter :: body.layout st ++ [leave])
  | .expr _ e => grouped e.startsWithObject (e.layout st) ++ [text ";"]
  | .comment _ s => [text s]

/-- The layout of an `else` and what follows it. -/
def alternateLayout (st : Style) : Option Statement → List Piece
  | none => []
  | some s => text " else " :: s.layout st

/-- The layout of statements, each with the end of its last line. -/
def linesLayout (st : Style) : List Statement → List Piece
  | [] => []
  | s :: ss => s.layout st ++ newline :: linesLayout st ss

end

/-- A program as text in the given style. -/
def Program.format (st : Style) (p : Program) : String := render st.indent (linesLayout st p)

end CurlyScript
