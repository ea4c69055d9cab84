import CurlyScript.Layout.Piece
import CurlyScript.Number.Notation
import CurlyScript.Syntax.Basic
import CurlyScript.Text.Shown
import CurlyScript.Token.Basic

/-
  Dumps: tokens and trees spelled out field by field, for those who look inside.

  A dump is a term of records, tagged values, lists and atoms.  It can be written on one line, or
  with each part on a line of its own.
-/

namespace CurlyScript

/-- A term to be written out. -/
inductive Dump where
  /-- Text that stands as it is. -/
  | atom (s : String)
  /-- Named fields behind a tag. -/
  | record (tag : String) (fields : List (String × Dump))
  /-- Values behind a tag. -/
  | tagged (tag : String) (values : List Dump)
  /-- Values alone. -/
  | list (values : List Dump)

namespace Dump

/-! ## Two ways to write a term -/

mutual

/-- The term on one line. -/
def line : Dump → String
  | atom s => s
  | record tag fields => tag ++ " \x7b " ++ ", ".intercalate (fieldLines fields) ++ " \x7d"
  | tagged tag values => tag ++ "(" ++ ", ".intercalate (valueLines values) ++ ")"
  | list values => "[" ++ ", ".intercalate (valueLines values) ++ "]"

/-- Fields one by one, each on one line. -/
def fieldLines : List (String × Dump) → List String
  | [] => []
  | (name, d) :: ds => (name ++ ": " ++ d.line) :: fieldLines ds

/-- Terms one by one, each on one line. -/
def valueLines : List Dump → List String
  | [] => []
  | d :: ds => d.line :: valueLines ds

end

/-- Lines between brackets, and nothing between them if there are none. -/
def bracketed (opening closing : String) (lines : List Piece) : List Piece :=
  if lines.isEmpty then [.text (opening ++ closing)]
  else .text opening :: .newline :: .enter :: lines ++ [.leave, .text closing]

mutual

/-- The term with each part on a line of its own. -/
def pieces : Dump → List Piece
  | atom s => [.text s]
  | record tag fields => bracketed (tag ++ " \x7b") "\x7d" (fieldPieces fields)
  | tagged tag values => bracketed (tag ++ "(") ")" (valuePieces values)
  | list values => bracketed "[" "]" (valuePieces values)

/-- Fields, each on a line of its own. -/
def fieldPieces : List (String × Dump) → List Piece
  | [] => []
  | (name, d) :: ds => .text (name ++ ": ") :: d.pieces ++ .text "," :: .newline :: fieldPieces ds

/-- Terms, each on a line of its own. -/
def valuePieces : List Dump → List Piece
  | [] => []
  | d :: ds => d.pieces ++ .text "," :: .newline :: valuePieces ds

end

/-- The term as lines, each level four spaces deeper, without the last line end. -/
def block (d : Dump) : String := render 4 d.pieces

/-- A text between quotes. -/
def quoted (s : String) : Dump := atom (Text.shownString s)

/-- Something that may be left out. -/
def option : Option Dump → Dump
  | none => atom "None"
  | some d => tagged "Some" [d]

end Dump

open Dump

/-! ## Tokens -/

/-- A span as a term. -/
def Span.dump (s : Span) : Dump :=
  record "Span" [("start", atom (toString s.start)), ("end", atom (toString s.stop))]

/-- A class of token as a term. -/
def TokenKind.dump : TokenKind → Dump
  | keyword k => tagged "Keyword" [atom k.name]
  | operator o => tagged "Operator" [atom o.name]
  | punctuation p => tagged "Punctuation" [atom p.name]
  | ident => atom "Ident"
  | number => atom "Number"
  | string => atom "String"
  | comment => atom "Comment"
  | eof => atom "Eof"

/-- A token as a term. -/
def Token.dump (t : Token) : Dump :=
  record "Token" [("kind", t.kind.dump), ("lexeme", quoted t.lexeme), ("span", t.span.dump)]

/-! ## Trees -/

/-- Something with its place. -/
def Dump.spanned (node : Dump) (s : Span) : Dump :=
  record "Spanned" [("node", node), ("span", s.dump)]

/-- A name as a term. -/
def Name.dump (n : Name) : Dump := spanned (quoted n.text) n.span

/-- Names as a term. -/
def Dump.names (ns : List Name) : Dump := .list (ns.map Name.dump)

/-- The kind of a declaration as a term. -/
def DeclKind.dump (k : DeclKind) : Dump := atom k.keyword.name

/-- A truth value as a term. -/
def Dump.bool (b : Bool) : Dump := atom (if b then "true" else "false")

/-- A literal as a term. -/
def Literal.dump : Literal → Dump
  | number x => tagged "Number" [atom x.marked]
  | string s => tagged "String" [quoted s]
  | bool b => tagged "Bool" [Dump.bool b]
  | null => atom "Null"
  | undefined => atom "Undefined"

/-- The statements of a block as a term. -/
def Dump.body (statements : List Dump) : Dump := record "Block" [("body", .list statements)]

mutual

/-- An expression as a term. -/
def Expr.dump (e : Expr) : Dump :=
  spanned (match e with
    | .ident _ name => tagged "Ident" [quoted name]
    | .literal _ value => tagged "Literal" [value.dump]
    | .binary _ op left right => tagged "Binary" [left.dump, atom op.name, right.dump]
    | .assign _ op target value => tagged "Assign" [target.dump, atom op.name, value.dump]
    | .update _ op isPrefix argument =>
      record "Update"
        [("op", atom op.name), ("prefix", Dump.bool isPrefix), ("argument", argument.dump)]
    | .call _ callee args => tagged "Call" [callee.dump, .list (exprsDump args)]
    | .member _ owner property =>
      record "Member" [("object", owner.dump), ("property", tagged "Named" [property.dump])]
    | .index _ owner key =>
      record "Member" [("object", owner.dump), ("property", tagged "Computed" [key.dump])]
    | .arrow _ params body =>
      tagged "Arrow" [record "ArrowFunction"
        [("params", names params), ("body", Dump.body (statementsDump body))]]
    | .object _ properties => tagged "Object" [.list (propertiesDump properties)]
    | .array _ elements => tagged "Array" [.list (exprsDump elements)]
    | .paren _ inner => tagged "Paren" [inner.dump]) e.span

/-- Expressions as terms one by one. -/
def exprsDump : List Expr → List Dump
  | [] => []
  | e :: es => e.dump :: exprsDump es

/-- The entries of an object as terms one by one. -/
def propertiesDump : List Property → List Dump
  | [] => []
  | .mk key value :: ps =>
    record "Property" [("key", key.dump), ("value", value.dump)] :: propertiesDump ps

/-- An expression that may be left out as a term. -/
def optionDump : Option Expr → Dump
  | none => option none
  | some e => option (some e.dump)

/-- A declaration as a term, without its place. -/
def Decl.dump : Decl → Dump
  | .mk _ kind name init =>
    record "VarDecl" [("kind", kind.dump), ("name", name.dump), ("init", optionDump init)]

/-- The first part of a loop's head as a term. -/
def loopInitDump : Option LoopInit → Dump
  | none => option none
  | some (.decl d) => option (some (tagged "VarDecl" [spanned d.dump d.span]))
  | some (.expr e) => option (some (tagged "Expr" [e.dump]))

/-- A statement as a term. -/
def Statement.dump (s : Statement) : Dump :=
  spanned (match s with
    | .decl d => tagged "VarDecl" [d.dump]
    | .function _ name params body =>
      tagged "Function" [record "FunctionDecl"
        [("name", name.dump), ("params", names params),
         ("body", Dump.body (statementsDump body))]]
    | .block _ body => tagged "Block" [Dump.body (statementsDump body)]
    | .ret _ argument => tagged "Return" [optionDump argument]
    | .cond _ test consequent alternate =>
      tagged "If" [record "IfStmt"
        [("test", test.dump), ("consequent", consequent.dump),
         ("alternate", alternateDump alternate)]]
    | .loop _ init test update body =>
      tagged "For" [record "ForStmt"
        [("init", loopInitDump init), ("test", optionDump test), ("update", optionDump update),
         ("body", body.dump)]]
    | .expr _ e => tagged "Expr" [e.dump]
    | .comment _ text => tagged "Comment" [quoted text]) s.span

/-- What follows an `else` as a term. -/
def alternateDump : Option Statement → Dump
  | none => option none
  | some s => option (some s.dump)

/-- Statements as terms one by one. -/
def statementsDump : List Statement → List Dump
  | [] => []
  | s :: ss => s.dump :: statementsDump ss

end

/-- A program as a term. -/
def Program.dump (p : Program) : Dump := record "Program" [("body", .list (statementsDump p))]

end CurlyScript
