import CurlyScript.Vocabulary
import CurlyScript.Number.Basic
import CurlyScript.Source.Span

/-
  Syntax trees: expressions, statements and programs.

  Every node carries its span first.  Trees are plain data: they may be built by hand, and then
  neither names nor spans nor targets need to be such as a text could have.  What a text gives is
  a matter of the grammar.

  A declaration is one thing in two places, as a statement and at the head of a loop; its span is
  that of the statement, semicolon included, or of the head's first part.
-/

namespace CurlyScript

/-- A name where it is declared, or where it names a property. -/
structure Name where
  /-- The name itself. -/
  text : String
  /-- Where it stands. -/
  span : Span
deriving DecidableEq, Repr

/-- The word that introduces a variable. -/
inductive DeclKind where
  | const | let_ | var
deriving DecidableEq, Repr

namespace DeclKind

/-- Every kind of declaration. -/
def all : List DeclKind := [const, let_, var]

/-- The keyword of a kind. -/
def keyword : DeclKind → Keyword
  | const => .const
  | let_ => .let_
  | var => .var

/-- How a kind is written. -/
def spelling (k : DeclKind) : String := k.keyword.spelling

end DeclKind

/-- The kind of variable that a keyword introduces. -/
def Keyword.decl? (k : Keyword) : Option DeclKind := DeclKind.all.find? (·.keyword = k)

/-- A value that is written down. -/
inductive Literal where
  | number (value : Number)
  | string (value : String)
  | bool (value : Bool)
  | null
  | undefined
deriving DecidableEq, Repr

mutual

/-- An expression. -/
inductive Expr where
  /-- The use of a name. -/
  | ident (span : Span) (name : String)
  | literal (span : Span) (value : Literal)
  | binary (span : Span) (op : BinaryOp) (left right : Expr)
  | assign (span : Span) (op : AssignOp) (target value : Expr)
  /-- A step up or down, written before (`isPrefix`) or after the argument. -/
  | update (span : Span) (op : UpdateOp) (isPrefix : Bool) (argument : Expr)
  | call (span : Span) (callee : Expr) (args : List Expr)
  /-- A member chosen by its name. -/
  | member (span : Span) (owner : Expr) (property : Name)
  /-- A member chosen by a computed value. -/
  | index (span : Span) (owner key : Expr)
  | arrow (span : Span) (params : List Name) (body : List Statement)
  | object (span : Span) (properties : List Property)
  | array (span : Span) (elements : List Expr)
  /-- An expression in parentheses, which are kept. -/
  | paren (span : Span) (inner : Expr)

/-- One entry of an object literal. -/
inductive Property where
  | mk (key : Name) (value : Expr)

/-- The declaration of a variable. -/
inductive Decl where
  | mk (span : Span) (kind : DeclKind) (name : Name) (init : Option Expr)

/-- The first part of a loop's head. -/
inductive LoopInit where
  | decl (d : Decl)
  | expr (e : Expr)

/-- A statement. -/
inductive Statement where
  | decl (d : Decl)
  | function (span : Span) (name : Name) (params : List Name) (body : List Statement)
  | block (span : Span) (body : List Statement)
  | ret (span : Span) (argument : Option Expr)
  | cond (span : Span) (test : Expr) (consequent : Statement) (alternate : Option Statement)
  | loop (span : Span) (init : Option LoopInit) (test update : Option Expr) (body : Statement)
  | expr (span : Span) (e : Expr)
  /-- A comment that was kept, with its markers. -/
  | comment (span : Span) (text : String)

end

instance : Inhabited Expr := ⟨.literal .none .undefined⟩

instance : Inhabited Decl := ⟨.mk .none .let_ ⟨"", .none⟩ none⟩

instance : Inhabited Statement := ⟨.ret .none none⟩

/-- A program: its statements in order. -/
abbrev Program := List Statement

/-- Where an expression stands. -/
def Expr.span : Expr → Span
  | ident s _ | literal s _ | binary s _ _ _ | assign s _ _ _ | update s _ _ _ | call s _ _
  | member s _ _ | index s _ _ | arrow s _ _ | object s _ | array s _ | paren s _ => s

/-- Where a declaration stands. -/
def Decl.span : Decl → Span
  | mk s _ _ _ => s

/-- Where a statement stands. -/
def Statement.span : Statement → Span
  | decl d => d.span
  | function s _ _ _ | block s _ | ret s _ | cond s _ _ _ | loop s _ _ _ _ | expr s _
  | comment s _ => s

end CurlyScript
