import CurlyScript.Syntax.Basic

/-
  Walks: the nodes of a tree in the order of the text, each before its children.

  A name is a node only where it is USED.  The bodies of functions and arrows are walked statement
  by statement, so a `block` node always is a block statement.
-/

namespace CurlyScript

/-- A node that a walk comes to. -/
inductive Node where
  | statement (s : Statement)
  | decl (d : Decl)
  | function (span : Span) (name : Name) (params : List Name) (body : List Statement)
  | block (body : List Statement)
  | expr (e : Expr)
  | arrow (span : Span) (params : List Name) (body : List Statement)
  | ident (span : Span) (name : String)
  | comment (span : Span) (text : String)

mutual

/-- The nodes of an expression, itself first. -/
def Expr.nodes (e : Expr) : List Node :=
  .expr e :: match e with
    | .ident s name => [.ident s name]
    | .literal _ _ => []
    | .binary _ _ left right => left.nodes ++ right.nodes
    | .assign _ _ target value => target.nodes ++ value.nodes
    | .update _ _ _ argument => argument.nodes
    | .call _ callee args => callee.nodes ++ exprsNodes args
    | .member _ owner _ => owner.nodes
    | .index _ owner key => owner.nodes ++ key.nodes
    | .arrow s params body => .arrow s params body :: statementsNodes body
    | .object _ properties => propertiesNodes properties
    | .array _ elements => exprsNodes elements
    | .paren _ inner => inner.nodes

/-- The nodes of expressions in order. -/
def exprsNodes : List Expr → List Node
  | [] => []
  | e :: es => e.nodes ++ exprsNodes es

/-- The nodes of an expression that may be left out. -/
def optionNodes : Option Expr → List Node
  | none => []
  | some e => e.nodes

/-- The nodes of the values of an object. -/
def propertiesNodes : List Property → List Node
  | [] => []
  | .mk _ value :: ps => value.nodes ++ propertiesNodes ps

/-- The nodes of a declaration, itself first. -/
def Decl.nodes (d : Decl) : List Node :=
  .decl d :: match d with
    | .mk _ _ _ init => optionNodes init

/-- The nodes of the first part of a loop's head. -/
def loopInitNodes : Option LoopInit → List Node
  | none => []
  | some (.decl d) => d.nodes
  | some (.expr e) => e.nodes

/-- The nodes of a statement, itself first. -/
def Statement.nodes (s : Statement) : List Node :=
  .statement s :: match s with
    | .decl d => d.nodes
    | .function sp name params body => .function sp name params body :: statementsNodes body
    | .block _ body => .block body :: statementsNodes body
    | .ret _ argument => optionNodes argument
    | .cond _ test consequent alternate =>
      test.nodes ++ consequent.nodes ++ alternateNodes alternate
    | .loop _ init test update body =>
      loopInitNodes init ++ optionNodes test ++ optionNodes update ++ body.nodes
    | .expr _ e => e.nodes
    | .comment sp text => [.comment sp text]

/-- The nodes of what follows an `else`. -/
def alternateNodes : Option Statement → List Node
  | none => []
  | some s => s.nodes

/-- The nodes of statements in order. -/
def statementsNodes : List Statement → List Node
  | [] => []
  | s :: ss => s.nodes ++ statementsNodes ss

end

/-- The nodes of a program in the order of the text. -/
def Program.nodes (p : Program) : List Node := statementsNodes p

end CurlyScript
