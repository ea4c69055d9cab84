import CurlyScript.Scope.Table
import CurlyScript.Syntax.Basic

/-
  Actions: what a program does to a symbol table, in the order of the text.

  A variable is declared before its value is looked at, and a function in the scope around it
  before its own scope opens.  Functions and arrows open ONE scope for parameters and body; a block
  statement opens one, and loops and `if` open none.
-/

namespace CurlyScript

/-- One thing that happens to a symbol table. -/
inductive Action where
  | enter (kind : ScopeKind)
  | leave
  | declare (name : Name) (kind : SymbolKind)
  /-- A name is used at an offset. -/
  | use (name : String) (offset : Nat)
deriving DecidableEq, Repr

/-- Actions within a scope of their own. -/
def Action.within (kind : ScopeKind) (actions : List Action) : List Action :=
  .enter kind :: actions ++ [.leave]

/-- The declarations of parameters. -/
def Action.params (params : List Name) : List Action := params.map (.declare · .parameter)

mutual

/-- The actions of an expression. -/
def Expr.actions : Expr → List Action
  | .ident s name => [.use name s.start]
  | .literal _ _ => []
  | .binary _ _ left right => left.actions ++ right.actions
  | .assign _ _ target value => target.actions ++ value.actions
  | .update _ _ _ argument => argument.actions
  | .call _ callee args => callee.actions ++ exprsActions args
  | .member _ owner _ => owner.actions
  | .index _ owner key => owner.actions ++ key.actions
  | .arrow _ params body => Action.within .arrow (Action.params params ++ statementsActions body)
  | .object _ properties => propertiesActions properties
  | .array _ elements => exprsActions elements
  | .paren _ inner => inner.actions

/-- The actions of expressions in order. -/
def exprsActions : List Expr → List Action
  | [] => []
  | e :: es => e.actions ++ exprsActions es

/-- The actions of an expression that may be left out. -/
def optionActions : Option Expr → List Action
  | none => []
  | some e => e.actions

/-- The actions of the values of an object. -/
def propertiesActions : List Property → List Action
  | [] => []
  | .mk _ value :: ps => value.actions ++ propertiesActions ps

/-- The actions of a declaration. -/
def Decl.actions : Decl → List Action
  | .mk _ _ name init => .declare name .var :: optionActions init

/-- The actions of the first part of a loop's head. -/
def loopInitActions : Option LoopInit → List Action
  | none => []
  | some (.decl d) => d.actions
  | some (.expr e) => e.actions

/-- The actions of a statement. -/
def Statement.actions : Statement → List Action
  | .decl d => d.actions
  | .function _ name params body =>
    .declare name .function ::
      Action.within .function (Action.params params ++ statementsActions body)
  | .block _ body => Action.within .block (statementsActions body)
  | .ret _ argument => optionActions argument
  | .cond _ test consequent alternate =>
    test.actions ++ consequent.actions ++ alternateActions alternate
  | .loop _ init test update body =>
    loopInitActions init ++ optionActions test ++ optionActions update ++ body.actions
  | .expr _ e => e.actions
  | .comment _ _ => []

/-- The actions of what follows an `else`. -/
def alternateActions : Option Statement → List Action
  | none => []
  | some s => s.actions

/-- The actions of statements in order. -/
def statementsActions : List Statement → List Action
  | [] => []
  | s :: ss => s.actions ++ statementsActions ss

end

/-- The actions of a program, the closing of the global scope at the end. -/
def Program.actions (p : Program) : List Action := statementsActions p ++ [.leave]

end CurlyScript
