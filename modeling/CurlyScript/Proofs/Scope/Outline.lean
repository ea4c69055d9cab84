import CurlyScript.Proofs.Syntax.Induction
import CurlyScript.Scope.Action

/-
  Outlines: a program reduced to its names and to the constructs that open scopes.

  This is lexical scoping read off the SYNTAX alone, with no table and no order of events:

  * a function, an arrow and a block statement are constructs, each with all that stands in it,
    parameters and body statements together;
  * the name of a function stands in the construct AROUND the function;
  * a variable stands in the construct that its declaration stands in, be it a statement or the
    head of a loop, and before its value.

  What a program does to a symbol table is its outline with each construct entered and left again
  (`Program.actions_eq`).
-/

namespace CurlyScript

/-- A part of an outline. -/
inductive Outline where
  /-- A name is declared. -/
  | declaration (name : Name) (kind : SymbolKind)
  /-- A name is used at an offset. -/
  | use (name : String) (offset : Nat)
  /-- A construct with a scope of its own. -/
  | construct (kind : ScopeKind) (inner : List Outline)

/-- The outline of parameters. -/
def paramsOutline (params : List Name) : List Outline := params.map (.declaration · .parameter)

mutual

/-- The outline of an expression. -/
def Expr.outline : Expr → List Outline
  | .ident s name => [.use name s.start]
  | .literal _ _ => []
  | .binary _ _ left right => left.outline ++ right.outline
  | .assign _ _ target value => target.outline ++ value.outline
  | .update _ _ _ argument => argument.outline
  | .call _ callee args => callee.outline ++ exprsOutline args
  | .member _ owner _ => owner.outline
  | .index _ owner key => owner.outline ++ key.outline
  | .arrow _ params body => [.construct .arrow (paramsOutline params ++ statementsOutline body)]
  | .object _ properties => propertiesOutline properties
  | .array _ elements => exprsOutline elements
  | .paren _ inner => inner.outline

/-- The outline of expressions in order. -/
def exprsOutline : List Expr → List Outline
  | [] => []
  | e :: es => e.outline ++ exprsOutline es

/-- The outline of an expression that may be left out. -/
def optionOutline : Option Expr → List Outline
  | none => []
  | some e => e.outline

/-- The outline of the values of an object. -/
def propertiesOutline : List Property → List Outline
  | [] => []
  | .mk _ value :: ps => value.outline ++ propertiesOutline ps

/-- The outline of a declaration: the name, and then its value. -/
def Decl.outline : Decl → List Outline
  | .mk _ _ name init => .declaration name .var :: optionOutline init

/-- The outline of the first part of a loop's head. -/
def loopInitOutline : Option LoopInit → List Outline
  | none => []
  | some (.decl d) => d.outline
  | some (.expr e) => e.outline

/-- The outline of a statement. -/
def Statement.outline : Statement → List Outline
  | .decl d => d.outline
  | .function _ name params body =>
    [.declaration name .function,
      .construct .function (paramsOutline params ++ statementsOutline body)]
  | .block _ body => [.construct .block (statementsOutline body)]
  | .ret _ argument => optionOutline argument
  | .cond _ test consequent alternate =>
    test.outline ++ consequent.outline ++ alternateOutline alternate
  | .loop _ init test update body =>
    loopInitOutline init ++ optionOutline test ++ optionOutline update ++ body.outline
  | .expr _ e => e.outline
  | .comment _ _ => []

/-- The outline of what follows an `else`. -/
def alternateOutline : Option Statement → List Outline
  | none => []
  | some s => s.outline

/-- The outline of statements in order. -/
def statementsOutline : List Statement → List Outline
  | [] => []
  | s :: ss => s.outline ++ statementsOutline ss

end

/-- The outline of a program, which stands in the global scope. -/
def Program.outline (p : Program) : List Outline := statementsOutline p

/-! ## The actions of an outline -/

mutual

/-- The actions of an outline: each construct is entered and left. -/
def Outline.actions : Outline → List Action
  | .declaration name kind => [.declare name kind]
  | .use name offset => [.use name offset]
  | .construct kind inner => Action.within kind (outlineActions inner)

/-- The actions of outlines in order. -/
def outlineActions : List Outline → List Action
  | [] => []
  | o :: os => o.actions ++ outlineActions os

end

@[simp] theorem outlineActions_append (os os' : List Outline) :
    outlineActions (os ++ os') = outlineActions os ++ outlineActions os' := by
  induction os with
  | nil => rfl
  | cons o os ih => rw [List.cons_append, outlineActions, outlineActions, ih, List.append_assoc]

@[simp] theorem outlineActions_singleton (o : Outline) : outlineActions [o] = o.actions :=
  List.append_nil _

theorem outlineActions_params (params : List Name) :
    outlineActions (paramsOutline params) = Action.params params := by
  induction params with
  | nil => rfl
  | cons p params ih =>
    show [Action.declare p .parameter] ++ outlineActions (paramsOutline params) = _
    rw [ih]
    rfl

/-! ## The actions of a program -/

section companions

theorem exprsActions_eq {es : List Expr} (h : ∀ e ∈ es, e.actions = outlineActions e.outline) :
    exprsActions es = outlineActions (exprsOutline es) := by
  induction es with
  | nil => rfl
  | cons e es ih =>
    rw [exprsActions, exprsOutline, outlineActions_append, h e List.mem_cons_self,
      ih fun x hx => h x (List.mem_cons_of_mem e hx)]

theorem statementsActions_eq {ss : List Statement}
    (h : ∀ s ∈ ss, s.actions = outlineActions s.outline) :
    statementsActions ss = outlineActions (statementsOutline ss) := by
  induction ss with
  | nil => rfl
  | cons s ss ih =>
    rw [statementsActions, statementsOutline, outlineActions_append, h s List.mem_cons_self,
      ih fun x hx => h x (List.mem_cons_of_mem s hx)]

theorem propertiesActions_eq {ps : List Property}
    (h : ∀ key value, .mk key value ∈ ps → value.actions = outlineActions value.outline) :
    propertiesActions ps = outlineActions (propertiesOutline ps) := by
  induction ps with
  | nil => rfl
  | cons p ps ih =>
    obtain ⟨key, value⟩ := p
    rw [propertiesActions, propertiesOutline, outlineActions_append, h key value List.mem_cons_self,
      ih fun k v hm => h k v (List.mem_cons_of_mem _ hm)]

theorem optionActions_eq {o : Option Expr} (h : ∀ e ∈ o, e.actions = outlineActions e.outline) :
    optionActions o = outlineActions (optionOutline o) := by
  cases o with
  | none => rfl
  | some e => exact h e rfl

/-- The actions of a construct that has parameters. -/
theorem within_eq (kind : ScopeKind) (params : List Name) {body : List Statement}
    (h : ∀ s ∈ body, s.actions = outlineActions s.outline) :
    Action.within kind (Action.params params ++ statementsActions body) =
      (Outline.construct kind (paramsOutline params ++ statementsOutline body)).actions := by
  rw [Outline.actions, outlineActions_append, outlineActions_params, statementsActions_eq h]

end companions

/-- What a tree does to a symbol table is its outline, entered and left. -/
theorem actions_tree : Syntax.Cases
    (fun e => e.actions = outlineActions e.outline)
    (fun d => d.actions = outlineActions d.outline)
    (fun s => s.actions = outlineActions s.outline) where
  ident _ _ := rfl
  literal _ _ := rfl
  binary sp op left right hl hr := by
    rw [Expr.actions, Expr.outline, outlineActions_append, hl, hr]
  assign sp op target value ht hv := by
    rw [Expr.actions, Expr.outline, outlineActions_append, ht, hv]
  update sp op isPrefix argument ha := ha
  call sp callee args hc ha := by
    rw [Expr.actions, Expr.outline, outlineActions_append, hc, exprsActions_eq ha]
  member sp owner property ho := ho
  index sp owner key ho hk := by
    rw [Expr.actions, Expr.outline, outlineActions_append, ho, hk]
  arrow sp params body hb := by
    rw [Expr.actions, Expr.outline, outlineActions_singleton, within_eq .arrow params hb]
  object sp properties hp := propertiesActions_eq hp
  array sp elements he := exprsActions_eq he
  paren sp inner hi := hi
  declaration sp kind name init hi := congrArg (Action.declare name .var :: ·) (optionActions_eq hi)
  decl d hd := hd
  function sp name params body hb := by
    rw [Statement.actions, Statement.outline, within_eq .function params hb, outlineActions,
      outlineActions_singleton]
    rfl
  block sp body hb := by
    rw [Statement.actions, Statement.outline, outlineActions_singleton, Outline.actions,
      statementsActions_eq hb]
  ret sp argument ha := optionActions_eq ha
  cond sp test consequent alternate ht hc ha := by
    have halternate : alternateActions alternate = outlineActions (alternateOutline alternate) := by
      cases alternate with
      | none => rfl
      | some s => exact ha s rfl
    rw [Statement.actions, Statement.outline, outlineActions_append, outlineActions_append, ht, hc,
      halternate]
  loop sp init test update body hd he ht hu hb := by
    have hinit : loopInitActions init = outlineActions (loopInitOutline init) := by
      match init with
      | none => rfl
      | some (.decl d) => exact hd d rfl
      | some (.expr e) => exact he e rfl
    rw [Statement.actions, Statement.outline, outlineActions_append, outlineActions_append,
      outlineActions_append, hinit, optionActions_eq ht, optionActions_eq hu, hb]
  expr sp e he := he
  comment _ _ := rfl

/-- What a program does to a symbol table, before the global scope is closed. -/
theorem Program.actions_eq (p : Program) : p.actions = outlineActions p.outline ++ [.leave] := by
  rw [Program.actions, Program.outline, statementsActions_eq fun s _ => actions_tree.all.2.2 s]

end CurlyScript
