import CurlyScript.Layout.Flat
import CurlyScript.Proofs.Syntax.Induction

/-
  Rewriting: changes of a tree that are made node by node, the children first.

  Four of them matter for reading back what was laid out:

  * `unspanned`  — forgets where the nodes stand;
  * `explicit`   — writes down the parentheses and braces that a layout adds by itself;
  * `named`      — turns a number too large for any into the name that it is spelled like;
  * `bare`       — forgets spans and parentheses, and the braces that a layout may have added.

  The first three leave every layout as it is (`Keeps`), and `bare` cannot tell a tree from what
  the first two make of it (`Absorbs.tree`).
-/

namespace CurlyScript

/-- What a rewriting does to one node whose children are rewritten already. -/
structure Rewriting where
  /-- What becomes of a span. -/
  span : Span → Span
  /-- What becomes of an expression. -/
  expr : Expr → Expr
  /-- What becomes of a statement. -/
  statement : Statement → Statement

/-- The same name at another place. -/
def Name.rewrite (w : Rewriting) (n : Name) : Name := ⟨n.text, w.span n.span⟩

mutual

/-- An expression rewritten from its leaves up. -/
def Expr.rewrite (w : Rewriting) : Expr → Expr
  | .ident s name => w.expr (.ident (w.span s) name)
  | .literal s value => w.expr (.literal (w.span s) value)
  | .binary s op left right => w.expr (.binary (w.span s) op (left.rewrite w) (right.rewrite w))
  | .assign s op target value => w.expr (.assign (w.span s) op (target.rewrite w) (value.rewrite w))
  | .update s op isPrefix argument => w.expr (.update (w.span s) op isPrefix (argument.rewrite w))
  | .call s callee args => w.expr (.call (w.span s) (callee.rewrite w) (rewriteExprs w args))
  | .member s owner property =>
    w.expr (.member (w.span s) (owner.rewrite w) (property.rewrite w))
  | .index s owner key => w.expr (.index (w.span s) (owner.rewrite w) (key.rewrite w))
  | .arrow s params body =>
    w.expr (.arrow (w.span s) (params.map (Name.rewrite w)) (rewriteStatements w body))
  | .object s properties => w.expr (.object (w.span s) (rewriteProperties w properties))
  | .array s elements => w.expr (.array (w.span s) (rewriteExprs w elements))
  | .paren s inner => w.expr (.paren (w.span s) (inner.rewrite w))

/-- Expressions rewritten one by one. -/
def rewriteExprs (w : Rewriting) : List Expr → List Expr
  | [] => []
  | e :: es => e.rewrite w :: rewriteExprs w es

/-- An expression that may be left out, rewritten. -/
def rewriteOption (w : Rewriting) : Option Expr → Option Expr
  | none => none
  | some e => some (e.rewrite w)

/-- The entries of an object rewritten one by one. -/
def rewriteProperties (w : Rewriting) : List Property → List Property
  | [] => []
  | .mk key value :: ps => .mk (key.rewrite w) (value.rewrite w) :: rewriteProperties w ps

/-- A declaration rewritten. -/
def Decl.rewrite (w : Rewriting) : Decl → Decl
  | .mk s kind name init => .mk (w.span s) kind (name.rewrite w) (rewriteOption w init)

/-- The first part of a loop's head rewritten. -/
def rewriteLoopInit (w : Rewriting) : Option LoopInit → Option LoopInit
  | none => none
  | some (.decl d) => some (.decl (d.rewrite w))
  | some (.expr e) => some (.expr (e.rewrite w))

/-- A statement rewritten from its leaves up. -/
def Statement.rewrite (w : Rewriting) : Statement → Statement
  | .decl d => w.statement (.decl (d.rewrite w))
  | .function s name params body =>
    w.statement (.function (w.span s) (name.rewrite w) (params.map (Name.rewrite w))
      (rewriteStatements w body))
  | .block s body => w.statement (.block (w.span s) (rewriteStatements w body))
  | .ret s argument => w.statement (.ret (w.span s) (rewriteOption w argument))
  | .cond s test consequent alternate =>
    w.statement (.cond (w.span s) (test.rewrite w) (consequent.rewrite w)
      (rewriteBranch w alternate))
  | .loop s init test update body =>
    w.statement (.loop (w.span s) (rewriteLoopInit w init) (rewriteOption w test)
      (rewriteOption w update) (body.rewrite w))
  | .expr s e => w.statement (.expr (w.span s) (e.rewrite w))
  | .comment s text => w.statement (.comment (w.span s) text)

/-- What follows an `else`, rewritten. -/
def rewriteBranch (w : Rewriting) : Option Statement → Option Statement
  | none => none
  | some s => some (s.rewrite w)

/-- Statements rewritten one by one. -/
def rewriteStatements (w : Rewriting) : List Statement → List Statement
  | [] => []
  | s :: ss => s.rewrite w :: rewriteStatements w ss

end

/-- A program rewritten statement by statement. -/
def Program.rewrite (w : Rewriting) (p : Program) : Program := p.map (Statement.rewrite w)

section companions

variable (w : Rewriting)

@[simp] theorem rewriteExprs_eq_map (es : List Expr) :
    rewriteExprs w es = es.map (Expr.rewrite w) := by
  induction es with
  | nil => rfl
  | cons e es ih => rw [rewriteExprs, ih, List.map_cons]

@[simp] theorem rewriteStatements_eq_map (ss : List Statement) :
    rewriteStatements w ss = ss.map (Statement.rewrite w) := by
  induction ss with
  | nil => rfl
  | cons s ss ih => rw [rewriteStatements, ih, List.map_cons]

@[simp] theorem rewriteOption_eq_map (o : Option Expr) :
    rewriteOption w o = o.map (Expr.rewrite w) := by
  cases o <;> rfl

@[simp] theorem rewriteBranch_eq_map (o : Option Statement) :
    rewriteBranch w o = o.map (Statement.rewrite w) := by
  cases o <;> rfl

/-- An entry of an object rewritten. -/
def Property.rewrite (w : Rewriting) : Property → Property
  | .mk key value => .mk (key.rewrite w) (value.rewrite w)

theorem rewriteProperties_eq_map (ps : List Property) :
    rewriteProperties w ps = ps.map (Property.rewrite w) := by
  induction ps with
  | nil => rfl
  | cons p ps ih =>
    cases p
    rw [rewriteProperties, ih, List.map_cons, Property.rewrite]

end companions

/-- Two rewritings that agree on the values of an object, and on spans, agree on its entries. -/
theorem Rewriting.rewriteProperties_congr {w w' : Rewriting} {ps : List Property}
    (hspan : ∀ sp, w.span sp = w'.span sp)
    (h : ∀ key value, .mk key value ∈ ps → value.rewrite w = value.rewrite w') :
    rewriteProperties w ps = rewriteProperties w' ps := by
  induction ps with
  | nil => rfl
  | cons p ps ih =>
    obtain ⟨key, value⟩ := p
    rw [rewriteProperties, rewriteProperties, h key value List.mem_cons_self,
      ih fun k v hm => h k v (List.mem_cons_of_mem _ hm), Name.rewrite, Name.rewrite, hspan]

/-! ## The four rewritings -/

/-- An expression in parentheses if `group` is set.  The parentheses stand nowhere. -/
def Expr.parensIf (group : Bool) (e : Expr) : Expr := if group then .paren .none e else e

/-- A statement in braces if `group` is set.  The braces stand nowhere. -/
def Statement.bracesIf (group : Bool) (s : Statement) : Statement :=
  if group then .block .none [s] else s

/-- Parentheses around the operands that need them. -/
def Expr.withParens : Expr → Expr
  | .binary s op left right =>
    .binary s op (left.parensIf (op.groupsLeft left)) (right.parensIf (op.groupsRight right))
  | .call s callee args => .call s (callee.parensIf callee.groupsBeforePostfix) args
  | .member s owner property => .member s (owner.parensIf owner.groupsBeforePostfix) property
  | .index s owner key => .index s (owner.parensIf owner.groupsBeforePostfix) key
  | e => e

/-- Parentheses around a statement that would begin with an object, and braces around a branch
    that would take the `else`. -/
def Statement.withBraces : Statement → Statement
  | .cond s test consequent (some alternate) =>
    .cond s test (consequent.bracesIf consequent.endsWithOpenIf) (some alternate)
  | .expr s e => .expr s (e.parensIf e.startsWithObject)
  | s => s

/-- A number too large for any as the name that it is spelled like. -/
def Expr.nameInfinite : Expr → Expr
  | .literal s (.number (.infinite false)) => .ident s "inf"
  | e => e

/-- An expression without the parentheses around all of it. -/
def Expr.bare : Expr → Expr
  | .paren _ inner => inner
  | e => e

/-- A branch without braces that only keep an `else` away from it. -/
def Statement.bare : Statement → Statement
  | .cond s test (.block b [consequent]) (some alternate) =>
    .cond s test (if consequent.endsWithOpenIf then consequent else .block b [consequent])
      (some alternate)
  | s => s

namespace Rewriting

/-- Forgets where nodes stand. -/
def unspanned : Rewriting := ⟨fun _ => .none, id, id⟩

/-- Writes down every parenthesis and brace that a layout shows. -/
def explicit : Rewriting := ⟨id, Expr.withParens, Statement.withBraces⟩

/-- Writes numbers too large for any as names. -/
def named : Rewriting := ⟨id, Expr.nameInfinite, id⟩

/-- Forgets where nodes stand, parentheses, and braces that only keep an `else` away. -/
def bare : Rewriting := ⟨fun _ => .none, Expr.bare, Statement.bare⟩

end Rewriting

/-- What is a name but for its span is that name at some place. -/
theorem Expr.eq_ident_of_unspanned {e : Expr} {x : String}
    (h : e.rewrite .unspanned = .ident .none x) : ∃ t, e = .ident t x := by
  cases e with
  | ident t y => exact ⟨t, congrArg _ (Expr.ident.inj h).2⟩
  | _ => exact Expr.noConfusion h

/-- A program but for spans, parentheses and the braces that a layout may have added. -/
def Program.erase (p : Program) : Program := p.rewrite .bare

end CurlyScript
