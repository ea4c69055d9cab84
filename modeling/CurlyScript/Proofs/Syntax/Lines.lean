import CurlyScript.Proofs.Syntax.Printable

/-
  Lines left out.

  The lines of a program stand in it and in the bodies of its functions, arrows and blocks.
  Leaving out lines of one kind is a rewriting of the nodes that have such a body, and leaves the
  shapes of all nodes as they are; the lines of the program itself are left out besides.
-/

namespace CurlyScript

/-- An expression with only those lines in its body that `keep` holds of. -/
def Expr.filterLines (keep : Statement → Bool) : Expr → Expr
  | .arrow s params body => .arrow s params (body.filter keep)
  | e => e

/-- A statement with only those lines in its body that `keep` holds of. -/
def Statement.filterLines (keep : Statement → Bool) : Statement → Statement
  | .function s name params body => .function s name params (body.filter keep)
  | .block s body => .block s (body.filter keep)
  | s => s

namespace Rewriting

/-- Leaves out lines, and moves spans as `f` does. -/
def filtering (f : Span → Span) (keep : Statement → Bool) : Rewriting :=
  ⟨f, Expr.filterLines keep, Statement.filterLines keep⟩

/-- Leaves out comments. -/
def uncommented : Rewriting := filtering id fun s => !s.isComment

theorem shaped_filtering (f : Span → Span) (keep : Statement → Bool) :
    (filtering f keep).Shaped where
  target e he := by
    cases e with
    | ident | member | index => rfl
    | _ => exact Bool.noConfusion he
  shape s := by cases s <;> rfl

variable {f : Span → Span} {keep : Statement → Bool}

theorem span_filtering (e : Expr) : (e.rewrite (filtering f keep)).span = f e.span := by
  cases e <;> rfl

end Rewriting

/-- A program without its comments, at every level. -/
def Program.uncommented (p : Program) : Program :=
  (p.rewrite .uncommented).filter fun s => !s.isComment

end CurlyScript
