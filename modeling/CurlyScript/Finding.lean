import CurlyScript.Scope.Resolution
import CurlyScript.Syntax.Walk

/-
  Findings: what a careful reader would object to in a program that can be read.

  Three of the four rules are about names and come from the resolution, rule by rule; the last one
  is about the word `var`.
-/

namespace CurlyScript

/-- What can be objected to. -/
inductive Rule where
  | undefined | unused | redeclared | noVar
deriving DecidableEq, Repr

namespace Rule

/-- Every rule, in the order of the findings. -/
def all : List Rule := [undefined, unused, redeclared, noVar]

/-- The name of a rule. -/
def name : Rule → String
  | undefined => "undefined"
  | unused => "unused"
  | redeclared => "redeclared"
  | noVar => "no-var"

/-- The rule with the given name. -/
def ofName? (s : String) : Option Rule := all.find? (·.name == s)

end Rule

/-- Which rules count. -/
abbrev Policy := Rule → Bool

namespace Policy

/-- Every rule counts. -/
def strict : Policy := fun _ => true

/-- The same policy, but for one rule. -/
def set (p : Policy) (rule : Rule) (counts : Bool) : Policy :=
  fun r => if r = rule then counts else p r

/-- The same policy, but one rule does not count. -/
def allow (p : Policy) (rule : Rule) : Policy := p.set rule false

end Policy

/-- Something to object to. -/
inductive Finding where
  | undefined (u : UndefinedUse)
  | unused (u : UnusedSymbol)
  | redeclared (r : Redeclaration)
  /-- A declaration with `var` at an offset. -/
  | noVar (offset : Nat)
deriving DecidableEq, Repr

namespace Finding

/-- The rule that is broken. -/
def rule : Finding → Rule
  | undefined _ => .undefined
  | unused _ => .unused
  | redeclared _ => .redeclared
  | noVar _ => .noVar

/-- The objection. -/
def message : Finding → String
  | undefined u => s!"Undefined variable: '{u.name}'"
  | unused u => s!"Unused {u.kind.name}: '{u.name}'"
  | redeclared r => s!"Duplicate declaration: '{r.name}'"
  | noVar _ => "'var' is not allowed, use 'let' or 'const' instead."

/-- Where the objection is to. -/
def offset : Finding → Nat
  | undefined u => u.offset
  | unused u => u.offset
  | redeclared r => r.offset
  | noVar offset => offset

/-- The finding at a node, if it is a declaration with `var`. -/
def ofNode? : Node → Option Finding
  | .decl (.mk span .var _ _) => some (noVar span.start)
  | _ => none

end Finding

/-- What one rule finds in a program whose names are resolved as `r`. -/
def Program.findingsOf (p : Program) (r : Resolution) : Rule → List Finding
  | .undefined => r.undefined.toList.map .undefined
  | .unused => r.unused.toList.map .unused
  | .redeclared => r.redeclarations.toList.map .redeclared
  | .noVar => p.nodes.filterMap Finding.ofNode?

/-- The findings in a program that count.  A rule that does not count is not looked into. -/
def Program.lint (policy : Policy) (p : Program) : List Finding :=
  let r := p.resolve
  (Rule.all.filter policy).flatMap (p.findingsOf r)

/-- All findings in a program, rule by rule. -/
def Program.findings (p : Program) : List Finding := p.lint .strict

end CurlyScript
