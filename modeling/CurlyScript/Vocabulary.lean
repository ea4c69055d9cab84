/-
  The vocabulary: every word and every sign with a meaning of its own.

  Keywords, operators and punctuation are three closed lists.  Each entry has ONE spelling and one
  name; `scanOrder` lists the signs so that no spelling stands before a longer one that it begins,
  hence the first spelling that fits a text is also the longest.
-/

namespace CurlyScript

/-! ## Keywords -/

/-- What a keyword is for. -/
inductive Category where
  | declaration
  | controlFlow
  | literal
deriving DecidableEq, Repr

/-- The name of a category. -/
def Category.name : Category → String
  | .declaration => "Declaration"
  | .controlFlow => "ControlFlow"
  | .literal => "Literal"

/-- A word that cannot be the name of anything. -/
inductive Keyword where
  | const | let_ | var | function
  | return_ | if_ | else_ | for_
  | true_ | false_ | null | undefined
deriving DecidableEq, Repr

namespace Keyword

/-- Every keyword, declarations first. -/
def all : List Keyword :=
  [const, let_, var, function, return_, if_, else_, for_, true_, false_, null, undefined]

/-- How a keyword is written. -/
def spelling : Keyword → String
  | const => "const"
  | let_ => "let"
  | var => "var"
  | function => "function"
  | return_ => "return"
  | if_ => "if"
  | else_ => "else"
  | for_ => "for"
  | true_ => "true"
  | false_ => "false"
  | null => "null"
  | undefined => "undefined"

/-- What a keyword is called when it is talked about. -/
def name : Keyword → String
  | const => "Const"
  | let_ => "Let"
  | var => "Var"
  | function => "Function"
  | return_ => "Return"
  | if_ => "If"
  | else_ => "Else"
  | for_ => "For"
  | true_ => "True"
  | false_ => "False"
  | null => "Null"
  | undefined => "Undefined"

/-- What a keyword is for. -/
def category : Keyword → Category
  | const | let_ | var | function => .declaration
  | return_ | if_ | else_ | for_ => .controlFlow
  | true_ | false_ | null | undefined => .literal

/-- The keyword with the given spelling. -/
def ofSpelling? (s : String) : Option Keyword := all.find? (·.spelling == s)

theorem ofSpelling?_spelling (k : Keyword) : ofSpelling? k.spelling = some k := by
  cases k <;> decide

/-- A keyword is found by its spelling and by nothing else. -/
theorem ofSpelling?_eq_some_iff {s : String} {k : Keyword} :
    ofSpelling? s = some k ↔ s = k.spelling := by
  constructor
  · intro h
    have hk : k.spelling = s := by simpa using List.find?_some h
    exact hk.symm
  · rintro rfl; exact ofSpelling?_spelling k

end Keyword

/-! ## Operators -/

/-- A sign that computes, compares, connects, assigns or steps. -/
inductive Operator where
  | plus | minus | star | slash
  | eqEq | notEq | lt | ltEq | gt | gtEq
  | andAnd | orOr
  | eq | plusEq | minusEq | starEq | slashEq
  | plusPlus | minusMinus
deriving DecidableEq, Repr

namespace Operator

/-- Every operator: arithmetic, comparison, logic, assignment, update. -/
def all : List Operator :=
  [plus, minus, star, slash, eqEq, notEq, lt, ltEq, gt, gtEq, andAnd, orOr,
   eq, plusEq, minusEq, starEq, slashEq, plusPlus, minusMinus]

/-- How an operator is written. -/
def spelling : Operator → String
  | plus => "+"
  | minus => "-"
  | star => "*"
  | slash => "/"
  | eqEq => "=="
  | notEq => "!="
  | lt => "<"
  | ltEq => "<="
  | gt => ">"
  | gtEq => ">="
  | andAnd => "&&"
  | orOr => "||"
  | eq => "="
  | plusEq => "+="
  | minusEq => "-="
  | starEq => "*="
  | slashEq => "/="
  | plusPlus => "++"
  | minusMinus => "--"

/-- What an operator is called when it is talked about. -/
def name : Operator → String
  | plus => "Plus"
  | minus => "Minus"
  | star => "Star"
  | slash => "Slash"
  | eqEq => "EqEq"
  | notEq => "NotEq"
  | lt => "Lt"
  | ltEq => "LtEq"
  | gt => "Gt"
  | gtEq => "GtEq"
  | andAnd => "AndAnd"
  | orOr => "OrOr"
  | eq => "Eq"
  | plusEq => "PlusEq"
  | minusEq => "MinusEq"
  | starEq => "StarEq"
  | slashEq => "SlashEq"
  | plusPlus => "PlusPlus"
  | minusMinus => "MinusMinus"

/-- The operator with the given spelling. -/
def ofSpelling? (s : String) : Option Operator := all.find? (·.spelling == s)

end Operator

/-- An operator between two operands, which does not assign. -/
inductive BinaryOp where
  | add | sub | mul | div
  | eq | notEq | lt | gt | ltEq | gtEq
  | and_ | or_
deriving DecidableEq, Repr

namespace BinaryOp

/-- Every binary operator. -/
def all : List BinaryOp := [add, sub, mul, div, eq, notEq, lt, gt, ltEq, gtEq, and_, or_]

/-- The sign of a binary operator. -/
def operator : BinaryOp → Operator
  | add => .plus
  | sub => .minus
  | mul => .star
  | div => .slash
  | eq => .eqEq
  | notEq => .notEq
  | lt => .lt
  | gt => .gt
  | ltEq => .ltEq
  | gtEq => .gtEq
  | and_ => .andAnd
  | or_ => .orOr

/-- What a binary operator does, as one word. -/
def name : BinaryOp → String
  | add => "Add"
  | sub => "Sub"
  | mul => "Mul"
  | div => "Div"
  | eq => "Eq"
  | notEq => "NotEq"
  | lt => "Lt"
  | gt => "Gt"
  | ltEq => "LtEq"
  | gtEq => "GtEq"
  | and_ => "And"
  | or_ => "Or"

/-- How a binary operator is written. -/
def spelling (op : BinaryOp) : String := op.operator.spelling

/-- How tightly a binary operator binds: the higher the tighter, and each level to the left. -/
def precedence : BinaryOp → Nat
  | mul | div => 4
  | add | sub => 3
  | eq | notEq | lt | gt | ltEq | gtEq => 2
  | and_ => 1
  | or_ => 0

theorem precedence_le (op : BinaryOp) : op.precedence ≤ 4 := by cases op <;> decide

end BinaryOp

/-- An operator that stores into its left operand. -/
inductive AssignOp where
  | assign | addAssign | subAssign | mulAssign | divAssign
deriving DecidableEq, Repr

namespace AssignOp

/-- Every assignment operator. -/
def all : List AssignOp := [assign, addAssign, subAssign, mulAssign, divAssign]

/-- The sign of an assignment operator. -/
def operator : AssignOp → Operator
  | assign => .eq
  | addAssign => .plusEq
  | subAssign => .minusEq
  | mulAssign => .starEq
  | divAssign => .slashEq

/-- What an assignment operator does, as one word. -/
def name : AssignOp → String
  | assign => "Assign"
  | addAssign => "AddAssign"
  | subAssign => "SubAssign"
  | mulAssign => "MulAssign"
  | divAssign => "DivAssign"

/-- How an assignment operator is written. -/
def spelling (op : AssignOp) : String := op.operator.spelling

end AssignOp

/-- An operator that steps its only operand up or down. -/
inductive UpdateOp where
  | increment | decrement
deriving DecidableEq, Repr

namespace UpdateOp

/-- Every update operator. -/
def all : List UpdateOp := [increment, decrement]

/-- The sign of an update operator. -/
def operator : UpdateOp → Operator
  | increment => .plusPlus
  | decrement => .minusMinus

/-- What an update operator does, as one word. -/
def name : UpdateOp → String
  | increment => "Increment"
  | decrement => "Decrement"

/-- How an update operator is written. -/
def spelling (op : UpdateOp) : String := op.operator.spelling

/-- The character that an update operator doubles. -/
def sign : UpdateOp → Char
  | increment => '+'
  | decrement => '-'

end UpdateOp

namespace Operator

/-- The binary operator with this sign. -/
def binary? (o : Operator) : Option BinaryOp := BinaryOp.all.find? (·.operator = o)

/-- The assignment operator with this sign. -/
def assign? (o : Operator) : Option AssignOp := AssignOp.all.find? (·.operator = o)

/-- The update operator with this sign. -/
def update? (o : Operator) : Option UpdateOp := UpdateOp.all.find? (·.operator = o)

/-- How tightly the sign binds between two operands, if it can stand there. -/
def precedence? : Operator → Option Nat
  | star | slash => some 4
  | plus | minus => some 3
  | eqEq | notEq | lt | ltEq | gt | gtEq => some 2
  | andAnd => some 1
  | orOr => some 0
  | eq | plusEq | minusEq | starEq | slashEq | plusPlus | minusMinus => none

@[simp] theorem binary?_operator (op : BinaryOp) : op.operator.binary? = some op := by
  cases op <;> decide

theorem binary?_eq_some_iff {o : Operator} {op : BinaryOp} :
    o.binary? = some op ↔ o = op.operator := by
  cases o <;> cases op <;> decide

/-- The two tables of precedence agree: a sign binds as the operator that it stands for. -/
theorem precedence?_eq (o : Operator) : o.precedence? = o.binary?.map BinaryOp.precedence := by
  cases o <;> decide

theorem assign?_eq_some_iff {o : Operator} {op : AssignOp} :
    o.assign? = some op ↔ o = op.operator := by
  cases o <;> cases op <;> decide

theorem update?_eq_some_iff {o : Operator} {op : UpdateOp} :
    o.update? = some op ↔ o = op.operator := by
  cases o <;> cases op <;> decide

end Operator

/-! ## Punctuation -/

/-- A sign that separates or encloses. -/
inductive Punctuation where
  | comma | semicolon | colon | dot | fatArrow
  | lParen | rParen | lBrace | rBrace | lBracket | rBracket
deriving DecidableEq, Repr

namespace Punctuation

/-- Every punctuation sign. -/
def all : List Punctuation :=
  [comma, semicolon, colon, dot, fatArrow, lParen, rParen, lBrace, rBrace, lBracket, rBracket]

/-- How a punctuation sign is written. -/
def spelling : Punctuation → String
  | comma => ","
  | semicolon => ";"
  | colon => ":"
  | dot => "."
  | fatArrow => "=>"
  | lParen => "("
  | rParen => ")"
  | lBrace => "\x7b"
  | rBrace => "\x7d"
  | lBracket => "["
  | rBracket => "]"

/-- What a punctuation sign is called when it is talked about. -/
def name : Punctuation → String
  | comma => "Comma"
  | semicolon => "Semicolon"
  | colon => "Colon"
  | dot => "Dot"
  | fatArrow => "FatArrow"
  | lParen => "LParen"
  | rParen => "RParen"
  | lBrace => "LBrace"
  | rBrace => "RBrace"
  | lBracket => "LBracket"
  | rBracket => "RBracket"

/-- The punctuation sign with the given spelling. -/
def ofSpelling? (s : String) : Option Punctuation := all.find? (·.spelling == s)

end Punctuation

/-! ## Signs -/

/-- An operator or a punctuation sign. -/
inductive Sign where
  | operator (o : Operator)
  | punctuation (p : Punctuation)
deriving DecidableEq, Repr

namespace Sign

/-- How a sign is written. -/
def spelling : Sign → String
  | operator o => o.spelling
  | punctuation p => p.spelling

/-- Every sign, in the order in which a text is tried against them. -/
def scanOrder : List Sign :=
  [punctuation .fatArrow, operator .eqEq, operator .notEq, operator .ltEq, operator .gtEq,
   operator .andAnd, operator .orOr, operator .plusPlus, operator .minusMinus,
   operator .plusEq, operator .minusEq, operator .starEq, operator .slashEq,
   operator .plus, operator .minus, operator .star, operator .slash, operator .eq,
   operator .lt, operator .gt,
   punctuation .lParen, punctuation .rParen, punctuation .lBrace, punctuation .rBrace,
   punctuation .lBracket, punctuation .rBracket, punctuation .comma, punctuation .semicolon,
   punctuation .colon, punctuation .dot]

/-- The first sign, in scan order, that the text begins with. -/
def match? (cs : List Char) : Option Sign :=
  scanOrder.find? fun s => s.spelling.toList.isPrefixOf cs

theorem mem_scanOrder (s : Sign) : s ∈ scanOrder := by
  cases s with
  | operator o => cases o <;> decide
  | punctuation p => cases p <;> decide

/-- No sign is shadowed: a text that is exactly the spelling of a sign is read as that sign. -/
theorem match?_spelling (s : Sign) : match? s.spelling.toList = some s := by
  cases s with
  | operator o => cases o <;> decide
  | punctuation p => cases p <;> decide

end Sign

end CurlyScript
