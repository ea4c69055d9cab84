/-
  Symbol tables: which names are declared where.

  Scopes form a tree whose root is the global scope, and the table keeps a cursor on one of them.
  A scope is known by its kind and its ordinal, which is its place in the table; the parent of a
  scope has been there before it, so a walk to the root goes down in ordinals.
-/

namespace CurlyScript

/-! ## Scopes and symbols -/

/-- What a scope belongs to. -/
inductive ScopeKind where
  | global | function | arrow | block
deriving DecidableEq, Repr

/-- The name of a kind of scope. -/
def ScopeKind.name : ScopeKind → String
  | global => "global"
  | function => "function"
  | arrow => "arrow"
  | block => "block"

/-- What a scope is known by. -/
structure ScopeId where
  /-- What the scope belongs to. -/
  kind : ScopeKind
  /-- The place of the scope in its table. -/
  ordinal : Nat
deriving DecidableEq, Repr

/-- The id of the root. -/
def ScopeId.global : ScopeId := ⟨.global, 0⟩

/-- An id as text: the kind and the ordinal, but only the kind of a global scope. -/
def ScopeId.text (id : ScopeId) : String :=
  match id.kind with
  | .global => "global"
  | kind => s!"{kind.name}_{id.ordinal}"

/-- A scope. -/
structure Scope where
  /-- What it is known by. -/
  id : ScopeId
  /-- The scope around it; the root has none. -/
  parent : Option ScopeId
  /-- The names declared in it with the numbers of their symbols, in the order of declaration. -/
  names : List (String × Nat)
deriving DecidableEq, Repr

/-- The number of the symbol that a name stands for in a scope. -/
def Scope.find? (s : Scope) (name : String) : Option Nat := s.names.lookup name

/-- The names of a scope in alphabetical order, that of their code points. -/
def Scope.sorted (s : Scope) : List (String × Nat) :=
  s.names.mergeSort fun a b => a.1 ≤ b.1

/-- What a name was declared as. -/
inductive SymbolKind where
  | var | parameter | function
deriving DecidableEq, Repr

/-- The name of a kind of symbol. -/
def SymbolKind.name : SymbolKind → String
  | var => "variable"
  | parameter => "parameter"
  | function => "function"

/-- A declared name. -/
structure Symbol where
  /-- The name. -/
  name : String
  /-- What it was declared as. -/
  kind : SymbolKind
  /-- How many uses refer to it. -/
  references : Nat
  /-- Where it was declared. -/
  offset : Nat
  /-- The scope it was declared in. -/
  scope : ScopeId
deriving DecidableEq, Repr

/-! ## Tables -/

/-- All scopes and symbols, and a cursor on the innermost open scope. -/
structure Table where
  /-- The scopes by ordinal. -/
  scopes : Array Scope
  /-- The symbols by number. -/
  symbols : Array Symbol
  /-- The ordinal of the innermost open scope. -/
  current : Nat
deriving DecidableEq, Repr

/-- A name that was declared before in the same scope. -/
structure Duplicate where
  /-- The name. -/
  name : String
  /-- The number of the symbol that it stands for already. -/
  existing : Nat
  /-- The scope. -/
  scope : ScopeId
deriving DecidableEq, Repr

/-- The message of a duplicate. -/
def Duplicate.message (d : Duplicate) : String :=
  s!"'{d.name}' is already declared in scope {d.scope.text}"

namespace Table

/-- A table with nothing but the global scope. -/
def empty : Table := ⟨#[⟨.global, none, []⟩], #[], 0⟩

/-- The scope with the given id, kind included. -/
def scope? (t : Table) (id : ScopeId) : Option Scope :=
  t.scopes[id.ordinal]?.filter (·.id = id)

/-- The innermost open scope. -/
def currentScope (t : Table) : Scope :=
  t.scopes[t.current]?.getD ⟨.global, none, []⟩

/-- The id of the innermost open scope. -/
def currentId (t : Table) : ScopeId := t.currentScope.id

/-- Opens a scope within the current one. -/
def enter (t : Table) (kind : ScopeKind) : Table :=
  ⟨t.scopes.push ⟨⟨kind, t.scopes.size⟩, some t.currentId, []⟩, t.symbols, t.scopes.size⟩

/-- Closes the current scope.  The root stays open. -/
def leave (t : Table) : Table :=
  match t.currentScope.parent with
  | some p => { t with current := p.ordinal }
  | none => t

/-- The symbol that a name stands for in the current scope itself. -/
def lookupLocal? (t : Table) (name : String) : Option Nat := t.currentScope.find? name

/-- The symbol that a name stands for in the scope of ordinal `i` or the nearest one around it. -/
def lookupFrom? (t : Table) (name : String) (i : Nat) : Option Nat :=
  match t.scopes[i]? with
  | none => none
  | some s => match s.find? name, s.parent with
    | some id, _ => some id
    | none, some p => if p.ordinal < i then t.lookupFrom? name p.ordinal else none
    | none, none => none
termination_by i

/-- The symbol that a name stands for. -/
def lookup? (t : Table) (name : String) : Option Nat := t.lookupFrom? name t.current

/-- Declares a name in the current scope and gives the number of its symbol.  A scope declares a
    name once; the first declaration stays. -/
def declare (t : Table) (name : String) (kind : SymbolKind) (offset : Nat) :
    Except Duplicate (Nat × Table) :=
  match t.lookupLocal? name with
  | some existing => .error ⟨name, existing, t.currentId⟩
  | none =>
    let number := t.symbols.size
    .ok (number,
      ⟨t.scopes.modify t.current fun s => { s with names := s.names ++ [(name, number)] },
       t.symbols.push ⟨name, kind, 0, offset, t.currentId⟩, t.current⟩)

/-- Counts a use of a symbol, if there is one of that number. -/
def refer (t : Table) (number : Nat) : Table :=
  { t with symbols := t.symbols.modify number fun s => { s with references := s.references + 1 } }

/-- The symbols declared in a scope itself, in the order of declaration. -/
def symbolsIn (t : Table) (id : ScopeId) : List Symbol :=
  match t.scope? id with
  | none => []
  | some s => s.names.filterMap fun n => t.symbols[n.2]?

end Table

end CurlyScript
