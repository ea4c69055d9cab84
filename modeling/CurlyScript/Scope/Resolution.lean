import CurlyScript.Scope.Action

/-
  Resolution: every use of a name tied to a declaration, as far as there is one.

  Resolving never fails.  What is wrong with the names of a program is part of the result: uses
  without a declaration, symbols without a use, names declared twice in a scope.
-/

namespace CurlyScript

/-- A use of a name that nothing visible declares. -/
structure UndefinedUse where
  /-- The name. -/
  name : String
  /-- Where it is used. -/
  offset : Nat
deriving DecidableEq, Repr

/-- A symbol that had no use when its scope closed. -/
structure UnusedSymbol where
  /-- The name. -/
  name : String
  /-- What it was declared as. -/
  kind : SymbolKind
  /-- The scope that closed. -/
  scope : ScopeId
  /-- Where it was declared. -/
  offset : Nat
deriving DecidableEq, Repr

/-- A declaration of a name that its scope had declared before.  It declares nothing. -/
structure Redeclaration where
  /-- The name. -/
  name : String
  /-- What it would have been declared as. -/
  kind : SymbolKind
  /-- The scope. -/
  scope : ScopeId
  /-- Where the declaration stands. -/
  offset : Nat
  /-- Where the first declaration stands. -/
  firstOffset : Nat
deriving DecidableEq, Repr

/-- An appearance of a name that stands for a symbol. -/
structure Usage where
  /-- Whether it is the declaration of the symbol. -/
  isDeclaration : Bool
  /-- The scope in which the name stands. -/
  scope : ScopeId
  /-- Where it stands. -/
  offset : Nat
deriving DecidableEq, Repr

/-- All that is known of the names of a program, or of the part of it that was walked. -/
structure Resolution where
  /-- The scopes and symbols. -/
  table : Table
  /-- The uses without a declaration, in the order of the text. -/
  undefined : Array UndefinedUse
  /-- The symbols without a use, scope by scope as these close, in the order of declaration. -/
  unused : Array UnusedSymbol
  /-- The declarations that came too late, in the order of the text. -/
  redeclarations : Array Redeclaration
  /-- The names that stand for symbols, in the order of the text. -/
  log : Array (String × Usage)
deriving DecidableEq, Repr

namespace Resolution

/-- Nothing is known yet. -/
def empty : Resolution := ⟨.empty, #[], #[], #[], #[]⟩

/-- Reports the symbols of the current scope that have no use, and closes it. -/
def close (r : Resolution) : Resolution :=
  let id := r.table.currentId
  let idle := (r.table.symbolsIn id).filter (·.references = 0)
  { r with
    table := r.table.leave
    unused := r.unused ++ idle.map fun s => UnusedSymbol.mk s.name s.kind id s.offset }

/-- Declares a name, or notes that it has been declared. -/
def declare (r : Resolution) (name : Name) (kind : SymbolKind) : Resolution :=
  let id := r.table.currentId
  let offset := name.span.start
  match r.table.declare name.text kind offset with
  | .ok (_, table) => { r with table, log := r.log.push (name.text, ⟨true, id, offset⟩) }
  | .error d =>
    let first := (r.table.symbols[d.existing]?.map (·.offset)).getD offset
    { r with redeclarations := r.redeclarations.push ⟨name.text, kind, id, offset, first⟩ }

/-- Ties a use to its symbol, or notes that there is none. -/
def use (r : Resolution) (name : String) (offset : Nat) : Resolution :=
  match r.table.lookup? name with
  | some number =>
    { r with
      table := r.table.refer number
      log := r.log.push (name, ⟨false, r.table.currentId, offset⟩) }
  | none => { r with undefined := r.undefined.push ⟨name, offset⟩ }

/-- What is known after one more action. -/
def step (r : Resolution) : Action → Resolution
  | .enter kind => { r with table := r.table.enter kind }
  | .leave => r.close
  | .declare name kind => r.declare name kind
  | .use name offset => r.use name offset

/-- The symbols of a name, in the order of declaration. -/
def symbolsNamed (r : Resolution) (name : String) : List Symbol :=
  r.table.symbols.toList.filter (·.name = name)

/-- Where a name stands for symbols, in the order of the text. -/
def usagesOf (r : Resolution) (name : String) : List Usage :=
  (r.log.toList.filter (·.1 = name)).map (·.2)

/-- The names that stand for symbols in alphabetical order, each with its usages in the order of
    the text. -/
def usages (r : Resolution) : List (String × List Usage) :=
  let sorted := r.log.toList.mergeSort fun a b => a.1 ≤ b.1
  (sorted.splitBy fun a b => a.1 == b.1).filterMap fun group =>
    group.head?.map fun first => (first.1, group.map (·.2))

end Resolution

/-- Ties the names of a program to their declarations. -/
def Program.resolve (p : Program) : Resolution := p.actions.foldl Resolution.step .empty

end CurlyScript
