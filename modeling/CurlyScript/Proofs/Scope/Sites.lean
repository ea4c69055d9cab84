import CurlyScript.Proofs.Scope.Outline
import CurlyScript.Scope.Resolution

/-
  Sites: the places where names are declared and used, in the order of the walk.

  A construct is known by its kind and by how many constructs are entered before it.  Of a
  declaration it matters in which construct it DIRECTLY stands; of a use, all the constructs around
  it.  With no more than that, lexical scoping is a matter of positions in a list:

  * the first declaration of a name in a construct makes a symbol, and the others come too late;
  * a use is bound in the innermost construct around it that has a declaration of the name BEFORE
    the use, and to the first declaration there.

  `Sites.symbols`, `Sites.redeclarations`, `Sites.undefined` and `Sites.log` say what comes of a
  list of sites.
-/

namespace CurlyScript

/-- The declaration of a name. -/
structure Declaration where
  /-- The name. -/
  name : String
  /-- What it is declared as. -/
  kind : SymbolKind
  /-- Where it stands. -/
  offset : Nat
  /-- The construct that it directly stands in. -/
  scope : ScopeId
deriving DecidableEq, Repr

/-- Whether a name is declared directly in a construct. -/
def Declaration.isIn (scope : ScopeId) (name : String) (d : Declaration) : Bool :=
  decide (d.scope = scope ∧ d.name = name)

/-- The use of a name. -/
structure Use where
  /-- The name. -/
  name : String
  /-- Where it stands. -/
  offset : Nat
  /-- The constructs around it, the innermost first. -/
  scopes : List ScopeId
deriving DecidableEq, Repr

/-- A place where a name is declared or used. -/
inductive Site where
  | declaration (d : Declaration)
  | use (u : Use)
deriving DecidableEq, Repr

/-! ## The sites of a program -/

mutual

/-- How many constructs an outline has. -/
def Outline.scopeCount : Outline → Nat
  | .declaration _ _ => 0
  | .use _ _ => 0
  | .construct _ inner => scopeCounts inner + 1

/-- How many constructs some outlines have. -/
def scopeCounts : List Outline → Nat
  | [] => 0
  | o :: os => o.scopeCount + scopeCounts os

end

mutual

/-- The sites of an outline that stands directly in `scope`, with `outer` around that and `next`
    constructs before it. -/
def Outline.sites (scope : ScopeId) (outer : List ScopeId) (next : Nat) : Outline → List Site
  | .declaration name kind => [.declaration ⟨name.text, kind, name.span.start, scope⟩]
  | .use name offset => [.use ⟨name, offset, scope :: outer⟩]
  | .construct kind inner => outlineSites ⟨kind, next⟩ (scope :: outer) (next + 1) inner

/-- The sites of outlines in order. -/
def outlineSites (scope : ScopeId) (outer : List ScopeId) (next : Nat) : List Outline → List Site
  | [] => []
  | o :: os => o.sites scope outer next ++ outlineSites scope outer (next + o.scopeCount) os

end

/-- The sites of a program in the order of the walk.  The program is the first construct. -/
def Program.sites (p : Program) : List Site := outlineSites .global [] 1 p.outline

/-! ## Binding -/

namespace Sites

/-- Each site, with the sites before it. -/
def visits (sites : List Site) : List (List Site × Site) :=
  sites.zipIdx.map fun s => (sites.take s.2, s.1)

/-- The first declaration of a name directly in a construct. -/
def first? (sites : List Site) (scope : ScopeId) (name : String) : Option Declaration :=
  sites.findSome? fun
    | .declaration d => if d.isIn scope name then some d else none
    | .use _ => none

/-- What a use is bound to by the sites before it. -/
def binding? (before : List Site) (u : Use) : Option Declaration :=
  u.scopes.findSome? fun scope => first? before scope u.name

/-- The first declarations of each name in each construct. -/
def firsts (sites : List Site) : List Declaration :=
  (visits sites).filterMap fun
    | (before, .declaration d) => if (first? before d.scope d.name).isNone then some d else none
    | (_, .use _) => none

/-- The uses, each with what it is bound to. -/
def bindings (sites : List Site) : List (Use × Option Declaration) :=
  (visits sites).filterMap fun
    | (before, .use u) => some (u, binding? before u)
    | (_, .declaration _) => none

/-! ## What comes of it -/

/-- The symbol that a declaration makes, with the uses among `sites` that are bound to it. -/
def symbol (sites : List Site) (d : Declaration) : Symbol where
  name := d.name
  kind := d.kind
  references := (bindings sites).countP fun b => b.2 = some d
  offset := d.offset
  scope := d.scope

/-- The symbols: one for each first declaration. -/
def symbols (sites : List Site) : List Symbol := (firsts sites).map (symbol sites)

/-- The declarations that come too late, each with the first one before it. -/
def redeclarations (sites : List Site) : List Redeclaration :=
  (visits sites).filterMap fun
    | (before, .declaration d) =>
      (first? before d.scope d.name).map fun e => ⟨d.name, d.kind, d.scope, d.offset, e.offset⟩
    | (_, .use _) => none

/-- The uses that are bound to nothing. -/
def undefined (sites : List Site) : List UndefinedUse :=
  (bindings sites).filterMap fun b => if b.2.isNone then some ⟨b.1.name, b.1.offset⟩ else none

/-- The names that stand for symbols: first declarations, and uses that are bound. -/
def log (sites : List Site) : List (String × Usage) :=
  (visits sites).filterMap fun
    | (before, .declaration d) =>
      if (first? before d.scope d.name).isNone then some (d.name, ⟨true, d.scope, d.offset⟩)
      else none
    | (before, .use u) =>
      (binding? before u).map fun _ => (u.name, ⟨false, u.scopes.headD .global, u.offset⟩)

/-! ## One more site -/

section snoc

variable (sites : List Site)

theorem visits_concat (s : Site) : visits (sites ++ [s]) = visits sites ++ [(sites, s)] := by
  have hbefore : ∀ x ∈ sites.zipIdx, ((sites ++ [s]).take x.2, x.1) = (sites.take x.2, x.1) := by
    intro x hx
    have hlt : x.2 < sites.length := by
      have h := (List.mem_zipIdx hx).2.1
      omega
    rw [List.take_append_of_le_length (Nat.le_of_lt hlt)]
  rw [visits, List.zipIdx_append, List.map_append, List.map_congr_left hbefore]
  simp [visits]

theorem first?_concat_use (u : Use) (scope : ScopeId) (name : String) :
    first? (sites ++ [.use u]) scope name = first? sites scope name := by
  simp [first?]

theorem first?_concat_declaration (d : Declaration) (scope : ScopeId) (name : String) :
    first? (sites ++ [.declaration d]) scope name =
      (first? sites scope name).or (if d.isIn scope name then some d else none) := by
  simp [first?]

theorem firsts_concat_use (u : Use) : firsts (sites ++ [.use u]) = firsts sites := by
  rw [firsts, visits_concat, List.filterMap_append]
  simp [firsts]

theorem firsts_concat_declaration (d : Declaration) :
    firsts (sites ++ [.declaration d]) =
      firsts sites ++ if (first? sites d.scope d.name).isNone then [d] else [] := by
  rw [firsts, visits_concat, List.filterMap_append]
  cases h : first? sites d.scope d.name <;> simp [firsts, h]

theorem bindings_concat_use (u : Use) :
    bindings (sites ++ [.use u]) = bindings sites ++ [(u, binding? sites u)] := by
  rw [bindings, visits_concat, List.filterMap_append]
  rfl

theorem bindings_concat_declaration (d : Declaration) :
    bindings (sites ++ [.declaration d]) = bindings sites := by
  rw [bindings, visits_concat, List.filterMap_append]
  simp [bindings]

theorem redeclarations_concat_use (u : Use) :
    redeclarations (sites ++ [.use u]) = redeclarations sites := by
  rw [redeclarations, visits_concat, List.filterMap_append]
  simp [redeclarations]

theorem redeclarations_concat_declaration (d : Declaration) :
    redeclarations (sites ++ [.declaration d]) = redeclarations sites ++
      ((first? sites d.scope d.name).map fun e =>
        Redeclaration.mk d.name d.kind d.scope d.offset e.offset).toList := by
  rw [redeclarations, visits_concat, List.filterMap_append]
  cases h : first? sites d.scope d.name <;> simp [redeclarations, h]

theorem undefined_concat_declaration (d : Declaration) :
    undefined (sites ++ [.declaration d]) = undefined sites := by
  rw [undefined, bindings_concat_declaration, undefined]

theorem undefined_concat_use (u : Use) : undefined (sites ++ [.use u]) = undefined sites ++
    if (binding? sites u).isNone then [⟨u.name, u.offset⟩] else [] := by
  rw [undefined, bindings_concat_use, List.filterMap_append]
  cases binding? sites u <;> simp [undefined]

theorem log_concat_declaration (d : Declaration) : log (sites ++ [.declaration d]) = log sites ++
    if (first? sites d.scope d.name).isNone then [(d.name, ⟨true, d.scope, d.offset⟩)] else [] := by
  rw [log, visits_concat, List.filterMap_append]
  cases h : first? sites d.scope d.name <;> simp [log, h]

theorem log_concat_use (u : Use) : log (sites ++ [.use u]) = log sites ++
    ((binding? sites u).map fun _ =>
      (u.name, Usage.mk false (u.scopes.headD .global) u.offset)).toList := by
  rw [log, visits_concat, List.filterMap_append]
  cases h : binding? sites u <;> simp [log, h]

end snoc

end Sites

end CurlyScript
