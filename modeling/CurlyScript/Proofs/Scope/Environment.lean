import CurlyScript.Proofs.Scope.Frames
import Mathlib.Data.Finmap

/-
  A symbol table is a stack of environments.

  A table never forgets a scope: the closed ones stay where they are, a cursor moves among them and
  look-ups follow the numbers of the parents.  What can be asked of it does not show that.  The
  ENVIRONMENT is the textbook structure: a stack that never runs empty, each layer a finite map
  from names to numbers of symbols.

  1. **Operations** — entering and leaving a scope, declaring a name, the two look-ups, counting a
     use.  Each is answered, and the answer is all that is seen of it (`Operation`, `Answer`).

  2. **Simulation** — `Table.Simulates t e`: the scopes along the parents of the cursor show the
     layers of the stack one by one, and both sides have given out as many ids and numbers.  There
     is one lemma for each operation (`Simulates.enter`, `.leave`, `.declared`, `.refer`), and
     `Simulates.perform` puts them together.

  3. **Runs** — whatever is done to a new table, and in whatever order, the answers are those of
     the stack (`Table.answers_eq_environment`).  A closed scope can thus never come back: on the
     stack there is nothing left of it.
-/

namespace CurlyScript

/-! ## Operations -/

/-- What can be done to a symbol table. -/
inductive Operation where
  | enter (kind : ScopeKind)
  | leave
  | declare (name : String) (kind : SymbolKind) (offset : Nat)
  | lookup (name : String)
  /-- A look-up in the innermost scope alone. -/
  | lookupLocal (name : String)
  /-- A use of a symbol is counted. -/
  | refer (number : Nat)
deriving DecidableEq, Repr

/-- What is seen of an operation. -/
inductive Answer where
  /-- The scope that was opened or closed. -/
  | scope (id : ScopeId)
  /-- The number of the symbol that was declared, or the declaration in its way. -/
  | declared (result : Except Duplicate Nat)
  /-- The number of the symbol that was looked for. -/
  | found (number : Option Nat)
  /-- How many uses of the symbol there have been by now, if there is such a symbol. -/
  | count (references : Option Nat)

/-- The answers to operations in order. -/
def answers {σ : Type} (perform : σ → Operation → Answer × σ) : σ → List Operation → List Answer
  | _, [] => []
  | state, o :: os => (perform state o).1 :: answers perform (perform state o).2 os

/-- One operation on a table.  A declaration that is refused leaves the table as it is. -/
def Table.perform (t : Table) : Operation → Answer × Table
  | .enter kind => (.scope (t.enter kind).currentId, t.enter kind)
  | .leave => (.scope t.currentId, t.leave)
  | .declare name kind offset => match t.declare name kind offset with
    | .ok (number, t') => (.declared (.ok number), t')
    | .error d => (.declared (.error d), t)
  | .lookup name => (.found (t.lookup? name), t)
  | .lookupLocal name => (.found (t.lookupLocal? name), t)
  | .refer number =>
    (.count ((t.refer number).symbols[number]?.map (·.references)), t.refer number)

/-! ## Environments -/

/-- A scope from the inside. -/
structure Layer where
  /-- What the scope is known by. -/
  id : ScopeId
  /-- The names declared in it, with the numbers of their symbols. -/
  names : Finmap fun _ : String => Nat

/-- A stack of layers. -/
structure Environment where
  /-- The innermost layer. -/
  top : Layer
  /-- The layers around it, the innermost first. -/
  below : List Layer
  /-- How many layers there have ever been. -/
  opened : Nat
  /-- How many uses there have been of each symbol, by number. -/
  uses : List Nat

namespace Environment

/-- A stack of one empty layer. -/
def empty : Environment := ⟨⟨.global, ∅⟩, [], 1, []⟩

/-- All layers, the innermost first. -/
def layers (e : Environment) : List Layer := e.top :: e.below

/-- Pushes an empty layer. -/
def enter (e : Environment) (kind : ScopeKind) : Environment :=
  ⟨⟨⟨kind, e.opened⟩, ∅⟩, e.layers, e.opened + 1, e.uses⟩

/-- Pops a layer, unless it is the last. -/
def leave (e : Environment) : Environment :=
  match e.below with
  | [] => e
  | l :: ls => { e with top := l, below := ls }

/-- The first binding of a name from the top. -/
def lookup? (e : Environment) (name : String) : Option Nat :=
  e.layers.findSome? (·.names.lookup name)

/-- Binds a name in the topmost layer to the next number. -/
def bind (e : Environment) (name : String) : Environment :=
  { e with top := ⟨e.top.id, e.top.names.insert name e.uses.length⟩, uses := e.uses ++ [0] }

/-- Counts a use of a symbol, if there is one of that number. -/
def refer (e : Environment) (number : Nat) : Environment :=
  { e with uses := e.uses.modify number (· + 1) }

/-- One operation on a stack. -/
def perform (e : Environment) : Operation → Answer × Environment
  | .enter kind => (.scope ⟨kind, e.opened⟩, e.enter kind)
  | .leave => (.scope e.top.id, e.leave)
  | .declare name _ _ => match e.top.names.lookup name with
    | some existing => (.declared (.error ⟨name, existing, e.top.id⟩), e)
    | none => (.declared (.ok e.uses.length), e.bind name)
  | .lookup name => (.found (e.lookup? name), e)
  | .lookupLocal name => (.found (e.top.names.lookup name), e)
  | .refer number => (.count (e.refer number).uses[number]?, e.refer number)

end Environment

/-! ## Simulation -/

/-- A scope seen from the inside is a layer: it is known by the same id and binds the same names. -/
structure Scope.Shows (s : Scope) (l : Layer) : Prop where
  id : s.id = l.id
  find : ∀ name, s.find? name = l.names.lookup name

/-- A new scope shows an empty layer. -/
theorem Scope.shows_empty (id : ScopeId) (parent : Option ScopeId) :
    (Scope.mk id parent []).Shows ⟨id, ∅⟩ where
  id := rfl
  find name := by
    rw [Finmap.lookup_empty]
    rfl

/-- A name that is new to a scope is bound at the end of its list, which is to insert it. -/
theorem Scope.Shows.bind {s : Scope} {l : Layer} (h : s.Shows l) {name : String}
    (hnew : s.find? name = none) (number : Nat) :
    { s with names := s.names ++ [(name, number)] }.Shows
      ⟨l.id, l.names.insert name number⟩ where
  id := h.id
  find other := by
    show (s.names ++ [(name, number)]).lookup other = _
    rw [List.lookup_append]
    by_cases ho : other = name
    · subst ho
      have hnone : s.names.lookup other = none := hnew
      rw [hnone, Finmap.lookup_insert]
      simp
    · have hskip : [(name, number)].lookup other = none := by
        rw [List.lookup_cons, beq_eq_false_iff_ne.mpr ho]
        rfl
      rw [Finmap.lookup_insert_of_ne _ ho, ← h.find other, hskip, Option.or_none]
      rfl

/-- Scopes that show layers one by one bind a name to the same symbol. -/
theorem findSome?_eq_of_shows {ss : List Scope} {ls : List Layer}
    (h : List.Forall₂ Scope.Shows ss ls) (name : String) :
    ss.findSome? (·.find? name) = ls.findSome? (·.names.lookup name) := by
  induction h with
  | nil => rfl
  | cons hs _ ih => rw [List.findSome?_cons, List.findSome?_cons, hs.find name, ih]

namespace Table

variable {t : Table} {e : Environment}

/-- A table that cannot be told from a stack: the open scopes show its layers, and as many ids and
    numbers have been given out. -/
structure Simulates (t : Table) (e : Environment) : Prop where
  sound : t.IsSound
  layers : List.Forall₂ Scope.Shows t.chain e.layers
  opened : t.scopes.size = e.opened
  uses : t.symbols.toList.map Symbol.references = e.uses

theorem simulates_empty : empty.Simulates .empty where
  sound := isSound_empty
  layers := by
    rw [isSound_empty.chain_eq]
    exact .cons (Scope.shows_empty _ _) .nil
  opened := rfl
  uses := rfl

/-- The innermost scope shows the topmost layer, and the ones around it those below. -/
theorem Simulates.split (h : t.Simulates e) :
    ∃ ss, t.chain = t.currentScope :: ss ∧ t.currentScope.Shows e.top ∧
      List.Forall₂ Scope.Shows ss e.below := by
  have hl := h.layers
  rw [h.sound.chain_eq] at hl
  cases hl with
  | cons hs hss => exact ⟨_, h.sound.chain_eq, hs, hss⟩

theorem Simulates.currentId (h : t.Simulates e) : t.currentId = e.top.id := by
  obtain ⟨_, _, hs, _⟩ := h.split
  exact hs.id

theorem Simulates.lookupLocal? (h : t.Simulates e) (name : String) :
    t.lookupLocal? name = e.top.names.lookup name := by
  obtain ⟨_, _, hs, _⟩ := h.split
  exact hs.find name

theorem Simulates.lookup? (h : t.Simulates e) (name : String) :
    t.lookup? name = e.lookup? name := by
  rw [lookup?_eq_chain]
  exact findSome?_eq_of_shows h.layers name

theorem Simulates.size_symbols (h : t.Simulates e) : t.symbols.size = e.uses.length := by
  rw [← h.uses, List.length_map, Array.length_toList]

theorem Simulates.enter (h : t.Simulates e) (kind : ScopeKind) :
    (t.enter kind).Simulates (e.enter kind) where
  sound := h.sound.enter kind
  layers := by
    rw [h.sound.chain_enter, h.opened]
    exact .cons (Scope.shows_empty _ _) h.layers
  opened := by
    show (t.scopes.push _).size = e.opened + 1
    rw [Array.size_push, h.opened]
  uses := h.uses

/-- Leaving moves the cursor to the parent, and the scopes along its parents are those below. -/
theorem Simulates.leave (h : t.Simulates e) : t.leave.Simulates e.leave := by
  obtain ⟨ss, hchain, hs, hss⟩ := h.split
  have hchain' := h.sound.chain_leave hchain
  have hscopes : t.leave.scopes = t.scopes := by
    rw [Table.leave]; cases t.currentScope.parent <;> rfl
  have hsymbols : t.leave.symbols = t.symbols := by
    rw [Table.leave]; cases t.currentScope.parent <;> rfl
  cases hb : e.below with
  | nil =>
    rw [hb] at hss
    cases hss with
    | nil =>
      have he : e.leave = e := by rw [Environment.leave, hb]
      rw [he]
      refine ⟨h.sound.leave, ?_, by rw [hscopes, h.opened], by rw [hsymbols, h.uses]⟩
      rw [hchain', Environment.layers, hb]
      exact .cons hs .nil
  | cons l ls =>
    rw [hb] at hss
    cases hss with
    | cons hl hls =>
      have he : e.leave = { e with top := l, below := ls } := by rw [Environment.leave, hb]
      rw [he]
      refine ⟨h.sound.leave, ?_, by rw [hscopes, h.opened], by rw [hsymbols, h.uses]⟩
      rw [hchain']
      exact .cons hl hls

/-- A new name goes into the innermost scope, with the next number on both sides. -/
theorem Simulates.declared (h : t.Simulates e) {d : Declaration}
    (hnew : t.lookupLocal? d.name = none) : (t.declared d).Simulates (e.bind d.name) := by
  obtain ⟨ss, hchain, hs, hss⟩ := h.split
  refine ⟨h.sound.declared d, ?_, ?_, ?_⟩
  · rw [h.sound.chain_declared hchain, h.size_symbols]
    exact .cons (hs.bind hnew _) hss
  · show (t.scopes.modify t.current _).size = e.opened
    rw [Array.size_modify, h.opened]
  · show (t.symbols.push _).toList.map _ = e.uses ++ [0]
    rw [Array.toList_push, List.map_append, h.uses]
    rfl

theorem Simulates.refer (h : t.Simulates e) (number : Nat) :
    (t.refer number).Simulates (e.refer number) where
  sound := h.sound.refer number
  layers := by
    rw [chain_refer]
    exact h.layers
  opened := h.opened
  uses := by
    rw [map_symbols_refer (g := (· + 1)) (fun _ => rfl), h.uses]
    rfl

/-- The uses of a symbol are counted alike. -/
theorem Simulates.references (h : t.Simulates e) (number : Nat) :
    t.symbols[number]?.map (·.references) = e.uses[number]? := by
  rw [← h.uses, List.getElem?_map, Array.getElem?_toList]

/-- One operation: the answers are the same, and the table still cannot be told from the stack. -/
theorem Simulates.perform (h : t.Simulates e) (o : Operation) :
    (t.perform o).1 = (e.perform o).1 ∧ (t.perform o).2.Simulates (e.perform o).2 := by
  cases o with
  | enter kind =>
    have h' := h.enter kind
    refine ⟨?_, h'⟩
    show Answer.scope (t.enter kind).currentId = .scope ⟨kind, e.opened⟩
    rw [h'.currentId]
    rfl
  | leave =>
    refine ⟨?_, h.leave⟩
    show Answer.scope t.currentId = .scope e.top.id
    rw [h.currentId]
  | declare name kind offset =>
    have hlocal := h.lookupLocal? name
    rw [Table.perform, Environment.perform, Table.declare]
    cases hl : e.top.names.lookup name with
    | some existing =>
      rw [hl] at hlocal
      simp only [hlocal, h.currentId]
      exact ⟨trivial, h⟩
    | none =>
      rw [hl] at hlocal
      have hd := h.declared (d := ⟨name, kind, offset, t.currentId⟩) hlocal
      rw [Table.declared] at hd
      simp only [hlocal]
      refine ⟨?_, hd⟩
      rw [h.size_symbols]
  | lookup name =>
    refine ⟨?_, h⟩
    show Answer.found (t.lookup? name) = .found (e.lookup? name)
    rw [h.lookup?]
  | lookupLocal name =>
    refine ⟨?_, h⟩
    show Answer.found (t.lookupLocal? name) = .found (e.top.names.lookup name)
    rw [h.lookupLocal?]
  | refer number =>
    have h' := h.refer number
    refine ⟨?_, h'⟩
    show Answer.count _ = .count (e.refer number).uses[number]?
    rw [h'.references]

/-! ## Runs -/

/-- Operations in a row: each of them is answered alike. -/
theorem Simulates.answers (h : t.Simulates e) (os : List Operation) :
    answers Table.perform t os = answers Environment.perform e os := by
  induction os generalizing t e with
  | nil => rfl
  | cons o os ih =>
    obtain ⟨ho, hos⟩ := h.perform o
    rw [CurlyScript.answers, CurlyScript.answers, ho, ih hos]

/-- **A new table answers as a stack of environments does**, whatever is done to it and in whatever
    order, with scopes of whatever kinds. -/
theorem answers_eq_environment (os : List Operation) :
    answers Table.perform .empty os = answers Environment.perform .empty os :=
  simulates_empty.answers os

end Table

end CurlyScript
