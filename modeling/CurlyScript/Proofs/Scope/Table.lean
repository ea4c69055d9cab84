import CurlyScript.Proofs.Scope.Binding

/-
  Tables that describe sites.

  A table keeps less than the sites that were visited, and what it keeps is a record of them
  (`Table.Describes`): its symbols are those of the sites, and a scope holds the NUMBERS of the
  first declarations that stand directly in it.  The parents of a scope lead through the constructs
  around it up to the program (`Table.Path`), so a look-up along the parents is binding by position.

  Every operation of a table has its lemma: what it describes afterwards, and that no scope has
  moved.
-/

namespace CurlyScript

open Sites

/-! ## Names by number -/

/-- The names declared in a scope with their numbers. -/
def numbered (ds : List Declaration) (scope : ScopeId) : List (String × Nat) :=
  ds.zipIdx.filterMap fun d => if d.1.scope = scope then some (d.1.name, d.2) else none

theorem numbered_concat (ds : List Declaration) (d : Declaration) (scope : ScopeId) :
    numbered (ds ++ [d]) scope =
      numbered ds scope ++ if d.scope = scope then [(d.name, ds.length)] else [] := by
  rw [numbered, List.zipIdx_append, List.filterMap_append]
  by_cases h : d.scope = scope
  · simp [numbered, h]
  · simp [numbered, h]

theorem numbered_eq_nil {ds : List Declaration} {scope : ScopeId}
    (h : ∀ d ∈ ds, d.scope ≠ scope) : numbered ds scope = [] := by
  refine List.filterMap_eq_nil_iff.mpr fun d hd => ?_
  exact if_neg (h d.1 (List.fst_mem_of_mem_zipIdx hd))

/-- A name is looked up in a scope as the first of its declarations there. -/
theorem lookup_numbered (ds : List Declaration) (scope : ScopeId) (name : String) :
    (numbered ds scope).lookup name = ds.findIdx? (Declaration.isIn scope name) := by
  -- from the back, as declarations are added
  induction ds using List.reverseRecOn with
  | nil => rfl
  | append_singleton ds d ih =>
    rw [numbered_concat, List.lookup_append, List.findIdx?_append, ih]
    by_cases hs : d.scope = scope
    · by_cases hn : d.name = name
      · simp [Declaration.isIn, hs, hn]
      · have hne : (name == d.name) = false := beq_eq_false_iff_ne.mpr fun h => hn h.symm
        simp [Declaration.isIn, hs, hn, List.lookup_cons, hne]
    · simp [Declaration.isIn, hs]

/-! ## Tables -/

namespace Table

variable {t t' : Table} {sites : List Site} {scope : ScopeId} {outer : List ScopeId}

/-- A scope is in the table, with its parent. -/
def Holds (t : Table) (id : ScopeId) (parent : Option ScopeId) : Prop :=
  ∃ names, t.scopes[id.ordinal]? = some ⟨id, parent, names⟩

/-- The parents of a scope up to the root. -/
def Path (t : Table) : ScopeId → List ScopeId → Prop
  | id, [] => t.Holds id none
  | id, p :: outer => t.Holds id (some p) ∧ p.ordinal < id.ordinal ∧ t.Path p outer

/-- The names of each scope are those of the declarations in it, under their numbers. -/
def Files (t : Table) (ds : List Declaration) : Prop :=
  ∀ (i : Nat) (s : Scope), t.scopes[i]? = some s → s.names = numbered ds s.id

/-- The scopes and symbols are those of the sites. -/
structure Describes (t : Table) (sites : List Site) : Prop where
  symbols : t.symbols.toList = Sites.symbols sites
  ordinal : ∀ (i : Nat) (s : Scope), t.scopes[i]? = some s → s.id.ordinal = i
  names : ∀ (i : Nat) (s : Scope), t.scopes[i]? = some s →
    s.names = numbered (firsts sites) s.id
  below : ∀ d ∈ firsts sites, d.scope.ordinal < t.scopes.size

theorem Holds.lt_size {parent : Option ScopeId} (h : t.Holds scope parent) :
    scope.ordinal < t.scopes.size := by
  obtain ⟨names, hs⟩ := h
  exact (Array.getElem?_eq_some_iff.mp hs).1

theorem Path.mono (h : ∀ id parent, t.Holds id parent → t'.Holds id parent) :
    ∀ {outer scope}, t.Path scope outer → t'.Path scope outer
  | [], _, hp => h _ _ hp
  | _ :: _, _, ⟨hs, hlt, hp⟩ => ⟨h _ _ hs, hlt, hp.mono h⟩

theorem Path.of_scopes_eq (h : t.Path scope outer) (he : t'.scopes = t.scopes) :
    t'.Path scope outer := by
  refine h.mono fun id parent hold => ?_
  rw [Holds, he]
  exact hold

theorem Path.holds (h : t.Path scope outer) : t.Holds scope outer.head? := by
  cases outer with
  | nil => exact h
  | cons p outer => exact h.1

/-- The cursor on a scope gives that scope. -/
theorem currentScope_eq {parent : Option ScopeId} (h : t.Holds scope parent)
    (hc : t.current = scope.ordinal) :
    ∃ names, t.currentScope = ⟨scope, parent, names⟩ ∧
      t.scopes[t.current]? = some ⟨scope, parent, names⟩ := by
  obtain ⟨names, hs⟩ := h
  rw [← hc] at hs
  exact ⟨names, by rw [currentScope, hs, Option.getD_some], hs⟩

theorem currentId_eq {parent : Option ScopeId} (h : t.Holds scope parent)
    (hc : t.current = scope.ordinal) : t.currentId = scope := by
  obtain ⟨names, hs, -⟩ := currentScope_eq h hc
  rw [currentId, hs]

/-- What a name stands for in the current scope itself is the first declaration there. -/
theorem Describes.lookupLocal? (hd : t.Describes sites) {parent : Option ScopeId}
    (h : t.Holds scope parent) (hc : t.current = scope.ordinal) (name : String) :
    t.lookupLocal? name = number? sites scope name := by
  obtain ⟨names, hs, hget⟩ := currentScope_eq h hc
  have hnames : names = numbered (firsts sites) scope := hd.names _ _ hget
  rw [Table.lookupLocal?, hs, Scope.find?, hnames, lookup_numbered, number?]

/-- Looking up a name goes from scope to scope outwards, as binding does. -/
theorem Describes.lookupFrom? (hd : t.Describes sites) (name : String) :
    ∀ {outer scope}, t.Path scope outer → t.lookupFrom? name scope.ordinal =
      (scope :: outer).findSome? fun c => number? sites c name := by
  intro outer
  induction outer with
  | nil =>
    rintro scope ⟨names, hs⟩
    have hnames : names = numbered (firsts sites) scope := hd.names _ _ hs
    rw [Table.lookupFrom?, hs, List.findSome?_cons, List.findSome?_nil]
    simp only [Scope.find?, hnames, lookup_numbered, number?]
    cases (firsts sites).findIdx? (Declaration.isIn scope name) <;> rfl
  | cons p outer ih =>
    -- the parent is below its scope, so the guard that makes the look-up end is passed
    rintro scope ⟨⟨names, hs⟩, hlt, hp⟩
    have hnames : names = numbered (firsts sites) scope := hd.names _ _ hs
    rw [Table.lookupFrom?, hs, List.findSome?_cons]
    simp only [Scope.find?, hnames, lookup_numbered, number?]
    cases (firsts sites).findIdx? (Declaration.isIn scope name) with
    | some k => rfl
    | none =>
      show (if p.ordinal < scope.ordinal then t.lookupFrom? name p.ordinal else none) = _
      rw [if_pos hlt, ih hp]
      rfl

theorem Describes.lookup? (hd : t.Describes sites) (h : t.Path scope outer)
    (hc : t.current = scope.ordinal) (name : String) (offset : Nat) :
    t.lookup? name = bindingNumber? sites ⟨name, offset, scope :: outer⟩ := by
  rw [Table.lookup?, hc, hd.lookupFrom? name h, bindingNumber?]

theorem Describes.size_symbols (hd : t.Describes sites) :
    t.symbols.size = (firsts sites).length := by
  rw [← Array.length_toList, hd.symbols, length_symbols]

/-- Entering a scope puts it into the table, below the current one. -/
theorem holds_enter (kind : ScopeKind) {id : ScopeId} {parent : Option ScopeId}
    (h : t.Holds id parent) : (t.enter kind).Holds id parent := by
  obtain ⟨names, hs⟩ := h
  refine ⟨names, ?_⟩
  have hlt : id.ordinal < t.scopes.size := (Array.getElem?_eq_some_iff.mp hs).1
  show (t.scopes.push _)[id.ordinal]? = _
  rw [Array.getElem?_push_lt hlt, ← hs]
  exact (Array.getElem?_eq_getElem hlt).symm

/-- The scopes after one is entered: the old ones, and a new one at the end. -/
theorem scope_enter {kind : ScopeKind} {i : Nat} {s : Scope}
    (h : (t.enter kind).scopes[i]? = some s) : t.scopes[i]? = some s ∨
      i = t.scopes.size ∧ s = ⟨⟨kind, t.scopes.size⟩, some t.currentId, []⟩ := by
  have hs : (t.scopes.push ⟨⟨kind, t.scopes.size⟩, some t.currentId, []⟩)[i]? = some s := h
  rw [Array.getElem?_push] at hs
  split at hs
  · rename_i hi
    exact .inr ⟨hi, (Option.some.inj hs).symm⟩
  · exact .inl hs

theorem Files.enter {ds : List Declaration} (h : t.Files ds)
    (hbelow : ∀ d ∈ ds, d.scope.ordinal < t.scopes.size) (kind : ScopeKind) :
    (t.enter kind).Files ds := by
  intro i s hs
  rcases scope_enter hs with hold | ⟨-, rfl⟩
  · exact h i s hold
  · -- the new scope is beyond all that declare something
    refine (numbered_eq_nil fun d hmem heq => ?_).symm
    have hlt := hbelow d hmem
    rw [heq] at hlt
    exact Nat.lt_irrefl _ hlt

theorem Describes.enter (hd : t.Describes sites) (kind : ScopeKind) :
    (t.enter kind).Describes sites where
  symbols := hd.symbols
  ordinal i s hs := by
    rcases scope_enter hs with hold | ⟨rfl, rfl⟩
    · exact hd.ordinal i s hold
    · rfl
  names := Files.enter hd.names hd.below kind
  below d hmem := by
    show d.scope.ordinal < (t.scopes.push _).size
    rw [Array.size_push]
    exact Nat.lt_succ_of_lt (hd.below d hmem)

/-- The table after a first declaration. -/
def declared (t : Table) (d : Declaration) : Table :=
  ⟨t.scopes.modify t.current fun s => { s with names := s.names ++ [(d.name, t.symbols.size)] },
    t.symbols.push ⟨d.name, d.kind, 0, d.offset, d.scope⟩, t.current⟩

theorem holds_declared (d : Declaration) {id : ScopeId} {parent : Option ScopeId}
    (h : t.Holds id parent) : (t.declared d).Holds id parent := by
  obtain ⟨names, hs⟩ := h
  show ∃ names, (t.scopes.modify t.current _)[id.ordinal]? = _
  rw [Array.getElem?_modify, hs]
  split
  · exact ⟨_, rfl⟩
  · exact ⟨names, rfl⟩

/-- The scopes after a declaration: the one that the cursor is on has got the name, under the number
    of the symbol just made. -/
theorem scope_declared {d : Declaration} {i : Nat} {s : Scope}
    (h : (t.declared d).scopes[i]? = some s) : ∃ old, t.scopes[i]? = some old ∧
      s = { old with names :=
        old.names ++ if t.current = i then [(d.name, t.symbols.size)] else [] } := by
  have hs : (t.scopes.modify t.current fun s =>
      { s with names := s.names ++ [(d.name, t.symbols.size)] })[i]? = some s := h
  rw [Array.getElem?_modify] at hs
  by_cases hi : t.current = i
  · rw [if_pos hi] at hs
    obtain ⟨old, hget, rfl⟩ := Option.map_eq_some_iff.mp hs
    exact ⟨old, hget, by rw [if_pos hi]⟩
  · rw [if_neg hi] at hs
    exact ⟨s, hs, by rw [if_neg hi, List.append_nil]⟩

theorem Files.declared {ds : List Declaration} (h : t.Files ds)
    (hordinal : ∀ (i : Nat) (s : Scope), t.scopes[i]? = some s → s.id.ordinal = i)
    (hlength : ds.length = t.symbols.size) {d : Declaration} {parent : Option ScopeId}
    (hd : t.Holds d.scope parent) (hc : t.current = d.scope.ordinal) :
    (t.declared d).Files (ds ++ [d]) := by
  intro i s hs
  obtain ⟨old, hold, rfl⟩ := scope_declared hs
  rw [numbered_concat, hlength, ← h i old hold]
  refine congrArg (old.names ++ ·) ?_
  by_cases hi : t.current = i
  · obtain ⟨names, hget⟩ := hd
    rw [← hi, hc, hget] at hold
    have hid : d.scope = old.id := congrArg Scope.id (Option.some.inj hold)
    rw [if_pos hi, if_pos hid]
  · have hne : d.scope ≠ old.id := by
      intro heq
      apply hi
      rw [hc, heq]
      exact hordinal i old hold
    rw [if_neg hi, if_neg hne]

theorem Describes.declared (hd : t.Describes sites) {d : Declaration} {parent : Option ScopeId}
    (h : t.Holds d.scope parent) (hc : t.current = d.scope.ordinal)
    (hnew : first? sites d.scope d.name = none) :
    (t.declared d).Describes (sites ++ [.declaration d]) := by
  have hfirsts : firsts (sites ++ [.declaration d]) = firsts sites ++ [d] := by
    rw [firsts_concat_declaration, hnew]
    rfl
  refine ⟨?_, fun i s hs => ?_, ?_, fun e he => ?_⟩
  · show (t.symbols.push _).toList = _
    rw [Array.toList_push, hd.symbols, symbols_concat_first hnew]
  · obtain ⟨old, hold, rfl⟩ := scope_declared hs
    exact hd.ordinal i old hold
  · rw [hfirsts]
    exact Files.declared hd.names hd.ordinal hd.size_symbols.symm h hc
  · show e.scope.ordinal < (t.scopes.modify _ _).size
    rw [Array.size_modify]
    rw [hfirsts] at he
    rcases List.mem_append.mp he with hold | hlast
    · exact hd.below e hold
    · rw [List.mem_singleton.mp hlast]
      exact h.lt_size

/-- A declaration that comes too late leaves the table as it is. -/
theorem Describes.late (hd : t.Describes sites) {d e : Declaration}
    (hold : first? sites d.scope d.name = some e) :
    t.Describes (sites ++ [.declaration d]) := by
  have hfirsts : firsts (sites ++ [.declaration d]) = firsts sites := by
    rw [firsts_concat_declaration, hold]
    exact List.append_nil _
  refine ⟨by rw [hd.symbols, symbols_concat_late hold], hd.ordinal, ?_, ?_⟩
  · rw [hfirsts]
    exact hd.names
  · rw [hfirsts]
    exact hd.below

/-- A use that is bound counts for its symbol. -/
theorem Describes.refer (hd : t.Describes sites) {u : Use} {k : Nat}
    (hk : bindingNumber? sites u = some k) : (t.refer k).Describes (sites ++ [.use u]) := by
  refine ⟨?_, hd.ordinal, ?_, ?_⟩
  · show (t.symbols.modify k _).toList = _
    rw [Array.toList_modify, hd.symbols, symbols_concat_use, hk]
  · rw [firsts_concat_use]
    exact hd.names
  · rw [firsts_concat_use]
    exact hd.below

/-- A use that is bound to nothing leaves the table as it is. -/
theorem Describes.unbound (hd : t.Describes sites) {u : Use}
    (hk : bindingNumber? sites u = none) : t.Describes (sites ++ [.use u]) := by
  refine ⟨by rw [hd.symbols, symbols_concat_use, hk], hd.ordinal, ?_, ?_⟩
  · rw [firsts_concat_use]
    exact hd.names
  · rw [firsts_concat_use]
    exact hd.below

end Table

end CurlyScript
