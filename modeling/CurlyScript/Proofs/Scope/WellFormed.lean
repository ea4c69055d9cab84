import CurlyScript.Proofs.Scope.Environment
import Mathlib.Data.List.Sort

/-
  Symbol tables stay well formed.

  Whatever is done to a new table, and in whatever order, its parts fit together
  (`Table.WellFormed`): ids are places, parents come first, and the maps of the scopes divide the
  symbols among them.

  1. **Filing** — `Table.IsFiled`: the names of a scope are those of the symbols that were declared
     in it, by number.  There is one lemma for each operation, and everything else is read off it.

  2. **Histories** — a symbol is what its declaration made of it, and counts the references that
     came after (`getElem?_after`).

  3. **Look-ups** — the walk along the parents always comes to an end (`IsFiled.searches`), and the
     symbols of a scope are found in the order of declaration in whatever order its map is gone
     through (`IsFiled.symbolsIn_eq`, `IsFiled.symbolsBy_eq`).
-/

namespace CurlyScript

/-! ## Symbols by number -/

/-- The declaration that made a symbol. -/
def Symbol.declaration (s : Symbol) : Declaration := ⟨s.name, s.kind, s.offset, s.scope⟩

/-- A symbol after some more references to it. -/
def Symbol.counting (s : Symbol) (more : Nat) : Symbol :=
  { s with references := s.references + more }

theorem mem_numbered {ds : List Declaration} {scope : ScopeId} {e : String × Nat} :
    e ∈ numbered ds scope ↔ ∃ d, ds[e.2]? = some d ∧ d.scope = scope ∧ d.name = e.1 := by
  rw [numbered, List.mem_filterMap]
  constructor
  · rintro ⟨⟨d, k⟩, hd, he⟩
    rw [Option.ite_none_right_eq_some] at he
    obtain ⟨hscope, he⟩ := he
    rw [← Option.some.inj he]
    exact ⟨d, List.mem_zipIdx_iff_getElem?.mp hd, hscope, rfl⟩
  · rintro ⟨d, hd, hscope, hname⟩
    refine ⟨(d, e.2), List.mem_zipIdx_iff_getElem?.mpr hd, ?_⟩
    rw [if_pos hscope, hname]

/-- The numbers in a scope go up. -/
theorem pairwise_numbered (ds : List Declaration) (scope : ScopeId) :
    ((numbered ds scope).map (·.2)).Pairwise (· < ·) := by
  -- from the back: the next number is above all that there are
  induction ds using List.reverseRecOn with
  | nil => exact List.Pairwise.nil
  | append_singleton ds d ih =>
    rw [numbered_concat, List.map_append]
    refine List.pairwise_append.mpr ⟨ih, ?_, ?_⟩
    · split
      · exact List.pairwise_singleton _ _
      · exact List.Pairwise.nil
    · intro k hk l hl
      obtain ⟨e, he, rfl⟩ := List.mem_map.mp hk
      obtain ⟨x, hx, -, -⟩ := mem_numbered.mp he
      split at hl
      · rw [List.mem_singleton.mp hl]
        exact (List.getElem?_eq_some_iff.mp hx).1
      · exact absurd hl List.not_mem_nil

/-- The names in a scope are those of its declarations. -/
theorem map_fst_numbered (ds : List Declaration) (scope : ScopeId) :
    (numbered ds scope).map (·.1) = (ds.filter (·.scope = scope)).map (·.name) := by
  induction ds using List.reverseRecOn with
  | nil => rfl
  | append_singleton ds d ih =>
    rw [numbered_concat, List.map_append, List.filter_append, List.map_append, ih]
    by_cases hd : d.scope = scope
    · simp [hd]
    · simp [hd]

/-- Symbols that are looked up by the numbers in a scope are those that were declared in it. -/
theorem filterMap_numbered (xs : List Symbol) (scope : ScopeId) :
    (numbered (xs.map Symbol.declaration) scope).filterMap (fun e => xs[e.2]?) =
      xs.filter (·.scope = scope) := by
  induction xs using List.reverseRecOn with
  | nil => rfl
  | append_singleton xs x ih =>
    have hold : ∀ e ∈ numbered (xs.map Symbol.declaration) scope, (xs ++ [x])[e.2]? = xs[e.2]? := by
      intro e he
      obtain ⟨d, hd, -, -⟩ := mem_numbered.mp he
      have hlt := (List.getElem?_eq_some_iff.mp hd).1
      rw [List.length_map] at hlt
      exact List.getElem?_append_left hlt
    rw [List.map_append, List.map_singleton, numbered_concat, List.filterMap_append,
      List.filter_append, List.filterMap_congr hold, ih]
    by_cases hx : x.scope = scope
    · simp [Symbol.declaration, hx]
    · simp [Symbol.declaration, hx]

namespace Table

variable {t : Table}

/-! ## Filing -/

/-- The declarations that made the symbols, by number. -/
def declarations (t : Table) : List Declaration := t.symbols.toList.map Symbol.declaration

/-- The symbols are filed under the scopes that they were declared in, and scopes under the ones
    that they were opened in. -/
structure IsFiled (t : Table) : Prop extends IsSound t where
  root : ∀ (i : Nat) (s : Scope), t.scopes[i]? = some s → (s.parent = none ↔ i = 0)
  around : ∀ (i : Nat) (s : Scope) (p : ScopeId), t.scopes[i]? = some s → s.parent = some p →
    ∃ q, t.Holds p q
  names : t.Files t.declarations
  home : ∀ d ∈ t.declarations, ∃ q, t.Holds d.scope q
  distinct : t.declarations.Pairwise fun d e => d.isIn e.scope e.name = false

theorem isFiled_empty : empty.IsFiled where
  toIsSound := isSound_empty
  root i s hs := by
    cases i with
    | zero =>
      rw [← Option.some.inj hs]
      exact ⟨fun _ => rfl, fun _ => rfl⟩
    | succ i => cases hs
  around i s p hs hp := by
    cases i with
    | zero =>
      rw [← Option.some.inj hs] at hp
      cases hp
    | succ i => cases hs
  names i s hs := by
    cases i with
    | zero =>
      rw [← Option.some.inj hs]
      rfl
    | succ i => cases hs
  home _ hd := absurd hd List.not_mem_nil
  distinct := List.Pairwise.nil

/-- The cursor is on the scope that it says. -/
theorem IsSound.holds_current (h : t.IsSound) :
    t.Holds t.currentId t.currentScope.parent ∧ t.current = t.currentId.ordinal := by
  have hget := h.getElem?_current
  have hordinal : t.currentId.ordinal = t.current := h.ordinal _ _ hget
  exact ⟨⟨t.currentScope.names, by rw [hordinal, hget]; rfl⟩, hordinal.symm⟩

theorem IsFiled.enter (h : t.IsFiled) (kind : ScopeKind) : (t.enter kind).IsFiled where
  toIsSound := h.toIsSound.enter kind
  root i s hs := by
    rcases scope_enter hs with hold | ⟨rfl, rfl⟩
    · exact h.root i s hold
    · have hpos : 0 < t.scopes.size := Nat.zero_lt_of_lt h.current
      constructor
      · intro hnone
        cases hnone
      · intro hzero
        omega
  around i s p hs hp := by
    rcases scope_enter hs with hold | ⟨rfl, rfl⟩
    · obtain ⟨q, hq⟩ := h.around i s p hold hp
      exact ⟨q, holds_enter kind hq⟩
    · rw [← Option.some.inj hp]
      exact ⟨_, holds_enter kind h.toIsSound.holds_current.1⟩
  names := by
    refine Files.enter h.names (fun d hd => ?_) kind
    obtain ⟨q, hq⟩ := h.home d hd
    exact hq.lt_size
  home d hd := by
    obtain ⟨q, hq⟩ := h.home d hd
    exact ⟨q, holds_enter kind hq⟩
  distinct := h.distinct

/-- Leaving a scope moves nothing but the cursor. -/
theorem leave_eq (t : Table) : t.leave = { t with current := t.leave.current } := by
  rw [Table.leave]
  cases t.currentScope.parent <;> rfl

theorem IsFiled.leave (h : t.IsFiled) : t.leave.IsFiled := by
  have hsound := h.toIsSound.leave
  rw [leave_eq] at hsound ⊢
  exact ⟨hsound, h.root, h.around, h.names, h.home, h.distinct⟩

/-- A name that is new to the scope of the cursor is filed there. -/
theorem IsFiled.declared (h : t.IsFiled) {d : Declaration} (hscope : d.scope = t.currentId)
    (hnew : t.lookupLocal? d.name = none) : (t.declared d).IsFiled := by
  obtain ⟨hholds, hcurrent⟩ := h.toIsSound.holds_current
  have hdeclarations : (t.declared d).declarations = t.declarations ++ [d] := by
    show (t.symbols.push _).toList.map _ = _
    rw [Array.toList_push, List.map_append]
    rfl
  have hlength : t.declarations.length = t.symbols.size := by
    rw [declarations, List.length_map, Array.length_toList]
  rw [← hscope] at hholds hcurrent
  refine ⟨h.toIsSound.declared d, fun i s hs => ?_, fun i s p hs hp => ?_, ?_, fun e he => ?_, ?_⟩
  · obtain ⟨old, hold, rfl⟩ := scope_declared hs
    exact h.root i old hold
  · obtain ⟨old, hold, rfl⟩ := scope_declared hs
    obtain ⟨q, hq⟩ := h.around i old p hold hp
    exact ⟨q, holds_declared d hq⟩
  · rw [hdeclarations]
    exact Files.declared h.names h.ordinal hlength hholds hcurrent
  · rw [hdeclarations] at he
    rcases List.mem_append.mp he with hold | hlast
    · obtain ⟨q, hq⟩ := h.home e hold
      exact ⟨q, holds_declared d hq⟩
    · rw [List.mem_singleton.mp hlast]
      exact ⟨_, holds_declared d hholds⟩
  · -- had the name been declared in this scope, it would have been found there
    have hlookup : t.lookupLocal? d.name =
        t.declarations.findIdx? (Declaration.isIn d.scope d.name) := by
      rw [lookupLocal?, Scope.find?, h.names _ _ h.getElem?_current, lookup_numbered, hscope]
      rfl
    rw [hlookup] at hnew
    have hnone := List.findIdx?_eq_none_iff.mp hnew
    rw [hdeclarations]
    refine List.pairwise_append.mpr ⟨h.distinct, List.pairwise_singleton _ d, fun e he x hx => ?_⟩
    rw [List.mem_singleton.mp hx]
    exact hnone e he

theorem declarations_refer (t : Table) (number : Nat) :
    (t.refer number).declarations = t.declarations :=
  map_symbols_refer_same (fun _ => rfl) number

theorem IsFiled.refer (h : t.IsFiled) (number : Nat) : (t.refer number).IsFiled := by
  have hdeclarations := declarations_refer t number
  refine ⟨h.toIsSound.refer number, h.root, h.around, ?_, ?_, ?_⟩
  · rw [hdeclarations]
    exact h.names
  · rw [hdeclarations]
    exact h.home
  · rw [hdeclarations]
    exact h.distinct

/-- A declaration gives the next number to a name that is new to the current scope, and else
    changes nothing. -/
theorem perform_declare (t : Table) (name : String) (kind : SymbolKind) (offset : Nat) :
    (t.lookupLocal? name = none ∧ t.perform (.declare name kind offset) =
      (.declared (.ok t.symbols.size), t.declared ⟨name, kind, offset, t.currentId⟩)) ∨
    (∃ existing, t.lookupLocal? name = some existing ∧
      t.perform (.declare name kind offset) =
        (.declared (.error ⟨name, existing, t.currentId⟩), t)) := by
  rw [perform, Table.declare]
  cases hl : t.lookupLocal? name with
  | none => exact .inl ⟨rfl, rfl⟩
  | some existing => exact .inr ⟨existing, rfl, rfl⟩

/-- One operation keeps the symbols filed. -/
theorem IsFiled.perform (h : t.IsFiled) (o : Operation) : (t.perform o).2.IsFiled := by
  cases o with
  | enter kind => exact h.enter kind
  | leave => exact h.leave
  | declare name kind offset =>
    obtain ⟨hnew, hstep⟩ | ⟨existing, -, hstep⟩ := t.perform_declare name kind offset
    · rw [hstep]
      exact h.declared rfl hnew
    · rw [hstep]
      exact h
  | lookup name => exact h
  | lookupLocal name => exact h
  | refer number => exact h.refer number

/-! ## Runs -/

/-- A new table after operations in a row. -/
def after (os : List Operation) : Table := os.foldl (fun t o => (t.perform o).2) .empty

theorem after_concat (os : List Operation) (o : Operation) :
    after (os ++ [o]) = ((after os).perform o).2 := by
  rw [after, List.foldl_append]
  rfl

theorem isFiled_after (os : List Operation) : (after os).IsFiled := by
  induction os using List.reverseRecOn with
  | nil => exact isFiled_empty
  | append_singleton os o ih =>
    rw [after_concat]
    exact ih.perform o

/-- The parts of a table fit together. -/
structure WellFormed (t : Table) : Prop where
  /-- A scope is known by its place. -/
  ordinal : ∀ (i : Nat) (s : Scope), t.scopes[i]? = some s → s.id.ordinal = i
  /-- The first scope, and it alone, stands in no other. -/
  root : ∀ (i : Nat) (s : Scope), t.scopes[i]? = some s → (s.parent = none ↔ i = 0)
  /-- What a scope stands in is a scope that comes before it. -/
  parent : ∀ (i : Nat) (s : Scope) (p : ScopeId), t.scopes[i]? = some s → s.parent = some p →
    ∃ j s', j < i ∧ t.scopes[j]? = some s' ∧ s'.id = p
  /-- The cursor is on a scope. -/
  current : t.current < t.scopes.size
  /-- A scope has one entry for a name. -/
  keys : ∀ s ∈ t.scopes, (s.names.map (·.1)).Nodup
  /-- An entry is for a symbol of that name and that scope. -/
  entry : ∀ s ∈ t.scopes, ∀ e ∈ s.names,
    ∃ x, t.symbols[e.2]? = some x ∧ x.name = e.1 ∧ x.scope = s.id
  /-- A symbol has one entry in one scope, and none in the others. -/
  once : ∀ number < t.symbols.size, ∃ i s, t.scopes[i]? = some s ∧
    (s.names.map (·.2)).count number = 1 ∧
    ∀ (j : Nat) (s' : Scope), t.scopes[j]? = some s' → number ∈ s'.names.map (·.2) → j = i

theorem getElem?_declarations {number : Nat} {d : Declaration} :
    t.declarations[number]? = some d ↔ ∃ x, t.symbols[number]? = some x ∧ x.declaration = d := by
  rw [declarations, List.getElem?_map, Array.getElem?_toList, Option.map_eq_some_iff]

theorem IsFiled.wellFormed (h : t.IsFiled) : t.WellFormed where
  ordinal := h.ordinal
  root := h.root
  parent i s p hs hp := by
    obtain ⟨q, names, hq⟩ := h.around i s p hs hp
    exact ⟨p.ordinal, _, h.parent i s p hs hp, hq, rfl⟩
  current := h.current
  keys s hs := by
    obtain ⟨i, hi⟩ := Array.mem_iff_getElem?.mp hs
    rw [h.names i s hi]
    rw [map_fst_numbered, List.Nodup, List.pairwise_map, List.pairwise_filter]
    -- entries of one name would come from two declarations of it in one scope
    refine h.distinct.imp fun {d e} hne hd he heq => ?_
    have hscope : d.scope = e.scope := (of_decide_eq_true hd).trans (of_decide_eq_true he).symm
    rw [Sites.isIn_iff.mpr ⟨hscope, heq⟩] at hne
    exact Bool.noConfusion hne
  entry s hs e he := by
    obtain ⟨i, hi⟩ := Array.mem_iff_getElem?.mp hs
    rw [h.names i s hi] at he
    obtain ⟨d, hd, hscope, hname⟩ := mem_numbered.mp he
    obtain ⟨x, hx, rfl⟩ := getElem?_declarations.mp hd
    exact ⟨x, hx, hname, hscope⟩
  once number hnumber := by
    obtain ⟨d, hd⟩ : ∃ d, t.declarations[number]? = some d :=
      ⟨_, getElem?_declarations.mpr ⟨_, Array.getElem?_eq_getElem hnumber, rfl⟩⟩
    obtain ⟨q, names, hq⟩ := h.home d (List.mem_of_getElem? hd)
    have hnames : names = numbered t.declarations d.scope := h.names _ _ hq
    refine ⟨d.scope.ordinal, _, hq, ?_, fun j s hs hmem => ?_⟩
    · refine List.count_eq_one_of_mem ?_ ?_
      · rw [hnames]
        exact (pairwise_numbered _ _).imp Nat.ne_of_lt
      · rw [hnames]
        exact List.mem_map.mpr ⟨(d.name, number), mem_numbered.mpr ⟨d, hd, rfl, rfl⟩, rfl⟩
    · obtain ⟨e, he, rfl⟩ := List.mem_map.mp hmem
      rw [h.names j s hs] at he
      obtain ⟨d', hd', hscope, -⟩ := mem_numbered.mp he
      obtain rfl : d' = d := Option.some.inj (hd'.symm.trans hd)
      rw [hscope]
      exact (h.ordinal j s hs).symm

/-! ## Histories -/

/-- What one operation does to the symbols: it makes the next one, or counts a reference for the one
    that it refers to. -/
theorem symbols_perform (t : Table) (o : Operation) :
    (∃ name kind offset, o = .declare name kind offset ∧
      (t.perform o).1 = .declared (.ok t.symbols.size) ∧
      (t.perform o).2.symbols = t.symbols.push ⟨name, kind, 0, offset, t.currentId⟩) ∨
    ((∀ number, (t.perform o).1 ≠ .declared (.ok number)) ∧
      ∀ number : Nat, (t.perform o).2.symbols[number]? =
        t.symbols[number]?.map (·.counting ([o].count (.refer number)))) := by
  have hrest : (t.perform o).2.symbols = t.symbols → (∀ k, o ≠ .refer k) → ∀ number : Nat,
      (t.perform o).2.symbols[number]? =
        t.symbols[number]?.map (·.counting ([o].count (.refer number))) := by
    intro hsymbols hnot number
    have hcount : [o].count (.refer number) = 0 := by
      simpa [List.count_singleton] using hnot number
    rw [hsymbols, hcount]
    exact (congrFun Option.map_id _).symm
  cases o with
  | enter kind => exact .inr ⟨by simp [perform], hrest rfl (by simp)⟩
  | leave =>
    have hleave : t.leave.symbols = t.symbols := by rw [leave_eq]
    exact .inr ⟨by simp [perform], hrest hleave (by simp)⟩
  | declare name kind offset =>
    obtain ⟨hnew, hstep⟩ | ⟨existing, -, hstep⟩ := t.perform_declare name kind offset
    · exact .inl ⟨name, kind, offset, rfl, by rw [hstep], by rw [hstep]; rfl⟩
    · exact .inr ⟨by simp [hstep], hrest (by rw [hstep]) (by simp)⟩
  | lookup name => exact .inr ⟨by simp [perform], hrest rfl (by simp)⟩
  | lookupLocal name => exact .inr ⟨by simp [perform], hrest rfl (by simp)⟩
  | refer k =>
    refine .inr ⟨by simp [perform], fun number => ?_⟩
    show (t.symbols.modify k _)[number]? = _
    rw [Array.getElem?_modify]
    by_cases hk : k = number
    · subst hk
      simp [Symbol.counting]
    · have hcount : [Operation.refer k].count (.refer number) = 0 := by
        simpa [List.count_singleton] using hk
      rw [if_neg hk, hcount]
      exact (congrFun Option.map_id _).symm

/-- A symbol after one operation is an old one, or the one that was declared. -/
theorem getElem?_perform (t : Table) (o : Operation) {number : Nat} {x : Symbol} :
    (t.perform o).2.symbols[number]? = some x ↔
      (∃ y, t.symbols[number]? = some y ∧ x = y.counting ([o].count (.refer number))) ∨
      ∃ name kind offset, o = .declare name kind offset ∧
        (t.perform o).1 = .declared (.ok number) ∧ x = ⟨name, kind, 0, offset, t.currentId⟩ := by
  obtain ⟨name, kind, offset, rfl, hmade, hsymbols⟩ | ⟨hnot, hsymbols⟩ := t.symbols_perform o
  · rw [hsymbols, hmade, Array.getElem?_push]
    by_cases hnumber : number = t.symbols.size
    · subst hnumber
      have hnone : t.symbols[t.symbols.size]? = none := Array.getElem?_size
      rw [if_pos rfl, hnone]
      constructor
      · intro h
        exact .inr ⟨name, kind, offset, rfl, rfl, (Option.some.inj h).symm⟩
      · rintro (⟨y, hy, -⟩ | ⟨_, _, _, hsame, -, rfl⟩)
        · cases hy
        · cases hsame
          rfl
    · rw [if_neg hnumber]
      constructor
      · exact fun h => .inl ⟨x, h, rfl⟩
      · rintro (⟨y, hy, rfl⟩ | ⟨_, _, _, -, hsame, -⟩)
        · exact hy
        · cases hsame
          exact absurd rfl hnumber
  · rw [hsymbols, Option.map_eq_some_iff]
    constructor
    · rintro ⟨y, hy, rfl⟩
      exact .inl ⟨y, hy, rfl⟩
    · rintro (⟨y, hy, rfl⟩ | ⟨_, _, _, -, hmade, -⟩)
      · exact ⟨y, hy, rfl⟩
      · exact absurd hmade (hnot number)

/-- **The history of a symbol.**  It is what the declaration that got its number made of it, but for
    the references, which are those that came after. -/
theorem getElem?_after {os : List Operation} {number : Nat} {x : Symbol} :
    (after os).symbols[number]? = some x ↔ ∃ before name kind offset later,
      os = before ++ .declare name kind offset :: later ∧
      ((after before).perform (.declare name kind offset)).1 = .declared (.ok number) ∧
      x = ⟨name, kind, later.count (.refer number), offset, (after before).currentId⟩ := by
  induction os using List.reverseRecOn generalizing x with
  | nil =>
    constructor
    · intro h
      cases h
    · rintro ⟨before, name, kind, offset, later, hos, -⟩
      exact absurd hos (by simp)
  | append_singleton os o ih =>
    rw [after_concat, getElem?_perform]
    constructor
    · rintro (⟨y, hy, rfl⟩ | ⟨name, kind, offset, rfl, hmade, rfl⟩)
      · obtain ⟨before, name, kind, offset, later, rfl, hmade, rfl⟩ := ih.mp hy
        refine ⟨before, name, kind, offset, later ++ [o], by simp, hmade, ?_⟩
        rw [List.count_append]
        rfl
      · exact ⟨os, name, kind, offset, [], rfl, hmade, rfl⟩
    · rintro ⟨before, name, kind, offset, later, hos, hmade, rfl⟩
      -- the last operation is the declaration itself, or comes after it
      rcases List.eq_nil_or_concat' later with rfl | ⟨later, o', rfl⟩
      · obtain ⟨rfl, ho⟩ := List.append_inj' hos rfl
        obtain rfl := List.singleton_inj.mp ho
        exact .inr ⟨name, kind, offset, rfl, hmade, rfl⟩
      · rw [← List.cons_append, ← List.append_assoc] at hos
        obtain ⟨rfl, ho⟩ := List.append_inj' hos rfl
        obtain rfl := List.singleton_inj.mp ho
        refine .inl ⟨_, ih.mpr ⟨before, name, kind, offset, later, rfl, hmade, rfl⟩, ?_⟩
        rw [List.count_append]
        rfl

/-! ## Look-ups -/

/-- The walk of a look-up, which goes on from scope to scope outwards with nothing to stop it but
    what it finds: from the scope of ordinal `i` it ends with the result. -/
inductive Searches (t : Table) (name : String) : Nat → Option Nat → Prop where
  | found {i number : Nat} {s : Scope} : t.scopes[i]? = some s → s.find? name = some number →
    Searches t name i (some number)
  | root {i : Nat} {s : Scope} : t.scopes[i]? = some s → s.find? name = none → s.parent = none →
    Searches t name i none
  | outwards {i : Nat} {s : Scope} {p : ScopeId} {result : Option Nat} :
    t.scopes[i]? = some s → s.find? name = none → s.parent = some p →
      Searches t name p.ordinal result → Searches t name i result

/-- Every walk ends, since each scope lies above its parent. -/
theorem IsSound.searches (h : t.IsSound) (name : String) {i : Nat} (hi : i < t.scopes.size) :
    t.Searches name i (t.lookupFrom? name i) := by
  induction i using Nat.strongRecOn with
  | ind i ih =>
    have hs := Array.getElem?_eq_getElem hi
    rw [lookupFrom?, hs]
    dsimp only
    cases hfind : t.scopes[i].find? name with
    | some number => exact .found hs hfind
    | none =>
      cases hp : t.scopes[i].parent with
      | none => exact .root hs hfind hp
      | some p =>
        have hlt := h.parent i _ p hs hp
        dsimp only
        rw [if_pos hlt]
        exact .outwards hs hfind hp (ih p.ordinal hlt (Nat.lt_trans hlt hi))

/-- The symbols of a scope are all that were declared in it, in the order of declaration. -/
theorem IsFiled.symbolsIn_eq (h : t.IsFiled) (id : ScopeId) :
    t.symbolsIn id = t.symbols.toList.filter (·.scope = id) := by
  rw [symbolsIn]
  cases hs : t.scope? id with
  | none =>
    -- a scope that is not there has declared nothing
    refine (List.filter_eq_nil_iff.mpr fun x hx hscope => ?_).symm
    obtain ⟨q, names, hq⟩ := h.home x.declaration (List.mem_map_of_mem hx)
    have hid : x.declaration.scope = id := of_decide_eq_true hscope
    rw [hid] at hq
    rw [scope?, hq] at hs
    simp at hs
  | some s =>
    rw [scope?, Option.filter_eq_some_iff] at hs
    have hnames := h.names _ s hs.1
    rw [of_decide_eq_true hs.2] at hnames
    dsimp only
    rw [hnames, ← filterMap_numbered]
    simp only [declarations, Array.getElem?_toList]

/-- An order in which the entries of a scope are met. -/
structure Arrangement where
  /-- The entries in that order. -/
  entries : Scope → List (String × Nat)
  /-- They are all entries of the scope. -/
  perm : ∀ s, (entries s).Perm s.names

/-- The symbols of a scope whose entries are met in some order and then sorted by number. -/
def symbolsBy (t : Table) (a : Arrangement) (id : ScopeId) : List Symbol :=
  match t.scope? id with
  | none => []
  | some s => (((a.entries s).map (·.2)).mergeSort (· ≤ ·)).filterMap fun k => t.symbols[k]?

/-- Nothing comes of the order in which the entries of a scope are met. -/
theorem IsFiled.symbolsBy_eq (h : t.IsFiled) (a : Arrangement) (id : ScopeId) :
    t.symbolsBy a id = t.symbolsIn id := by
  rw [symbolsBy, symbolsIn]
  cases hs : t.scope? id with
  | none => rfl
  | some s =>
    rw [scope?, Option.filter_eq_some_iff] at hs
    have hsorted : (s.names.map (·.2)).Pairwise (· ≤ ·) := by
      rw [h.names _ s hs.1]
      exact (pairwise_numbered _ _).imp Nat.le_of_lt
    have hsort : ((a.entries s).map (·.2)).mergeSort (· ≤ ·) = s.names.map (·.2) :=
      ((List.mergeSort_perm _ _).trans ((a.perm s).map _)).eq_of_pairwise'
        (List.pairwise_mergeSort' (· ≤ ·) _) hsorted
    dsimp only
    rw [hsort, List.filterMap_map]
    rfl

/-- **Symbol tables are well formed**, whatever has been done to them.  A symbol is what its
    declaration made of it, with the references since then; every look-up comes to an end; and the
    symbols of a scope are those declared in it, each once and in the order of declaration, in
    whatever order its entries are met. -/
theorem wellFormed_after (os : List Operation) : (after os).WellFormed ∧
    (∀ number x, (after os).symbols[number]? = some x ↔ ∃ before name kind offset later,
      os = before ++ .declare name kind offset :: later ∧
      ((after before).perform (.declare name kind offset)).1 = .declared (.ok number) ∧
      x = ⟨name, kind, later.count (.refer number), offset, (after before).currentId⟩) ∧
    (∀ name, (after os).Searches name (after os).current ((after os).lookup? name)) ∧
    ∀ id, (after os).symbolsIn id = (after os).symbols.toList.filter (·.scope = id) ∧
      ∀ a, (after os).symbolsBy a id = (after os).symbolsIn id := by
  have h := isFiled_after os
  refine ⟨h.wellFormed, fun _ _ => getElem?_after, fun name => ?_, fun id => ⟨?_, fun a => ?_⟩⟩
  · exact h.toIsSound.searches name h.current
  · exact h.symbolsIn_eq id
  · exact h.symbolsBy_eq a id

end Table

end CurlyScript
