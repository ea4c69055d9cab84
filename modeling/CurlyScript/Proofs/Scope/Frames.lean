import CurlyScript.Proofs.Scope.Table

/-
  A symbol table is a stack of frames.

  Of the tree of scopes only the path from the cursor to the root can be seen by look-ups and
  declarations.  Read along the parents it is a stack (`Table.chain`, and `Table.frames` for the
  names alone): entering a scope pushes an empty frame, leaving one pops a frame unless it is the
  last, a declaration goes into the topmost frame, and a name is looked up from the top downwards.

  That holds of tables in which each scope lies above its parent (`Table.IsSound`), and every
  operation keeps them so.
-/

namespace CurlyScript

/-- The names of one scope, with the numbers of their symbols. -/
abbrev Frame := List (String × Nat)

namespace Table

variable {t t' : Table}

/-- The names of the scope of ordinal `i` and of those around it, the innermost first. -/
def framesFrom (t : Table) (i : Nat) : List Frame :=
  match t.scopes[i]? with
  | none => []
  | some s => s.names :: match s.parent with
    | some p => if p.ordinal < i then t.framesFrom p.ordinal else []
    | none => []
termination_by i

/-- The names of the open scopes, the innermost first. -/
def frames (t : Table) : List Frame := t.framesFrom t.current

/-- Each scope is known by its place and lies above its parent, and the cursor is on a scope. -/
structure IsSound (t : Table) : Prop where
  ordinal : ∀ (i : Nat) (s : Scope), t.scopes[i]? = some s → s.id.ordinal = i
  parent : ∀ (i : Nat) (s : Scope) (p : ScopeId), t.scopes[i]? = some s → s.parent = some p →
    p.ordinal < i
  current : t.current < t.scopes.size

theorem isSound_empty : empty.IsSound where
  ordinal i s hs := by
    cases i with
    | zero => rw [← Option.some.inj hs]; rfl
    | succ i => exact nomatch hs
  parent i s p hs hp := by
    cases i with
    | zero => rw [← Option.some.inj hs] at hp; exact nomatch hp
    | succ i => exact nomatch hs
  current := Nat.one_pos

/-! ## Scopes along the parents -/

/-- The scope of ordinal `i` and those around it, the innermost first. -/
def chainFrom (t : Table) (i : Nat) : List Scope :=
  match t.scopes[i]? with
  | none => []
  | some s => s :: match s.parent with
    | some p => if p.ordinal < i then t.chainFrom p.ordinal else []
    | none => []
termination_by i

/-- The open scopes, the innermost first. -/
def chain (t : Table) : List Scope := t.chainFrom t.current

/-- The scopes around a scope need only the scopes up to it. -/
theorem chainFrom_congr {i : Nat} (h : ∀ j ≤ i, t'.scopes[j]? = t.scopes[j]?) :
    t'.chainFrom i = t.chainFrom i := by
  induction i using Nat.strongRecOn with
  | ind i ih =>
    rw [chainFrom, chainFrom, h i (Nat.le_refl i)]
    cases t.scopes[i]? with
    | none => rfl
    | some s =>
      refine congrArg (s :: ·) ?_
      cases s.parent with
      | none => rfl
      | some p =>
        by_cases hp : p.ordinal < i
        · simp only [if_pos hp]
          exact ih p.ordinal hp fun j hj => h j (by omega)
        · simp only [if_neg hp]

/-- A frame is what a scope declares. -/
theorem framesFrom_eq (i : Nat) : t.framesFrom i = (t.chainFrom i).map Scope.names := by
  induction i using Nat.strongRecOn with
  | ind i ih =>
    rw [framesFrom, chainFrom]
    cases t.scopes[i]? with
    | none => rfl
    | some s =>
      refine congrArg (s.names :: ·) ?_
      cases s.parent with
      | none => rfl
      | some p =>
        by_cases hp : p.ordinal < i
        · simp only [if_pos hp, ih p.ordinal hp]
        · simp only [if_neg hp, List.map_nil]

theorem frames_eq_map : t.frames = t.chain.map Scope.names := framesFrom_eq t.current

/-- A name is looked up from scope to scope. -/
theorem lookupFrom?_eq (name : String) (i : Nat) :
    t.lookupFrom? name i = (t.chainFrom i).findSome? (·.find? name) := by
  induction i using Nat.strongRecOn with
  | ind i ih =>
    rw [lookupFrom?, chainFrom]
    cases t.scopes[i]? with
    | none => rfl
    | some s =>
      simp only [List.findSome?_cons]
      cases s.find? name with
      | some number => rfl
      | none =>
        cases s.parent with
        | none => rfl
        | some p =>
          by_cases hp : p.ordinal < i
          · simp only [if_pos hp, ih p.ordinal hp]
          · simp only [if_neg hp, List.findSome?_nil]

theorem lookup?_eq_chain (name : String) : t.lookup? name = t.chain.findSome? (·.find? name) :=
  lookupFrom?_eq name t.current

theorem lookup?_eq (name : String) : t.lookup? name = t.frames.findSome? (·.lookup name) := by
  rw [lookup?_eq_chain, frames_eq_map, List.findSome?_map]
  rfl

theorem IsSound.getElem?_current (h : t.IsSound) :
    t.scopes[t.current]? = some t.currentScope := by
  rw [currentScope, Array.getElem?_eq_getElem h.current, Option.getD_some]

/-- The innermost scope is the current one, and around it are those around its parent. -/
theorem IsSound.chain_eq (h : t.IsSound) : t.chain = t.currentScope ::
    match t.currentScope.parent with
    | some p => t.chainFrom p.ordinal
    | none => [] := by
  rw [chain, chainFrom, h.getElem?_current]
  refine congrArg (t.currentScope :: ·) ?_
  cases hp : t.currentScope.parent with
  | none => rfl
  | some p => exact if_pos (h.parent _ _ p h.getElem?_current hp)

/-- The topmost frame is that of the current scope, and below it are those of its parent. -/
theorem IsSound.frames_eq (h : t.IsSound) : t.frames = t.currentScope.names ::
    match t.currentScope.parent with
    | some p => t.framesFrom p.ordinal
    | none => [] := by
  rw [frames_eq_map, h.chain_eq, List.map_cons]
  cases t.currentScope.parent with
  | none => rfl
  | some p => exact congrArg _ (framesFrom_eq p.ordinal).symm

theorem chainFrom_ne_nil {i : Nat} (hi : i < t.scopes.size) : t.chainFrom i ≠ [] := by
  rw [chainFrom, Array.getElem?_eq_getElem hi]
  exact List.cons_ne_nil _ _

/-! ## Operations -/

theorem IsSound.enter (h : t.IsSound) (kind : ScopeKind) : (t.enter kind).IsSound where
  ordinal i s hs := by
    rcases scope_enter hs with hold | ⟨rfl, rfl⟩
    · exact h.ordinal i s hold
    · rfl
  parent i s p hs hp := by
    rcases scope_enter hs with hold | ⟨rfl, rfl⟩
    · exact h.parent i s p hold hp
    · -- the new scope goes to the end, so whatever it stands in lies below it
      rw [← Option.some.inj hp, currentId, h.ordinal _ _ h.getElem?_current]
      exact h.current
  current := by
    show t.scopes.size < (t.scopes.push _).size
    rw [Array.size_push]
    exact Nat.lt_succ_self _

/-- Entering a scope puts it on top of the open ones. -/
theorem IsSound.chain_enter (h : t.IsSound) (kind : ScopeKind) :
    (t.enter kind).chain = ⟨⟨kind, t.scopes.size⟩, some t.currentId, []⟩ :: t.chain := by
  have hlast : (t.enter kind).scopes[t.scopes.size]? =
      some ⟨⟨kind, t.scopes.size⟩, some t.currentId, []⟩ := Array.getElem?_push_size
  have hbelow : (t.enter kind).chainFrom t.current = t.chain := by
    refine chainFrom_congr fun j hj => ?_
    have hlt : j < t.scopes.size := Nat.lt_of_le_of_lt hj h.current
    show (t.scopes.push _)[j]? = _
    rw [Array.getElem?_push_lt hlt, Array.getElem?_eq_getElem hlt]
  have hid : t.currentId.ordinal = t.current := h.ordinal _ _ h.getElem?_current
  show (t.enter kind).chainFrom t.scopes.size = _
  rw [chainFrom, hlast]
  simp only [hid, if_pos h.current, hbelow]

/-- Entering a scope pushes an empty frame. -/
theorem IsSound.frames_enter (h : t.IsSound) (kind : ScopeKind) :
    (t.enter kind).frames = [] :: t.frames := by
  rw [frames_eq_map, h.chain_enter, frames_eq_map]
  rfl

theorem IsSound.leave (h : t.IsSound) : t.leave.IsSound := by
  rw [Table.leave]
  cases hp : t.currentScope.parent with
  | none => exact h
  | some p =>
    have hlt : p.ordinal < t.current := h.parent _ _ p h.getElem?_current hp
    exact ⟨h.ordinal, h.parent, Nat.lt_trans hlt h.current⟩

/-- Leaving a scope takes it off the open ones, unless it is the last. -/
theorem IsSound.chain_leave (h : t.IsSound) {s : Scope} {ss : List Scope}
    (hs : t.chain = s :: ss) : t.leave.chain = if ss.isEmpty then [s] else ss := by
  rw [h.chain_eq] at hs
  obtain ⟨rfl, rfl⟩ := List.cons.inj hs
  rw [Table.leave]
  cases hp : t.currentScope.parent with
  | none =>
    show t.chain = [t.currentScope]
    rw [h.chain_eq, hp]
  | some p =>
    have hlt : p.ordinal < t.current := h.parent _ _ p h.getElem?_current hp
    have hne : t.chainFrom p.ordinal ≠ [] := chainFrom_ne_nil (Nat.lt_trans hlt h.current)
    simp only [List.isEmpty_iff, if_neg hne]
    exact chainFrom_congr fun _ _ => rfl

/-- The scopes that a stack of frames comes from. -/
theorem exists_chain {f : Frame} {fs : List Frame} (hf : t.frames = f :: fs) :
    ∃ s ss, t.chain = s :: ss ∧ s.names = f ∧ ss.map Scope.names = fs := by
  rw [frames_eq_map] at hf
  exact List.map_eq_cons_iff.mp hf

/-- Leaving a scope pops a frame, unless it is the last. -/
theorem IsSound.frames_leave (h : t.IsSound) {f : Frame} {fs : List Frame}
    (hf : t.frames = f :: fs) : t.leave.frames = if fs.isEmpty then [f] else fs := by
  obtain ⟨s, ss, hs, rfl, rfl⟩ := exists_chain hf
  rw [frames_eq_map, h.chain_leave hs, List.isEmpty_map]
  cases ss with
  | nil => rfl
  | cons s' ss => rfl

/-- A name in the current scope itself is one in the topmost frame. -/
theorem IsSound.lookupLocal?_eq (h : t.IsSound) {f : Frame} {fs : List Frame}
    (hf : t.frames = f :: fs) (name : String) : t.lookupLocal? name = f.lookup name := by
  rw [h.frames_eq] at hf
  rw [← (List.cons.inj hf).1]
  rfl

theorem IsSound.declared (h : t.IsSound) (d : Declaration) : (t.declared d).IsSound where
  ordinal i scope hs := by
    obtain ⟨old, hold, rfl⟩ := scope_declared hs
    exact h.ordinal i old hold
  parent i scope p hs hp := by
    obtain ⟨old, hold, rfl⟩ := scope_declared hs
    exact h.parent i old p hold hp
  current := by
    show t.current < (t.scopes.modify t.current _).size
    rw [Array.size_modify]
    exact h.current

/-- A declaration goes into the innermost scope and leaves the others as they are. -/
theorem IsSound.chain_declared (h : t.IsSound) {s : Scope} {ss : List Scope}
    (hs : t.chain = s :: ss) (d : Declaration) : (t.declared d).chain =
      { s with names := s.names ++ [(d.name, t.symbols.size)] } :: ss := by
  rw [h.chain_eq] at hs
  obtain ⟨rfl, rfl⟩ := List.cons.inj hs
  have hget : (t.declared d).scopes[t.current]? = some { t.currentScope with
      names := t.currentScope.names ++ [(d.name, t.symbols.size)] } := by
    show (t.scopes.modify t.current _)[t.current]? = _
    rw [Array.getElem?_modify, if_pos rfl, h.getElem?_current]
    rfl
  show (t.declared d).chainFrom t.current = _
  rw [chainFrom, hget]
  refine congrArg (_ :: ·) ?_
  cases hp : t.currentScope.parent with
  | none => rfl
  | some p =>
    -- the scopes around it stand elsewhere in the table, and there nothing has changed
    have hlt : p.ordinal < t.current := h.parent _ _ p h.getElem?_current hp
    simp only [if_pos hlt]
    refine chainFrom_congr fun j hj => ?_
    show (t.scopes.modify t.current _)[j]? = _
    rw [Array.getElem?_modify, if_neg (by omega)]

/-- A declaration goes into the topmost frame. -/
theorem IsSound.frames_declared (h : t.IsSound) {f : Frame} {fs : List Frame}
    (hf : t.frames = f :: fs) (d : Declaration) :
    (t.declared d).frames = (f ++ [(d.name, t.symbols.size)]) :: fs := by
  obtain ⟨s, ss, hs, rfl, rfl⟩ := exists_chain hf
  rw [frames_eq_map, h.chain_declared hs]
  rfl

theorem IsSound.refer (h : t.IsSound) (number : Nat) : (t.refer number).IsSound :=
  ⟨h.ordinal, h.parent, h.current⟩

/-- A count goes up by one in whatever is read off the symbols. -/
theorem map_symbols_refer {α : Type} {f : Symbol → α} {g : α → α}
    (hfg : ∀ s : Symbol, f { s with references := s.references + 1 } = g (f s)) (number : Nat) :
    (t.refer number).symbols.toList.map f = (t.symbols.toList.map f).modify number g := by
  show (t.symbols.modify number _).toList.map f = _
  rw [Array.toList_modify]
  refine List.ext_getElem? fun i => ?_
  simp only [List.getElem?_map, List.getElem?_modify]
  cases t.symbols.toList[i]? with
  | none => rfl
  | some s => by_cases hi : number = i <;> simp [hi, hfg]

/-- What does not depend on the count stays as it is. -/
theorem map_symbols_refer_same {α : Type} {f : Symbol → α}
    (hf : ∀ s : Symbol, f { s with references := s.references + 1 } = f s) (number : Nat) :
    (t.refer number).symbols.toList.map f = t.symbols.toList.map f := by
  rw [map_symbols_refer (g := id) hf, List.modify_id]

theorem chain_refer (number : Nat) : (t.refer number).chain = t.chain :=
  chainFrom_congr fun _ _ => rfl

theorem frames_refer (number : Nat) : (t.refer number).frames = t.frames := by
  rw [frames_eq_map, chain_refer, frames_eq_map]

/-- The symbols of the current scope are those of the topmost frame. -/
theorem IsSound.symbolsIn_current (h : t.IsSound) {f : Frame} {fs : List Frame}
    (hf : t.frames = f :: fs) :
    t.symbolsIn t.currentId = f.filterMap fun entry => t.symbols[entry.2]? := by
  rw [h.frames_eq] at hf
  have hscope : t.scope? t.currentId = some t.currentScope := by
    rw [scope?, currentId, h.ordinal _ _ h.getElem?_current, h.getElem?_current]
    exact Option.filter_some_pos (decide_eq_true rfl)
  rw [symbolsIn, hscope, ← (List.cons.inj hf).1]

end Table

end CurlyScript
