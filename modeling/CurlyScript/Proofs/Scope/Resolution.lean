import CurlyScript.Proofs.Scope.Table

/-
  Resolution keeps track of the sites.

  While a program is walked, the state of the resolution is a record of the sites visited so far,
  and its cursor stands where the walk does (`Resolution.Tracks`).  One action keeps this up
  (`Tracks.declare`, `Tracks.use`, `Tracks.enter`, `Tracks.close`); hence an outline does, whatever
  stands in it (`Outline.tracks`), and the resolution of a program is read off its sites.
-/

namespace CurlyScript

open Sites

namespace Resolution

/-- The resolution describes the sites, and its cursor stands in `scope` with `outer` around it. -/
structure Tracks (r : Resolution) (sites : List Site) (scope : ScopeId) (outer : List ScopeId) :
    Prop where
  table : r.table.Describes sites
  current : r.table.current = scope.ordinal
  path : r.table.Path scope outer
  redeclarations : r.redeclarations.toList = Sites.redeclarations sites
  undefined : r.undefined.toList = Sites.undefined sites
  log : r.log.toList = Sites.log sites

variable {r : Resolution} {sites : List Site} {scope : ScopeId} {outer : List ScopeId}

/-- Before anything was visited the cursor stands in the program. -/
theorem tracks_empty : Resolution.empty.Tracks [] .global [] where
  table := {
    symbols := rfl
    ordinal := by
      intro i s hs
      cases i with
      | zero => rw [← Option.some.inj hs]; rfl
      | succ i => exact nomatch hs
    names := by
      intro i s hs
      cases i with
      | zero => rw [← Option.some.inj hs]; rfl
      | succ i => exact nomatch hs
    below := fun _ hd => absurd hd List.not_mem_nil }
  current := rfl
  path := ⟨[], rfl⟩
  redeclarations := rfl
  undefined := rfl
  log := rfl

/-! ## One action -/

theorem Tracks.declare (h : r.Tracks sites scope outer) (name : Name) (kind : SymbolKind) :
    (r.declare name kind).Tracks
        (sites ++ [.declaration ⟨name.text, kind, name.span.start, scope⟩]) scope outer ∧
      (r.declare name kind).table.scopes.size = r.table.scopes.size := by
  have hholds := h.path.holds
  have hid := Table.currentId_eq hholds h.current
  have hlocal := h.table.lookupLocal? hholds h.current name.text
  -- the table knows a name in its current scope just if the scope has a declaration of it already
  cases hk : number? sites scope name.text with
  | none =>
    have hnew := number?_eq_none_iff.mp hk
    have hstep : r.declare name kind = { r with
        table := r.table.declared ⟨name.text, kind, name.span.start, scope⟩
        log := r.log.push (name.text, ⟨true, scope, name.span.start⟩) } := by
      rw [Resolution.declare, Table.declare, hlocal, hk, hid]
      rfl
    rw [hstep]
    refine ⟨⟨?_, h.current, ?_, ?_, ?_, ?_⟩, Array.size_modify⟩
    · exact h.table.declared hholds h.current hnew
    · exact h.path.mono fun _ _ => Table.holds_declared _
    · rw [redeclarations_concat_declaration, hnew, h.redeclarations]
      exact (List.append_nil _).symm
    · rw [undefined_concat_declaration, h.undefined]
    · show (r.log.push _).toList = _
      rw [log_concat_declaration, hnew, Array.toList_push, h.log]
      rfl
  | some k =>
    obtain ⟨d, hget, hfirst⟩ := getElem?_of_number? hk
    have hoffset : (r.table.symbols[k]?.map (·.offset)).getD name.span.start = d.offset := by
      rw [← Array.getElem?_toList, h.table.symbols, symbols, List.getElem?_map, hget]
      rfl
    have hstep : r.declare name kind = { r with
        redeclarations := r.redeclarations.push
          ⟨name.text, kind, scope, name.span.start, d.offset⟩ } := by
      rw [Resolution.declare, Table.declare, hlocal, hk, hid, ← hoffset]
    rw [hstep]
    refine ⟨⟨h.table.late hfirst, h.current, h.path, ?_, ?_, ?_⟩, rfl⟩
    · show (r.redeclarations.push _).toList = _
      rw [redeclarations_concat_declaration, hfirst, Array.toList_push, h.redeclarations]
      rfl
    · rw [undefined_concat_declaration, h.undefined]
    · rw [log_concat_declaration, hfirst, h.log]
      exact (List.append_nil _).symm

theorem Tracks.use (h : r.Tracks sites scope outer) (name : String) (offset : Nat) :
    (r.use name offset).Tracks (sites ++ [.use ⟨name, offset, scope :: outer⟩]) scope outer ∧
      (r.use name offset).table.scopes.size = r.table.scopes.size := by
  have hlookup := h.table.lookup? h.path h.current name offset
  have hbinding := binding?_eq_bind sites ⟨name, offset, scope :: outer⟩
  cases hk : bindingNumber? sites ⟨name, offset, scope :: outer⟩ with
  | none =>
    have hstep : r.use name offset =
        { r with undefined := r.undefined.push ⟨name, offset⟩ } := by
      rw [Resolution.use, hlookup, hk]
    rw [hk] at hbinding
    have hnone : binding? sites ⟨name, offset, scope :: outer⟩ = none := hbinding
    rw [hstep]
    refine ⟨⟨h.table.unbound hk, h.current, h.path, ?_, ?_, ?_⟩, rfl⟩
    · rw [redeclarations_concat_use, h.redeclarations]
    · show (r.undefined.push _).toList = _
      rw [undefined_concat_use, hnone, Array.toList_push, h.undefined]
      rfl
    · rw [log_concat_use, hnone, h.log]
      exact (List.append_nil _).symm
  | some k =>
    have hstep : r.use name offset = { r with
        table := r.table.refer k
        log := r.log.push (name, ⟨false, r.table.currentId, offset⟩) } := by
      rw [Resolution.use, hlookup, hk]
    have hlt := bindingNumber?_lt hk
    have hsome : binding? sites ⟨name, offset, scope :: outer⟩ = some (firsts sites)[k] := by
      rw [hbinding, hk]
      exact List.getElem?_eq_getElem hlt
    rw [hstep]
    refine ⟨⟨h.table.refer hk, h.current, h.path.of_scopes_eq rfl, ?_, ?_, ?_⟩, rfl⟩
    · rw [redeclarations_concat_use, h.redeclarations]
    · rw [undefined_concat_use, hsome, h.undefined]
      exact (List.append_nil _).symm
    · show (r.log.push _).toList = _
      rw [log_concat_use, hsome, Array.toList_push, h.log,
        Table.currentId_eq h.path.holds h.current]
      rfl

/-- A construct that is entered gets the next number. -/
theorem Tracks.enter (h : r.Tracks sites scope outer) (kind : ScopeKind) :
    (r.step (.enter kind)).Tracks sites ⟨kind, r.table.scopes.size⟩ (scope :: outer) ∧
      (r.step (.enter kind)).table.scopes.size = r.table.scopes.size + 1 := by
  have hid := Table.currentId_eq h.path.holds h.current
  obtain ⟨names, hs⟩ := h.path.holds
  -- the new scope goes to the end, so its parent is below it
  have hlt : scope.ordinal < r.table.scopes.size := (Array.getElem?_eq_some_iff.mp hs).1
  refine ⟨⟨h.table.enter kind, rfl, ⟨⟨[], ?_⟩, hlt, ?_⟩, h.redeclarations, h.undefined, h.log⟩, ?_⟩
  · show (r.table.scopes.push _)[r.table.scopes.size]? = _
    rw [Array.getElem?_push_size, hid]
  · exact h.path.mono fun _ _ => Table.holds_enter kind
  · exact Array.size_push _

/-- Closing a scope changes nothing of the table but the cursor. -/
theorem close_table (r : Resolution) :
    r.close.table = { r.table with current := r.close.table.current } := by
  show r.table.leave = { r.table with current := r.table.leave.current }
  rw [Table.leave]
  split <;> rfl

/-- A construct that is left leads back to the one around it. -/
theorem Tracks.close {p : ScopeId} (h : r.Tracks sites scope (p :: outer)) :
    r.close.Tracks sites p outer ∧ r.close.table.scopes.size = r.table.scopes.size := by
  obtain ⟨hholds, -, hpath⟩ := h.path
  obtain ⟨names, hs, -⟩ := Table.currentScope_eq hholds h.current
  have hleave : r.close.table = { r.table with current := p.ordinal } := by
    show r.table.leave = _
    rw [Table.leave, hs]
  refine ⟨⟨?_, ?_, ?_, h.redeclarations, h.undefined, h.log⟩, ?_⟩
  · rw [hleave]
    exact ⟨h.table.symbols, h.table.ordinal, h.table.names, h.table.below⟩
  · rw [hleave]
  · rw [hleave]
    exact hpath.of_scopes_eq rfl
  · rw [hleave]

end Resolution

/-! ## A whole outline -/

open Resolution

mutual

/-- An outline is tracked, and its constructs are numbered from the next one on. -/
theorem Outline.tracks : ∀ (o : Outline) {r : Resolution} {sites : List Site} {scope : ScopeId}
    {outer : List ScopeId}, r.Tracks sites scope outer →
    (o.actions.foldl step r).Tracks (sites ++ o.sites scope outer r.table.scopes.size) scope outer ∧
      (o.actions.foldl step r).table.scopes.size = r.table.scopes.size + o.scopeCount
  | .declaration name kind, _, _, _, _, h => h.declare name kind
  | .use name offset, _, _, _, _, h => h.use name offset
  | .construct kind inner, r, sites, scope, outer, h => by
    obtain ⟨henter, hsize⟩ := h.enter kind
    obtain ⟨hinner, hcount⟩ := outlines_track inner henter
    obtain ⟨hclose, hsame⟩ := hinner.close
    rw [hsize] at hinner hcount hclose
    have hrun : (Outline.construct kind inner).actions.foldl step r =
        ((outlineActions inner).foldl step (r.step (.enter kind))).close := by
      rw [Outline.actions, Action.within, List.cons_append, List.foldl_cons, List.foldl_append]
      rfl
    rw [hrun, hsame, hcount, Outline.sites, Outline.scopeCount]
    exact ⟨hclose, by omega⟩

/-- Outlines in order are tracked. -/
theorem outlines_track : ∀ (os : List Outline) {r : Resolution} {sites : List Site}
    {scope : ScopeId} {outer : List ScopeId}, r.Tracks sites scope outer →
    ((outlineActions os).foldl step r).Tracks
        (sites ++ outlineSites scope outer r.table.scopes.size os) scope outer ∧
      ((outlineActions os).foldl step r).table.scopes.size = r.table.scopes.size + scopeCounts os
  | [], _, sites, _, _, h => by
    rw [outlineSites, List.append_nil]
    exact ⟨h, rfl⟩
  | o :: os, r, sites, scope, outer, h => by
    obtain ⟨hfirst, hsize⟩ := o.tracks h
    obtain ⟨hrest, hcount⟩ := outlines_track os hfirst
    rw [outlineActions, List.foldl_append, outlineSites, scopeCounts]
    rw [hsize, List.append_assoc] at hrest
    exact ⟨hrest, by omega⟩

end

/-- **Resolving is lexical scoping.**  The symbols of a program are its first declarations in each
    construct, with the uses that are bound to them counted; all other declarations come too late;
    and the uses that are bound to nothing are undefined. -/
theorem Program.resolve_eq (p : Program) :
    p.resolve.table.symbols.toList = Sites.symbols p.sites ∧
      p.resolve.redeclarations.toList = Sites.redeclarations p.sites ∧
      p.resolve.undefined.toList = Sites.undefined p.sites := by
  obtain ⟨h, -⟩ := outlines_track p.outline tracks_empty
  have hresolve : p.resolve = ((outlineActions p.outline).foldl step .empty).close := by
    rw [Program.resolve, Program.actions_eq, List.foldl_append]
    rfl
  rw [hresolve]
  refine ⟨?_, h.redeclarations, h.undefined⟩
  rw [close_table]
  exact h.table.symbols

end CurlyScript
