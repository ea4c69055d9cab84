import CurlyScript.Proofs.Scope.WellFormed

/-
  Closed scopes rest.

  Of the scopes of a table those on the path from the cursor to the root are open
  (`Table.openScopes`), and a scope that is not is `Table.Dormant`.  Declarations go to an open
  scope and a name stands for a symbol of an open scope, so nothing happens to the symbols of a
  dormant one; and only new scopes are opened.  So what can be said of the unused symbols of a scope
  when it closes stays true (`Table.Rests`).
-/

namespace CurlyScript

/-- How a symbol without a use is reported. -/
def Symbol.unused (s : Symbol) : UnusedSymbol := ⟨s.name, s.kind, s.scope, s.offset⟩

/-- What is changed in a list by number is one element between others. -/
theorem exists_modify_eq {α : Type} {xs : List α} {k : Nat} {x : α} (h : xs[k]? = some x) :
    ∃ before after, xs = before ++ x :: after ∧
      ∀ f, xs.modify k f = before ++ f x :: after := by
  obtain ⟨hk, rfl⟩ := List.getElem?_eq_some_iff.mp h
  refine ⟨xs.take k, xs.drop (k + 1), ?_, fun f => List.modify_eq_take_cons_drop hk⟩
  rw [List.getElem_cons_drop, List.take_append_drop]

namespace Table

variable {t : Table} {id : ScopeId}

/-! ## Open scopes -/

/-- The ids of the open scopes, the innermost first. -/
def openScopes (t : Table) : List ScopeId := t.chain.map Scope.id

/-- The scopes, each with the one that it stands in. -/
def tree (t : Table) : List (ScopeId × Option ScopeId) :=
  t.scopes.toList.map fun s => (s.id, s.parent)

/-- The symbols of a scope that have no use, in the order of declaration. -/
def idle (t : Table) (id : ScopeId) : List UnusedSymbol :=
  (t.symbols.toList.filter fun s => s.scope = id ∧ s.references = 0).map Symbol.unused

/-- A scope is closed. -/
structure Dormant (t : Table) (id : ScopeId) : Prop where
  known : id.ordinal < t.scopes.size
  closed : id ∉ t.openScopes

/-- The symbols of a scope that have no use are among those found by its names. -/
theorem IsFiled.idle_eq (h : t.IsFiled) (id : ScopeId) : t.idle id =
    ((t.symbolsIn id).filter (·.references = 0)).map
      fun s => UnusedSymbol.mk s.name s.kind id s.offset := by
  have hfilter : (t.symbols.toList.filter fun s => s.scope = id ∧ s.references = 0) =
      (t.symbolsIn id).filter (·.references = 0) := by
    rw [h.symbolsIn_eq, List.filter_filter]
    simp only [Bool.decide_and, Bool.and_comm]
  rw [idle, hfilter]
  refine List.map_congr_left fun s hs => ?_
  have hmem := (List.mem_filter.mp hs).1
  rw [h.symbolsIn_eq] at hmem
  have hscope : s.scope = id := of_decide_eq_true (List.mem_filter.mp hmem).2
  rw [Symbol.unused, hscope]

theorem length_tree (t : Table) : t.tree.length = t.scopes.size := by
  rw [tree, List.length_map, Array.length_toList]

/-- The innermost open scope is the one that the cursor is on. -/
theorem IsSound.exists_openScopes_eq (h : t.IsSound) :
    ∃ outer, t.openScopes = t.currentId :: outer := by
  rw [openScopes, h.chain_eq]
  exact ⟨_, rfl⟩

theorem IsSound.currentId_eq (h : t.IsSound) {outer : List ScopeId}
    (ho : t.openScopes = id :: outer) : t.currentId = id := by
  obtain ⟨outer', houter'⟩ := h.exists_openScopes_eq
  rw [ho] at houter'
  exact (List.cons.inj houter').1.symm

/-- Whatever a scope stands in is found under its number. -/
theorem IsSound.getElem?_of_mem_chainFrom (h : t.IsSound) {s : Scope} {i : Nat}
    (hs : s ∈ t.chainFrom i) : t.scopes[s.id.ordinal]? = some s := by
  induction i using Nat.strongRecOn with
  | ind i ih =>
    rw [chainFrom] at hs
    cases hget : t.scopes[i]? with
    | none =>
      rw [hget] at hs
      exact absurd hs List.not_mem_nil
    | some s' =>
      rw [hget] at hs
      rcases List.mem_cons.mp hs with rfl | hs
      · rw [h.ordinal i s hget, hget]
      · cases hp : s'.parent with
        | none =>
          rw [hp] at hs
          exact absurd hs List.not_mem_nil
        | some p =>
          have hlt := h.parent i s' p hget hp
          simp only [hp, if_pos hlt] at hs
          exact ih p.ordinal hlt hs

theorem IsSound.lt_size_of_mem_openScopes (h : t.IsSound) (hid : id ∈ t.openScopes) :
    id.ordinal < t.scopes.size := by
  obtain ⟨s, hs, rfl⟩ := List.mem_map.mp hid
  exact (Array.getElem?_eq_some_iff.mp (h.getElem?_of_mem_chainFrom hs)).1

/-- A name stands for a symbol of that name in a scope that is open. -/
theorem IsFiled.lookup?_eq_some (h : t.IsFiled) {name : String} {number : Nat}
    (hl : t.lookup? name = some number) :
    ∃ x, t.symbols.toList[number]? = some x ∧ x.name = name ∧ x.scope ∈ t.openScopes := by
  rw [lookup?_eq_chain] at hl
  obtain ⟨s, hs, hfind⟩ := List.exists_of_findSome?_eq_some hl
  have hnames := h.names _ s (h.toIsSound.getElem?_of_mem_chainFrom hs)
  have hentry : (name, number) ∈ s.names := by
    obtain ⟨before, after, heq, -⟩ := List.lookup_eq_some_iff.mp hfind
    rw [heq]
    exact List.mem_append_right _ List.mem_cons_self
  rw [hnames] at hentry
  obtain ⟨d, hd, hscope, hname⟩ := mem_numbered.mp hentry
  obtain ⟨x, hx, rfl⟩ := getElem?_declarations.mp hd
  refine ⟨x, by rw [Array.getElem?_toList, hx], hname, ?_⟩
  have hid : x.scope = s.id := hscope
  rw [hid]
  exact List.mem_map_of_mem hs

/-! ## Operations -/

theorem tree_enter (t : Table) (kind : ScopeKind) :
    (t.enter kind).tree = t.tree ++ [(⟨kind, t.scopes.size⟩, some t.currentId)] := by
  show (t.scopes.push _).toList.map _ = _
  rw [Array.toList_push, List.map_append]
  rfl

theorem IsSound.openScopes_enter (h : t.IsSound) (kind : ScopeKind) :
    (t.enter kind).openScopes = ⟨kind, t.scopes.size⟩ :: t.openScopes := by
  rw [openScopes, h.chain_enter]
  rfl

theorem currentId_enter (t : Table) (kind : ScopeKind) :
    (t.enter kind).currentId = ⟨kind, t.scopes.size⟩ := by
  show ((t.scopes.push _)[t.scopes.size]?.getD _).id = _
  rw [Array.getElem?_push_size]
  rfl

theorem tree_leave (t : Table) : t.leave.tree = t.tree := by
  rw [leave_eq]
  rfl

/-- Leaving a scope that stands in another closes it. -/
theorem IsSound.openScopes_leave (h : t.IsSound) {outer : List ScopeId}
    (ho : t.openScopes = id :: outer) (hne : outer ≠ []) : t.leave.openScopes = outer := by
  obtain ⟨s, ss, hs, -, rfl⟩ := List.map_eq_cons_iff.mp ho
  have hss : ss ≠ [] := fun hnil => hne (by rw [hnil]; rfl)
  rw [openScopes, h.chain_leave hs, if_neg (by simpa using hss)]

theorem tree_declared (t : Table) (d : Declaration) : (t.declared d).tree = t.tree := by
  show (t.scopes.modify t.current _).toList.map _ = _
  rw [Array.toList_modify]
  refine List.ext_getElem? fun i => ?_
  rw [tree, List.getElem?_map, List.getElem?_map, List.getElem?_modify]
  cases t.scopes.toList[i]? with
  | none => rfl
  | some s => by_cases hi : t.current = i <;> simp [hi]

theorem IsSound.openScopes_declared (h : t.IsSound) (d : Declaration) :
    (t.declared d).openScopes = t.openScopes := by
  have hchain := h.chain_eq
  rw [openScopes, h.chain_declared hchain, openScopes, hchain]
  rfl

theorem openScopes_refer (t : Table) (number : Nat) :
    (t.refer number).openScopes = t.openScopes := by
  rw [openScopes, chain_refer, openScopes]

/-! ## Dormant scopes -/

/-- Whatever is closed stays so, and the symbols there that have no use stay without one. -/
def Rests (t t' : Table) : Prop := ∀ id, t.Dormant id → t'.Dormant id ∧ t'.idle id = t.idle id

theorem Rests.refl (t : Table) : t.Rests t := fun _ hid => ⟨hid, rfl⟩

theorem Rests.trans {t' t'' : Table} (h : t.Rests t') (h' : t'.Rests t'') : t.Rests t'' := by
  intro id hid
  obtain ⟨hdormant, hidle⟩ := h id hid
  obtain ⟨hdormant', hidle'⟩ := h' id hdormant
  exact ⟨hdormant', hidle'.trans hidle⟩

theorem IsSound.rests_enter (h : t.IsSound) (kind : ScopeKind) : t.Rests (t.enter kind) := by
  intro id hid
  refine ⟨⟨?_, ?_⟩, rfl⟩
  · show id.ordinal < (t.scopes.push _).size
    rw [Array.size_push]
    exact Nat.lt_succ_of_lt hid.known
  · -- the new scope is beyond all that have been there
    rw [h.openScopes_enter, List.mem_cons]
    rintro (rfl | hopen)
    · exact Nat.lt_irrefl _ hid.known
    · exact hid.closed hopen

theorem idle_leave (t : Table) : t.leave.idle = t.idle := by
  rw [leave_eq]
  rfl

theorem IsSound.rests_leave (h : t.IsSound) {outer : List ScopeId}
    (ho : t.openScopes = id :: outer) (hne : outer ≠ []) : t.Rests t.leave := by
  intro id' hid
  refine ⟨⟨?_, ?_⟩, ?_⟩
  · rw [← length_tree, tree_leave, length_tree]
    exact hid.known
  · rw [h.openScopes_leave ho hne]
    intro hmem
    refine hid.closed ?_
    rw [ho]
    exact List.mem_cons_of_mem id hmem
  · rw [idle_leave]

/-- A scope that is left is closed. -/
theorem IsSound.dormant_leave (h : t.IsSound) {outer : List ScopeId}
    (ho : t.openScopes = id :: outer) (hne : outer ≠ []) (hnew : id ∉ outer) :
    t.leave.Dormant id where
  known := by
    rw [← length_tree, tree_leave, length_tree]
    refine h.lt_size_of_mem_openScopes ?_
    rw [ho]
    exact List.mem_cons_self
  closed := by
    rw [h.openScopes_leave ho hne]
    exact hnew

/-- A declaration is in a scope that is open. -/
theorem IsSound.rests_declared (h : t.IsSound) {d : Declaration} (hscope : d.scope = t.currentId) :
    t.Rests (t.declared d) := by
  intro id hid
  refine ⟨⟨?_, ?_⟩, ?_⟩
  · rw [← length_tree, tree_declared, length_tree]
    exact hid.known
  · rw [h.openScopes_declared]
    exact hid.closed
  · obtain ⟨outer, hopen⟩ := h.exists_openScopes_eq
    have hne : t.currentId ≠ id := by
      rintro rfl
      exact hid.closed (hopen ▸ List.mem_cons_self)
    show ((t.symbols.push _).toList.filter _).map _ = _
    rw [Array.toList_push, List.filter_append, idle]
    simp [hscope, hne]

/-- What is referred to is in a scope that is open. -/
theorem IsFiled.rests_refer (h : t.IsFiled) {name : String} {number : Nat}
    (hl : t.lookup? name = some number) : t.Rests (t.refer number) := by
  intro id hid
  refine ⟨⟨hid.known, by rw [openScopes_refer]; exact hid.closed⟩, ?_⟩
  obtain ⟨x, hx, -, hopen⟩ := h.lookup?_eq_some hl
  have hne : x.scope ≠ id := by
    rintro rfl
    exact hid.closed hopen
  obtain ⟨before, after, hsplit, hmodify⟩ := exists_modify_eq hx
  show ((t.symbols.modify number _).toList.filter _).map _ = _
  rw [Array.toList_modify, hmodify, idle, hsplit]
  simp [hne]

end Table

end CurlyScript
