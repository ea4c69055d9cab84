import CurlyScript.Proofs.Scope.Sites
import Mathlib.Data.List.Induction
import Mathlib.Data.List.Nodup

/-
  Symbols by number.

  The first declarations of a list of sites are numbered in the order of the list.  Whatever is
  found by position, a first declaration or what a use is bound to, can be found among the FIRST
  declarations alone (`first?_eq_find?`), and so by number; that is all a table of symbols keeps.

  Every fact is an induction from the back: one more site either adds one first declaration at the
  end or none.
-/

namespace CurlyScript.Sites

variable {sites : List Site}

theorem isIn_self (d : Declaration) : d.isIn d.scope d.name = true := decide_eq_true ⟨rfl, rfl⟩

theorem isIn_iff {d : Declaration} {scope : ScopeId} {name : String} :
    d.isIn scope name = true ↔ d.scope = scope ∧ d.name = name := decide_eq_true_iff

/-! ## First declarations -/

/-- A first declaration is found among the first declarations. -/
theorem first?_eq_find? (sites : List Site) (scope : ScopeId) (name : String) :
    first? sites scope name = (firsts sites).find? (Declaration.isIn scope name) := by
  induction sites using List.reverseRecOn with
  | nil => rfl
  | append_singleton sites s ih =>
    cases s with
    | use u => rw [first?_concat_use, firsts_concat_use, ih]
    | declaration d =>
      rw [first?_concat_declaration, firsts_concat_declaration, List.find?_append, ih]
      cases hd : d.isIn scope name with
      | true =>
        -- the new site is looked for, so it is a first one just if none was found before it
        obtain ⟨hs, hn⟩ := isIn_iff.mp hd
        rw [hs, hn, ih]
        cases hf : (firsts sites).find? (Declaration.isIn scope name) with
        | none => simp [hd]
        | some e => simp
      | false =>
        have hnone : (if (first? sites d.scope d.name).isNone then [d] else []).find?
            (Declaration.isIn scope name) = none := by
          split <;> simp [hd]
        rw [hnone]
        simp

/-- A first declaration is the first of its name in its construct. -/
theorem first?_of_mem_firsts : ∀ {d : Declaration}, d ∈ firsts sites →
    first? sites d.scope d.name = some d := by
  induction sites using List.reverseRecOn with
  | nil => intro d hd; exact absurd hd List.not_mem_nil
  | append_singleton sites s ih =>
    intro d hd
    cases s with
    | use u =>
      rw [firsts_concat_use] at hd
      rw [first?_concat_use, ih hd]
    | declaration e =>
      rw [firsts_concat_declaration] at hd
      rw [first?_concat_declaration]
      -- an older one stays the first, and a new one is there because none was found before it
      rcases List.mem_append.mp hd with hold | hnew
      · rw [ih hold, Option.some_or]
      · split at hnew
        · rename_i hnone
          rw [List.mem_singleton.mp hnew, Option.isNone_iff_eq_none.mp hnone, Option.none_or,
            isIn_self, if_pos rfl]
        · exact absurd hnew List.not_mem_nil

theorem not_mem_firsts {d : Declaration} (h : first? sites d.scope d.name = none) :
    d ∉ firsts sites := by
  intro hd
  rw [first?_of_mem_firsts hd] at h
  exact nomatch h

/-- No first declaration comes twice. -/
theorem nodup_firsts (sites : List Site) : (firsts sites).Nodup := by
  induction sites using List.reverseRecOn with
  | nil => exact List.nodup_nil
  | append_singleton sites s ih =>
    cases s with
    | use u => rwa [firsts_concat_use]
    | declaration d =>
      rw [firsts_concat_declaration]
      split
      · rename_i hnone
        have hd := not_mem_firsts (Option.isNone_iff_eq_none.mp hnone)
        refine List.nodup_append.mpr ⟨ih, List.nodup_singleton d, fun a ha b hb hab => ?_⟩
        rw [List.mem_singleton.mp hb] at hab
        exact hd (hab ▸ ha)
      · rwa [List.append_nil]

/-- What a use is bound to is a first declaration. -/
theorem mem_firsts_of_binding? {u : Use} {d : Declaration} (h : binding? sites u = some d) :
    d ∈ firsts sites := by
  obtain ⟨scope, -, hs⟩ := List.exists_of_findSome?_eq_some h
  rw [first?_eq_find?] at hs
  exact List.mem_of_find?_eq_some hs

theorem mem_firsts_of_bindings {b : Use × Option Declaration} (hb : b ∈ bindings sites)
    {d : Declaration} (hd : b.2 = some d) : d ∈ firsts sites := by
  induction sites using List.reverseRecOn with
  | nil => exact absurd hb List.not_mem_nil
  | append_singleton sites s ih =>
    cases s with
    | use u =>
      rw [bindings_concat_use] at hb
      rw [firsts_concat_use]
      rcases List.mem_append.mp hb with hold | hnew
      · exact ih hold
      · rw [List.mem_singleton.mp hnew] at hd
        exact mem_firsts_of_binding? hd
    | declaration e =>
      rw [bindings_concat_declaration] at hb
      rw [firsts_concat_declaration]
      exact List.mem_append_left _ (ih hb)

/-! ## Numbers -/

/-- The number of the first declaration of a name directly in a construct. -/
def number? (sites : List Site) (scope : ScopeId) (name : String) : Option Nat :=
  (firsts sites).findIdx? (Declaration.isIn scope name)

/-- The number of what a use is bound to. -/
def bindingNumber? (sites : List Site) (u : Use) : Option Nat :=
  u.scopes.findSome? fun scope => number? sites scope u.name

theorem first?_eq_bind (sites : List Site) (scope : ScopeId) (name : String) :
    first? sites scope name = (number? sites scope name).bind fun k => (firsts sites)[k]? := by
  rw [first?_eq_find?, number?, List.find?_eq_bind_findIdx?_getElem?]

theorem getElem?_of_number? {scope : ScopeId} {name : String} {k : Nat}
    (h : number? sites scope name = some k) :
    ∃ d, (firsts sites)[k]? = some d ∧ first? sites scope name = some d := by
  obtain ⟨hk, -, -⟩ := List.findIdx?_eq_some_iff_getElem.mp h
  have hget := List.getElem?_eq_getElem hk
  refine ⟨_, hget, ?_⟩
  rw [first?_eq_bind, h]
  exact hget

theorem number?_eq_none_iff {scope : ScopeId} {name : String} :
    number? sites scope name = none ↔ first? sites scope name = none := by
  rw [number?, first?_eq_find?, List.findIdx?_eq_none_iff, List.find?_eq_none]
  simp

/-- What a use is bound to is found by its number. -/
theorem binding?_eq_bind (sites : List Site) (u : Use) :
    binding? sites u = (bindingNumber? sites u).bind fun k => (firsts sites)[k]? := by
  rw [binding?, bindingNumber?]
  -- outwards, as both searches go
  induction u.scopes with
  | nil => rfl
  | cons scope scopes ih =>
    rw [List.findSome?_cons, List.findSome?_cons]
    cases hk : number? sites scope u.name with
    | none =>
      rw [number?_eq_none_iff.mp hk]
      exact ih
    | some k =>
      obtain ⟨d, hget, hd⟩ := getElem?_of_number? hk
      rw [hd]
      exact hget.symm

theorem bindingNumber?_lt {u : Use} {k : Nat} (h : bindingNumber? sites u = some k) :
    k < (firsts sites).length := by
  obtain ⟨scope, -, hs⟩ := List.exists_of_findSome?_eq_some h
  exact (List.findIdx?_eq_some_iff_getElem.mp hs).1

/-! ## Symbols -/

theorem length_symbols (sites : List Site) : (symbols sites).length = (firsts sites).length :=
  List.length_map _

theorem symbol_concat_declaration (sites : List Site) (d e : Declaration) :
    symbol (sites ++ [.declaration d]) e = symbol sites e := by
  rw [symbol, symbol, bindings_concat_declaration]

/-- A first declaration makes one more symbol, which has no uses yet. -/
theorem symbols_concat_first {d : Declaration} (h : first? sites d.scope d.name = none) :
    symbols (sites ++ [.declaration d]) =
      symbols sites ++ [⟨d.name, d.kind, 0, d.offset, d.scope⟩] := by
  have hsame := funext (symbol_concat_declaration sites d)
  -- what a use is bound to is a first declaration already, and this one was none
  have hidle : (bindings sites).countP (fun b => b.2 = some d) = 0 := by
    refine List.countP_eq_zero.mpr fun b hb hd => ?_
    exact not_mem_firsts h (mem_firsts_of_bindings hb (of_decide_eq_true hd))
  rw [symbols, symbols, hsame, firsts_concat_declaration, h, Option.isNone_none, if_pos rfl,
    List.map_append, List.map_singleton, symbol, hidle]

/-- A declaration that comes too late makes no symbol. -/
theorem symbols_concat_late {d e : Declaration} (h : first? sites d.scope d.name = some e) :
    symbols (sites ++ [.declaration d]) = symbols sites := by
  have hsame := funext (symbol_concat_declaration sites d)
  rw [symbols, symbols, hsame, firsts_concat_declaration, h]
  simp

/-- A use counts for the symbol that it is bound to, and for no other. -/
theorem symbols_concat_use (sites : List Site) (u : Use) :
    symbols (sites ++ [.use u]) = match bindingNumber? sites u with
      | some k => (symbols sites).modify k fun s => { s with references := s.references + 1 }
      | none => symbols sites := by
  have hsymbol : ∀ d, symbol (sites ++ [.use u]) d =
      if binding? sites u = some d then
        { symbol sites d with references := (symbol sites d).references + 1 }
      else symbol sites d := by
    intro d
    rw [symbol, bindings_concat_use, List.countP_append]
    by_cases hd : binding? sites u = some d
    · simp [symbol, hd]
    · simp [symbol, hd]
  rw [symbols, symbols, firsts_concat_use]
  split
  · rename_i k hk
    have hlt := bindingNumber?_lt hk
    have hbind : binding? sites u = some (firsts sites)[k] := by
      rw [binding?_eq_bind, hk]
      exact List.getElem?_eq_getElem hlt
    refine List.ext_getElem (by simp) fun j hj _ => ?_
    rw [List.length_map] at hj
    rw [List.getElem_modify, List.getElem_map, List.getElem_map, hsymbol, hbind]
    -- first declarations are told apart by their numbers, since none of them comes twice
    by_cases hkj : k = j
    · subst hkj
      simp
    · have hne : (firsts sites)[k] ≠ (firsts sites)[j] := fun heq =>
        hkj ((List.Nodup.getElem_inj_iff (nodup_firsts sites)).mp heq)
      simp [hkj, hne]
  · rename_i hk
    have hbind : binding? sites u = none := by
      rw [binding?_eq_bind, hk]
      rfl
    refine List.map_congr_left fun d _ => ?_
    rw [hsymbol, hbind]
    simp

end CurlyScript.Sites
