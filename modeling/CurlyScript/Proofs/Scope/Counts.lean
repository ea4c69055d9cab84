import CurlyScript.Proofs.Scope.Accounts
import CurlyScript.Proofs.Scope.Resolution
import CurlyScript.Proofs.Scope.Tree
import Mathlib.Algebra.GroupWithZero.Nat

/-
  References are counted once and for all.

  A use raises the count of one symbol and leaves an entry in the log, or it is undefined; a
  declaration makes a symbol and leaves an entry, or it comes too late.  So the log, the counts and
  the undefined uses stay in step from action to action (`Resolution.InStep`).

  1. **Usages** — the names of the usages are all different, so that what is found under a name is
     the part of the log that is about it (`Resolution.getD_lookup_usages`).

  2. **Counts** — that the counts are in step is one lemma for an action and an induction over the
     actions.  Among the nodes of a program the uses are its identifiers (`Walks.countP_isUse`).

  3. **Unused symbols** — a scope reports its symbols without a use when it closes, and each scope
     closes once; so in the end they are all reported, and each once.  The order in which the
     entries of a scope are met does not matter (`Program.resolveBy_eq`).
-/

namespace CurlyScript

open Sites

/-! ## Usages -/

namespace Resolution

/-- The groups of a sorted log have names in ascending order. -/
theorem pairwise_groups {groups : List (List (String × Usage))}
    (hgroups : ∀ group ∈ groups, group ≠ [] ∧ group.IsChain fun a b => (a.1 == b.1) = true)
    (hsorted : groups.flatten.Pairwise (·.1 ≤ ·.1))
    (hcuts : groups.IsChain fun g g' => ∃ hg hg', ((g.getLast hg).1 == (g'.head hg').1) = false) :
    (groups.filterMap group?).Pairwise (·.1 < ·.1) := by
  have htrans : IsTrans (String × List Usage) (·.1 < ·.1) :=
    ⟨fun _ _ _ h h' => String.lt_trans h h'⟩
  refine List.isChain_iff_pairwise.mp ?_
  induction groups with
  | nil => exact .nil
  | cons g groups ih =>
    obtain ⟨⟨hne, hchain⟩, hrest⟩ := List.forall_mem_cons.mp hgroups
    obtain ⟨u, hu, -, hname⟩ := exists_group? hne hchain
    rw [List.filterMap_cons_some hu]
    rw [List.flatten_cons, List.pairwise_append] at hsorted
    obtain ⟨-, hlater, hbelow⟩ := hsorted
    cases groups with
    | nil => exact .singleton u
    | cons g' groups =>
      obtain ⟨⟨hne', hchain'⟩, -⟩ := List.forall_mem_cons.mp hrest
      obtain ⟨u', hu', -, hname'⟩ := exists_group? hne' hchain'
      obtain ⟨⟨hg, hg', hcut⟩, hcuts'⟩ := List.isChain_cons_cons.mp hcuts
      have hascending := ih hrest hlater hcuts'
      rw [List.filterMap_cons_some hu'] at hascending ⊢
      refine List.isChain_cons_cons.mpr ⟨?_, hascending⟩
      -- the names of two groups that meet are in order, and different where they meet
      have hle := hbelow _ (List.getLast_mem hg) (g'.head hg')
        (List.mem_flatten_of_mem List.mem_cons_self (List.head_mem hg'))
      rw [hname _ (List.getLast_mem hg), hname' _ (List.head_mem hg')] at hle hcut
      refine String.not_le.mp fun hge => ?_
      exact ne_of_beq_false hcut (String.le_antisymm hle hge)

/-- No name comes twice among the usages, for they are in alphabetical order. -/
theorem pairwise_usages (r : Resolution) : r.usages.Pairwise (·.1 < ·.1) := by
  have hsorted : (r.log.toList.mergeSort byName).Pairwise (·.1 ≤ ·.1) :=
    (List.pairwise_mergeSort byName_trans byName_total _).imp of_decide_eq_true
  have hcuts := List.isChain_getLast_head_splitBy
    (fun a b : String × Usage => a.1 == b.1) (r.log.toList.mergeSort byName)
  rw [usages_eq]
  refine pairwise_groups (fun group hm => ?_) ?_ hcuts
  · exact ⟨List.ne_nil_of_mem_splitBy hm, List.isChain_of_mem_splitBy hm⟩
  · rw [List.flatten_splitBy]
    exact hsorted

/-- What is found under a name are the entries for it. -/
theorem getD_lookup {groups : List (String × List Usage)} (h : groups.Pairwise (·.1 < ·.1))
    (name : String) : (groups.lookup name).getD [] =
      ((groups.flatMap entries).filter (·.1 = name)).map (·.2) := by
  induction groups with
  | nil => rfl
  | cons g groups ih =>
    obtain ⟨hbelow, hrest⟩ := List.pairwise_cons.mp h
    rw [List.flatMap_cons, List.filter_append, List.map_append, List.lookup_cons]
    by_cases hname : name = g.1
    · subst hname
      have hothers : (groups.flatMap entries).filter (·.1 = g.1) = [] := by
        refine List.filter_eq_nil_iff.mpr fun e he hsame => ?_
        obtain ⟨g', hg', he⟩ := List.mem_flatMap.mp he
        obtain ⟨u, -, rfl⟩ := List.mem_map.mp he
        have hlt := hbelow g' hg'
        rw [of_decide_eq_true hsame] at hlt
        exact String.lt_irrefl _ hlt
      rw [hothers]
      simp [entries, List.filter_map, Function.comp_def]
    · have hbeq : (name == g.1) = false := beq_eq_false_iff_ne.mpr hname
      have hfirst : (entries g).filter (·.1 = name) = [] := by
        refine List.filter_eq_nil_iff.mpr fun e he hsame => ?_
        obtain ⟨u, -, rfl⟩ := List.mem_map.mp he
        exact hname (of_decide_eq_true hsame).symm
      rw [hbeq, hfirst, ← ih hrest]
      rfl

/-- **What is found under a name** is the part of the log that is about it. -/
theorem getD_lookup_usages (r : Resolution) (name : String) :
    (r.usages.lookup name).getD [] = r.usagesOf name := by
  rw [getD_lookup r.pairwise_usages, flatMap_usages, filter_mergeSort]
  rfl

end Resolution

/-! ## Counts -/

/-- The references to the symbols of which something holds. -/
def Table.counted (t : Table) (p : Symbol → Bool) : Nat :=
  ((t.symbols.toList.filter p).map (·.references)).sum

/-- A symbol that has just been declared has no references yet. -/
theorem Table.counted_declared (t : Table) (d : Declaration) (p : Symbol → Bool) :
    (t.declared d).counted p = t.counted p := by
  show (((t.symbols.push _).toList.filter p).map _).sum = _
  rw [Array.toList_push, List.filter_append, List.map_append, List.sum_append, counted]
  by_cases hp : p ⟨d.name, d.kind, 0, d.offset, d.scope⟩ = true
  · simp [hp]
  · simp [hp]

/-- A reference counts for the symbol that it is to. -/
theorem Table.counted_refer {t : Table} {number : Nat} {x : Symbol}
    (hx : t.symbols.toList[number]? = some x) {p : Symbol → Bool}
    (hp : ∀ s : Symbol, p { s with references := s.references + 1 } = p s) :
    (t.refer number).counted p = t.counted p + if p x then 1 else 0 := by
  obtain ⟨before, after, hsplit, hmodify⟩ := exists_modify_eq hx
  show (((t.symbols.modify number _).toList.filter p).map _).sum = _
  rw [Array.toList_modify, hmodify, counted, hsplit]
  by_cases hpx : p x = true
  · simp only [List.filter_append, List.filter_cons, hp, hpx, if_true, List.map_append,
      List.map_cons, List.sum_append, List.sum_cons]
    omega
  · simp [hp, hpx]

/-- Whether an action uses a name. -/
def Action.isUse : Action → Bool
  | .use _ _ => true
  | _ => false

/-- Whether a node is an identifier that is used. -/
def Node.isUse : Node → Bool
  | .ident _ _ => true
  | _ => false

namespace Resolution

variable {r : Resolution} {uses : Nat}

/-- The log, the counts and the undefined uses agree after `uses` uses: there is one entry for each
    symbol and one for each reference to it, and a use is a reference or undefined. -/
structure InStep (r : Resolution) (uses : Nat) : Prop where
  declarations : r.log.toList.filter (·.2.isDeclaration) =
    r.table.symbols.toList.map fun s => (s.name, ⟨true, s.scope, s.offset⟩)
  references : ∀ name, (r.log.toList.countP fun e => e.1 = name ∧ !e.2.isDeclaration) =
    r.table.counted (·.name = name)
  uses : r.table.counted (fun _ => true) + r.undefined.size = uses

theorem inStep_empty : empty.InStep 0 := ⟨rfl, fun _ => rfl, rfl⟩

theorem InStep.declare (h : r.InStep uses) (name : Name) (kind : SymbolKind) :
    (r.declare name kind).InStep uses := by
  obtain ⟨-, heq⟩ | ⟨late, heq⟩ := r.declare_eq name kind
  · rw [heq]
    refine ⟨?_, fun n => ?_, ?_⟩
    · show (r.log.push _).toList.filter _ = (r.table.symbols.push _).toList.map _
      rw [Array.toList_push, Array.toList_push, List.filter_append, List.map_append,
        h.declarations]
      rfl
    · show (r.log.push _).toList.countP _ = (r.table.declared _).counted _
      rw [Array.toList_push, List.countP_append, h.references, Table.counted_declared]
      simp
    · show (r.table.declared _).counted _ + _ = _
      rw [Table.counted_declared]
      exact h.uses
  · rw [heq]
    exact ⟨h.declarations, h.references, h.uses⟩

theorem InStep.use (h : r.InStep uses) (hr : r.table.IsFiled) (name : String) (offset : Nat) :
    (r.use name offset).InStep (uses + 1) := by
  obtain ⟨number, hnumber, heq⟩ | heq := r.use_eq name offset
  · obtain ⟨x, hx, hname, -⟩ := hr.lookup?_eq_some hnumber
    rw [heq]
    refine ⟨?_, fun n => ?_, ?_⟩
    · show (r.log.push _).toList.filter _ = (r.table.refer number).symbols.toList.map _
      rw [Table.map_symbols_refer_same fun _ => rfl, Array.toList_push, List.filter_append,
        h.declarations]
      exact List.append_nil _
    · show (r.log.push _).toList.countP _ = (r.table.refer number).counted _
      rw [Array.toList_push, List.countP_append, h.references, Table.counted_refer hx fun _ => rfl,
        hname]
      by_cases hn : name = n
      · simp [hn]
      · simp [hn]
    · show (r.table.refer number).counted _ + r.undefined.size = _
      rw [Table.counted_refer hx fun _ => rfl, ← h.uses]
      simp
      omega
  · rw [heq]
    refine ⟨h.declarations, h.references, ?_⟩
    show r.table.counted _ + (r.undefined.push _).size = _
    rw [Array.size_push, ← Nat.add_assoc, h.uses]

/-- One action keeps them in step. -/
theorem InStep.step (h : r.InStep uses) (hr : r.table.IsFiled) (a : Action) :
    (r.step a).InStep (uses + [a].countP Action.isUse) := by
  cases a with
  | enter kind => exact ⟨h.declarations, h.references, h.uses⟩
  | leave =>
    show r.close.InStep uses
    have htable := close_table r
    refine ⟨?_, fun n => ?_, ?_⟩
    · rw [htable]
      exact h.declarations
    · rw [htable]
      exact h.references n
    · rw [htable]
      exact h.uses
  | declare name kind => exact h.declare name kind
  | use name offset => exact h.use hr name offset

/-- And so do actions in a row. -/
theorem InStep.foldl (h : r.InStep uses) (hr : r.table.IsFiled) (actions : List Action) :
    (actions.foldl Resolution.step r).InStep (uses + actions.countP Action.isUse) := by
  induction actions generalizing r uses with
  | nil => exact h
  | cons a actions ih =>
    have hrest := ih (h.step hr a) (isFiled_step hr a)
    rw [Nat.add_assoc, ← List.countP_append] at hrest
    exact hrest

/-- Under a name there are as many declarations as symbols of the name. -/
theorem InStep.countP_declarations (h : r.InStep uses) (name : String) :
    (r.usagesOf name).countP (·.isDeclaration) = (r.symbolsNamed name).length := by
  have hfilter := congrArg (List.countP fun e => e.1 = name) h.declarations
  rw [List.countP_filter, List.countP_map] at hfilter
  rw [usagesOf, List.countP_map, List.countP_filter, symbolsNamed, ← List.countP_eq_length_filter]
  simpa [Function.comp_def, Bool.and_comm] using hfilter

/-- And as many uses as these have references. -/
theorem InStep.countP_references (h : r.InStep uses) (name : String) :
    (r.usagesOf name).countP (!·.isDeclaration) =
      ((r.symbolsNamed name).map (·.references)).sum := by
  have hcount := h.references name
  rw [usagesOf, List.countP_map, List.countP_filter, symbolsNamed]
  simpa [Function.comp_def, Bool.and_comm, Table.counted] using hcount

end Resolution

theorem countP_isUse_params (ps : List Name) :
    (outlineActions (paramsOutline ps)).countP Action.isUse = 0 := by
  rw [outlineActions_params, Action.params, List.countP_map]
  exact List.countP_eq_zero.mpr fun _ _ h => Bool.noConfusion h

theorem countP_isUse_within (kind : ScopeKind) (actions : List Action) :
    (Action.within kind actions).countP Action.isUse = actions.countP Action.isUse := by
  have henter : ¬ Action.isUse (.enter kind) = true := Bool.noConfusion
  rw [Action.within, List.cons_append, List.countP_cons_of_neg henter, List.countP_append]
  rfl

/-- What a node uses where it stands is itself, if anything. -/
theorem countP_isUse_outside (n : Node) :
    (outlineActions n.outside).countP Action.isUse = [n].countP Node.isUse := by
  cases n with
  | decl d =>
    obtain ⟨sp, kind, name, init⟩ := d
    rfl
  | function sp name params body => rfl
  | ident sp name => rfl
  | arrow sp params body => rfl
  | block body => rfl
  | statement s => rfl
  | expr e => rfl
  | comment sp text => rfl

/-- The names that are used in a walk are its identifiers. -/
theorem Walks.countP_isUse {ns : List Node} {os : List Outline} (h : Walks ns os) :
    (outlineActions os).countP Action.isUse = ns.countP Node.isUse := by
  induction h with
  | nil => rfl
  | @plain n ns os _ _ ih =>
    rw [outlineActions_append, List.countP_append, countP_isUse_outside, ih, ← List.countP_append]
    rfl
  | @construct n kind ns inner os _ _ _ hinner hrest =>
    rw [outlineActions_append, outlineActions, Outline.actions, List.countP_append,
      List.countP_append, countP_isUse_within, outlineActions_append, List.countP_append,
      countP_isUse_params, Nat.zero_add, countP_isUse_outside, hinner, hrest,
      ← List.countP_append, ← List.countP_append]
    rfl

/-! ## Unused symbols -/

/-- Elements that are sorted into classes are still the same elements. -/
theorem flatMap_filter_perm {α β : Type} [DecidableEq β] (f : α → β) {classes : List β}
    (hnodup : classes.Nodup) {xs : List α} (hclass : ∀ x ∈ xs, f x ∈ classes) :
    (classes.flatMap fun c => xs.filter (f · = c)).Perm xs := by
  induction classes generalizing xs with
  | nil =>
    have hnone : xs = [] := List.eq_nil_iff_forall_not_mem.mpr fun x hx =>
      List.not_mem_nil (hclass x hx)
    rw [hnone]
    exact .refl _
  | cons c classes ih =>
    obtain ⟨hc, hrest⟩ := List.nodup_cons.mp hnodup
    -- the elements of the other classes are found among those that are not in this one
    have hothers : ∀ c' ∈ classes, xs.filter (f · = c') =
        (xs.filter fun x => !decide (f x = c)).filter (f · = c') := by
      intro c' hc'
      rw [List.filter_filter]
      refine List.filter_congr fun x _ => ?_
      by_cases hx : f x = c'
      · have hne : c' ≠ c := fun heq => hc (heq ▸ hc')
        simp [hx, hne]
      · simp [hx]
    have hmem : ∀ x ∈ xs.filter fun x => !decide (f x = c), f x ∈ classes := by
      intro x hx
      obtain ⟨hx, hne⟩ := List.mem_filter.mp hx
      exact (List.mem_cons.mp (hclass x hx)).resolve_left (by simpa using hne)
    rw [List.flatMap_cons, List.flatMap_congr hothers]
    exact ((ih hrest hmem).append_left _).trans (List.filter_append_perm _ xs)

namespace Resolution

/-- Closing a scope whose entries are met in some order. -/
def closeBy (a : Table.Arrangement) (r : Resolution) : Resolution :=
  let id := r.table.currentId
  let idle := (r.table.symbolsBy a id).filter (·.references = 0)
  { r with
    table := r.table.leave
    unused := r.unused ++ idle.map fun s => UnusedSymbol.mk s.name s.kind id s.offset }

/-- What is known after one more action, where the entries of a scope are met in some order. -/
def stepBy (a : Table.Arrangement) (r : Resolution) : Action → Resolution
  | .leave => r.closeBy a
  | action => r.step action

theorem stepBy_eq (a : Table.Arrangement) {r : Resolution} (h : r.table.IsFiled) (action : Action) :
    r.stepBy a action = r.step action := by
  cases action with
  | leave =>
    show r.closeBy a = r.close
    rw [closeBy, close, h.symbolsBy_eq]
  | enter kind => rfl
  | declare name kind => rfl
  | use name offset => rfl

theorem foldl_stepBy (a : Table.Arrangement) {r : Resolution} (h : r.table.IsFiled)
    (actions : List Action) : actions.foldl (stepBy a) r = actions.foldl step r := by
  induction actions generalizing r with
  | nil => rfl
  | cons action actions ih =>
    rw [List.foldl_cons, List.foldl_cons, stepBy_eq a h]
    exact ih (isFiled_step h action)

end Resolution

open Resolution

/-- Ties the names of a program to their declarations, where the entries of a scope are met in some
    order when it closes. -/
def Program.resolveBy (a : Table.Arrangement) (p : Program) : Resolution :=
  p.actions.foldl (Resolution.stepBy a) .empty

/-- Nothing comes of that order. -/
theorem Program.resolveBy_eq (a : Table.Arrangement) (p : Program) : p.resolveBy a = p.resolve :=
  foldl_stepBy a Resolution.isFiled_empty p.actions

/-- Scopes report their unused symbols in the order in which they close, the global one last. -/
theorem Program.unused_eq (p : Program) {opened : List (ScopeId × ScopeId)} {closed : List ScopeId}
    (h : Resolution.empty.Passes (Resolution.empty.run p.outline) opened closed) :
    p.resolve.unused.toList = (closed ++ [ScopeId.global]).flatMap p.resolve.table.idle := by
  have hid : (Resolution.empty.run p.outline).table.currentId = .global :=
    h.currentId Resolution.isFiled_empty
  have hidle : p.resolve.table.idle = (Resolution.empty.run p.outline).table.idle := by
    rw [p.resolve_eq_close, close_table]
    rfl
  rw [hidle, p.resolve_eq_close, unused_close h.filed, hid, h.unused, List.flatMap_append,
    List.flatMap_singleton]
  rfl

/-- No scope closes twice, and all are closed in the end. -/
theorem Opens.nodup {ns : List Node} {opened : List (ScopeId × ScopeId)} {closed : List ScopeId}
    (h : Opens .global 1 ns opened closed) : (closed ++ [ScopeId.global]).Nodup := by
  refine List.Nodup.of_map ScopeId.ordinal ?_
  have hperm : ((closed ++ [ScopeId.global]).map ScopeId.ordinal).Perm
      (0 :: List.range' 1 opened.length) := by
    have hclosed := h.perm.map ScopeId.ordinal
    rw [List.map_map] at hclosed
    rw [List.map_append, ← h.ordinals]
    exact List.perm_append_comm.trans (.cons 0 hclosed)
  rw [hperm.nodup_iff]
  have hrange : (0 :: List.range' 1 opened.length) = List.range' 0 (opened.length + 1) := rfl
  rw [hrange]
  exact List.nodup_range'

/-- A symbol stands in a scope that closes. -/
theorem Program.scope_mem_closed (p : Program) {opened : List (ScopeId × ScopeId)}
    {closed : List ScopeId} (hopens : Opens .global 1 p.nodes opened closed)
    (hpasses : Resolution.empty.Passes (Resolution.empty.run p.outline) opened closed) {s : Symbol}
    (hs : s ∈ p.resolve.table.symbols.toList) : s.scope ∈ closed ++ [ScopeId.global] := by
  obtain ⟨parent, names, hget⟩ := p.isFiled_resolve.home s.declaration (List.mem_map_of_mem hs)
  have hmem : (s.scope, parent) ∈ p.resolve.table.tree :=
    List.mem_map.mpr ⟨_, Array.mem_toList_iff.mpr (Array.mem_of_getElem? hget), rfl⟩
  rw [p.tree_eq hpasses] at hmem
  rcases List.mem_cons.mp hmem with hroot | hinner
  · rw [(Prod.mk.inj hroot).1]
    exact List.mem_append_right _ List.mem_cons_self
  · obtain ⟨x, hx, heq⟩ := List.mem_map.mp hinner
    refine List.mem_append_left _ (hopens.perm.mem_iff.mpr ?_)
    rw [← (Prod.mk.inj heq).1]
    exact List.mem_map_of_mem hx

/-- In the end the symbols without a use have all been reported, each of them once. -/
theorem Program.unused_perm (p : Program) : p.resolve.unused.toList.Perm
    ((p.resolve.table.symbols.toList.filter (·.references = 0)).map Symbol.unused) := by
  obtain ⟨opened, closed, hopens, hpasses⟩ := p.passes
  have hclosed : ∀ s ∈ p.resolve.table.symbols.toList.filter (·.references = 0),
      s.scope ∈ closed ++ [ScopeId.global] := fun s hs =>
    p.scope_mem_closed hopens hpasses (List.mem_filter.mp hs).1
  have hidle : p.resolve.table.idle = fun id =>
      ((p.resolve.table.symbols.toList.filter (·.references = 0)).filter (·.scope = id)).map
        Symbol.unused := by
    funext id
    rw [List.filter_filter]
    simp [Table.idle]
  rw [p.unused_eq hpasses, hidle, ← List.map_flatMap]
  exact (flatMap_filter_perm Symbol.scope hopens.nodup hclosed).map _

/-! ## Programs -/

/-- The log has the first declarations and the uses that are bound, in the order of the walk. -/
theorem Program.log_eq (p : Program) : p.resolve.log.toList = Sites.log p.sites := by
  obtain ⟨h, -⟩ := outlines_track p.outline tracks_empty
  rw [p.resolve_eq_close]
  exact h.log

theorem Program.inStep (p : Program) : p.resolve.InStep (p.nodes.countP Node.isUse) := by
  have huses : p.actions.countP Action.isUse = p.nodes.countP Node.isUse := by
    rw [p.actions_eq, List.countP_append, p.walks.countP_isUse]
    rfl
  have h := inStep_empty.foldl Resolution.isFiled_empty p.actions
  rw [Nat.zero_add, huses] at h
  exact h

/-- **Findings, usages and counts agree.**  The symbols that have no use in the end are reported,
    each once: scope by scope as these close, in the order of declaration, and in whatever order
    the entries of a scope are met.  Under a name the usages are the first declarations of it and
    the uses of it that are bound, and nothing else: there are as many declarations as symbols of
    the name and as many uses as these have references.  And every identifier that is used counts
    for one symbol, or is reported as undefined. -/
theorem Program.resolve_consistent (p : Program) :
    (∃ opened closed, Opens .global 1 p.nodes opened closed ∧
      p.resolve.unused.toList = (closed ++ [ScopeId.global]).flatMap p.resolve.table.idle) ∧
    p.resolve.unused.toList.Perm
      ((p.resolve.table.symbols.toList.filter (·.references = 0)).map Symbol.unused) ∧
    (∀ a : Table.Arrangement, p.resolveBy a = p.resolve) ∧
    (∀ name, (p.resolve.usages.lookup name).getD [] =
        ((Sites.log p.sites).filter (·.1 = name)).map (·.2) ∧
      ((p.resolve.usages.lookup name).getD []).countP (·.isDeclaration) =
        (p.resolve.symbolsNamed name).length ∧
      ((p.resolve.usages.lookup name).getD []).countP (!·.isDeclaration) =
        ((p.resolve.symbolsNamed name).map (·.references)).sum) ∧
    (p.resolve.table.symbols.toList.map (·.references)).sum + p.resolve.undefined.size =
      p.nodes.countP Node.isUse := by
  obtain ⟨opened, closed, hopens, hpasses⟩ := p.passes
  have hstep := p.inStep
  refine ⟨⟨opened, closed, hopens, p.unused_eq hpasses⟩, p.unused_perm, fun a => p.resolveBy_eq a,
    fun name => ?_, ?_⟩
  · rw [getD_lookup_usages]
    refine ⟨?_, hstep.countP_declarations name, hstep.countP_references name⟩
    rw [usagesOf, p.log_eq]
  · have huses := hstep.uses
    rw [Table.counted, List.filter_true] at huses
    exact huses

end CurlyScript
