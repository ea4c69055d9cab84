import CurlyScript.Proofs.Scope.Dormant
import CurlyScript.Proofs.Scope.Walk

/-
  The tree of scopes is that of the constructs.

  The nodes of a program that open scopes are met in the order of the walk, and whatever stands
  inside one is met before what comes after it.  So each scope gets the next number, its parent is
  the scope of the construct around it, and it closes as soon as all inside it have (`Opens`).

  Declarations, uses and constructs lead from one state of a resolution to another in which the
  cursor is on the same scope (`Resolution.Passes`).  In between scopes are opened and closed, and
  as each closes, those of its symbols that have no use are reported, for good since closed scopes
  rest.  Hence so does whatever stands in a program (`Walks.passes`).
-/

namespace CurlyScript

/-! ## The scopes of nodes -/

/-- The scopes that nodes open in the order of the walk, each with the one that it stands in, and
    the same scopes in the order in which they close.  The nodes stand in `parent`, and `next`
    scopes have been opened before. -/
inductive Opens : ScopeId → Nat → List Node → List (ScopeId × ScopeId) → List ScopeId → Prop where
  | nil {parent : ScopeId} {next : Nat} : Opens parent next [] [] []
  | plain {parent : ScopeId} {next : Nat} {n : Node} {ns : List Node}
      {opened : List (ScopeId × ScopeId)} {closed : List ScopeId} :
    n.scope? = none → Opens parent next ns opened closed → Opens parent next (n :: ns) opened closed
  | construct {parent : ScopeId} {next : Nat} {n : Node} {kind : ScopeKind} {ns : List Node}
      {inner rest : List (ScopeId × ScopeId)} {innerClosed restClosed : List ScopeId} :
    n.scope? = some kind → Opens ⟨kind, next⟩ (next + 1) n.inner inner innerClosed →
    Opens parent (next + 1 + inner.length) ns rest restClosed →
    Opens parent next (n :: (n.inner ++ ns)) ((⟨kind, next⟩, parent) :: (inner ++ rest))
      (innerClosed ++ ⟨kind, next⟩ :: restClosed)

namespace Opens

variable {parent : ScopeId} {next : Nat} {ns : List Node} {opened : List (ScopeId × ScopeId)}
  {closed : List ScopeId}

/-- There is one scope for each node that opens one, in the order of the walk. -/
theorem kinds (h : Opens parent next ns opened closed) :
    opened.map (·.1.kind) = ns.filterMap Node.scope? := by
  induction h with
  | nil => rfl
  | plain hn _ ih => rw [List.filterMap_cons_none hn, ih]
  | construct hn _ _ hinner hrest =>
    rw [List.filterMap_cons_some hn, List.map_cons, List.map_append, List.filterMap_append, hinner,
      hrest]

/-- The scopes that close are those that were opened. -/
theorem perm (h : Opens parent next ns opened closed) : closed.Perm (opened.map (·.1)) := by
  induction h with
  | nil => exact .refl _
  | plain _ _ ih => exact ih
  | construct _ _ _ hinner hrest =>
    rw [List.map_cons, List.map_append]
    exact List.perm_middle.trans (.cons _ (hinner.append hrest))

/-- Scopes are numbered as they are opened. -/
theorem ordinals (h : Opens parent next ns opened closed) :
    opened.map (·.1.ordinal) = List.range' next opened.length := by
  induction h with
  | nil => rfl
  | plain _ _ ih => exact ih
  | @construct parent next n kind ns inner rest innerClosed restClosed _ _ _ hinner hrest =>
    rw [List.map_cons, List.map_append, hinner, hrest, List.length_cons, List.length_append,
      List.range'_succ, ← List.range'_append_1]

/-- Nodes open their scopes in one way. -/
theorem unique {opened' : List (ScopeId × ScopeId)} {closed' : List ScopeId}
    (h : Opens parent next ns opened closed) (h' : Opens parent next ns opened' closed') :
    opened = opened' ∧ closed = closed' := by
  induction h generalizing opened' closed' with
  | nil =>
    cases h'
    exact ⟨rfl, rfl⟩
  | @plain parent next n ns opened closed hn _ ih =>
    generalize hms : n :: ns = ms at h'
    cases h' with
    | nil => cases hms
    | plain _ hrest' =>
      obtain ⟨rfl, rfl⟩ := List.cons.inj hms
      exact ih hrest'
    | construct hn' =>
      obtain ⟨rfl, -⟩ := List.cons.inj hms
      rw [hn] at hn'
      cases hn'
  | @construct parent next n kind ns inner rest innerClosed restClosed hn _ _ hinner hrest =>
    generalize hms : n :: (n.inner ++ ns) = ms at h'
    cases h' with
    | nil => cases hms
    | plain hn' =>
      obtain ⟨rfl, -⟩ := List.cons.inj hms
      rw [hn] at hn'
      cases hn'
    | construct hn' hinner' hrest' =>
      -- the same node with the same nodes inside, so the rest is the same too
      obtain ⟨rfl, htail⟩ := List.cons.inj hms
      obtain rfl := List.append_cancel_left htail
      obtain rfl := Option.some.inj (hn.symm.trans hn')
      obtain ⟨rfl, rfl⟩ := hinner hinner'
      obtain ⟨rfl, rfl⟩ := hrest hrest'
      exact ⟨rfl, rfl⟩

end Opens

/-! ## Passing nodes -/

namespace Resolution

variable {r r' r'' : Resolution} {opened opened' : List (ScopeId × ScopeId)}
  {closed closed' : List ScopeId}

/-- A declaration declares a name that is new to the current scope, and else comes too late. -/
theorem declare_eq (r : Resolution) (name : Name) (kind : SymbolKind) :
    (r.table.lookupLocal? name.text = none ∧ r.declare name kind = { r with
      table := r.table.declared ⟨name.text, kind, name.span.start, r.table.currentId⟩
      log := r.log.push (name.text, ⟨true, r.table.currentId, name.span.start⟩) }) ∨
    ∃ late, r.declare name kind = { r with redeclarations := r.redeclarations.push late } := by
  rw [declare, Table.declare]
  cases r.table.lookupLocal? name.text with
  | none => exact .inl ⟨rfl, rfl⟩
  | some existing => exact .inr ⟨_, rfl⟩

/-- A use refers to a symbol, or is undefined. -/
theorem use_eq (r : Resolution) (name : String) (offset : Nat) :
    (∃ number, r.table.lookup? name = some number ∧ r.use name offset = { r with
      table := r.table.refer number
      log := r.log.push (name, ⟨false, r.table.currentId, offset⟩) }) ∨
    r.use name offset = { r with undefined := r.undefined.push ⟨name, offset⟩ } := by
  rw [use]
  cases r.table.lookup? name with
  | none => exact .inr rfl
  | some number => exact .inl ⟨number, rfl, rfl⟩

/-- The resolution after an outline. -/
def run (r : Resolution) (os : List Outline) : Resolution := (outlineActions os).foldl step r

theorem run_append (r : Resolution) (os os' : List Outline) :
    r.run (os ++ os') = (r.run os).run os' := by
  rw [run, outlineActions_append, List.foldl_append]
  rfl

theorem run_construct (r : Resolution) (kind : ScopeKind) (inner os : List Outline) :
    r.run (.construct kind inner :: os) = ((r.step (.enter kind)).run inner).close.run os := by
  rw [run, outlineActions, Outline.actions, Action.within, List.cons_append, List.cons_append,
    List.foldl_cons, List.foldl_append, List.foldl_append]
  rfl

/-- Closing a scope reports those of its symbols that have no use. -/
theorem unused_close (h : r.table.IsFiled) : r.close.unused.toList =
    r.unused.toList ++ r.table.idle r.table.currentId := by
  rw [close, Array.toList_appendList, h.idle_eq]

/-- Between two states with the cursor on the same scope the scopes `opened` are opened and all of
    them are closed, in the order of `closed`.  Those of their symbols that have no use are
    reported, and what was closed before rests. -/
structure Passes (r r' : Resolution) (opened : List (ScopeId × ScopeId)) (closed : List ScopeId) :
    Prop where
  filed : r'.table.IsFiled
  cursor : r'.table.openScopes = r.table.openScopes
  tree : r'.table.tree = r.table.tree ++ opened.map fun x => (x.1, some x.2)
  rests : r.table.Rests r'.table
  dormant : ∀ id ∈ closed, r'.table.Dormant id
  unused : r'.unused.toList = r.unused.toList ++ closed.flatMap r'.table.idle

namespace Passes

/-- Where no scope is opened, nothing is reported. -/
theorem plain (hfiled : r'.table.IsFiled) (hcursor : r'.table.openScopes = r.table.openScopes)
    (htree : r'.table.tree = r.table.tree) (hrests : r.table.Rests r'.table)
    (hunused : r'.unused = r.unused) : r.Passes r' [] [] where
  filed := hfiled
  cursor := hcursor
  tree := by rw [htree, List.map_nil, List.append_nil]
  rests := hrests
  dormant _ hid := absurd hid List.not_mem_nil
  unused := by rw [hunused, List.flatMap_nil, List.append_nil]

theorem refl (h : r.table.IsFiled) : r.Passes r [] [] := plain h rfl rfl (.refl _) rfl

theorem trans (h : r.Passes r' opened closed) (h' : r'.Passes r'' opened' closed') :
    r.Passes r'' (opened ++ opened') (closed ++ closed') where
  filed := h'.filed
  cursor := h'.cursor.trans h.cursor
  tree := by rw [h'.tree, h.tree, List.map_append, List.append_assoc]
  rests := h.rests.trans h'.rests
  dormant id hid := by
    rcases List.mem_append.mp hid with hold | hnew
    · exact (h'.rests id (h.dormant id hold)).1
    · exact h'.dormant id hnew
  unused := by
    -- what was reported of a scope when it closed is still true of it
    have hsame : closed.flatMap r''.table.idle = closed.flatMap r'.table.idle :=
      List.flatMap_congr fun id hid => (h'.rests id (h.dormant id hid)).2
    rw [h'.unused, h.unused, List.flatMap_append, hsame, List.append_assoc]

theorem currentId (h : r.Passes r' opened closed) (hr : r.table.IsFiled) :
    r'.table.currentId = r.table.currentId := by
  obtain ⟨outer, ho⟩ := hr.toIsSound.exists_openScopes_eq
  exact h.filed.toIsSound.currentId_eq (h.cursor.trans ho)

theorem size (h : r.Passes r' opened closed) :
    r'.table.scopes.size = r.table.scopes.size + opened.length := by
  rw [← Table.length_tree, h.tree, List.length_append, List.length_map, Table.length_tree]

/-- Where no scope is opened, the cursor is where it was and the next number is the same. -/
theorem still (h : r.Passes r' [] []) (hr : r.table.IsFiled) :
    r'.table.currentId = r.table.currentId ∧ r'.table.scopes.size = r.table.scopes.size :=
  ⟨h.currentId hr, h.size⟩

theorem declare (h : r.table.IsFiled) (name : Name) (kind : SymbolKind) :
    r.Passes (r.declare name kind) [] [] := by
  obtain ⟨hnew, heq⟩ | ⟨late, heq⟩ := r.declare_eq name kind
  · rw [heq]
    exact plain (h.declared rfl hnew) (h.toIsSound.openScopes_declared _) (Table.tree_declared _ _)
      (h.toIsSound.rests_declared rfl) rfl
  · rw [heq]
    exact plain h rfl rfl (.refl _) rfl

theorem use (h : r.table.IsFiled) (name : String) (offset : Nat) :
    r.Passes (r.use name offset) [] [] := by
  obtain ⟨number, hnumber, heq⟩ | heq := r.use_eq name offset
  · rw [heq]
    exact plain (h.refer number) (Table.openScopes_refer _ _) rfl (h.rests_refer hnumber) rfl
  · rw [heq]
    exact plain h rfl rfl (.refl _) rfl

/-- A construct is entered, passed and left. -/
theorem construct (h : r.table.IsFiled) {kind : ScopeKind}
    (hinner : (r.step (.enter kind)).Passes r' opened closed) :
    r.Passes r'.close ((⟨kind, r.table.scopes.size⟩, r.table.currentId) :: opened)
      (closed ++ [⟨kind, r.table.scopes.size⟩]) := by
  have hsound := h.toIsSound
  have hinnerSound := hinner.filed.toIsSound
  have hopen : r'.table.openScopes = ⟨kind, r.table.scopes.size⟩ :: r.table.openScopes :=
    hinner.cursor.trans (hsound.openScopes_enter kind)
  have hne : r.table.openScopes ≠ [] := by
    obtain ⟨outer, houter⟩ := hsound.exists_openScopes_eq
    rw [houter]
    exact List.cons_ne_nil _ _
  -- the scope is new, so it is none of those that are open once it is left
  have hnew : ⟨kind, r.table.scopes.size⟩ ∉ r.table.openScopes := fun hmem =>
    Nat.lt_irrefl _ (hsound.lt_size_of_mem_openScopes hmem)
  have hrests : r'.table.Rests r'.close.table := hinnerSound.rests_leave hopen hne
  have hidle : r'.close.table.idle = r'.table.idle := Table.idle_leave r'.table
  refine ⟨hinner.filed.leave, hinnerSound.openScopes_leave hopen hne, ?_, ?_, ?_, ?_⟩
  · show r'.table.leave.tree = _
    rw [Table.tree_leave, hinner.tree]
    show (r.table.enter kind).tree ++ _ = _
    rw [Table.tree_enter, List.append_assoc]
    rfl
  · exact ((hsound.rests_enter kind).trans hinner.rests).trans hrests
  · intro id hid
    rcases List.mem_append.mp hid with hold | hlast
    · exact (hrests id (hinner.dormant id hold)).1
    · rw [List.mem_singleton.mp hlast]
      exact hinnerSound.dormant_leave hopen hne hnew
  · rw [unused_close hinner.filed, hinner.unused, hinnerSound.currentId_eq hopen,
      List.flatMap_append]
    show (r.unused.toList ++ _) ++ _ = _
    rw [List.append_assoc, List.flatMap_singleton, hidle]

/-- What a node declares or uses where it stands. -/
theorem outside (h : r.table.IsFiled) (n : Node) : r.Passes (r.run n.outside) [] [] := by
  cases n with
  | decl d =>
    obtain ⟨sp, kind, name, init⟩ := d
    exact declare h name .var
  | function sp name params body => exact declare h name .function
  | ident sp name => exact use h name sp.start
  | arrow sp params body => exact refl h
  | block body => exact refl h
  | statement s => exact refl h
  | expr e => exact refl h
  | comment sp text => exact refl h

theorem params (h : r.table.IsFiled) (ps : List Name) :
    r.Passes (r.run (paramsOutline ps)) [] [] := by
  induction ps generalizing r with
  | nil => exact refl h
  | cons p ps ih =>
    have hfirst := declare h p .parameter
    exact hfirst.trans (ih hfirst.filed)

end Passes

theorem isFiled_step (h : r.table.IsFiled) (a : Action) : (r.step a).table.IsFiled := by
  cases a with
  | enter kind => exact h.enter kind
  | leave => exact h.leave
  | declare name kind => exact (Passes.declare h name kind).filed
  | use name offset => exact (Passes.use h name offset).filed

theorem isFiled_foldl (h : r.table.IsFiled) (actions : List Action) :
    (actions.foldl step r).table.IsFiled := by
  induction actions generalizing r with
  | nil => exact h
  | cons a actions ih => exact ih (isFiled_step h a)

end Resolution

open Resolution

/-- **What comes of the nodes of a walk**: their scopes are opened, and closed again. -/
theorem Walks.passes {ns : List Node} {os : List Outline} (h : Walks ns os) :
    ∀ {r : Resolution}, r.table.IsFiled → ∃ opened closed,
      Opens r.table.currentId r.table.scopes.size ns opened closed ∧
      r.Passes (r.run os) opened closed := by
  induction h with
  | nil => exact fun hr => ⟨[], [], .nil, .refl hr⟩
  | @plain n ns os hn _ ih =>
    intro r hr
    have hfirst := Passes.outside hr n
    obtain ⟨hid, hsize⟩ := hfirst.still hr
    obtain ⟨opened, closed, hopens, hpasses⟩ := ih hfirst.filed
    rw [hid, hsize] at hopens
    refine ⟨opened, closed, .plain hn hopens, ?_⟩
    rw [run_append]
    exact hfirst.trans hpasses
  | @construct n kind ns inner os hn _ _ hinner hrest =>
    intro r hr
    have hfirst := Passes.outside hr n
    obtain ⟨hid, hsize⟩ := hfirst.still hr
    rw [run_append, run_construct, run_append]
    generalize r.run n.outside = r₁ at hfirst hid hsize
    -- the parameters and the body stand in the scope that is opened, and what comes after does not
    have hentered : (r₁.step (.enter kind)).table.IsFiled := hfirst.filed.enter kind
    have henterId : (r₁.step (.enter kind)).table.currentId = ⟨kind, r₁.table.scopes.size⟩ :=
      Table.currentId_enter r₁.table kind
    have henterSize : (r₁.step (.enter kind)).table.scopes.size = r₁.table.scopes.size + 1 :=
      Array.size_push _
    have hparams := Passes.params hentered n.params
    obtain ⟨hparamsId, hparamsSize⟩ := hparams.still hentered
    obtain ⟨opened, closed, hopens, hbody⟩ := hinner hparams.filed
    rw [hparamsId, hparamsSize, henterId, henterSize, hsize] at hopens
    have hconstruct : r₁.Passes _ ((⟨kind, r₁.table.scopes.size⟩, r₁.table.currentId) :: opened)
        (closed ++ [⟨kind, r₁.table.scopes.size⟩]) :=
      Passes.construct hfirst.filed (hparams.trans hbody)
    obtain ⟨opened', closed', hopens', hpasses⟩ := hrest hconstruct.filed
    rw [hconstruct.currentId hfirst.filed, hconstruct.size, hid, hsize, List.length_cons,
      Nat.add_comm opened.length, ← Nat.add_assoc] at hopens'
    refine ⟨_, _, .construct hn hopens hopens', ?_⟩
    have hall := hfirst.trans (hconstruct.trans hpasses)
    rw [hid, hsize] at hall
    simpa using hall

/-- A resolution is the run of an outline, and then the global scope closes. -/
theorem Program.resolve_eq_close (p : Program) :
    p.resolve = (Resolution.empty.run p.outline).close := by
  rw [Program.resolve, Program.actions_eq, List.foldl_append]
  rfl

theorem Resolution.isFiled_empty : Resolution.empty.table.IsFiled := Table.isFiled_empty

theorem Program.isFiled_resolve (p : Program) : p.resolve.table.IsFiled :=
  isFiled_foldl Resolution.isFiled_empty p.actions

theorem Program.passes (p : Program) : ∃ opened closed, Opens .global 1 p.nodes opened closed ∧
    Resolution.empty.Passes (Resolution.empty.run p.outline) opened closed :=
  p.walks.passes Resolution.isFiled_empty

/-- The scopes of a program are the global one and those that its nodes open. -/
theorem Program.tree_eq (p : Program) {opened : List (ScopeId × ScopeId)} {closed : List ScopeId}
    (h : Resolution.empty.Passes (Resolution.empty.run p.outline) opened closed) :
    p.resolve.table.tree = (.global, none) :: opened.map fun x => (x.1, some x.2) := by
  rw [p.resolve_eq_close]
  exact (Table.tree_leave _).trans h.tree

/-- The walk of a statement ends in the scope that it began in. -/
theorem Statement.currentId_walk {r : Resolution} (h : r.table.IsFiled) (s : Statement) :
    (s.actions.foldl step r).table.currentId = r.table.currentId := by
  obtain ⟨opened, closed, -, hpasses⟩ := (Walks.tree.all.2.2 s).passes h
  rw [actions_tree.all.2.2 s]
  exact hpasses.currentId h

/-- A scope is found under its own id and under no other. -/
theorem Table.IsSound.scope?_eq_some_iff {t : Table} (h : t.IsSound) {i : Nat} {s : Scope}
    (hs : t.scopes[i]? = some s) (id : ScopeId) : t.scope? id = some s ↔ id = s.id := by
  rw [Table.scope?, Option.filter_eq_some_iff]
  constructor
  · exact fun hfound => (of_decide_eq_true hfound.2).symm
  · rintro rfl
    rw [h.ordinal i s hs]
    exact ⟨hs, decide_eq_true rfl⟩

/-- **The tree of scopes is that of the constructs.**  After the global scope there is one for each
    node that opens one, in the order of the walk, each in the scope of the construct around it.  A
    scope has its place for a number, the kind of its construct and, unless it is the first, a
    parent, and it is found under its own id alone.  And wherever a statement stands, the cursor is
    after it where it was before. -/
theorem Program.scopes_resolve (p : Program) :
    (∃ opened closed, Opens .global 1 p.nodes opened closed ∧
      p.resolve.table.tree = (.global, none) :: opened.map fun x => (x.1, some x.2)) ∧
    p.resolve.table.tree.map (·.1.kind) = .global :: p.nodes.filterMap Node.scope? ∧
    (∀ (i : Nat) (s : Scope), p.resolve.table.scopes[i]? = some s →
      s.id.ordinal = i ∧ (s.parent = none ↔ i = 0) ∧
      ∀ id, p.resolve.table.scope? id = some s ↔ id = s.id) ∧
    ∀ (before : List Action) (s : Statement),
      (s.actions.foldl step (before.foldl step .empty)).table.currentId =
        (before.foldl step .empty).table.currentId := by
  obtain ⟨opened, closed, hopens, hpasses⟩ := p.passes
  have htree := p.tree_eq hpasses
  have hfiled := p.isFiled_resolve
  refine ⟨⟨opened, closed, hopens, htree⟩, ?_, fun i s hs => ⟨?_, ?_, fun id => ?_⟩,
    fun before s => ?_⟩
  · rw [htree, List.map_cons, List.map_map, ← hopens.kinds]
    rfl
  · exact hfiled.ordinal i s hs
  · exact hfiled.root i s hs
  · exact hfiled.toIsSound.scope?_eq_some_iff hs id
  · exact s.currentId_walk (isFiled_foldl Resolution.isFiled_empty before)

end CurlyScript
