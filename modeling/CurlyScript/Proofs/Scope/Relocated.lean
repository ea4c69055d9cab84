import CurlyScript.Finding
import CurlyScript.Proofs.Scope.Rewritten
import CurlyScript.Proofs.Syntax.Words

/-
  Relocation: the same names at other places.

  Resolving carries offsets along and never compares them, so each of its steps commutes with a
  move of all offsets (`Resolution.step_relocate`), and so does a whole run.  Forgetting offsets is
  the move of all of them to one place: trees that differ in spans alone, or in parentheses besides,
  have the same resolution but for offsets, and the same findings.
-/

namespace CurlyScript

/-! ## What moves -/

/-- A symbol whose offset is moved. -/
def Symbol.relocate (f : Nat → Nat) (s : Symbol) : Symbol :=
  ⟨s.name, s.kind, s.references, f s.offset, s.scope⟩

/-- A table whose offsets are moved. -/
def Table.relocate (f : Nat → Nat) (t : Table) : Table :=
  ⟨t.scopes, t.symbols.map (Symbol.relocate f), t.current⟩

/-- A use without a declaration at its new place. -/
def UndefinedUse.relocate (f : Nat → Nat) (u : UndefinedUse) : UndefinedUse := ⟨u.name, f u.offset⟩

/-- An unused symbol at its new place. -/
def UnusedSymbol.relocate (f : Nat → Nat) (u : UnusedSymbol) : UnusedSymbol :=
  ⟨u.name, u.kind, u.scope, f u.offset⟩

/-- A late declaration at its new place. -/
def Redeclaration.relocate (f : Nat → Nat) (r : Redeclaration) : Redeclaration :=
  ⟨r.name, r.kind, r.scope, f r.offset, f r.firstOffset⟩

/-- An appearance of a name at its new place. -/
def Usage.relocate (f : Nat → Nat) (u : Usage) : Usage := ⟨u.isDeclaration, u.scope, f u.offset⟩

/-- All that is known, at new places. -/
def Resolution.relocate (f : Nat → Nat) (r : Resolution) : Resolution where
  table := r.table.relocate f
  undefined := r.undefined.map (UndefinedUse.relocate f)
  unused := r.unused.map (UnusedSymbol.relocate f)
  redeclarations := r.redeclarations.map (Redeclaration.relocate f)
  log := r.log.map fun entry => (entry.1, entry.2.relocate f)

/-- An action at its new place. -/
def Action.relocate (f : Nat → Nat) : Action → Action
  | .declare name kind => .declare ⟨name.text, ⟨f name.span.start, f name.span.stop⟩⟩ kind
  | .use name offset => .use name (f offset)
  | a => a

/-- A finding at its new place. -/
def Finding.relocate (f : Nat → Nat) : Finding → Finding
  | .undefined u => .undefined (u.relocate f)
  | .unused u => .unused (u.relocate f)
  | .redeclared r => .redeclared (r.relocate f)
  | .noVar offset => .noVar (f offset)

/-- A usage but for its offset. -/
def Usage.unplaced : Usage → Usage := Usage.relocate fun _ => 0

/-- A resolution but for offsets: scopes, symbols, faults and usages in their order. -/
def Resolution.unplaced : Resolution → Resolution := Resolution.relocate fun _ => 0

/-- A finding but for its offset. -/
def Finding.unplaced : Finding → Finding := Finding.relocate fun _ => 0

/-! ## Tables -/

namespace Table

variable {f : Nat → Nat} {t : Table}

/-- A look-up needs the scopes alone. -/
theorem lookupFrom?_relocate (name : String) (i : Nat) :
    (t.relocate f).lookupFrom? name i = t.lookupFrom? name i := by
  -- along the parents, which lie below
  induction i using Nat.strongRecOn with
  | ind i ih =>
    rw [lookupFrom?, lookupFrom?]
    have hscopes : (t.relocate f).scopes = t.scopes := rfl
    rw [hscopes]
    cases t.scopes[i]? with
    | none => rfl
    | some s =>
      simp only
      cases s.find? name with
      | some id => rfl
      | none =>
        cases s.parent with
        | none => rfl
        | some p =>
          by_cases hp : p.ordinal < i
          · simp only [if_pos hp, ih p.ordinal hp]
          · simp only [if_neg hp]

theorem lookup?_relocate (name : String) : (t.relocate f).lookup? name = t.lookup? name :=
  lookupFrom?_relocate name t.current

theorem leave_relocate : (t.relocate f).leave = t.leave.relocate f := by
  rw [leave, leave]
  have hscope : (t.relocate f).currentScope = t.currentScope := rfl
  rw [hscope]
  cases t.currentScope.parent <;> rfl

theorem refer_relocate (number : Nat) :
    (t.relocate f).refer number = (t.refer number).relocate f := by
  simp only [refer, relocate, mk.injEq, true_and, and_true]
  refine Array.ext' ?_
  simp only [Array.toList_modify, Array.toList_map]
  refine List.ext_getElem? fun i => ?_
  simp only [List.getElem?_modify, List.getElem?_map]
  cases t.symbols.toList[i]? with
  | none => rfl
  | some s => by_cases h : number = i <;> simp [h, Symbol.relocate]

theorem symbolsIn_relocate (id : ScopeId) :
    (t.relocate f).symbolsIn id = (t.symbolsIn id).map (Symbol.relocate f) := by
  rw [symbolsIn, symbolsIn]
  have hscope : (t.relocate f).scope? id = t.scope? id := rfl
  rw [hscope]
  cases t.scope? id with
  | none => rfl
  | some s =>
    rw [List.map_filterMap]
    exact congrArg (List.filterMap · s.names) (funext fun n => Array.getElem?_map)

end Table

/-! ## Steps -/

namespace Resolution

variable {f : Nat → Nat} {r : Resolution}

theorem close_relocate : (r.relocate f).close = r.close.relocate f := by
  have hcurrent : (r.table.relocate f).currentId = r.table.currentId := rfl
  have hunused : ∀ idle : List Symbol, (r.unused ++ idle.map fun s =>
      UnusedSymbol.mk s.name s.kind r.table.currentId s.offset).map (UnusedSymbol.relocate f) =
      r.unused.map (UnusedSymbol.relocate f) ++ (idle.map (Symbol.relocate f)).map fun s =>
        UnusedSymbol.mk s.name s.kind r.table.currentId s.offset := by
    intro idle
    refine Array.ext' ?_
    simp only [Array.toList_map, Array.toList_appendList, List.map_append, List.map_map]
    rfl
  simp only [close, relocate, Table.leave_relocate, Table.symbolsIn_relocate, hcurrent, hunused,
    List.filter_map]
  rfl

theorem declare_relocate (name : Name) (kind : SymbolKind) :
    (r.relocate f).declare ⟨name.text, ⟨f name.span.start, f name.span.stop⟩⟩ kind =
      (r.declare name kind).relocate f := by
  have hlocal : (r.table.relocate f).lookupLocal? name.text = r.table.lookupLocal? name.text := rfl
  cases h : r.table.lookupLocal? name.text with
  | some existing =>
    have hfirst : ((r.table.relocate f).symbols[existing]?.map (·.offset)).getD
        (f name.span.start) =
        f ((r.table.symbols[existing]?.map (·.offset)).getD name.span.start) := by
      rw [Table.relocate, Array.getElem?_map]
      cases r.table.symbols[existing]? <;> rfl
    simp only [declare, Table.declare, relocate, hlocal, h, hfirst, Array.map_push]
    rfl
  | none =>
    simp only [declare, Table.declare, relocate, hlocal, h, Array.map_push]
    simp only [Table.relocate, Array.map_push, Array.size_map]
    rfl

theorem use_relocate (name : String) (offset : Nat) :
    (r.relocate f).use name (f offset) = (r.use name offset).relocate f := by
  have hlookup : (r.relocate f).table.lookup? name = r.table.lookup? name :=
    Table.lookup?_relocate name
  rw [use, use, hlookup]
  cases r.table.lookup? name with
  | none => simp only [relocate, Array.map_push]; rfl
  | some number => simp only [relocate, Array.map_push, Table.refer_relocate]; rfl

/-- Each step commutes with a move of all offsets. -/
theorem step_relocate (a : Action) :
    (r.relocate f).step (a.relocate f) = (r.step a).relocate f := by
  cases a with
  | enter kind => rfl
  | leave => exact close_relocate
  | declare name kind => exact declare_relocate name kind
  | use name offset => exact use_relocate name offset

theorem empty_relocate (f : Nat → Nat) : empty.relocate f = empty := by
  simp [relocate, empty, Table.relocate, Table.empty]

theorem foldl_relocate (acts : List Action) : ∀ r : Resolution,
    (acts.map (Action.relocate f)).foldl step (r.relocate f) = (acts.foldl step r).relocate f := by
  induction acts with
  | nil => exact fun _ => rfl
  | cons a acts ih =>
    intro r
    rw [List.map_cons, List.foldl_cons, List.foldl_cons, step_relocate, ih]

theorem usagesOf_relocate (name : String) :
    (r.relocate f).usagesOf name = (r.usagesOf name).map (Usage.relocate f) := by
  simp only [usagesOf, relocate, Array.toList_map, List.filter_map, List.map_map]
  rfl

end Resolution

/-! ## Programs -/

/-- The first outline is the second one with its offsets moved. -/
def OutlinesRelocated (f : Nat → Nat) (os' os : List Outline) : Prop :=
  outlineActions os' = (outlineActions os).map (Action.relocate f)

namespace Rewriting

/-- Without spans, everything stands at one place. -/
theorem outlines_unspanned :
    unspanned.Outlines (fun _ => True) (OutlinesRelocated fun _ => 0) where
  nil := rfl
  append {os os' qs qs'} h h' := by
    show outlineActions (os ++ qs) = (outlineActions (os' ++ qs')).map _
    rw [outlineActions_append, outlineActions_append, List.map_append, h, h']
  declaration n kind := rfl
  use name s := rfl
  construct kind os os' h := by
    show outlineActions [_] = (outlineActions [_]).map _
    rw [outlineActions_singleton, outlineActions_singleton, Outline.actions, Outline.actions,
      Action.within, Action.within, h, List.map_append, List.map_cons]
    rfl
  expr e := rfl
  statement s _ := rfl
  cond sp test consequent alternate _ ht hc ha := by
    show outlineActions (_ ++ _ ++ _) = (outlineActions (_ ++ _ ++ _)).map _
    rw [outlineActions_append, outlineActions_append, ht, hc, ha, outlineActions_append,
      outlineActions_append, List.map_append, List.map_append]

end Rewriting

/-- The finding that a word makes, but for its offset. -/
def Word.finding? : Word → Option Finding
  | .declares .var => some (.noVar 0)
  | _ => none

namespace Program

/-- Names at other places resolve alike. -/
theorem resolve_relocate {f : Nat → Nat} {p q : Program}
    (h : OutlinesRelocated f q.outline p.outline) : q.resolve = p.resolve.relocate f := by
  have hactions : q.actions = p.actions.map (Action.relocate f) := by
    rw [q.actions_eq, p.actions_eq, h, List.map_append]
    rfl
  rw [resolve, resolve, hactions, ← Resolution.foldl_relocate, Resolution.empty_relocate]

theorem resolve_unspanned (p : Program) :
    Program.resolve (p.rewrite .unspanned) = p.resolve.unplaced :=
  resolve_relocate (Rewriting.outlines_unspanned.program fun _ _ => trivial)

/-- But for offsets, the findings of a program are those of its resolution and of its words. -/
theorem findings_unplaced (p : Program) : p.findings.map Finding.unplaced =
    p.resolve.unplaced.undefined.toList.map .undefined ++
      p.resolve.unplaced.unused.toList.map .unused ++
      p.resolve.unplaced.redeclarations.toList.map .redeclared ++
      p.words.filterMap Word.finding? := by
  have hwords : (p.nodes.filterMap Finding.ofNode?).map Finding.unplaced =
      p.words.filterMap Word.finding? := by
    rw [words, List.filterMap_filterMap, List.map_filterMap]
    refine congrArg (List.filterMap · p.nodes) (funext fun n => ?_)
    cases n with
    | decl d => obtain ⟨sp, kind, name, init⟩ := d; cases kind <;> rfl
    | expr e => cases e <;> rfl
    | _ => rfl
  have hall : Rule.all.filter Policy.strict = Rule.all := by decide
  rw [findings, lint, hall]
  simp only [Rule.all, List.flatMap_cons, List.flatMap_nil, List.append_nil, List.append_assoc,
    findingsOf, List.map_append, hwords, Resolution.unplaced, Resolution.relocate,
    Array.toList_map, List.map_map]
  rfl

end Program

end CurlyScript
