import CurlyScript.Proofs.Scope.Frames
import CurlyScript.Proofs.Scope.Outline

/-
  Resolution with a stack of frames in place of a table.

  A ledger keeps what a resolution says, offsets and scopes aside (`Summary`), and the frames of
  the open scopes.  Its steps are those of the resolution (`Resolution.ledger_step`), so what a
  program's names come to can be read off runs of ledgers, where no scope has a number.
-/

namespace CurlyScript

/-- A symbol but for its offset and its scope. -/
structure Entry where
  /-- The name. -/
  name : String
  /-- What it was declared as. -/
  kind : SymbolKind
  /-- How many uses refer to it. -/
  references : Nat
deriving DecidableEq, Repr

/-- What a resolution says, offsets and scopes aside. -/
structure Summary where
  /-- The symbols, in the order of declaration. -/
  symbols : List Entry
  /-- The names of the uses without a declaration, in the order of the text. -/
  undefined : List String
  /-- The symbols without a use, scope by scope as these close. -/
  unused : List (String × SymbolKind)
  /-- The names of the declarations that came too late, in the order of the text. -/
  redeclared : List String
deriving DecidableEq, Repr

/-- A symbol but for its offset and its scope. -/
def Symbol.entry (s : Symbol) : Entry := ⟨s.name, s.kind, s.references⟩

/-- What a resolution says, offsets and scopes aside. -/
def Resolution.summary (r : Resolution) : Summary where
  symbols := r.table.symbols.toList.map Symbol.entry
  undefined := r.undefined.toList.map (·.name)
  unused := r.unused.toList.map fun u => (u.name, u.kind)
  redeclared := r.redeclarations.toList.map (·.name)

/-- A summary in the making, and the frames of the open scopes. -/
structure Ledger extends Summary where
  /-- The names of the open scopes, the innermost first. -/
  frames : List Frame

namespace Ledger

/-- The number of the symbol that a name stands for. -/
def lookup? (l : Ledger) (name : String) : Option Nat := l.frames.findSome? (·.lookup name)

/-- The symbols of a frame that have no use. -/
def idle (l : Ledger) (f : Frame) : List (String × SymbolKind) :=
  ((f.filterMap fun entry => l.symbols[entry.2]?).filter (·.references = 0)).map
    fun s => (s.name, s.kind)

/-- Opens a scope. -/
def enter (l : Ledger) : Ledger := { l with frames := [] :: l.frames }

/-- Reports the symbols of the current scope that have no use, and closes it.  The last one
    stays. -/
def leave (l : Ledger) : Ledger :=
  match l.frames with
  | [] => l
  | f :: fs => { l with frames := if fs.isEmpty then [f] else fs, unused := l.unused ++ l.idle f }

/-- Declares a name, or notes that it has been declared. -/
def declare (l : Ledger) (name : String) (kind : SymbolKind) : Ledger :=
  match l.frames with
  | [] => l
  | f :: fs => match f.lookup name with
    | some _ => { l with redeclared := l.redeclared ++ [name] }
    | none => { l with
        frames := (f ++ [(name, l.symbols.length)]) :: fs
        symbols := l.symbols ++ [⟨name, kind, 0⟩] }

theorem declare_of_some {l : Ledger} {f : Frame} {fs : List Frame} {name : String} {number : Nat}
    (hf : l.frames = f :: fs) (h : f.lookup name = some number) (kind : SymbolKind) :
    l.declare name kind = { l with redeclared := l.redeclared ++ [name] } := by
  rw [declare, hf]
  simp only [h]

theorem declare_of_none {l : Ledger} {f : Frame} {fs : List Frame} {name : String}
    (hf : l.frames = f :: fs) (h : f.lookup name = none) (kind : SymbolKind) :
    l.declare name kind = { l with
      frames := (f ++ [(name, l.symbols.length)]) :: fs
      symbols := l.symbols ++ [⟨name, kind, 0⟩] } := by
  rw [declare, hf]
  simp only [h]

/-- Ties a use to its symbol, or notes that there is none. -/
def use (l : Ledger) (name : String) : Ledger :=
  match l.lookup? name with
  | some number => { l with
      symbols := l.symbols.modify number fun s => { s with references := s.references + 1 } }
  | none => { l with undefined := l.undefined ++ [name] }

/-- The ledger after one more action. -/
def step (l : Ledger) : Action → Ledger
  | .enter _ => l.enter
  | .leave => l.leave
  | .declare name kind => l.declare name.text kind
  | .use name _ => l.use name

/-- The ledger after an outline. -/
def run (l : Ledger) (os : List Outline) : Ledger := (outlineActions os).foldl step l

end Ledger

namespace Resolution

variable {r : Resolution}

/-- The ledger of a resolution. -/
def ledger (r : Resolution) : Ledger := ⟨r.summary, r.table.frames⟩

theorem ledger_enter (h : r.table.IsSound) (kind : ScopeKind) :
    (r.step (.enter kind)).ledger = r.ledger.enter :=
  congrArg (Ledger.mk r.summary) (h.frames_enter kind)

theorem idle_ledger (r : Resolution) (f : Frame) : r.ledger.idle f =
    ((f.filterMap fun entry => r.table.symbols[entry.2]?).filter (·.references = 0)).map
      fun s => (s.name, s.kind) := by
  have hget : ∀ i : Nat, r.ledger.symbols[i]? = r.table.symbols[i]?.map Symbol.entry := by
    intro i
    show (r.table.symbols.toList.map Symbol.entry)[i]? = _
    rw [List.getElem?_map, Array.getElem?_toList]
  simp only [Ledger.idle, hget, ← List.map_filterMap, List.filter_map, List.map_map]
  rfl

theorem ledger_close (h : r.table.IsSound) : r.close.ledger = r.ledger.leave := by
  cases hf : r.table.frames with
  | nil =>
    rw [h.frames_eq] at hf
    exact nomatch hf
  | cons f fs =>
    have hunused : r.close.unused.toList.map (fun u => (u.name, u.kind)) =
        r.unused.toList.map (fun u => (u.name, u.kind)) ++ r.ledger.idle f := by
      rw [Resolution.close, Array.toList_appendList, List.map_append, List.map_map, idle_ledger,
        h.symbolsIn_current hf]
      rfl
    have hsymbols : r.table.leave.symbols = r.table.symbols := by
      rw [Table.leave]
      split <;> rfl
    rw [Ledger.leave]
    show Ledger.mk ⟨r.table.leave.symbols.toList.map _, _, _, _⟩ r.table.leave.frames =
      match r.table.frames with
      | [] => _
      | f :: fs => _
    rw [hf, h.frames_leave hf, hsymbols, hunused]
    rfl

theorem ledger_declare (h : r.table.IsSound) (name : Name) (kind : SymbolKind) :
    (r.declare name kind).ledger = r.ledger.declare name.text kind ∧
      (r.declare name kind).table.IsSound := by
  cases hf : r.table.frames with
  | nil =>
    rw [h.frames_eq] at hf
    exact nomatch hf
  | cons f fs =>
    have hlocal := h.lookupLocal?_eq hf name.text
    have hframes : r.ledger.frames = f :: fs := hf
    cases hl : f.lookup name.text with
    | some existing =>
      rw [hl] at hlocal
      rw [Ledger.declare_of_some hframes hl]
      simp only [declare, Table.declare, hlocal]
      refine ⟨?_, h⟩
      simp only [ledger, summary, Array.toList_push, List.map_append, hf]
      rfl
    | none =>
      rw [hl] at hlocal
      have hdeclared := h.frames_declared hf
        ⟨name.text, kind, name.span.start, r.table.currentId⟩
      rw [Ledger.declare_of_none hframes hl]
      simp only [declare, Table.declare, hlocal]
      refine ⟨?_, h.declared ⟨name.text, kind, name.span.start, r.table.currentId⟩⟩
      have hlength : r.ledger.symbols.length = r.table.symbols.size := by
        show (r.table.symbols.toList.map Symbol.entry).length = _
        rw [List.length_map, Array.length_toList]
      rw [hlength, ← hdeclared]
      simp only [ledger, summary, Array.toList_push, List.map_append]
      rfl

theorem ledger_use (h : r.table.IsSound) (name : String) (offset : Nat) :
    (r.use name offset).ledger = r.ledger.use name ∧ (r.use name offset).table.IsSound := by
  have hlookup : r.ledger.lookup? name = r.table.lookup? name := (Table.lookup?_eq name).symm
  rw [use, Ledger.use, hlookup]
  cases r.table.lookup? name with
  | none =>
    refine ⟨?_, h⟩
    simp only [ledger, summary, Array.toList_push, List.map_append]
    rfl
  | some number =>
    refine ⟨?_, h.refer number⟩
    have hsymbols := Table.map_symbols_refer (t := r.table) (f := Symbol.entry)
      (g := fun entry => { entry with references := entry.references + 1 }) (fun _ => rfl) number
    simp only [ledger, summary, hsymbols, Table.frames_refer]

/-- A step of the resolution is a step of its ledger, and keeps the table sound. -/
theorem ledger_step (h : r.table.IsSound) (a : Action) :
    (r.step a).ledger = r.ledger.step a ∧ (r.step a).table.IsSound := by
  cases a with
  | enter kind => exact ⟨ledger_enter h kind, h.enter kind⟩
  | leave => exact ⟨ledger_close h, h.leave⟩
  | declare name kind => exact ledger_declare h name kind
  | use name offset => exact ledger_use h name offset

theorem ledger_foldl (acts : List Action) : ∀ {r : Resolution}, r.table.IsSound →
    (acts.foldl step r).ledger = acts.foldl Ledger.step r.ledger := by
  induction acts with
  | nil => exact fun _ => rfl
  | cons a acts ih =>
    intro r h
    obtain ⟨hstep, hsound⟩ := ledger_step h a
    rw [List.foldl_cons, List.foldl_cons, ih hsound, hstep]

end Resolution

/-- The resolution of a program has the ledger of its outline, after the program is left. -/
theorem Program.ledger_resolve (p : Program) :
    p.resolve.ledger = (Resolution.empty.ledger.run p.outline).leave := by
  rw [Program.resolve, Resolution.ledger_foldl _ Table.isSound_empty, Program.actions_eq,
    List.foldl_append]
  rfl

end CurlyScript
