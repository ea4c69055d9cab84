import CurlyScript.Proofs.Layout.ReadBack
import CurlyScript.Proofs.Scope.Ledger
import CurlyScript.Proofs.Scope.Relocated

/-
  Braces that are written around a branch.

  A text that keeps an `else` away from the `if` in front of it puts that `if` in braces, and a
  block has a scope of its own.  Names that are declared directly in the branch are then not seen
  outside of it (`undefined_generate_hidden`); if there are none, the block can be told from the
  branch by nobody: what has been declared is seen through it, and it holds nothing itself.

  One outline `Wraps` another if it puts such parts of it into blocks.  The two runs keep ledgers
  that agree (`Ledger.Agrees`): summaries are the same, and so is what every name stands for, though
  the frames are not.
-/

namespace CurlyScript

/-- Whether a part of an outline is a declaration. -/
def Outline.isDeclaration : Outline → Bool
  | .declaration _ _ => true
  | _ => false

/-- Whether nothing is declared directly in some outlines. -/
def declaresNothing (os : List Outline) : Bool := os.all fun o => !o.isDeclaration

theorem declaresNothing_append {os qs : List Outline} :
    declaresNothing (os ++ qs) = true ↔ declaresNothing os = true ∧ declaresNothing qs = true := by
  rw [declaresNothing, List.all_append, Bool.and_eq_true]
  rfl

/-- The first outline is the second one with some parts that declare nothing put into blocks. -/
inductive Wraps : List Outline → List Outline → Prop where
  | nil : Wraps [] []
  | declaration (n : Name) (kind : SymbolKind) {os' os : List Outline} :
    Wraps os' os → Wraps (.declaration n kind :: os') (.declaration n kind :: os)
  | use (name : String) (offset : Nat) {os' os : List Outline} :
    Wraps os' os → Wraps (.use name offset :: os') (.use name offset :: os)
  | construct (kind : ScopeKind) {inner' inner os' os : List Outline} :
    Wraps inner' inner → Wraps os' os →
    Wraps (.construct kind inner' :: os') (.construct kind inner :: os)
  | block {inner' inner os' os : List Outline} : declaresNothing inner = true →
    Wraps inner' inner → Wraps os' os → Wraps (.construct .block inner' :: os') (inner ++ os)

theorem Wraps.append {os os' qs qs' : List Outline} (h : Wraps os' os) (hq : Wraps qs' qs) :
    Wraps (os' ++ qs') (os ++ qs) := by
  induction h with
  | nil => exact hq
  | declaration n kind _ ih => exact .declaration n kind ih
  | use name offset _ ih => exact .use name offset ih
  | construct kind hinner _ _ ih => exact .construct kind hinner ih
  | block hquiet hinner _ _ ih =>
    rw [List.append_assoc]
    exact .block hquiet hinner ih

/-! ## Ledgers that agree -/

namespace Ledger

/-- The same summary so far, and every name stands for the same symbol. -/
structure Agrees (l' l : Ledger) : Prop where
  summary : l'.toSummary = l.toSummary
  lookup : ∀ name, l'.lookup? name = l.lookup? name

variable {l l' : Ledger} {f f' : Frame} {fs fs' : List Frame}

theorem frames_use (name : String) : (l.use name).frames = l.frames := by
  rw [use]
  cases l.lookup? name <;> rfl

theorem frames_leave {g : Frame} (h : l.frames = g :: f :: fs) : l.leave.frames = f :: fs := by
  rw [leave, h]
  rfl

theorem run_append (os qs : List Outline) : l.run (os ++ qs) = (l.run os).run qs := by
  rw [run, outlineActions_append, List.foldl_append]
  rfl

theorem run_construct (kind : ScopeKind) (inner os : List Outline) :
    l.run (.construct kind inner :: os) = (l.enter.run inner).leave.run os := by
  rw [run, outlineActions, Outline.actions, Action.within, List.cons_append, List.foldl_append,
    List.foldl_cons, List.foldl_append]
  rfl

namespace Agrees

theorem refl (l : Ledger) : l.Agrees l := ⟨rfl, fun _ => rfl⟩

theorem use (h : l'.Agrees l) (name : String) : (l'.use name).Agrees (l.use name) := by
  refine ⟨?_, fun other => ?_⟩
  · rw [Ledger.use, Ledger.use, h.lookup name, h.summary]
    cases l.lookup? name <;> rfl
  · rw [lookup?, lookup?, frames_use, frames_use]
    exact h.lookup other

theorem enter (h : l'.Agrees l) : l'.enter.Agrees l.enter := ⟨h.summary, h.lookup⟩

/-- A scope that was entered can be looked through. -/
theorem enter_left (h : l'.Agrees l) : l'.enter.Agrees l := ⟨h.summary, h.lookup⟩

/-- In frames that are the same a declaration comes to the same. -/
theorem declare (h : l'.Agrees l) (hf' : l'.frames = f :: fs') (hf : l.frames = f :: fs)
    (name : String) (kind : SymbolKind) :
    (l'.declare name kind).Agrees (l.declare name kind) ∧ ∃ g,
      (l'.declare name kind).frames = g :: fs' ∧ (l.declare name kind).frames = g :: fs := by
  cases hl : f.lookup name with
  | some existing =>
    rw [declare_of_some hf' hl, declare_of_some hf hl]
    exact ⟨⟨by rw [h.summary], h.lookup⟩, f, hf', hf⟩
  | none =>
    rw [declare_of_none hf' hl, declare_of_none hf hl]
    refine ⟨⟨by rw [h.summary], fun other => ?_⟩, _, by rw [h.summary], rfl⟩
    have hlook := h.lookup other
    rw [lookup?, lookup?, hf', hf, List.findSome?_cons, List.findSome?_cons] at hlook
    simp only [lookup?, h.summary, List.findSome?_cons, List.lookup_append]
    cases ho : f.lookup other with
    | some number => rfl
    | none =>
      rw [ho] at hlook
      have hbelow : fs'.findSome? (·.lookup other) = fs.findSome? (·.lookup other) := hlook
      rw [hbelow]

/-- A scope of the same names leaves the same idle symbols. -/
theorem leave {g : Frame} (h : l'.Agrees l) (hf' : l'.frames = g :: f' :: fs')
    (hf : l.frames = g :: f :: fs)
    (hlook : ∀ name, (f' :: fs').findSome? (·.lookup name) = (f :: fs).findSome? (·.lookup name)) :
    l'.leave.Agrees l.leave := by
  refine ⟨?_, fun name => ?_⟩
  · rw [Ledger.leave, Ledger.leave, hf', hf]
    show Summary.mk _ _ (_ ++ l'.idle g) _ = Summary.mk _ _ (_ ++ l.idle g) _
    rw [idle, idle, h.summary]
  · rw [lookup?, lookup?, frames_leave hf', frames_leave hf]
    exact hlook name

/-- An empty scope leaves nothing. -/
theorem leave_left (h : l'.Agrees l) (hf' : l'.frames = [] :: f' :: fs')
    (hlook : ∀ name, (f' :: fs').findSome? (·.lookup name) = l.lookup? name) :
    l'.leave.Agrees l := by
  refine ⟨?_, fun name => ?_⟩
  · rw [Ledger.leave, hf', ← h.summary]
    show Summary.mk _ _ (l'.unused ++ []) _ = _
    rw [List.append_nil]
  · rw [lookup?, frames_leave hf']
    exact hlook name

end Agrees

/-- **Blocks around parts that declare nothing are not noticed.**  Ledgers that agree do so after
    both runs, frames below the topmost stay, and the topmost frames are the same afterwards if
    they were before.  They have to be the same where something is declared in them. -/
theorem agrees_run {os' os : List Outline} (h : Wraps os' os) :
    ∀ {l' l : Ledger} {f' f : Frame} {fs' fs : List Frame}, l'.Agrees l → l'.frames = f' :: fs' →
    l.frames = f :: fs → f' = f ∨ declaresNothing os = true → ∃ g' g,
      (l'.run os').frames = g' :: fs' ∧ (l.run os).frames = g :: fs ∧ (f' = f → g' = g) ∧
      (declaresNothing os = true → g' = f' ∧ g = f) ∧ (l'.run os').Agrees (l.run os) := by
  induction h with
  | nil => exact fun ha hf' hf _ => ⟨_, _, hf', hf, id, fun _ => ⟨rfl, rfl⟩, ha⟩
  | declaration n kind _ ih =>
    intro l' l f' f fs' fs ha hf' hf hsame
    obtain rfl | hquiet := hsame
    · obtain ⟨hdeclare, g, hg', hg⟩ := ha.declare hf' hf n.text kind
      obtain ⟨x', x, hx', hx, heq, -, hrun⟩ := ih hdeclare hg' hg (.inl rfl)
      exact ⟨x', x, hx', hx, fun _ => heq rfl, nofun, hrun⟩
    · exact Bool.noConfusion hquiet
  | use name offset _ ih =>
    intro l' l f' f fs' fs ha hf' hf hsame
    exact ih (ha.use name) ((frames_use name).trans hf') ((frames_use name).trans hf) hsame
  | construct kind _ _ ihi iho =>
    intro l' l f' f fs' fs ha hf' hf hsame
    obtain ⟨g', g, hg', hg, heq, -, hinner⟩ := ihi ha.enter (congrArg ([] :: ·) hf')
      (congrArg ([] :: ·) hf) (.inl rfl)
    obtain rfl : g' = g := heq rfl
    have hlook := ha.lookup
    simp only [lookup?, hf', hf] at hlook
    rw [run_construct, run_construct]
    exact iho (hinner.leave hg' hg hlook) (frames_leave hg') (frames_leave hg) hsame
  | block hquiet _ _ ihi iho =>
    intro l' l f' f fs' fs ha hf' hf hsame
    -- the block is entered on the left alone, and nothing is put into it until it is left
    obtain ⟨g', g, hg', hg, -, hstay, hinner⟩ := ihi ha.enter_left (congrArg ([] :: ·) hf') hf
      (.inr hquiet)
    obtain ⟨rfl, rfl⟩ := hstay hquiet
    have hlook := ha.lookup
    simp only [lookup?, hf', hf] at hlook
    have hleave := hinner.leave_left hg' fun name => by rw [lookup?, hg]; exact hlook name
    rw [run_construct, run_append]
    obtain ⟨x', x, hx', hx, heq, hrest, hrun⟩ := iho hleave (frames_leave hg') hg
      (hsame.imp_right fun hq => (declaresNothing_append.mp hq).2)
    exact ⟨x', x, hx', hx, heq, fun hq => hrest (declaresNothing_append.mp hq).2, hrun⟩

end Ledger

/-- Programs whose outlines are the same but for such blocks come to the same. -/
theorem Wraps.summary {p q : Program} (h : Wraps q.outline p.outline) :
    q.resolve.summary = p.resolve.summary := by
  have hframes : Resolution.empty.ledger.frames = [[]] := Table.isSound_empty.frames_eq
  obtain ⟨g', g, hg', hg, heq, -, hrun⟩ := Ledger.agrees_run h
    (.refl Resolution.empty.ledger) hframes hframes (.inl rfl)
  obtain rfl : g' = g := heq rfl
  have hq : q.resolve.summary = q.resolve.ledger.toSummary := rfl
  have hp : p.resolve.summary = p.resolve.ledger.toSummary := rfl
  rw [hq, hp, q.ledger_resolve, p.ledger_resolve, Ledger.leave, Ledger.leave, hg', hg]
  show Summary.mk _ _ (_ ++ Ledger.idle _ g') _ = Summary.mk _ _ (_ ++ Ledger.idle _ g') _
  rw [Ledger.idle, Ledger.idle, hrun.summary]

/-! ## Flat text -/

/-- Whether nothing is declared directly in a branch that is put in braces for the sake of an
    `else`. -/
def Node.hidesNothing : Node → Bool
  | .statement (.cond _ _ consequent (some _)) =>
    !consequent.endsWithOpenIf || declaresNothing consequent.outline
  | _ => true

theorem Rewriting.wraps_explicit :
    explicit.Outlines (fun n => n.hidesNothing = true) Wraps where
  nil := .nil
  append := .append
  declaration n kind := .declaration n kind .nil
  use name s := .use name s.start .nil
  construct kind _ _ h := .construct kind h .nil
  expr := outline_withParens
  statement _ h := outline_withBraces h
  cond sp test consequent alternate hhides ht hc ha := by
    cases alternate with
    | none => exact (ht.append hc).append .nil
    | some a =>
      show Wraps (_ ++ (Statement.bracesIf _ _).outline ++ _) _
      refine (ht.append ?_).append ha
      rw [endsWithOpenIf_explicit]
      cases hopen : consequent.endsWithOpenIf with
      | false => exact hc
      | true =>
        have hquiet : declaresNothing consequent.outline = true := by
          rw [Node.hidesNothing, hopen] at hhides
          exact hhides
        show Wraps [.construct .block ((consequent.rewrite explicit).outline ++ [])] _
        have hwraps := Wraps.block hquiet hc .nil
        rw [List.append_nil] at hwraps
        rw [List.append_nil]
        exact hwraps

theorem Resolution.summary_unplaced (r : Resolution) : r.unplaced.summary = r.summary := by
  simp only [summary, unplaced, relocate, Table.relocate, Array.toList_map, List.map_map]
  rfl

namespace Program

variable {p : Program}

/-- **Flat text keeps the names of a program as far as its braces let it.**  What is read from it
    resolves as the program does with its parentheses and braces written down, but for offsets.
    If no branch that is put in braces declares anything directly, that is: the same symbols with
    as many uses, and the same names undefined, unused and declared again. -/
theorem generate_resolve (hf : p.Flat) (hp : p.Printable) :
    ∃ code q, p.generate = .ok code ∧ ofSource code false = .ok q ∧
      q.resolve.unplaced = (Program.resolve (p.rewrite .explicit)).unplaced ∧
      ((p.Everywhere fun n => n.hidesNothing = true) → q.resolve.summary = p.resolve.summary) := by
  obtain ⟨code, hcode⟩ := generate_eq_ok hf
  have hplain := hp.explicit_plain
  obtain ⟨hscans, hquiet⟩ :=
    scans_generate hplain ((Rewriting.keeps_explicit.generate p).trans hcode)
  obtain ⟨q, hread, hsame⟩ := ofSource_eq_ok hscans (hquiet.filter_isKept false) hplain
  have hresolve : q.resolve.unplaced = (Program.resolve (p.rewrite .explicit)).unplaced := by
    rw [← q.resolve_unspanned, hsame, resolve_unspanned]
  refine ⟨code, q, hcode, hread, hresolve, fun hhides => ?_⟩
  calc q.resolve.summary = q.resolve.unplaced.summary := (Resolution.summary_unplaced _).symm
    _ = (Program.resolve (p.rewrite .explicit)).unplaced.summary := by rw [hresolve]
    _ = (Program.resolve (p.rewrite .explicit)).summary := Resolution.summary_unplaced _
    _ = p.resolve.summary := (Rewriting.wraps_explicit.program hhides).summary

/-- A branch in braces whose names stand in a block of its own. -/
def guarded : Program :=
  [.cond .none (.ident .none "a")
    (.cond .none (.ident .none "b")
      (.block .none [.decl (.mk .none .let_ ⟨"x", .none⟩ none), .expr .none (.ident .none "x")])
      none)
    (some (.decl (.mk .none .const ⟨"y", .none⟩ (some (.literal .none .null))))),
    .expr .none (.ident .none "y")]

theorem generate_resolve_guarded : (guarded.Flat ∧ guarded.Printable ∧
    guarded.Everywhere fun n => n.hidesNothing = true) ∧
    ∃ code q, guarded.generate = .ok code ∧ ofSource code false = .ok q ∧
      q.resolve.unplaced = (Program.resolve (guarded.rewrite .explicit)).unplaced ∧
      q.resolve.summary = guarded.resolve.summary := by
  have hf : guarded.Flat := by decide
  have hp : guarded.Printable := by decide
  have hhides : ∀ n ∈ guarded.nodes, n.hidesNothing = true := by decide
  obtain ⟨code, q, hcode, hread, hresolve, hsummary⟩ := generate_resolve hf hp
  exact ⟨⟨hf, hp, hhides⟩, code, q, hcode, hread, hresolve, hsummary hhides⟩

/-- A branch in braces that declares a name, and a use of the name after it. -/
def hidden : Program :=
  [.cond .none (.ident .none "a")
    (.cond .none (.ident .none "b") (.decl (.mk .none .let_ ⟨"x", .none⟩ none)) none)
    (some (.expr .none (.ident .none "c"))),
    .expr .none (.ident .none "x")]

/-- The braces hide the name from the use after them: it is undefined in the text alone. -/
theorem undefined_generate_hidden : (hidden.Flat ∧ hidden.Printable) ∧
    ∃ code q, hidden.generate = .ok code ∧ ofSource code false = .ok q ∧
      hidden.resolve.summary.undefined = ["a", "b", "c"] ∧
      q.resolve.summary.undefined = ["a", "b", "c", "x"] := by
  have hok : ((hidden.generate.toOption.bind fun code => (ofSource code false).toOption).map
      fun q => q.resolve.summary.undefined) = some ["a", "b", "c", "x"] := by
    decide +kernel
  refine ⟨⟨by decide, by decide⟩, ?_⟩
  cases hcode : hidden.generate with
  | error e =>
    rw [hcode] at hok
    exact nomatch hok
  | ok code =>
    rw [hcode] at hok
    cases hread : ofSource code false with
    | error e =>
      have hnone : (ofSource code false).toOption.map (·.resolve.summary.undefined) = _ := hok
      rw [hread] at hnone
      exact nomatch hnone
    | ok q =>
      have hsome : (ofSource code false).toOption.map (·.resolve.summary.undefined) = _ := hok
      rw [hread] at hsome
      exact ⟨code, q, rfl, hread, by decide +kernel, Option.some.inj hsome⟩

end Program

end CurlyScript
