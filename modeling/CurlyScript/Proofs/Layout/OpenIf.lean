import CurlyScript.Proofs.Layout.Beside
import CurlyScript.Proofs.Layout.ReadBack
import CurlyScript.Proofs.Scope.Uncommented

/-
  Where an `else` goes.

  The text of a statement is put between `if (c)` and `else y;`.  If it ends with an open `if`
  (`Statement.endsWithOpenIf`), the `else` is read as a part of that one (`Statement.withElse`), and
  the outer `if` gets none; otherwise the outer `if` gets it.  So the question is asked just where
  it has to be (`Statement.takesElse_iff`).

  The proof is one round trip: the text is spelled out by the terminals of the tree that is to be
  read, for the tree with the `else` inside has the terminals of the statement, then the `else`.
-/

namespace CurlyScript

open Terminal

namespace Statement

/-- The statement with an `else` after it, which goes to the `if` that is open there. -/
def withElse : Statement → Statement → Statement
  | cond s test consequent none, alternate =>
    if consequent.endsWithOpenIf then cond s test (consequent.withElse alternate) none
    else cond s test consequent (some alternate)
  | cond s test consequent (some a), alternate =>
    cond s test consequent (some (a.withElse alternate))
  | loop s init test update body, alternate => loop s init test update (body.withElse alternate)
  | s, _ => s

variable {alternate : Statement}

theorem shape_withElse (s : Statement) : (s.withElse alternate).shape = s.shape := by
  cases s with
  | cond sp test consequent a =>
    cases a with
    | none =>
      rw [withElse]
      split <;> rfl
    | some a => rfl
  | _ => rfl

theorem isComment_withElse (s : Statement) : (s.withElse alternate).isComment = s.isComment := by
  rw [isComment, isComment, shape_withElse]

/-- The `else` comes after all that the statement is written with. -/
theorem terminals_withElse : ∀ {s : Statement}, s.endsWithOpenIf = true →
    (s.withElse alternate).terminals = s.terminals ++ keyword .else_ :: alternate.terminals
  | cond _ _ consequent none, _ => by
    rw [withElse]
    split
    · rename_i hopen
      simp [terminals, terminals_withElse hopen, alternateTerminals]
    · simp [terminals, alternateTerminals]
  | cond _ _ _ (some a), h => by
    have ha : a.endsWithOpenIf = true := h
    simp [withElse, terminals, alternateTerminals, terminals_withElse ha]
  | loop _ _ _ _ body, h => by
    have hb : body.endsWithOpenIf = true := h
    simp [withElse, terminals, terminals_withElse hb]

/-- An `else` after a branch that is open is written as one in the branch is. -/
theorem terminals_cond_withElse {s : Statement} (hs : s.endsWithOpenIf = true) {sp : Span}
    {test : Expr} : (cond sp test (s.withElse alternate) none).terminals =
      (cond sp test s (some alternate)).terminals := by
  rw [terminals, terminals_withElse hs, terminals, alternateTerminals, alternateTerminals]
  simp only [List.append_assoc, List.cons_append, List.append_nil]

/-- The branch is written as it is, and what it is given to is as open as it was. -/
theorem everywhere_withElse {s : Statement} (hs : s.Everywhere Node.IsPlain)
    (ha : alternate.Everywhere Node.IsPlain) (hcomment : alternate.isComment = false) :
    (s.withElse alternate).Everywhere Node.IsPlain := by
  cases s with
  | cond sp test consequent a =>
    obtain ⟨⟨hw, hx⟩, ht, hc, hbranch⟩ := everywhere_cond.mp hs
    rw [Node.isWritable, Bool.and_eq_true] at hw
    cases a with
    | none =>
      rw [withElse]
      split
      · refine everywhere_cond.mpr ⟨⟨?_, rfl⟩, ht, everywhere_withElse hc ha hcomment,
          fun b hb => absurd hb (Option.not_mem_none b)⟩
        rw [Node.isWritable, isComment_withElse, hw.1]
        rfl
      · rename_i hclosed
        refine everywhere_cond.mpr ⟨⟨?_, ?_⟩, ht, hc, fun b hb => ?_⟩
        · rw [Node.isWritable, hw.1, Option.all_some, hcomment]
          rfl
        · rw [Node.isExplicit, Bool.eq_false_iff.mpr hclosed]
          rfl
        · obtain rfl := Option.some.inj hb
          exact ha
    | some a =>
      refine everywhere_cond.mpr ⟨⟨?_, hx⟩, ht, hc, fun b hb => ?_⟩
      · rw [Node.isWritable, hw.1, Option.all_some, isComment_withElse]
        exact hw.2
      · obtain rfl := Option.some.inj hb
        exact everywhere_withElse (hbranch a rfl) ha hcomment
  | loop sp init test update body =>
    obtain ⟨⟨hw, -⟩, hi, ht, hu, hb⟩ := everywhere_loop.mp hs
    refine everywhere_loop.mpr ⟨⟨?_, rfl⟩, hi, ht, hu, everywhere_withElse hb ha hcomment⟩
    rw [Node.isWritable, isComment_withElse]
    exact hw
  | _ => exact hs

/-- Writing down parentheses and braces gives none to the branch that gets the `else`, for that
    one is not open. -/
theorem explicit_withElse : ∀ s : Statement,
    (s.withElse alternate).rewrite .explicit =
      (s.rewrite .explicit).withElse (alternate.rewrite .explicit)
  | cond sp test consequent none => by
    have hwritten : (cond sp test consequent none).rewrite .explicit =
        cond sp (test.rewrite .explicit) (consequent.rewrite .explicit) none := rfl
    have hopen := Rewriting.endsWithOpenIf_explicit consequent
    rw [hwritten, withElse, withElse, hopen]
    split
    · rw [← explicit_withElse consequent]
      rfl
    · rename_i hclosed
      show cond sp (test.rewrite .explicit) ((consequent.rewrite .explicit).bracesIf
        (consequent.rewrite .explicit).endsWithOpenIf) (some (alternate.rewrite .explicit)) = _
      rw [hopen, Bool.eq_false_iff.mpr hclosed]
      rfl
  | cond sp test consequent (some a) => by
    show cond sp (test.rewrite .explicit) ((consequent.rewrite .explicit).bracesIf
      (consequent.rewrite .explicit).endsWithOpenIf)
        (some ((a.withElse alternate).rewrite .explicit)) = _
    rw [explicit_withElse a]
    rfl
  | loop sp init test update body => by
    show loop sp (rewriteLoopInit .explicit init) (rewriteOption .explicit test)
      (rewriteOption .explicit update) ((body.withElse alternate).rewrite .explicit) = _
    rw [explicit_withElse body]
    rfl
  | decl _ | function _ _ _ _ | block _ _ | ret _ _ | expr _ _ | comment _ _ => rfl

/-! ## The text -/

variable {s : Statement}

theorem spells_ifC : Spells Anything "if (c) ".toList
    [keyword .if_, punctuation .lParen, name "c", punctuation .rParen] := by
  have hname : Spells Breaks "c".toList [name "c"] := Spells.name (by decide)
  exact Spells.ifParen.append (hname.append Spells.parenSpace fun _ _ =>
    breaks_cons (by decide) (by decide) _) fun _ _ => trivial

theorem scans_elseY : Scans " else y;".toList
    [keyword .else_, name "y", punctuation .semicolon] := by
  have hname : Spells Breaks "y".toList [name "y"] := Spells.name (by decide)
  have hsemicolon : Scans ";".toList [punctuation .semicolon] :=
    Spells.punctuation .semicolon [] [] trivial .nil
  exact Spells.spaceElse _ _ trivial (hname _ _ (breaks_cons (by decide) (by decide) _) hsemicolon)

/-- The text is spelled out by the terminals of an `if` with an `else`, and the statement between
    them. -/
theorem scans_before_else (hs : s.Everywhere Node.IsPlain) (hcomment : s.isComment = false)
    (st : Style) {gap : String} (hgap : gap.toList.all Text.isBlank = true) :
    Scans ("if (c) " ++ s.format st ++ gap ++ " else y;").toList
      (cond .none (.ident .none "c") s (some (.expr .none (.ident .none "y")))).terminals := by
  have hafter : Scans (gap ++ " else y;").toList
      [keyword .else_, name "y", punctuation .semicolon] := by
    rw [String.toList_append]
    exact .blanks (fun b hb => List.all_eq_true.mp hgap b hb) scans_elseY
  rw [String.append_assoc]
  exact scans_beside st hs hcomment spells_ifC hafter

/-! ## What is read -/

/-- What is an `if` on a name but for spans is one, and its branches are the branches but for
    spans. -/
theorem exists_cond_of_unspanned {v : Statement} {x : String} {a : Option Statement}
    (h : v.rewrite .unspanned = (cond .none (.ident .none x) s a).rewrite .unspanned) :
    ∃ sp t consequent alternate, v = cond sp (.ident t x) consequent alternate ∧
      consequent.rewrite .unspanned = s.rewrite .unspanned ∧
      alternate.map (Statement.rewrite .unspanned) = a.map (Statement.rewrite .unspanned) := by
  cases v with
  | cond sp test consequent alternate =>
    obtain ⟨-, ht, hc, ha⟩ := cond.inj h
    obtain ⟨t, rfl⟩ := Expr.eq_ident_of_unspanned ht
    rw [rewriteBranch_eq_map, rewriteBranch_eq_map] at ha
    exact ⟨sp, t, consequent, alternate, rfl, hc, ha⟩
  | _ => exact Statement.noConfusion h

/-- A text with the terminals of an `if` is read as that `if`. -/
theorem exists_ofSource_eq_cond {source x : String} {a : Option Statement}
    (hp : (cond .none (.ident .none x) s a).Everywhere Node.IsPlain)
    (hs : Scans source.toList (cond .none (.ident .none x) s a).terminals) :
    ∃ sp t consequent alternate,
      Program.ofSource source true = .ok [cond sp (.ident t x) consequent alternate] ∧
      consequent.rewrite .unspanned = s.rewrite .unspanned ∧
      alternate.map (Statement.rewrite .unspanned) = a.map (Statement.rewrite .unspanned) := by
  have hplain : Program.Everywhere Node.IsPlain [cond .none (.ident .none x) s a] := by
    refine Program.everywhere_iff.mpr fun t ht => ?_
    rw [List.mem_singleton.mp ht]
    exact hp
  have hterminals : (cond .none (.ident .none x) s a).terminals.filter (Terminal.isKept true) =
      Program.terminals [cond .none (.ident .none x) s a] := by
    have hkept : ∀ ts : List Terminal, ts.filter (Terminal.isKept true) = ts :=
      fun _ => List.filter_eq_self.mpr fun _ _ => rfl
    exact (hkept _).trans (List.append_nil _).symm
  obtain ⟨q, hread, hsame⟩ := Program.ofSource_eq_ok hs hterminals hplain
  cases q with
  | nil => exact absurd hsame.symm (List.cons_ne_nil _ _)
  | cons v vs =>
    obtain ⟨hv, hvs⟩ := List.cons.inj hsame
    obtain rfl := List.map_eq_nil_iff.mp hvs
    obtain ⟨sp, t, consequent, alternate, rfl, hc, ha⟩ := exists_cond_of_unspanned hv
    exact ⟨sp, t, consequent, alternate, hread, hc, ha⟩

/-- The `if` around the statement, with the `else` where it is to go. -/
theorem exists_ofSource_else (hs : s.Printable) (hcomment : s.isComment = false) (st : Style)
    {gap : String} (hgap : gap.toList.all Text.isBlank = true) :
    ∃ sp t consequent alternate,
      Program.ofSource ("if (c) " ++ s.format st ++ gap ++ " else y;") true =
        .ok [cond sp (.ident t "c") consequent alternate] ∧
      (alternate.isSome = true ↔ s.endsWithOpenIf = false) ∧
      (s.endsWithOpenIf = true →
        Program.Restores [s.withElse (.expr .none (.ident .none "y"))] [consequent]) ∧
      (s.endsWithOpenIf = false → Program.Restores [s] [consequent] ∧
        Program.Restores [.expr .none (.ident .none "y")] alternate.toList) := by
  have hplain := hs.explicit_plain
  have hcomment' : (s.rewrite .explicit).isComment = false :=
    (Rewriting.shaped_explicit.isComment s).trans hcomment
  have hname : ∀ x, isName x = true → (Expr.ident .none x).Everywhere Node.IsPlain :=
    fun x hx => Expr.everywhere_ident.mpr ⟨⟨rfl, rfl⟩, ⟨hx, rfl⟩⟩
  have hc := hname "c" (by decide)
  have hy : (expr .none (.ident .none "y")).Everywhere Node.IsPlain :=
    everywhere_expr.mpr ⟨⟨rfl, rfl⟩, hname "y" (by decide)⟩
  have hopen := Rewriting.endsWithOpenIf_explicit s
  have hscans := scans_before_else hplain hcomment' st hgap
  have hformat : (s.rewrite .explicit).format st = s.format st :=
    congrArg (render st.indent) ((Rewriting.keeps_explicit.tree.all.2.2 s).layout st)
  rw [hformat] at hscans
  cases hends : s.endsWithOpenIf with
  | true =>
    rw [hends] at hopen
    -- the `else` is the end of the branch, and the `if` around it gets none
    have hbranch := everywhere_withElse hplain hy rfl
    have htree : (cond .none (.ident .none "c") ((s.rewrite .explicit).withElse
        (.expr .none (.ident .none "y"))) none).Everywhere Node.IsPlain := by
      refine everywhere_cond.mpr ⟨⟨?_, rfl⟩, hc, hbranch,
        fun b hb => absurd hb (Option.not_mem_none b)⟩
      rw [Node.isWritable, isComment_withElse, hcomment']
      rfl
    rw [← terminals_cond_withElse hopen] at hscans
    obtain ⟨sp, t, consequent, alternate, hread, hc, ha⟩ := exists_ofSource_eq_cond htree hscans
    obtain rfl : alternate = none := Option.map_eq_none_iff.mp ha
    refine ⟨sp, t, consequent, none, hread, ⟨Bool.noConfusion, Bool.noConfusion⟩, fun _ => ?_,
      Bool.noConfusion⟩
    show [consequent.rewrite .unspanned] = [((s.withElse _).rewrite .explicit).rewrite .unspanned]
    rw [hc, explicit_withElse]
    rfl
  | false =>
    rw [hends] at hopen
    have htree : (cond .none (.ident .none "c") (s.rewrite .explicit)
        (some (.expr .none (.ident .none "y")))).Everywhere Node.IsPlain := by
      refine everywhere_cond.mpr ⟨⟨?_, ?_⟩, hc, hplain, fun b hb => ?_⟩
      · rw [Node.isWritable, hcomment']
        rfl
      · rw [Node.isExplicit, hopen]
        rfl
      · obtain rfl := Option.some.inj hb
        exact hy
    obtain ⟨sp, t, consequent, alternate, hread, hc, ha⟩ := exists_ofSource_eq_cond htree hscans
    obtain ⟨y, rfl, hsame⟩ := Option.map_eq_some_iff.mp ha
    refine ⟨sp, t, consequent, some y, hread, ⟨fun _ => rfl, fun _ => rfl⟩, Bool.noConfusion,
      fun _ => ⟨?_, ?_⟩⟩
    · exact congrArg (fun v => [v]) hc
    · exact congrArg (fun v => [v]) hsame

/-- **The question for an open `if` is exact.**  The text of a printable statement, put between
    `if (c)` and `else y;`, is read as one `if`, with its comments or without.  It has the `else` if
    and only if the statement does not end with an open `if`; otherwise the `else` is in the
    branch, at the `if` that is open there.  A line end may follow the statement. -/
theorem takesElse_iff (hs : s.Printable) (hcomment : s.isComment = false) (st : Style)
    {gap : String} (hgap : gap.toList.all Text.isBlank = true) :
    ∃ sp t consequent alternate,
      Program.ofSource ("if (c) " ++ s.format st ++ gap ++ " else y;") true =
        .ok [cond sp (.ident t "c") consequent alternate] ∧
      Program.ofSource ("if (c) " ++ s.format st ++ gap ++ " else y;") false =
        .ok [cond sp (.ident t "c") (consequent.rewrite .uncommented)
          (alternate.map (Statement.rewrite .uncommented))] ∧
      (alternate.isSome = true ↔ s.endsWithOpenIf = false) ∧
      (s.endsWithOpenIf = true →
        Program.Restores [s.withElse (.expr .none (.ident .none "y"))] [consequent]) ∧
      (s.endsWithOpenIf = false → Program.Restores [s] [consequent] ∧
        Program.Restores [.expr .none (.ident .none "y")] alternate.toList) := by
  obtain ⟨sp, t, consequent, alternate, hread, hiff, hinside, houtside⟩ :=
    exists_ofSource_else hs hcomment st hgap
  refine ⟨sp, t, consequent, alternate, hread, ?_, hiff, hinside, houtside⟩
  rw [Program.ofSource_false, hread, ← rewriteBranch_eq_map]
  rfl

/-- An `if` that is open at the end of an `else`, of a loop, and of a branch in braces. -/
def dangling : Statement :=
  .cond .none (.ident .none "a") (.block .none [.comment .none "// none"])
    (some (.loop .none none none none
      (.cond .none (.ident .none "b") (.cond .none (.object .none []) (.ret .none none)
        (some (.expr .none (.array .none [])))) none)))

theorem takesElse_iff_dangling :
    (dangling.Printable ∧ dangling.isComment = false ∧ "\n".toList.all Text.isBlank = true) ∧
    ∃ sp t consequent alternate,
      Program.ofSource ("if (c) " ++ dangling.format .standard ++ "\n" ++ " else y;") true =
        .ok [cond sp (.ident t "c") consequent alternate] ∧
      Program.ofSource ("if (c) " ++ dangling.format .standard ++ "\n" ++ " else y;") false =
        .ok [cond sp (.ident t "c") (consequent.rewrite .uncommented)
          (alternate.map (Statement.rewrite .uncommented))] ∧
      (alternate.isSome = true ↔ dangling.endsWithOpenIf = false) ∧
      (dangling.endsWithOpenIf = true →
        Program.Restores [dangling.withElse (.expr .none (.ident .none "y"))] [consequent]) ∧
      (dangling.endsWithOpenIf = false → Program.Restores [dangling] [consequent] ∧
        Program.Restores [.expr .none (.ident .none "y")] alternate.toList) := by
  have hs : dangling.Printable := by decide
  have hgap : "\n".toList.all Text.isBlank = true := by decide
  exact ⟨⟨hs, rfl, hgap⟩, takesElse_iff hs rfl .standard hgap⟩

end Statement

end CurlyScript
