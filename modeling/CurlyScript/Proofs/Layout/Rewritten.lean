import CurlyScript.Proofs.Layout.Alike

/-
  Layouts of rewritten trees.

  `Keeps.tree` is the induction: if no layout tells a rewritten NODE from the node, none tells a
  rewritten TREE from the tree.  Spans, the parentheses and braces that a layout adds by itself,
  and the name of an infinite number are of that kind.
-/

namespace CurlyScript.Rewriting

open Piece

variable {w : Rewriting}

/-- A rewriting that no layout notices on a single node. -/
structure Keeps (w : Rewriting) : Prop where
  expr : ∀ e, (w.expr e).Alike e
  statement : ∀ s, (w.statement s).Alike s

theorem params_layout (w : Rewriting) (st : Style) (params : List Name) :
    paramsLayout st (params.map (Name.rewrite w)) = paramsLayout st params := by
  rw [paramsLayout, paramsLayout, List.map_map]
  rfl

/-- The entries of an object are laid out as before if their values are. -/
theorem properties_layout {properties : List Property} (st : Style)
    (h : ∀ key value, .mk key value ∈ properties → (value.rewrite w).Alike value) :
    propertiesLayout st (rewriteProperties w properties) = propertiesLayout st properties := by
  induction properties with
  | nil => rfl
  | cons p ps ih =>
    obtain ⟨key, value⟩ := p
    have hv := (h key value List.mem_cons_self).layout st
    have hps := ih fun k v hm => h k v (List.mem_cons_of_mem _ hm)
    rw [rewriteProperties, propertiesLayout, propertiesLayout, hv, hps]
    rfl

theorem properties_generate {properties : List Property}
    (h : ∀ key value, .mk key value ∈ properties → (value.rewrite w).Alike value) :
    propertiesGenerate (rewriteProperties w properties) = propertiesGenerate properties := by
  induction properties with
  | nil => rfl
  | cons p ps ih =>
    obtain ⟨key, value⟩ := p
    have hv := (h key value List.mem_cons_self).generate
    have hps := ih fun k v hm => h k v (List.mem_cons_of_mem _ hm)
    rw [rewriteProperties, propertiesGenerate, propertiesGenerate, hv, hps]
    rfl

/-- No layout tells a rewritten tree from the tree if none tells a rewritten node from the
    node. -/
theorem Keeps.tree (h : w.Keeps) :
    Syntax.Cases (fun e => (e.rewrite w).Alike e) (fun d => (d.rewrite w).Alike d)
      (fun s => (s.rewrite w).Alike s) where
  ident sp name := (h.expr _).trans ⟨rfl, fun _ => rfl, rfl⟩
  literal sp value := (h.expr _).trans ⟨rfl, fun _ => rfl, rfl⟩
  binary sp op left right hl hr := (h.expr _).trans (.binary op hl hr)
  assign sp op target value ht hv := (h.expr _).trans (.assign op ht hv)
  update sp op isPrefix argument ha := (h.expr _).trans (.update op isPrefix ha)
  call sp callee args hc ha := by
    rw [Expr.rewrite, rewriteExprs_eq_map]
    exact (h.expr _).trans (.call hc ha)
  member sp owner property ho := (h.expr _).trans (.member ho rfl)
  index sp owner key ho hk := (h.expr _).trans (.index ho hk)
  arrow sp params body hb := by
    rw [Expr.rewrite, rewriteStatements_eq_map]
    refine (h.expr _).trans ⟨rfl, fun st => ?_, rfl⟩
    rw [Expr.layout, Expr.layout, params_layout, flatMap_layout_congr st hb]
  object sp properties hp := by
    refine (h.expr _).trans ⟨rfl, fun st => ?_, ?_⟩
    · rw [Expr.layout, Expr.layout, properties_layout st hp]
    · rw [Expr.generate, Expr.generate, properties_generate hp]
  array sp elements he := by
    rw [Expr.rewrite, rewriteExprs_eq_map]
    refine (h.expr _).trans ⟨rfl, fun st => ?_, ?_⟩
    · rw [Expr.layout, Expr.layout, map_layout_congr st he]
    · rw [Expr.generate, Expr.generate, exprsGenerate_congr he]
  paren sp inner hi := (h.expr _).trans (.paren hi)
  declaration sp kind name init hi := by
    rw [Decl.rewrite, rewriteOption_eq_map]
    refine ⟨fun st => ?_, ?_⟩
    · rw [Decl.layout, Decl.layout, optionLayout_congr st hi]
      rfl
    · cases init with
      | none => rfl
      | some e =>
        rw [Option.map_some, Statement.generate, Statement.generate, (hi e rfl).generate]
        rfl
  decl d hd := by
    refine (h.statement _).trans ⟨rfl, rfl, fun st => ?_, hd.generate⟩
    rw [Statement.layout, Statement.layout, hd.layout]
  function sp name params body hb := by
    rw [Statement.rewrite, rewriteStatements_eq_map]
    refine (h.statement _).trans ⟨rfl, rfl, fun st => ?_, ?_⟩
    · rw [Statement.layout, Statement.layout, params_layout, flatMap_layout_congr st hb]
      rfl
    · rw [Statement.generate, Statement.generate, statementsGenerate_congr hb, List.map_map]
      rfl
  block sp body hb := by
    rw [Statement.rewrite, rewriteStatements_eq_map]
    refine (h.statement _).trans ⟨rfl, rfl, fun st => ?_, ?_⟩
    · rw [Statement.layout, Statement.layout, flatMap_layout_congr st hb]
    · rw [Statement.generate, Statement.generate, statementsGenerate_congr hb]
  ret sp argument ha := by
    rw [Statement.rewrite, rewriteOption_eq_map]
    refine (h.statement _).trans ⟨rfl, rfl, fun st => ?_, ?_⟩
    · rw [Statement.layout, Statement.layout, optionLayout_congr st ha]
    · cases argument with
      | none => rfl
      | some e => rw [Option.map_some, Statement.generate, Statement.generate, (ha e rfl).generate]
  cond sp test consequent alternate ht hc ha := by
    rw [Statement.rewrite, rewriteBranch_eq_map]
    refine (h.statement _).trans ?_
    cases alternate with
    | none =>
      refine ⟨rfl, rfl, fun st => ?_, ?_⟩
      · simp only [Option.map_none, Statement.layout, ht.layout, hc.layout, hc.endsWithOpenIf]
      · simp only [Option.map_none, Statement.generate, hc.generate, ht.generate,
          hc.endsWithOpenIf]
    | some a =>
      have hA := ha a rfl
      refine ⟨rfl, hA.endsWithOpenIf, fun st => ?_, ?_⟩
      · simp only [Option.map_some, Statement.layout, alternateLayout, ht.layout, hc.layout,
          hA.layout, hc.endsWithOpenIf, Option.isSome_some]
      · simp only [Option.map_some, Statement.generate, alternateGenerate, hc.generate,
          ht.generate, hA.generate, hc.endsWithOpenIf, Option.isSome_some]
  loop sp init test update body hd he ht hu hb := by
    rw [Statement.rewrite, rewriteOption_eq_map, rewriteOption_eq_map]
    refine (h.statement _).trans ⟨rfl, hb.endsWithOpenIf, fun st => ?_, rfl⟩
    have hi : loopInitLayout st (rewriteLoopInit w init) = loopInitLayout st init := by
      cases init with
      | none => rfl
      | some i =>
        cases i with
        | decl d => exact (hd d rfl).layout st
        | expr e => exact (he e rfl).layout st
    simp only [Statement.layout, hi, optionLayout_congr st ht, optionLayout_congr st hu,
      hb.layout, hb.shape]
  expr sp e he := by
    refine (h.statement _).trans ⟨rfl, rfl, fun st => ?_, ?_⟩
    · rw [Statement.layout, Statement.layout, he.layout, he.startsWithObject]
    · rw [Statement.generate, Statement.generate, he.generate, he.startsWithObject]
  comment sp text := (h.statement _).trans ⟨rfl, rfl, fun _ => rfl, rfl⟩

/-- The texts of a program and of the rewritten program are equal in every style. -/
theorem Keeps.format (h : w.Keeps) (st : Style) (p : Program) :
    Program.format st (p.rewrite w) = Program.format st p := by
  rw [Program.format, Program.format, Program.rewrite,
    flatMap_layout_congr st fun s _ => h.tree.all.2.2 s]

/-- The flat texts of a program and of the rewritten program are equal, or neither has one. -/
theorem Keeps.generate (h : w.Keeps) (p : Program) :
    (p.rewrite w).generate = p.generate := by
  rw [Program.generate, Program.generate, Program.rewrite,
    statementsGenerate_congr fun s _ => h.tree.all.2.2 s]

/-! ## The rewritings that layouts do not notice -/

theorem keeps_unspanned : unspanned.Keeps := ⟨.refl, .refl⟩

theorem keeps_named : named.Keeps := by
  refine ⟨fun e => ?_, .refl⟩
  show e.nameInfinite.Alike e
  unfold Expr.nameInfinite
  split
  · exact ⟨rfl, fun _ => rfl, rfl⟩
  · exact .refl e

/-- Parentheses that are written down are laid out like those that were added. -/
theorem layout_parensIf (st : Style) (group : Bool) (e : Expr) :
    (e.parensIf group).layout st = Piece.grouped group (e.layout st) := by
  cases group <;> rfl

/-- So are they in a flat text. -/
theorem generate_parensIf (group : Bool) (e : Expr) :
    (e.parensIf group).generate = wrapped group <$> e.generate := by
  cases group with
  | false => exact (id_map _).symm
  | true => exact (map_eq_pure_bind _ _).symm

/-- With its parentheses written down, a left operand needs none. -/
theorem groupsLeft_parensIf (op : BinaryOp) (e : Expr) :
    op.groupsLeft (e.parensIf (op.groupsLeft e)) = false := by
  cases h : op.groupsLeft e with
  | false => exact h
  | true => cases op <;> rfl

theorem groupsRight_parensIf (op : BinaryOp) (e : Expr) :
    op.groupsRight (e.parensIf (op.groupsRight e)) = false := by
  cases h : op.groupsRight e with
  | false => exact h
  | true => cases op <;> rfl

theorem groupsBeforePostfix_parensIf (e : Expr) :
    (e.parensIf e.groupsBeforePostfix).groupsBeforePostfix = false := by
  cases h : e.groupsBeforePostfix with
  | false => exact h
  | true => rfl

theorem startsWithObject_parensIf (group : Bool) (e : Expr) :
    (e.parensIf group).startsWithObject = (!group && e.startsWithObject) := by
  cases group <;> rfl

theorem leadingUpdate?_parensIf (group : Bool) (e : Expr) :
    (e.parensIf group).leadingUpdate? = if group then none else e.leadingUpdate? := by
  cases group <;> rfl

theorem endsWithOpenIf_bracesIf (s : Statement) :
    (s.bracesIf s.endsWithOpenIf).endsWithOpenIf = false := by
  cases h : s.endsWithOpenIf with
  | false => exact h
  | true => rfl

/-- A block of one statement is laid out like a statement in braces. -/
theorem layout_block_singleton (st : Style) (sp : Span) (s : Statement) :
    (Statement.block sp [s]).layout st = Piece.braces (s.layout st ++ [.newline]) := by
  rw [Statement.layout, linesLayout, linesLayout, blockLayout]
  simp

/-- So it is in a flat text. -/
theorem generate_block_singleton (sp : Span) (s : Statement) :
    (Statement.block sp [s]).generate =
      (fun code => "\x7b\n" ++ code ++ "\n\x7d") <$> s.generate := by
  simp only [Statement.generate, statementsGenerate, map_eq_pure_bind, bind_assoc, pure_bind]
  rfl

theorem withParens_alike (e : Expr) : e.withParens.Alike e := by
  cases e with
  | binary s op left right =>
    refine ⟨?_, fun st => ?_, ?_⟩
    · simp only [Expr.withParens, Expr.face, Expr.precedence, Expr.groupsBeforePostfix,
        Expr.startsWithObject, Expr.leadingUpdate?, groupsLeft_parensIf,
        startsWithObject_parensIf, leadingUpdate?_parensIf]
      rfl
    · have ho : operatorLayout st op.spelling (right.parensIf (op.groupsRight right)) false =
          operatorLayout st op.spelling right (op.groupsRight right) := by
        simp only [operatorLayout, gluesTo, leadingUpdate?_parensIf]
        cases op.groupsRight right <;> rfl
      simp only [Expr.withParens, Expr.layout, groupsLeft_parensIf, groupsRight_parensIf,
        layout_parensIf, ho]
      rfl
    · simp only [Expr.withParens, Expr.generate, generate_parensIf, bind_map_left,
        groupsLeft_parensIf, groupsRight_parensIf]
      rfl
  | call s callee args =>
    refine ⟨?_, fun st => ?_, rfl⟩
    · simp only [Expr.withParens, Expr.face, Expr.precedence, Expr.startsWithObject,
        Expr.leadingUpdate?, groupsBeforePostfix_parensIf, startsWithObject_parensIf,
        leadingUpdate?_parensIf]
      rfl
    · simp only [Expr.withParens, Expr.layout, groupsBeforePostfix_parensIf, layout_parensIf]
      rfl
  | member s owner property =>
    refine ⟨?_, fun st => ?_, rfl⟩
    · simp only [Expr.withParens, Expr.face, Expr.precedence, Expr.startsWithObject,
        Expr.leadingUpdate?, groupsBeforePostfix_parensIf, startsWithObject_parensIf,
        leadingUpdate?_parensIf]
      rfl
    · simp only [Expr.withParens, Expr.layout, groupsBeforePostfix_parensIf, layout_parensIf]
      rfl
  | index s owner key =>
    refine ⟨?_, fun st => ?_, rfl⟩
    · simp only [Expr.withParens, Expr.face, Expr.precedence, Expr.startsWithObject,
        Expr.leadingUpdate?, groupsBeforePostfix_parensIf, startsWithObject_parensIf,
        leadingUpdate?_parensIf]
      rfl
    · simp only [Expr.withParens, Expr.layout, groupsBeforePostfix_parensIf, layout_parensIf]
      rfl
  | _ => exact .refl _

theorem withBraces_alike (s : Statement) : s.withBraces.Alike s := by
  cases s with
  | cond sp test consequent alternate =>
    cases alternate with
    | none => exact .refl _
    | some a =>
      refine ⟨rfl, rfl, fun st => ?_, ?_⟩
      · simp only [Statement.withBraces, Statement.layout, endsWithOpenIf_bracesIf]
        cases consequent.endsWithOpenIf with
        | false => rfl
        | true =>
          show text "if (" :: test.layout st ++
              text ") " :: (Statement.block .none [consequent]).layout st ++ _ = _
          rw [layout_block_singleton]
          rfl
      · simp only [Statement.withBraces, Statement.generate, endsWithOpenIf_bracesIf]
        cases consequent.endsWithOpenIf with
        | false => rfl
        | true =>
          show (Statement.block .none [consequent]).generate >>= _ = _
          rw [generate_block_singleton, bind_map_left]
          rfl
  | expr sp e =>
    refine ⟨rfl, rfl, fun st => ?_, ?_⟩
    · simp only [Statement.withBraces, Statement.layout, startsWithObject_parensIf,
        layout_parensIf]
      cases e.startsWithObject <;> rfl
    · simp only [Statement.withBraces, Statement.generate, generate_parensIf, bind_map_left,
        startsWithObject_parensIf]
      cases e.startsWithObject <;> rfl
  | _ => exact .refl _

theorem keeps_explicit : explicit.Keeps := ⟨withParens_alike, withBraces_alike⟩

end CurlyScript.Rewriting
