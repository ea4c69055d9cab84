import CurlyScript.Proofs.Syntax.Rewriting

/-
  What erasing forgets.

  If `v` cannot tell a node from what `w` makes of it, then `v` cannot tell a TREE from what `w`
  makes of it (`Absorbs.tree`).  In particular erasing forgets spans, and it forgets the
  parentheses and braces that a layout adds.
-/

namespace CurlyScript.Rewriting

variable {v w : Rewriting}

/-- On a single node, `v` undoes whatever `w` does. -/
structure Absorbs (v w : Rewriting) : Prop where
  span : ∀ s, v.span (w.span s) = v.span s
  expr : ∀ e, (w.expr e).rewrite v = e.rewrite v
  statement : ∀ s, (w.statement s).rewrite v = s.rewrite v

theorem Absorbs.name (h : v.Absorbs w) (n : Name) : (n.rewrite w).rewrite v = n.rewrite v := by
  rw [Name.rewrite, Name.rewrite, h.span, Name.rewrite]

theorem Absorbs.names (h : v.Absorbs w) (ns : List Name) :
    (ns.map (Name.rewrite w)).map (Name.rewrite v) = ns.map (Name.rewrite v) := by
  rw [List.map_map]
  exact List.map_congr_left fun n _ => h.name n

theorem Absorbs.properties (h : v.Absorbs w) {ps : List Property}
    (hp : ∀ key value, .mk key value ∈ ps → (value.rewrite w).rewrite v = value.rewrite v) :
    rewriteProperties v (rewriteProperties w ps) = rewriteProperties v ps := by
  induction ps with
  | nil => rfl
  | cons p ps ih =>
    obtain ⟨key, value⟩ := p
    have hv := hp key value List.mem_cons_self
    have hps := ih fun k x hm => hp k x (List.mem_cons_of_mem _ hm)
    rw [rewriteProperties, rewriteProperties, rewriteProperties, hv, hps, h.name]

theorem map_map_of_forall {α : Type} {f g : α → α} {xs : List α} (h : ∀ x ∈ xs, g (f x) = g x) :
    (xs.map f).map g = xs.map g := by
  rw [List.map_map]
  exact List.map_congr_left h

theorem option_map_map_of_forall {α : Type} {f g : α → α} {o : Option α}
    (h : ∀ x ∈ o, g (f x) = g x) : (o.map f).map g = o.map g := by
  cases o with
  | none => rfl
  | some x => exact congrArg some (h x rfl)

/-- `v` cannot tell a tree from what `w` makes of it. -/
theorem Absorbs.tree (h : v.Absorbs w) :
    Syntax.Cases (fun e => (e.rewrite w).rewrite v = e.rewrite v)
      (fun d => (d.rewrite w).rewrite v = d.rewrite v)
      (fun s => (s.rewrite w).rewrite v = s.rewrite v) where
  -- in each case `v` undoes `w` at the node, and the children are undone by hypothesis
  ident sp name := by
    rw [Expr.rewrite, h.expr, Expr.rewrite, h.span, Expr.rewrite]
  literal sp value := by
    rw [Expr.rewrite, h.expr, Expr.rewrite, h.span, Expr.rewrite]
  binary sp op left right hl hr := by
    rw [Expr.rewrite, h.expr, Expr.rewrite, h.span, hl, hr, Expr.rewrite]
  assign sp op target value ht hv := by
    rw [Expr.rewrite, h.expr, Expr.rewrite, h.span, ht, hv, Expr.rewrite]
  update sp op isPrefix argument ha := by
    rw [Expr.rewrite, h.expr, Expr.rewrite, h.span, ha, Expr.rewrite]
  call sp callee args hc ha := by
    simp only [Expr.rewrite, h.expr, h.span, hc, rewriteExprs_eq_map, map_map_of_forall ha]
  member sp owner property ho := by
    rw [Expr.rewrite, h.expr, Expr.rewrite, h.span, ho, h.name, Expr.rewrite]
  index sp owner key ho hk := by
    rw [Expr.rewrite, h.expr, Expr.rewrite, h.span, ho, hk, Expr.rewrite]
  arrow sp params body hb := by
    simp only [Expr.rewrite, h.expr, h.span, h.names, rewriteStatements_eq_map,
      map_map_of_forall hb]
  object sp properties hp := by
    rw [Expr.rewrite, h.expr, Expr.rewrite, h.span, h.properties hp, Expr.rewrite]
  array sp elements he := by
    simp only [Expr.rewrite, h.expr, h.span, rewriteExprs_eq_map, map_map_of_forall he]
  paren sp inner hi := by
    rw [Expr.rewrite, h.expr, Expr.rewrite, h.span, hi, Expr.rewrite]
  declaration sp kind name init hi := by
    simp only [Decl.rewrite, h.span, h.name, rewriteOption_eq_map, option_map_map_of_forall hi]
  decl d hd := by
    rw [Statement.rewrite, h.statement, Statement.rewrite, hd, Statement.rewrite]
  function sp name params body hb := by
    simp only [Statement.rewrite, h.statement, h.span, h.name, h.names, rewriteStatements_eq_map,
      map_map_of_forall hb]
  block sp body hb := by
    simp only [Statement.rewrite, h.statement, h.span, rewriteStatements_eq_map,
      map_map_of_forall hb]
  ret sp argument ha := by
    simp only [Statement.rewrite, h.statement, h.span, rewriteOption_eq_map,
      option_map_map_of_forall ha]
  cond sp test consequent alternate ht hc ha := by
    simp only [Statement.rewrite, h.statement, h.span, ht, hc, rewriteBranch_eq_map,
      option_map_map_of_forall ha]
  loop sp init test update body hd he ht hu hb := by
    have hi : rewriteLoopInit v (rewriteLoopInit w init) = rewriteLoopInit v init := by
      match init with
      | none => rfl
      | some (.decl d) => exact congrArg (fun d => some (LoopInit.decl d)) (hd d rfl)
      | some (.expr e) => exact congrArg (fun e => some (LoopInit.expr e)) (he e rfl)
    simp only [Statement.rewrite, h.statement, h.span, hi, hb, rewriteOption_eq_map,
      option_map_map_of_forall ht, option_map_map_of_forall hu]
  expr sp e he := by
    rw [Statement.rewrite, h.statement, Statement.rewrite, h.span, he, Statement.rewrite]
  comment sp text := by
    rw [Statement.rewrite, h.statement, Statement.rewrite, h.span, Statement.rewrite]

/-- `v` cannot tell a program from what `w` makes of it. -/
theorem Absorbs.program (h : v.Absorbs w) (p : Program) :
    (p.rewrite w).rewrite v = p.rewrite v :=
  map_map_of_forall fun s _ => h.tree.all.2.2 s

/-! ## Erasing -/

/-- Whether a statement ends in an open `if` can be told from any node of the rewritten tree. -/
theorem endsWithOpenIf_rewrite
    (h : ∀ s, (w.statement s).endsWithOpenIf = s.endsWithOpenIf) :
    ∀ s : Statement, (s.rewrite w).endsWithOpenIf = s.endsWithOpenIf
  | .decl _ => h _
  | .function _ _ _ _ => h _
  | .block _ _ => h _
  | .ret _ _ => h _
  | .cond _ _ _ none => h _
  | .cond _ _ _ (some a) => (h _).trans (endsWithOpenIf_rewrite h a)
  | .loop _ _ _ _ body => (h _).trans (endsWithOpenIf_rewrite h body)
  | .expr _ _ => h _
  | .comment _ _ => h _

theorem endsWithOpenIf_bare (s : Statement) : s.bare.endsWithOpenIf = s.endsWithOpenIf := by
  unfold Statement.bare
  split <;> rfl

/-- A statement that ends in an open `if` is no block, so there are no braces to forget. -/
theorem bare_cond (sp : Span) (test : Expr) {consequent : Statement}
    (h : consequent.endsWithOpenIf = true) (alternate : Option Statement) :
    (Statement.cond sp test consequent alternate).bare = .cond sp test consequent alternate := by
  cases consequent with
  | block s body => exact absurd h (by simp [Statement.endsWithOpenIf])
  | _ => rfl

theorem bare_absorbs_unspanned : bare.Absorbs unspanned :=
  ⟨fun _ => rfl, fun _ => rfl, fun _ => rfl⟩

theorem parensIf_rewrite_bare (group : Bool) (e : Expr) :
    (e.parensIf group).rewrite bare = e.rewrite bare := by
  cases group <;> rfl

theorem bare_absorbs_explicit : bare.Absorbs explicit where
  span _ := rfl
  expr e := by
    show e.withParens.rewrite bare = e.rewrite bare
    cases e <;> simp only [Expr.withParens, Expr.rewrite, parensIf_rewrite_bare]
  statement s := by
    show s.withBraces.rewrite bare = s.rewrite bare
    cases s with
    | cond sp test consequent alternate =>
      cases alternate with
      | none => rfl
      | some a =>
        cases h : consequent.endsWithOpenIf with
        | false => simp only [Statement.withBraces, Statement.bracesIf, h]; rfl
        | true =>
          -- braces are added where `bare` will look for them, for the rewritten consequent still
          -- ends in an open `if`
          have hc : (consequent.rewrite bare).endsWithOpenIf = true := by
            rw [endsWithOpenIf_rewrite endsWithOpenIf_bare, h]
          simp only [Statement.withBraces, Statement.bracesIf, h, if_true, Statement.rewrite]
          show (Statement.cond .none (test.rewrite bare) (.block .none [consequent.rewrite bare])
            (some (a.rewrite bare))).bare = (Statement.cond .none (test.rewrite bare)
              (consequent.rewrite bare) (some (a.rewrite bare))).bare
          rw [bare_cond _ _ hc, Statement.bare, if_pos hc]
    | expr sp e => simp only [Statement.withBraces, Statement.rewrite, parensIf_rewrite_bare]
    | _ => rfl

end CurlyScript.Rewriting
