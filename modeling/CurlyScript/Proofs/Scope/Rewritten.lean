import CurlyScript.Proofs.Scope.Outline
import CurlyScript.Proofs.Syntax.Erased
import CurlyScript.Proofs.Syntax.Lines

/-
  Outlines of rewritten trees.

  A rewriting of nodes moves names, adds parentheses, leaves out lines or puts branches in braces.
  What that does to the outline is said by a relation `R` between the new outline and the old: if
  it can be built up along outlines and holds of the nodes that the rewriting makes, it holds of
  whole trees (`Outlines.tree`).  Only an `if` needs a look at the branch that stands in it, so it
  alone has a condition of its own.
-/

namespace CurlyScript.Rewriting

/-- A relation between outlines that a rewriting keeps, where the nodes meet `p`. -/
structure Outlines (w : Rewriting) (p : Node → Prop) (R : List Outline → List Outline → Prop) :
    Prop where
  nil : R [] []
  append : ∀ {os os' qs qs'}, R os os' → R qs qs' → R (os ++ qs) (os' ++ qs')
  declaration : ∀ n kind, R [.declaration (Name.rewrite w n) kind] [.declaration n kind]
  use : ∀ name s, R [.use name (w.span s).start] [.use name s.start]
  construct : ∀ kind {os os'}, R os os' → R [.construct kind os] [.construct kind os']
  expr : ∀ e, (w.expr e).outline = e.outline
  statement : ∀ s, s.shape ≠ .ifStatement → (w.statement s).outline = s.outline
  cond : ∀ sp test consequent alternate,
    p (.statement (.cond sp test consequent alternate)) →
    R (test.rewrite w).outline test.outline →
    R (consequent.rewrite w).outline consequent.outline →
    R (alternateOutline (rewriteBranch w alternate)) (alternateOutline alternate) →
    R (w.statement (.cond (w.span sp) (test.rewrite w) (consequent.rewrite w)
      (rewriteBranch w alternate))).outline (Statement.cond sp test consequent alternate).outline

namespace Outlines

variable {w : Rewriting} {p : Node → Prop} {R : List Outline → List Outline → Prop}

theorem params (h : w.Outlines p R) (ps : List Name) :
    R (paramsOutline (ps.map (Name.rewrite w))) (paramsOutline ps) := by
  induction ps with
  | nil => exact h.nil
  | cons n ps ih => exact h.append (h.declaration n .parameter) ih

theorem exprs (h : w.Outlines p R) {es : List Expr}
    (he : ∀ e ∈ es, R (e.rewrite w).outline e.outline) :
    R (exprsOutline (rewriteExprs w es)) (exprsOutline es) := by
  induction es with
  | nil => exact h.nil
  | cons e es ih =>
    exact h.append (he e List.mem_cons_self) (ih fun x hx => he x (List.mem_cons_of_mem e hx))

theorem statements (h : w.Outlines p R) {ss : List Statement}
    (hs : ∀ s ∈ ss, R (s.rewrite w).outline s.outline) :
    R (statementsOutline (rewriteStatements w ss)) (statementsOutline ss) := by
  induction ss with
  | nil => exact h.nil
  | cons s ss ih =>
    exact h.append (hs s List.mem_cons_self) (ih fun x hx => hs x (List.mem_cons_of_mem s hx))

theorem option (h : w.Outlines p R) {o : Option Expr}
    (he : ∀ e ∈ o, R (e.rewrite w).outline e.outline) :
    R (optionOutline (rewriteOption w o)) (optionOutline o) := by
  cases o with
  | none => exact h.nil
  | some e => exact he e rfl

theorem properties (h : w.Outlines p R) {ps : List Property}
    (hp : ∀ key value, .mk key value ∈ ps → R (value.rewrite w).outline value.outline) :
    R (propertiesOutline (rewriteProperties w ps)) (propertiesOutline ps) := by
  induction ps with
  | nil => exact h.nil
  | cons q ps ih =>
    obtain ⟨key, value⟩ := q
    exact h.append (hp key value List.mem_cons_self)
      (ih fun k v hm => hp k v (List.mem_cons_of_mem _ hm))

/-- What holds of the nodes that a rewriting makes holds of trees. -/
theorem tree (h : w.Outlines p R) :
    Syntax.Cases (fun e => e.Everywhere p → R (e.rewrite w).outline e.outline)
      (fun d => d.Everywhere p → R (d.rewrite w).outline d.outline)
      (fun s => s.Everywhere p → R (s.rewrite w).outline s.outline) where
  ident sp name _ := by
    rw [Expr.rewrite, h.expr]
    exact h.use name sp
  literal sp value _ := by
    rw [Expr.rewrite, h.expr]
    exact h.nil
  binary sp op left right ihl ihr he := by
    obtain ⟨-, hl, hr⟩ := Expr.everywhere_binary.mp he
    rw [Expr.rewrite, h.expr]
    exact h.append (ihl hl) (ihr hr)
  assign sp op target value iht ihv he := by
    obtain ⟨-, ht, hv⟩ := Expr.everywhere_assign.mp he
    rw [Expr.rewrite, h.expr]
    exact h.append (iht ht) (ihv hv)
  update sp op isPrefix argument iha he := by
    obtain ⟨-, ha⟩ := Expr.everywhere_update.mp he
    rw [Expr.rewrite, h.expr]
    exact iha ha
  call sp callee args ihc iha he := by
    obtain ⟨-, hc, ha⟩ := Expr.everywhere_call.mp he
    rw [Expr.rewrite, h.expr]
    exact h.append (ihc hc) (h.exprs fun a hm => iha a hm (ha a hm))
  member sp owner property iho he := by
    obtain ⟨-, ho⟩ := Expr.everywhere_member.mp he
    rw [Expr.rewrite, h.expr]
    exact iho ho
  index sp owner key iho ihk he := by
    obtain ⟨-, ho, hk⟩ := Expr.everywhere_index.mp he
    rw [Expr.rewrite, h.expr]
    exact h.append (iho ho) (ihk hk)
  arrow sp params body ihb he := by
    obtain ⟨-, -, hb⟩ := Expr.everywhere_arrow.mp he
    rw [Expr.rewrite, h.expr]
    exact h.construct .arrow
      (h.append (h.params params) (h.statements fun s hm => ihb s hm (hb s hm)))
  object sp properties ihp he := by
    obtain ⟨-, hp⟩ := Expr.everywhere_object.mp he
    rw [Expr.rewrite, h.expr]
    exact h.properties fun key value hm => ihp key value hm (hp key value hm)
  array sp elements ihe he := by
    obtain ⟨-, hes⟩ := Expr.everywhere_array.mp he
    rw [Expr.rewrite, h.expr]
    exact h.exprs fun e hm => ihe e hm (hes e hm)
  paren sp inner ihi he := by
    obtain ⟨-, hi⟩ := Expr.everywhere_paren.mp he
    rw [Expr.rewrite, h.expr]
    exact ihi hi
  declaration sp kind name init ihi hd := by
    obtain ⟨-, hi⟩ := Decl.everywhere_mk.mp hd
    exact h.append (h.declaration name .var) (h.option fun e hm => ihi e hm (hi e hm))
  decl d ihd hs := by
    obtain ⟨-, hd⟩ := Statement.everywhere_decl.mp hs
    rw [Statement.rewrite, h.statement (.decl _) (by rintro ⟨⟩)]
    exact ihd hd
  function sp name params body ihb hs := by
    obtain ⟨-, -, hb⟩ := Statement.everywhere_function.mp hs
    rw [Statement.rewrite, h.statement (.function _ _ _ _) (by rintro ⟨⟩)]
    exact h.append (h.declaration name .function) (h.construct .function
      (h.append (h.params params) (h.statements fun s hm => ihb s hm (hb s hm))))
  block sp body ihb hs := by
    obtain ⟨-, -, hb⟩ := Statement.everywhere_block.mp hs
    rw [Statement.rewrite, h.statement (.block _ _) (by rintro ⟨⟩)]
    exact h.construct .block (h.statements fun s hm => ihb s hm (hb s hm))
  ret sp argument iha hs := by
    obtain ⟨-, ha⟩ := Statement.everywhere_ret.mp hs
    rw [Statement.rewrite, h.statement (.ret _ _) (by rintro ⟨⟩)]
    exact h.option fun e hm => iha e hm (ha e hm)
  cond sp test consequent alternate iht ihc iha hs := by
    obtain ⟨hp, ht, hc, ha⟩ := Statement.everywhere_cond.mp hs
    refine h.cond sp test consequent alternate hp (iht ht) (ihc hc) ?_
    cases alternate with
    | none => exact h.nil
    | some s => exact iha s rfl (ha s rfl)
  loop sp init test update body ihd ihe iht ihu ihb hs := by
    obtain ⟨-, ⟨hd, he⟩, ht, hu, hb⟩ := Statement.everywhere_loop.mp hs
    have hinit : R (loopInitOutline (rewriteLoopInit w init)) (loopInitOutline init) := by
      cases init with
      | none => exact h.nil
      | some i =>
        cases i with
        | decl d => exact ihd d rfl (hd d rfl)
        | expr e => exact ihe e rfl (he e rfl)
    rw [Statement.rewrite, h.statement (.loop _ _ _ _ _) (by rintro ⟨⟩)]
    exact h.append (h.append (h.append hinit (h.option fun e hm => iht e hm (ht e hm)))
      (h.option fun e hm => ihu e hm (hu e hm))) (ihb hb)
  expr sp e ihe hs := by
    obtain ⟨-, he⟩ := Statement.everywhere_expr.mp hs
    rw [Statement.rewrite, h.statement (.expr _ _) (by rintro ⟨⟩)]
    exact ihe he
  comment sp text _ := by
    rw [Statement.rewrite, h.statement (.comment _ _) (by rintro ⟨⟩)]
    exact h.nil

/-- What holds of the nodes that a rewriting makes holds of programs. -/
theorem program (h : w.Outlines p R) {prog : Program} (hp : prog.Everywhere p) :
    R (prog.rewrite w).outline prog.outline := by
  have hs := h.statements fun s hm => h.tree.all.2.2 s (Program.everywhere_iff.mp hp s hm)
  rw [rewriteStatements_eq_map] at hs
  exact hs

end Outlines

/-! ## Parentheses and braces -/

theorem outline_parensIf (group : Bool) (e : Expr) : (e.parensIf group).outline = e.outline := by
  cases group <;> rfl

/-- Parentheses have no outline. -/
theorem outline_withParens (e : Expr) : e.withParens.outline = e.outline := by
  cases e with
  | binary sp op left right =>
    exact congrArg₂ (· ++ ·) (outline_parensIf _ left) (outline_parensIf _ right)
  | call sp callee args => exact congrArg (· ++ _) (outline_parensIf _ callee)
  | member sp owner property => exact outline_parensIf _ owner
  | index sp owner key => exact congrArg (· ++ _) (outline_parensIf _ owner)
  | _ => rfl

/-- Braces are added to an `if` alone. -/
theorem outline_withBraces {s : Statement} (h : s.shape ≠ .ifStatement) :
    s.withBraces.outline = s.outline := by
  cases s with
  | cond => exact absurd rfl h
  | expr sp e => exact outline_parensIf _ e
  | _ => rfl

theorem endsWithOpenIf_explicit (s : Statement) :
    (s.rewrite explicit).endsWithOpenIf = s.endsWithOpenIf := by
  refine endsWithOpenIf_rewrite (fun s => ?_) s
  cases s with
  | cond sp test consequent alternate => cases alternate <;> rfl
  | _ => rfl

end CurlyScript.Rewriting
