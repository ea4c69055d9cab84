import CurlyScript.Proofs.Syntax.Everywhere

/-
  Where statements stand.

  A statement of a program is one of its own, or it stands directly in another node: in the body of
  a function or an arrow, in a block, or as a branch or the body of a loop.  So what holds of the
  statements of the program and of those directly in each node holds of all statements that a walk
  comes to (`Program.forall_statement`).
-/

namespace CurlyScript

/-- The statements that stand directly in a node and are no lines of an arrow function. -/
def Node.lines : Node → List Statement
  | .function _ _ _ body | .block body => body
  | .statement (.cond _ _ consequent alternate) => consequent :: alternate.toList
  | .statement (.loop _ _ _ _ body) => [body]
  | _ => []

/-- The statements that stand directly in a node. -/
def Node.parts : Node → List Statement
  | .arrow _ _ body => body
  | n => n.lines

/-- If the node is a statement, that has the property. -/
def Node.IsSuch (q : Statement → Prop) (n : Node) : Prop := ∀ s, n = .statement s → q s

/-- The statements directly in the node have the property. -/
def Node.HasSuch (q : Statement → Prop) (n : Node) : Prop := ∀ s ∈ n.parts, q s

variable {q : Statement → Prop}

theorem Node.isSuch_statement {s : Statement} (h : q s) : Node.IsSuch q (.statement s) := by
  rintro _ ⟨⟩
  exact h

/-- What holds of the root and of the statements directly in each node holds of all statements. -/
theorem everywhere_isSuch :
    Syntax.Cases (fun e => e.Everywhere (Node.HasSuch q) → e.Everywhere (Node.IsSuch q))
      (fun d => d.Everywhere (Node.HasSuch q) → d.Everywhere (Node.IsSuch q))
      (fun s => q s → s.Everywhere (Node.HasSuch q) → s.Everywhere (Node.IsSuch q)) where
  ident sp name _ := Expr.everywhere_ident.mpr ⟨nofun, nofun⟩
  literal sp value _ := Expr.everywhere_literal.mpr nofun
  binary sp op left right ihl ihr h := by
    obtain ⟨-, hl, hr⟩ := Expr.everywhere_binary.mp h
    exact Expr.everywhere_binary.mpr ⟨nofun, ihl hl, ihr hr⟩
  assign sp op target value iht ihv h := by
    obtain ⟨-, ht, hv⟩ := Expr.everywhere_assign.mp h
    exact Expr.everywhere_assign.mpr ⟨nofun, iht ht, ihv hv⟩
  update sp op isPrefix argument iha h := by
    obtain ⟨-, ha⟩ := Expr.everywhere_update.mp h
    exact Expr.everywhere_update.mpr ⟨nofun, iha ha⟩
  call sp callee args ihc iha h := by
    obtain ⟨-, hc, ha⟩ := Expr.everywhere_call.mp h
    exact Expr.everywhere_call.mpr ⟨nofun, ihc hc, fun a hm => iha a hm (ha a hm)⟩
  member sp owner property iho h := by
    obtain ⟨-, ho⟩ := Expr.everywhere_member.mp h
    exact Expr.everywhere_member.mpr ⟨nofun, iho ho⟩
  index sp owner key iho ihk h := by
    obtain ⟨-, ho, hk⟩ := Expr.everywhere_index.mp h
    exact Expr.everywhere_index.mpr ⟨nofun, iho ho, ihk hk⟩
  arrow sp params body ihb h := by
    obtain ⟨-, hbody, hb⟩ := Expr.everywhere_arrow.mp h
    exact Expr.everywhere_arrow.mpr ⟨nofun, nofun, fun s hm => ihb s hm (hbody s hm) (hb s hm)⟩
  object sp properties ihp h := by
    obtain ⟨-, hp⟩ := Expr.everywhere_object.mp h
    exact Expr.everywhere_object.mpr ⟨nofun, fun key value hm => ihp key value hm (hp key value hm)⟩
  array sp elements ihe h := by
    obtain ⟨-, he⟩ := Expr.everywhere_array.mp h
    exact Expr.everywhere_array.mpr ⟨nofun, fun e hm => ihe e hm (he e hm)⟩
  paren sp inner ihi h := by
    obtain ⟨-, hi⟩ := Expr.everywhere_paren.mp h
    exact Expr.everywhere_paren.mpr ⟨nofun, ihi hi⟩
  declaration sp kind name init ihi h := by
    obtain ⟨-, hi⟩ := Decl.everywhere_mk.mp h
    exact Decl.everywhere_mk.mpr ⟨nofun, fun e hm => ihi e hm (hi e hm)⟩
  decl d ihd hq h := by
    obtain ⟨-, hd⟩ := Statement.everywhere_decl.mp h
    exact Statement.everywhere_decl.mpr ⟨Node.isSuch_statement hq, ihd hd⟩
  function sp name params body ihb hq h := by
    obtain ⟨-, hbody, hb⟩ := Statement.everywhere_function.mp h
    exact Statement.everywhere_function.mpr
      ⟨Node.isSuch_statement hq, nofun, fun s hm => ihb s hm (hbody s hm) (hb s hm)⟩
  block sp body ihb hq h := by
    obtain ⟨-, hbody, hb⟩ := Statement.everywhere_block.mp h
    exact Statement.everywhere_block.mpr
      ⟨Node.isSuch_statement hq, nofun, fun s hm => ihb s hm (hbody s hm) (hb s hm)⟩
  ret sp argument iha hq h := by
    obtain ⟨-, ha⟩ := Statement.everywhere_ret.mp h
    exact Statement.everywhere_ret.mpr
      ⟨Node.isSuch_statement hq, fun e hm => iha e hm (ha e hm)⟩
  cond sp test consequent alternate iht ihc iha hq h := by
    obtain ⟨hbranches, ht, hc, ha⟩ := Statement.everywhere_cond.mp h
    refine Statement.everywhere_cond.mpr ⟨Node.isSuch_statement hq, iht ht,
      ihc (hbranches consequent List.mem_cons_self) hc, fun s hm => ?_⟩
    refine iha s hm (hbranches s (List.mem_cons_of_mem _ ?_)) (ha s hm)
    exact Option.mem_toList.mpr hm
  loop sp init test update body ihd ihe iht ihu ihb hq h := by
    obtain ⟨hbody, ⟨hd, he⟩, ht, hu, hb⟩ := Statement.everywhere_loop.mp h
    exact Statement.everywhere_loop.mpr ⟨Node.isSuch_statement hq,
      ⟨fun d hm => ihd d hm (hd d hm), fun e hm => ihe e hm (he e hm)⟩,
      fun e hm => iht e hm (ht e hm), fun e hm => ihu e hm (hu e hm),
      ihb (hbody body List.mem_cons_self) hb⟩
  expr sp e ihe hq h := by
    obtain ⟨-, he⟩ := Statement.everywhere_expr.mp h
    exact Statement.everywhere_expr.mpr ⟨Node.isSuch_statement hq, ihe he⟩
  comment sp text hq _ := Statement.everywhere_comment.mpr ⟨Node.isSuch_statement hq, nofun⟩

/-- **All statements stand somewhere**: in the program itself or directly in a node of it. -/
theorem Program.forall_statement {p : Program} (hroots : ∀ s ∈ p, q s)
    (hparts : ∀ n ∈ p.nodes, ∀ s ∈ n.parts, q s) : ∀ s, .statement s ∈ p.nodes → q s := by
  have hall : p.Everywhere (Node.IsSuch q) := Program.everywhere_iff.mpr fun s hs =>
    everywhere_isSuch.all.2.2 s (hroots s hs) (Program.everywhere_iff.mp hparts s hs)
  exact fun s hs => hall _ hs s rfl

end CurlyScript
