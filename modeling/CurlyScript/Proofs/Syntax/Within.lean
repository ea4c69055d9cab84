import CurlyScript.Proofs.Syntax.Everywhere

/-
  Nodes within nodes.

  A walk of a tree comes to every node of every tree within it.  So what holds everywhere in a tree
  holds everywhere within each of its nodes, and a condition on one node may look at all that is
  below it (`Program.Everywhere.within`).
-/

namespace CurlyScript

/-- The nodes within a node: those of the trees that it is made of. -/
def Node.within : Node → List Node
  | .statement s => s.nodes
  | .decl d => d.nodes
  | .function _ _ _ body => statementsNodes body
  | .block body => statementsNodes body
  | .expr e => e.nodes
  | .arrow _ _ body => statementsNodes body
  | .ident _ _ => []
  | .comment _ _ => []

/-- Every node within has the property. -/
def Node.Within (p : Node → Prop) (n : Node) : Prop := ∀ m ∈ n.within, p m

variable {p : Node → Prop}

/-- What holds everywhere in a tree holds everywhere within each of its nodes. -/
theorem everywhere_within :
    Syntax.Cases (fun e => e.Everywhere p → e.Everywhere (Node.Within p))
      (fun d => d.Everywhere p → d.Everywhere (Node.Within p))
      (fun s => s.Everywhere p → s.Everywhere (Node.Within p)) where
  -- the nodes within the root are those of the tree; all others are within a part of it
  ident sp name h := Expr.everywhere_ident.mpr ⟨h, fun _ hm => absurd hm List.not_mem_nil⟩
  literal sp value h := Expr.everywhere_literal.mpr h
  binary sp op left right ihl ihr h := by
    obtain ⟨-, hl, hr⟩ := Expr.everywhere_binary.mp h
    exact Expr.everywhere_binary.mpr ⟨h, ihl hl, ihr hr⟩
  assign sp op target value iht ihv h := by
    obtain ⟨-, ht, hv⟩ := Expr.everywhere_assign.mp h
    exact Expr.everywhere_assign.mpr ⟨h, iht ht, ihv hv⟩
  update sp op isPrefix argument iha h := by
    obtain ⟨-, ha⟩ := Expr.everywhere_update.mp h
    exact Expr.everywhere_update.mpr ⟨h, iha ha⟩
  call sp callee args ihc iha h := by
    obtain ⟨-, hc, ha⟩ := Expr.everywhere_call.mp h
    exact Expr.everywhere_call.mpr ⟨h, ihc hc, fun a hm => iha a hm (ha a hm)⟩
  member sp owner property iho h := by
    obtain ⟨-, ho⟩ := Expr.everywhere_member.mp h
    exact Expr.everywhere_member.mpr ⟨h, iho ho⟩
  index sp owner key iho ihk h := by
    obtain ⟨-, ho, hk⟩ := Expr.everywhere_index.mp h
    exact Expr.everywhere_index.mpr ⟨h, iho ho, ihk hk⟩
  arrow sp params body ihb h := by
    obtain ⟨-, -, hb⟩ := Expr.everywhere_arrow.mp h
    exact Expr.everywhere_arrow.mpr
      ⟨h, forall_mem_statementsNodes.mpr hb, fun s hm => ihb s hm (hb s hm)⟩
  object sp properties ihp h := by
    obtain ⟨-, hp⟩ := Expr.everywhere_object.mp h
    exact Expr.everywhere_object.mpr ⟨h, fun key value hm => ihp key value hm (hp key value hm)⟩
  array sp elements ihe h := by
    obtain ⟨-, he⟩ := Expr.everywhere_array.mp h
    exact Expr.everywhere_array.mpr ⟨h, fun e hm => ihe e hm (he e hm)⟩
  paren sp inner ihi h := by
    obtain ⟨-, hi⟩ := Expr.everywhere_paren.mp h
    exact Expr.everywhere_paren.mpr ⟨h, ihi hi⟩
  declaration sp kind name init ihi h := by
    obtain ⟨-, hi⟩ := Decl.everywhere_mk.mp h
    exact Decl.everywhere_mk.mpr ⟨h, fun e hm => ihi e hm (hi e hm)⟩
  decl d ihd h := by
    obtain ⟨-, hd⟩ := Statement.everywhere_decl.mp h
    exact Statement.everywhere_decl.mpr ⟨h, ihd hd⟩
  function sp name params body ihb h := by
    obtain ⟨-, -, hb⟩ := Statement.everywhere_function.mp h
    exact Statement.everywhere_function.mpr
      ⟨h, forall_mem_statementsNodes.mpr hb, fun s hm => ihb s hm (hb s hm)⟩
  block sp body ihb h := by
    obtain ⟨-, -, hb⟩ := Statement.everywhere_block.mp h
    exact Statement.everywhere_block.mpr
      ⟨h, forall_mem_statementsNodes.mpr hb, fun s hm => ihb s hm (hb s hm)⟩
  ret sp argument iha h := by
    obtain ⟨-, ha⟩ := Statement.everywhere_ret.mp h
    exact Statement.everywhere_ret.mpr ⟨h, fun e hm => iha e hm (ha e hm)⟩
  cond sp test consequent alternate iht ihc iha h := by
    obtain ⟨-, ht, hc, ha⟩ := Statement.everywhere_cond.mp h
    exact Statement.everywhere_cond.mpr ⟨h, iht ht, ihc hc, fun s hm => iha s hm (ha s hm)⟩
  loop sp init test update body ihd ihe iht ihu ihb h := by
    obtain ⟨-, ⟨hd, he⟩, ht, hu, hb⟩ := Statement.everywhere_loop.mp h
    exact Statement.everywhere_loop.mpr ⟨h, ⟨fun d hm => ihd d hm (hd d hm),
      fun e hm => ihe e hm (he e hm)⟩, fun e hm => iht e hm (ht e hm),
      fun e hm => ihu e hm (hu e hm), ihb hb⟩
  expr sp e ihe h := by
    obtain ⟨-, he⟩ := Statement.everywhere_expr.mp h
    exact Statement.everywhere_expr.mpr ⟨h, ihe he⟩
  comment sp text h :=
    Statement.everywhere_comment.mpr ⟨h, fun _ hm => absurd hm List.not_mem_nil⟩

namespace Program

variable {prog : Program}

/-- What holds everywhere in a program holds everywhere within each of its nodes. -/
theorem Everywhere.within (h : prog.Everywhere p) : prog.Everywhere (Node.Within p) :=
  everywhere_iff.mpr fun s hs => everywhere_within.all.2.2 s (everywhere_iff.mp h s hs)

end Program

end CurlyScript
