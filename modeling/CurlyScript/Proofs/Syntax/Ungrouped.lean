import CurlyScript.Proofs.Syntax.Erased
import CurlyScript.Proofs.Syntax.Printable

/-
  Expressions but for spans and parentheses.

  `bare` forgets more than that, the braces that keep an `else` away.  But an expression holds
  statements only in the bodies of arrow functions, and on a printable one no `if` stands there, so
  on these the two are the same, and `ungrouped` takes over what is known of `bare`.
-/

namespace CurlyScript

namespace Rewriting

/-- Forgets where nodes stand, and parentheses. -/
def ungrouped : Rewriting := ⟨fun _ => .none, Expr.bare, id⟩

theorem ungrouped_absorbs_unspanned : ungrouped.Absorbs unspanned :=
  ⟨fun _ => rfl, fun _ => rfl, fun _ => rfl⟩

/-- On a printable expression, and on a line of an arrow function, nothing else is forgotten. -/
theorem bare_eq_ungrouped : Syntax.Cases
    (fun e => e.Printable → e.rewrite bare = e.rewrite ungrouped) (fun _ => True)
    (fun s => s.isArrowLine = true → s.Everywhere (fun n => n.isWritable Number.isPlain = true) →
      s.rewrite bare = s.rewrite ungrouped) where
  ident _ _ _ := rfl
  literal _ _ _ := rfl
  binary sp op left right ihl ihr h := by
    obtain ⟨-, hl, hr⟩ := Expr.everywhere_binary.mp h
    rw [Expr.rewrite, Expr.rewrite, ihl hl, ihr hr]
    rfl
  assign sp op target value iht ihv h := by
    obtain ⟨-, ht, hv⟩ := Expr.everywhere_assign.mp h
    rw [Expr.rewrite, Expr.rewrite, iht ht, ihv hv]
    rfl
  update sp op isPrefix argument iha h := by
    obtain ⟨-, ha⟩ := Expr.everywhere_update.mp h
    rw [Expr.rewrite, Expr.rewrite, iha ha]
    rfl
  call sp callee args ihc iha h := by
    obtain ⟨-, hc, ha⟩ := Expr.everywhere_call.mp h
    rw [Expr.rewrite, Expr.rewrite, ihc hc, rewriteExprs_eq_map, rewriteExprs_eq_map,
      List.map_congr_left fun a hm => iha a hm (ha a hm)]
    rfl
  member sp owner property iho h := by
    obtain ⟨-, ho⟩ := Expr.everywhere_member.mp h
    rw [Expr.rewrite, Expr.rewrite, iho ho]
    rfl
  index sp owner key iho ihk h := by
    obtain ⟨-, ho, hk⟩ := Expr.everywhere_index.mp h
    rw [Expr.rewrite, Expr.rewrite, iho ho, ihk hk]
    rfl
  arrow sp params body ihb h := by
    obtain ⟨-, hn, hb⟩ := Expr.everywhere_arrow.mp h
    have hlines := List.all_eq_true.mp (Bool.and_eq_true_iff.mp hn).2
    rw [Expr.rewrite, Expr.rewrite, rewriteStatements_eq_map, rewriteStatements_eq_map,
      List.map_congr_left fun s hm => ihb s hm (hlines s hm) (hb s hm)]
    rfl
  object sp properties ihp h := by
    obtain ⟨-, hp⟩ := Expr.everywhere_object.mp h
    have hps : rewriteProperties bare properties = rewriteProperties ungrouped properties :=
      rewriteProperties_congr (fun _ => rfl) fun key value hm => ihp key value hm (hp key value hm)
    rw [Expr.rewrite, Expr.rewrite, hps]
    rfl
  array sp elements ihe h := by
    obtain ⟨-, he⟩ := Expr.everywhere_array.mp h
    rw [Expr.rewrite, Expr.rewrite, rewriteExprs_eq_map, rewriteExprs_eq_map,
      List.map_congr_left fun e hm => ihe e hm (he e hm)]
    rfl
  paren sp inner ihi h := by
    obtain ⟨-, hi⟩ := Expr.everywhere_paren.mp h
    rw [Expr.rewrite, Expr.rewrite, ihi hi]
    rfl
  declaration _ _ _ _ _ := trivial
  -- the statements that are lines of arrow functions, and then those that are none
  ret sp argument iha _ h := by
    obtain ⟨-, ha⟩ := Statement.everywhere_ret.mp h
    rw [Statement.rewrite, Statement.rewrite, rewriteOption_eq_map, rewriteOption_eq_map,
      Option.map_congr fun e hm => iha e hm (ha e hm)]
    rfl
  expr sp e ihe _ h := by
    obtain ⟨-, he⟩ := Statement.everywhere_expr.mp h
    rw [Statement.rewrite, Statement.rewrite, ihe he]
    rfl
  comment _ _ _ _ := rfl
  decl _ _ hline _ := Bool.noConfusion hline
  function _ _ _ _ _ hline _ := Bool.noConfusion hline
  block _ _ _ hline _ := Bool.noConfusion hline
  cond _ _ _ _ _ _ _ hline _ := Bool.noConfusion hline
  loop _ _ _ _ _ _ _ _ _ _ hline _ := Bool.noConfusion hline

end Rewriting

open Rewriting

/-- Writing down parentheses changes a printable expression in parentheses only. -/
theorem Expr.Printable.ungrouped_explicit {e : Expr} (h : e.Printable) :
    (e.rewrite .explicit).rewrite .ungrouped = e.rewrite .ungrouped := by
  have hexplicit : (e.rewrite .explicit).Printable := fun n hn => (h.explicit_plain n hn).1
  calc (e.rewrite .explicit).rewrite .ungrouped
    _ = (e.rewrite .explicit).rewrite .bare := (bare_eq_ungrouped.all.1 _ hexplicit).symm
    _ = e.rewrite .bare := bare_absorbs_explicit.tree.all.1 e
    _ = e.rewrite .ungrouped := bare_eq_ungrouped.all.1 e h

/-! ## The outermost part -/

/-- What is no expression in parentheses keeps its outermost part, so it binds as tightly as
    before. -/
theorem Expr.face_ungrouped {e : Expr} (h : ∀ sp inner, e ≠ .paren sp inner) :
    (e.rewrite .ungrouped).precedence = e.precedence ∧
      (e.rewrite .ungrouped).groupsBeforePostfix = e.groupsBeforePostfix := by
  cases e with
  | paren sp inner => exact absurd rfl (h sp inner)
  | _ => exact ⟨rfl, rfl⟩

end CurlyScript
