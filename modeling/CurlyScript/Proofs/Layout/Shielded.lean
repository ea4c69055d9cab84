import CurlyScript.Proofs.Grammar.Grouped
import CurlyScript.Proofs.Layout.ReadBack

/-
  What a layout adds to a program that was read.

  What a layout adds to a tree is what `Rewriting.explicit` writes down.  Of that only one thing is
  left for a program that was read: the parentheses around a line of an arrow function that begins
  with an object (`Rewriting.shielded`).  All other conditions are false on such programs, since no
  rule of the grammar gives a tree that meets one (`Grammar.rules_clear`).
-/

namespace CurlyScript

open Rewriting

/-- Parentheses around an expression that begins with an object where a statement does. -/
def Statement.shield : Statement → Statement
  | .expr s e => .expr s (e.parensIf e.startsWithObject)
  | s => s

/-- Parentheses around the lines of an arrow function that begin with an object. -/
def Expr.shieldLines : Expr → Expr
  | .arrow s params body => .arrow s params (body.map Statement.shield)
  | e => e

/-- Writes down the parentheses around lines of arrow functions. -/
def Rewriting.shielded : Rewriting := ⟨id, Expr.shieldLines, id⟩

namespace Rewriting

theorem shield_alike (s : Statement) : s.shield.Alike s := by
  cases s with
  | expr sp e => exact withBraces_alike (.expr sp e)
  | _ => exact .refl _

theorem shieldLines_alike (e : Expr) : e.shieldLines.Alike e := by
  cases e with
  | arrow sp params body =>
    refine ⟨rfl, fun st => ?_, rfl⟩
    rw [Expr.shieldLines, Expr.layout, flatMap_layout_congr st fun s _ => shield_alike s,
      Expr.layout]
  | _ => exact .refl _

/-- No layout notices the parentheses that it would have added. -/
theorem keeps_shielded : shielded.Keeps := ⟨shieldLines_alike, .refl⟩

/-- A statement that does not begin with an object is left as it is. -/
theorem shield_rewrite {s : Statement} (h : s.beginsWithObject = false) :
    (s.rewrite shielded).shield = s.rewrite shielded := by
  cases s with
  | expr sp e =>
    have hobject : (e.rewrite shielded).startsWithObject = false :=
      (keeps_shielded.tree.all.1 e).startsWithObject.trans h
    show Statement.expr sp (Expr.parensIf _ (e.rewrite shielded)) = _
    rw [hobject]
    rfl
  | _ => rfl

/-- On clear trees, nothing is written down but the parentheses around lines of arrow functions. -/
theorem explicit_eq_shielded :
    Syntax.Cases (fun e => e.Everywhere Node.IsClear → e.rewrite explicit = e.rewrite shielded)
      (fun d => d.Everywhere Node.IsClear → d.rewrite explicit = d.rewrite shielded)
      (fun s => s.Everywhere Node.IsClear →
        s.rewrite explicit = (s.rewrite shielded).shield) where
  ident _ _ _ := rfl
  literal _ _ _ := rfl
  binary sp op left right ihl ihr h := by
    obtain ⟨hn, hl, hr⟩ := Expr.everywhere_binary.mp h
    obtain ⟨hgl, hgr⟩ := Bool.and_eq_true_iff.mp hn.grouped
    rw [Bool.not_eq_true'] at hgl hgr
    rw [Expr.rewrite, Expr.rewrite, ihl hl, ihr hr]
    show (Expr.binary sp op (left.rewrite shielded) (right.rewrite shielded)).withParens = _
    rw [Expr.withParens, (keeps_shielded.tree.all.1 left).groupsLeft, hgl,
      (keeps_shielded.tree.all.1 right).groupsRight, hgr]
    rfl
  assign sp op target value iht ihv h := by
    obtain ⟨-, ht, hv⟩ := Expr.everywhere_assign.mp h
    rw [Expr.rewrite, Expr.rewrite, iht ht, ihv hv]
    rfl
  update sp op isPrefix argument iha h := by
    obtain ⟨-, ha⟩ := Expr.everywhere_update.mp h
    rw [Expr.rewrite, Expr.rewrite, iha ha]
    rfl
  call sp callee args ihc iha h := by
    obtain ⟨hn, hc, ha⟩ := Expr.everywhere_call.mp h
    have hg : callee.groupsBeforePostfix = false := Bool.not_eq_true' _ ▸ hn.grouped
    rw [Expr.rewrite, Expr.rewrite, ihc hc, rewriteExprs_eq_map, rewriteExprs_eq_map,
      List.map_congr_left fun a hm => iha a hm (ha a hm)]
    show (Expr.call sp (callee.rewrite shielded) _).withParens = _
    rw [Expr.withParens, (keeps_shielded.tree.all.1 callee).groupsBeforePostfix, hg]
    rfl
  member sp owner property iho h := by
    obtain ⟨hn, ho⟩ := Expr.everywhere_member.mp h
    have hg : owner.groupsBeforePostfix = false := Bool.not_eq_true' _ ▸ hn.grouped
    rw [Expr.rewrite, Expr.rewrite, iho ho]
    show (Expr.member sp (owner.rewrite shielded) (property.rewrite shielded)).withParens = _
    rw [Expr.withParens, (keeps_shielded.tree.all.1 owner).groupsBeforePostfix, hg]
    rfl
  index sp owner key iho ihk h := by
    obtain ⟨hn, ho, hk⟩ := Expr.everywhere_index.mp h
    have hg : owner.groupsBeforePostfix = false := Bool.not_eq_true' _ ▸ hn.grouped
    rw [Expr.rewrite, Expr.rewrite, iho ho, ihk hk]
    show (Expr.index sp (owner.rewrite shielded) (key.rewrite shielded)).withParens = _
    rw [Expr.withParens, (keeps_shielded.tree.all.1 owner).groupsBeforePostfix, hg]
    rfl
  arrow sp params body ihb h := by
    -- the lines of an arrow function are where the parentheses are written down
    obtain ⟨-, -, hb⟩ := Expr.everywhere_arrow.mp h
    rw [Expr.rewrite, Expr.rewrite, rewriteStatements_eq_map, rewriteStatements_eq_map,
      List.map_congr_left fun s hm => ihb s hm (hb s hm), ← Function.comp_def, ← List.map_map]
    rfl
  object sp properties ihp h := by
    obtain ⟨-, hp⟩ := Expr.everywhere_object.mp h
    have hps : rewriteProperties explicit properties = rewriteProperties shielded properties :=
      rewriteProperties_congr (fun _ => rfl) fun key value hm => ihp key value hm (hp key value hm)
    rw [Expr.rewrite, Expr.rewrite, hps]
    rfl
  array sp elements ihe h := by
    obtain ⟨-, he⟩ := Expr.everywhere_array.mp h
    rw [Expr.rewrite, Expr.rewrite, rewriteExprs_eq_map, rewriteExprs_eq_map,
      List.map_congr_left fun e hm => ihe e hm (he e hm)]
    rfl
  paren sp inner ihi h := by
    obtain ⟨-, hi⟩ := Expr.everywhere_paren.mp h
    rw [Expr.rewrite, Expr.rewrite, ihi hi]
    rfl
  declaration sp kind name init ihi h := by
    obtain ⟨-, hi⟩ := Decl.everywhere_mk.mp h
    rw [Decl.rewrite, Decl.rewrite, rewriteOption_eq_map, rewriteOption_eq_map,
      Option.map_congr fun e hm => ihi e hm (hi e hm)]
    rfl
  decl d ihd h := by
    obtain ⟨-, hd⟩ := Statement.everywhere_decl.mp h
    rw [Statement.rewrite, Statement.rewrite, ihd hd]
    rfl
  function sp name params body ihb h := by
    obtain ⟨-, hn, hb⟩ := Statement.everywhere_function.mp h
    rw [Statement.rewrite, Statement.rewrite, rewriteStatements_eq_map, rewriteStatements_eq_map,
      List.map_congr_left fun s hm =>
        (ihb s hm (hb s hm)).trans (shield_rewrite (hn.lines s hm))]
    rfl
  block sp body ihb h := by
    obtain ⟨-, hn, hb⟩ := Statement.everywhere_block.mp h
    rw [Statement.rewrite, Statement.rewrite, rewriteStatements_eq_map, rewriteStatements_eq_map,
      List.map_congr_left fun s hm =>
        (ihb s hm (hb s hm)).trans (shield_rewrite (hn.lines s hm))]
    rfl
  ret sp argument iha h := by
    obtain ⟨-, ha⟩ := Statement.everywhere_ret.mp h
    rw [Statement.rewrite, Statement.rewrite, rewriteOption_eq_map, rewriteOption_eq_map,
      Option.map_congr fun e hm => iha e hm (ha e hm)]
    rfl
  cond sp test consequent alternate iht ihc iha h := by
    obtain ⟨hn, ht, hc, ha⟩ := Statement.everywhere_cond.mp h
    have hconsequent : consequent.rewrite explicit = consequent.rewrite shielded :=
      (ihc hc).trans (shield_rewrite (hn.lines consequent List.mem_cons_self))
    rw [Statement.rewrite, Statement.rewrite, iht ht, hconsequent, rewriteBranch_eq_map,
      rewriteBranch_eq_map]
    cases alternate with
    | none => rfl
    | some a =>
      have ha' : a.rewrite explicit = a.rewrite shielded :=
        (iha a rfl (ha a rfl)).trans
          (shield_rewrite (hn.lines a (List.mem_cons_of_mem _ List.mem_cons_self)))
      have hopen : consequent.endsWithOpenIf = false := Bool.not_eq_true' _ ▸ hn.grouped
      rw [Option.map_some, Option.map_some, ha']
      show (Statement.cond sp (test.rewrite shielded) (consequent.rewrite shielded)
        (some (a.rewrite shielded))).withBraces = _
      rw [Statement.withBraces, (keeps_shielded.tree.all.2.2 consequent).endsWithOpenIf, hopen]
      rfl
  loop sp init test update body ihd ihe iht ihu ihb h := by
    obtain ⟨hn, ⟨hd, he⟩, ht, hu, hb⟩ := Statement.everywhere_loop.mp h
    have hinit : rewriteLoopInit explicit init = rewriteLoopInit shielded init := by
      rcases init with _ | d | e
      · rfl
      · exact congrArg (fun d => some (LoopInit.decl d)) (ihd d rfl (hd d rfl))
      · exact congrArg (fun e => some (LoopInit.expr e)) (ihe e rfl (he e rfl))
    have hbody : body.rewrite explicit = body.rewrite shielded :=
      (ihb hb).trans (shield_rewrite (hn.lines body List.mem_cons_self))
    rw [Statement.rewrite, Statement.rewrite, hinit, hbody, rewriteOption_eq_map,
      rewriteOption_eq_map, rewriteOption_eq_map, rewriteOption_eq_map,
      Option.map_congr fun e hm => iht e hm (ht e hm),
      Option.map_congr fun e hm => ihu e hm (hu e hm)]
    rfl
  expr sp e ihe h := by
    obtain ⟨-, he⟩ := Statement.everywhere_expr.mp h
    rw [Statement.rewrite, Statement.rewrite, ihe he]
    rfl
  comment _ _ _ := rfl

end Rewriting

namespace Program

/-- A program in which nothing needs parentheses or braces, but for lines of arrow functions. -/
structure NeedsNothing (p : Program) : Prop where
  operands : ∀ sp op left right, .expr (.binary sp op left right) ∈ p.nodes →
    op.groupsLeft left = false ∧ op.groupsRight right = false
  callee : ∀ sp callee args, .expr (.call sp callee args) ∈ p.nodes →
    callee.groupsBeforePostfix = false
  owner : ∀ sp owner property, .expr (.member sp owner property) ∈ p.nodes →
    owner.groupsBeforePostfix = false
  indexed : ∀ sp owner key, .expr (.index sp owner key) ∈ p.nodes →
    owner.groupsBeforePostfix = false
  consequent : ∀ sp test consequent alternate,
    .statement (.cond sp test consequent (some alternate)) ∈ p.nodes →
      consequent.endsWithOpenIf = false
  /-- No statement of the program itself begins with an object. -/
  own : ∀ sp e, .expr sp e ∈ p → e.startsWithObject = false
  /-- No statement in a function, in a block, in a loop or after an `if` does. -/
  line : ∀ n ∈ p.nodes, ∀ sp e, .expr sp e ∈ n.lines → e.startsWithObject = false
  /-- A statement that does is a line of an arrow function. -/
  inArrow : ∀ sp e, .statement (.expr sp e) ∈ p.nodes → e.startsWithObject = true →
    ∃ sp' params body, .arrow sp' params body ∈ p.nodes ∧ .expr sp e ∈ body

variable {ts : List Token} {p : Program}

/-- Clear statements that begin with no object make up a program in which nothing is needed. -/
theorem needsNothing_of_clear (h : ∀ s ∈ p, s.ClearLine) : p.NeedsNothing := by
  have hclear : p.Everywhere Node.IsClear := everywhere_iff.mpr fun s hs => (h s hs).everywhere
  have hline : ∀ n ∈ p.nodes, ∀ sp e, .expr sp e ∈ n.lines → e.startsWithObject = false :=
    fun n hn sp e hs => (hclear n hn).lines _ hs
  refine ⟨?_, ?_, ?_, ?_, ?_, fun sp e hs => (h _ hs).noObject, hline, ?_⟩
  · intro sp op left right hn
    obtain ⟨hl, hr⟩ := Bool.and_eq_true_iff.mp (hclear _ hn).grouped
    exact ⟨Bool.not_eq_true' _ ▸ hl, Bool.not_eq_true' _ ▸ hr⟩
  · exact fun sp callee args hn => Bool.not_eq_true' _ ▸ (hclear _ hn).grouped
  · exact fun sp owner property hn => Bool.not_eq_true' _ ▸ (hclear _ hn).grouped
  · exact fun sp owner key hn => Bool.not_eq_true' _ ▸ (hclear _ hn).grouped
  · exact fun sp test consequent alternate hn => Bool.not_eq_true' _ ▸ (hclear _ hn).grouped
  · -- every statement is the program's own, or a line of a node, or one of an arrow function
    have hall : ∀ s, .statement s ∈ p.nodes → s.beginsWithObject = false ∨
        ∃ sp' params body, .arrow sp' params body ∈ p.nodes ∧ s ∈ body := by
      refine forall_statement (fun s hs => .inl (h s hs).noObject) fun n hn s hs => ?_
      cases n with
      | arrow sp' params body => exact .inr ⟨sp', params, body, hn, hs⟩
      | _ => exact .inl ((hclear _ hn).lines s hs)
    intro sp e hn hobject
    rcases hall _ hn with hno | harrow
    · exact absurd (hobject.symm.trans hno) Bool.noConfusion
    · exact harrow

theorem explicit_eq_shielded_of_clear (h : ∀ s ∈ p, s.ClearLine) :
    p.rewrite .explicit = p.rewrite .shielded :=
  List.map_congr_left fun s hs =>
    (explicit_eq_shielded.all.2.2 s (h s hs).everywhere).trans (shield_rewrite (h s hs).noObject)

/-- **What was read needs no parentheses.**  Whatever the tokens, in a program that they make up no
    operand, callee, owner or branch needs parentheses or braces, and none but lines of arrow
    functions begin with an object; so these are all that a layout adds any to. -/
theorem needsNothing_of_ofTokens (h : ofTokens ts = .ok p) :
    p.NeedsNothing ∧ p.rewrite .explicit = p.rewrite .shielded ∧
      (p.Printable → ∀ st, Scans (p.format st).toList (p.rewrite .shielded).terminals) ∧
      (p.Printable → ∀ code, p.generate = .ok code →
        Scans code.toList (p.rewrite .shielded).terminals) := by
  have hclear := (unrolls_of_ofTokens h).clear
  have hsame := explicit_eq_shielded_of_clear hclear
  refine ⟨needsNothing_of_clear hclear, hsame, fun hp st => ?_, fun hp code hcode => ?_⟩
  · exact hsame ▸ hp.scans_format st
  · exact hsame ▸ (scans_generate hp.explicit_plain ((keeps_explicit.generate p).trans hcode)).1

/-- A text with an object at the start of a line of an arrow function, and an `else` after loops and
    conditions within each other. -/
def nestedText : String :=
  "f=(a)=>\x7b\x7bb:1\x7d.b++ return\x7b\x7d\x7d;" ++
    "for(;;)if(a)for(;;)\x7bif(b)--c\x7delse if(d)(e-(f-g)).h(0);else\x7b\x7d"

theorem needsNothing_of_ofTokens_nestedText : ∃ ts p, (ofTokens ts = .ok p ∧ p.Printable) ∧
    p.NeedsNothing ∧ p.rewrite .explicit = p.rewrite .shielded ∧
      ∀ st, Scans (p.format st).toList (p.rewrite .shielded).terminals := by
  have hok : ((scan nestedText true).toOption.bind fun ts => (ofTokens ts).toOption).any
      (fun p => decide p.Printable) = true := by
    decide +kernel
  rw [Option.any_eq_true] at hok
  obtain ⟨p, hp, hprintable⟩ := hok
  obtain ⟨ts, -, hread⟩ := Option.bind_eq_some_iff.mp hp
  have hread : ofTokens ts = .ok p := by
    cases hx : ofTokens ts with
    | error e => rw [hx] at hread; cases hread
    | ok q => rw [hx] at hread; exact congrArg Except.ok (Option.some.inj hread)
  have hprintable := of_decide_eq_true hprintable
  obtain ⟨hneeds, hsame, hformat, -⟩ := needsNothing_of_ofTokens hread
  exact ⟨ts, p, ⟨hread, hprintable⟩, hneeds, hsame, hformat hprintable⟩

end Program

end CurlyScript
