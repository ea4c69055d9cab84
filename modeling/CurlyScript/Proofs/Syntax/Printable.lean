import CurlyScript.Proofs.Layout.Rewritten
import CurlyScript.Proofs.Number.ReadBack
import CurlyScript.Proofs.Syntax.Everywhere

/-
  Printable trees.

  A tree built by hand may hold names that are no names, or steps of what cannot be stored into;
  its text is then no text of that tree.  `Node.isWritable` says node by node what a tree must be
  like to have a text of its own, and `Node.isExplicit` that the text needs no parentheses and no
  braces besides those in the tree.

  Writing down the parentheses makes a tree explicit and leaves it writable
  (`Rewriting.explicit_carries`); spelling infinite numbers as names makes it plain
  (`Rewriting.named_carries`).
-/

namespace CurlyScript

/-! ## Conditions on one node -/

/-- Whether an expression can be stored into. -/
def Expr.isTarget : Expr → Bool
  | .ident _ _ | .member _ _ _ | .index _ _ _ => true
  | _ => false

/-- Whether a statement is a comment. -/
def Statement.isComment (s : Statement) : Bool := s.shape == .comment

/-- Whether a statement may stand in the body of an arrow function. -/
def Statement.isArrowLine (s : Statement) : Bool :=
  s.shape == .returnStatement || s.shape == .expressionStatement || s.shape == .comment

/-- The key of an entry. -/
def Property.key : Property → Name
  | .mk key _ => key

/-- Whether names, targets and comments of a node are such as a text can have, and its number, if
    it is one, is of the class `number`. -/
def Node.isWritable (number : Number → Bool) : Node → Bool
  | .expr (.literal _ (.number x)) => number x
  | .expr (.assign _ _ target _) => target.isTarget
  | .expr (.update _ _ _ argument) => argument.isTarget
  | .expr (.member _ _ property) => isName property.text
  | .expr (.object _ properties) => properties.all fun p => isName p.key.text
  | .ident _ name => isName name
  | .arrow _ params body => params.all (fun p => isName p.text) && body.all Statement.isArrowLine
  | .decl (.mk _ _ name _) => isName name.text
  | .function _ name params _ => isName name.text && params.all fun p => isName p.text
  | .statement (.cond _ _ consequent alternate) =>
    !consequent.isComment && alternate.all fun s => !s.isComment
  | .statement (.loop _ _ _ _ body) => !body.isComment
  | .comment _ text => isCommentText text
  | _ => true

/-- Whether the text of a node needs no parentheses and no braces besides its own. -/
def Node.isExplicit : Node → Bool
  | .expr (.binary _ op left right) => !op.groupsLeft left && !op.groupsRight right
  | .expr (.call _ callee _) => !callee.groupsBeforePostfix
  | .expr (.member _ owner _) | .expr (.index _ owner _) => !owner.groupsBeforePostfix
  | .statement (.cond _ _ consequent (some _)) => !consequent.endsWithOpenIf
  | .statement (.expr _ e) => !e.startsWithObject
  | _ => true

/-- A node that is written as it stands. -/
def Node.IsPlain (n : Node) : Prop := n.isWritable Number.isPlain = true ∧ n.isExplicit = true

/-- An expression whose names, targets, numbers and comments are such as a text can have. -/
def Expr.Printable (e : Expr) : Prop := e.Everywhere fun n => n.isWritable Number.isPlain = true

instance (e : Expr) : Decidable e.Printable :=
  inferInstanceAs (Decidable (∀ n ∈ e.nodes, n.isWritable Number.isPlain = true))

/-- A statement whose names, targets, numbers and comments are such as a text can have. -/
def Statement.Printable (s : Statement) : Prop :=
  s.Everywhere fun n => n.isWritable Number.isPlain = true

instance (s : Statement) : Decidable s.Printable :=
  inferInstanceAs (Decidable (∀ n ∈ s.nodes, n.isWritable Number.isPlain = true))

/-- A program whose names, targets, numbers and comments are such as a text can have. -/
def Program.Printable (p : Program) : Prop :=
  p.Everywhere fun n => n.isWritable Number.isPlain = true

instance (p : Program) : Decidable p.Printable :=
  inferInstanceAs (Decidable (∀ n ∈ p.nodes, n.isWritable Number.isPlain = true))

namespace Rewriting

/-! ## What no rewriting changes -/

variable {w : Rewriting}

theorem names_all (w : Rewriting) (params : List Name) :
    (params.map (Name.rewrite w)).all (fun p => isName p.text) =
      params.all fun p => isName p.text := by
  rw [List.all_map]
  rfl

theorem keys_all (w : Rewriting) (ps : List Property) :
    (rewriteProperties w ps).all (fun p => isName p.key.text) =
      ps.all fun p => isName p.key.text := by
  induction ps with
  | nil => rfl
  | cons p ps ih =>
    obtain ⟨key, value⟩ := p
    rw [rewriteProperties, List.all_cons, List.all_cons, ih]
    rfl

theorem mem_rewriteProperties {ps : List Property} {key : Name} {value : Expr}
    (h : .mk key value ∈ rewriteProperties w ps) :
    ∃ k v, .mk k v ∈ ps ∧ v.rewrite w = value := by
  induction ps with
  | nil => exact absurd h List.not_mem_nil
  | cons p ps ih =>
    obtain ⟨k, v⟩ := p
    rcases List.mem_cons.mp h with hx | hx
    · exact ⟨k, v, List.mem_cons_self, (Property.mk.inj hx).2.symm⟩
    · obtain ⟨k', v', hm, he⟩ := ih hx
      exact ⟨k', v', List.mem_cons_of_mem _ hm, he⟩

/-- A rewriting that leaves targets targets, and statements of the shape that they are. -/
structure Shaped (w : Rewriting) : Prop where
  target : ∀ e, e.isTarget = true → (w.expr e).isTarget = true
  shape : ∀ s, (w.statement s).shape = s.shape

theorem Shaped.isTarget (h : w.Shaped) {e : Expr} (he : e.isTarget = true) :
    (e.rewrite w).isTarget = true := by
  cases e with
  | ident | member | index => exact h.target _ rfl
  | _ => exact Bool.noConfusion he

theorem Shaped.shape_rewrite (h : w.Shaped) (s : Statement) : (s.rewrite w).shape = s.shape := by
  cases s <;> exact h.shape _

theorem Shaped.isComment (h : w.Shaped) (s : Statement) :
    (s.rewrite w).isComment = s.isComment := by
  rw [Statement.isComment, Statement.isComment, h.shape_rewrite]

theorem Shaped.arrowLines (h : w.Shaped) (body : List Statement) :
    (body.map (Statement.rewrite w)).all Statement.isArrowLine =
      body.all Statement.isArrowLine := by
  rw [List.all_map]
  refine congrArg body.all (funext fun s => ?_)
  show (s.rewrite w).isArrowLine = s.isArrowLine
  rw [Statement.isArrowLine, Statement.isArrowLine, h.shape_rewrite]

theorem Shaped.alternate (h : w.Shaped) (o : Option Statement) :
    (o.map (Statement.rewrite w)).all (fun s => !s.isComment) = o.all fun s => !s.isComment := by
  cases o with
  | none => rfl
  | some s => exact congrArg not (h.isComment s)

/-! ## From the nodes to the tree

  A rewriting `Carries` the condition to `q` if it does so on one node whose parts meet `q`
  already.  The parts are what a walk comes to after the node itself. -/

/-- A rewriting that makes writable nodes with parts of the kind `q` into trees of that kind. -/
structure Carries (w : Rewriting) (number : Number → Bool) (q : Node → Prop) : Prop
    extends w.Shaped where
  expr : ∀ e, (Node.expr e).isWritable number = true → (∀ n ∈ e.nodes.tail, q n) →
    (w.expr e).Everywhere q
  statement : ∀ s, (Node.statement s).isWritable number = true → (∀ n ∈ s.nodes.tail, q n) →
    (w.statement s).Everywhere q
  other : ∀ n, (∀ e, n ≠ .expr e) → (∀ s, n ≠ .statement s) → n.isWritable number = true → q n

namespace Carries

variable {number : Number → Bool} {q : Node → Prop}

theorem map_everywhere {f : Statement → Statement} {p : Node → Prop} {ss : List Statement}
    (ih : ∀ s ∈ ss, s.Everywhere p → (f s).Everywhere q) (hs : ∀ s ∈ ss, s.Everywhere p) :
    ∀ n ∈ statementsNodes (ss.map f), q n := by
  refine forall_mem_statementsNodes.mpr fun t ht => ?_
  obtain ⟨s, hm, rfl⟩ := List.mem_map.mp ht
  exact ih s hm (hs s hm)

theorem map_everywhere_exprs {f : Expr → Expr} {p : Node → Prop} {es : List Expr}
    (ih : ∀ e ∈ es, e.Everywhere p → (f e).Everywhere q) (he : ∀ e ∈ es, e.Everywhere p) :
    ∀ n ∈ exprsNodes (es.map f), q n := by
  refine forall_mem_exprsNodes.mpr fun t ht => ?_
  obtain ⟨e, hm, rfl⟩ := List.mem_map.mp ht
  exact ih e hm (he e hm)

theorem map_everywhere_option {f : Expr → Expr} {p : Node → Prop} {o : Option Expr}
    (ih : ∀ e ∈ o, e.Everywhere p → (f e).Everywhere q) (he : ∀ e ∈ o, e.Everywhere p) :
    ∀ n ∈ optionNodes (o.map f), q n := by
  refine forall_mem_optionNodes.mpr fun t ht => ?_
  obtain ⟨e, hm, rfl⟩ := Option.map_eq_some_iff.mp ht
  exact ih e hm (he e hm)

/-- What is carried on single nodes is carried on trees. -/
theorem tree (h : w.Carries number q) :
    Syntax.Cases
      (fun e => e.Everywhere (fun n => n.isWritable number = true) → (e.rewrite w).Everywhere q)
      (fun d => d.Everywhere (fun n => n.isWritable number = true) → (d.rewrite w).Everywhere q)
      (fun s => s.Everywhere (fun n => n.isWritable number = true) →
        (s.rewrite w).Everywhere q) where
  ident sp name he := by
    obtain ⟨-, hn⟩ := Expr.everywhere_ident.mp he
    exact h.expr _ rfl (List.forall_mem_singleton.mpr (h.other _ (by simp) (by simp) hn))
  literal sp value he := by
    have hv := Expr.everywhere_literal.mp he
    refine h.expr (.literal (w.span sp) value) ?_ (by simp [Expr.nodes])
    cases value with
    | number x => exact hv
    | _ => rfl
  binary sp op left right ihl ihr he := by
    obtain ⟨-, hl, hr⟩ := Expr.everywhere_binary.mp he
    exact h.expr _ rfl (List.forall_mem_append.mpr ⟨ihl hl, ihr hr⟩)
  assign sp op target value iht ihv he := by
    obtain ⟨hh, ht, hv⟩ := Expr.everywhere_assign.mp he
    exact h.expr _ (h.isTarget hh) (List.forall_mem_append.mpr ⟨iht ht, ihv hv⟩)
  update sp op isPrefix argument iha he := by
    obtain ⟨hh, ha⟩ := Expr.everywhere_update.mp he
    exact h.expr _ (h.isTarget hh) (iha ha)
  call sp callee args ihc iha he := by
    obtain ⟨-, hc, ha⟩ := Expr.everywhere_call.mp he
    rw [Expr.rewrite, rewriteExprs_eq_map]
    exact h.expr _ rfl (List.forall_mem_append.mpr ⟨ihc hc, map_everywhere_exprs iha ha⟩)
  member sp owner property iho he := by
    obtain ⟨hh, ho⟩ := Expr.everywhere_member.mp he
    exact h.expr _ hh (iho ho)
  index sp owner key iho ihk he := by
    obtain ⟨-, ho, hk⟩ := Expr.everywhere_index.mp he
    exact h.expr _ rfl (List.forall_mem_append.mpr ⟨iho ho, ihk hk⟩)
  arrow sp params body ihb he := by
    obtain ⟨-, hh, hb⟩ := Expr.everywhere_arrow.mp he
    rw [Expr.rewrite, rewriteStatements_eq_map]
    refine h.expr _ rfl (List.forall_mem_cons.mpr ⟨?_, map_everywhere ihb hb⟩)
    refine h.other _ (by simp) (by simp) ?_
    rw [Node.isWritable, names_all, h.arrowLines]
    exact hh
  object sp properties ihp he := by
    obtain ⟨hh, hp⟩ := Expr.everywhere_object.mp he
    refine h.expr _ ?_ (forall_mem_propertiesNodes.mpr fun key value hm => ?_)
    · rw [Node.isWritable, keys_all]
      exact hh
    · obtain ⟨k, v, hkv, rfl⟩ := mem_rewriteProperties hm
      exact ihp k v hkv (hp k v hkv)
  array sp elements ihe he := by
    obtain ⟨-, hes⟩ := Expr.everywhere_array.mp he
    rw [Expr.rewrite, rewriteExprs_eq_map]
    exact h.expr _ rfl (map_everywhere_exprs ihe hes)
  paren sp inner ihi he := by
    obtain ⟨-, hi⟩ := Expr.everywhere_paren.mp he
    exact h.expr _ rfl (ihi hi)
  declaration sp kind name init ihi hd := by
    obtain ⟨hh, hi⟩ := Decl.everywhere_mk.mp hd
    rw [Decl.rewrite, rewriteOption_eq_map]
    refine List.forall_mem_cons.mpr ⟨?_, map_everywhere_option ihi hi⟩
    exact h.other _ (by simp) (by simp) hh
  decl d ihd hs := by
    obtain ⟨-, hd⟩ := Statement.everywhere_decl.mp hs
    exact h.statement _ rfl (ihd hd)
  function sp name params body ihb hs := by
    obtain ⟨-, hh, hb⟩ := Statement.everywhere_function.mp hs
    rw [Statement.rewrite, rewriteStatements_eq_map]
    refine h.statement _ rfl (List.forall_mem_cons.mpr ⟨?_, map_everywhere ihb hb⟩)
    refine h.other _ (by simp) (by simp) ?_
    rw [Node.isWritable, names_all]
    exact hh
  block sp body ihb hs := by
    obtain ⟨-, -, hb⟩ := Statement.everywhere_block.mp hs
    rw [Statement.rewrite, rewriteStatements_eq_map]
    refine h.statement _ rfl (List.forall_mem_cons.mpr ⟨?_, map_everywhere ihb hb⟩)
    exact h.other _ (by simp) (by simp) rfl
  ret sp argument iha hs := by
    obtain ⟨-, ha⟩ := Statement.everywhere_ret.mp hs
    rw [Statement.rewrite, rewriteOption_eq_map]
    exact h.statement _ rfl (map_everywhere_option iha ha)
  cond sp test consequent alternate iht ihc iha hs := by
    obtain ⟨hh, ht, hc, ha⟩ := Statement.everywhere_cond.mp hs
    rw [Statement.rewrite, rewriteBranch_eq_map]
    refine h.statement _ ?_ (List.forall_mem_append.mpr
      ⟨List.forall_mem_append.mpr ⟨iht ht, ihc hc⟩, forall_mem_alternateNodes.mpr ?_⟩)
    · rw [Node.isWritable, h.isComment, h.alternate]
      exact hh
    · intro t ht
      obtain ⟨s, hm, rfl⟩ := Option.map_eq_some_iff.mp ht
      exact iha s hm (ha s hm)
  loop sp init test update body ihd ihe iht ihu ihb hs := by
    obtain ⟨hh, ⟨hd, he⟩, ht, hu, hb⟩ := Statement.everywhere_loop.mp hs
    rw [Statement.rewrite, rewriteOption_eq_map, rewriteOption_eq_map]
    have hi : ∀ n ∈ loopInitNodes (rewriteLoopInit w init), q n := by
      cases init with
      | none => exact fun _ hm => absurd hm List.not_mem_nil
      | some i =>
        cases i with
        | decl d => exact ihd d rfl (hd d rfl)
        | expr e => exact ihe e rfl (he e rfl)
    refine h.statement _ ?_ (List.forall_mem_append.mpr ⟨List.forall_mem_append.mpr
      ⟨List.forall_mem_append.mpr ⟨hi, map_everywhere_option iht ht⟩,
        map_everywhere_option ihu hu⟩, ihb hb⟩)
    rw [Node.isWritable, h.isComment]
    exact hh
  expr sp e ihe hs := by
    obtain ⟨-, he⟩ := Statement.everywhere_expr.mp hs
    exact h.statement _ rfl (ihe he)
  comment sp text hs := by
    obtain ⟨-, hh⟩ := Statement.everywhere_comment.mp hs
    exact h.statement _ rfl (List.forall_mem_singleton.mpr (h.other _ (by simp) (by simp) hh))

/-- What is carried on single nodes is carried on programs. -/
theorem program (h : w.Carries number q) {p : Program}
    (hp : p.Everywhere fun n => n.isWritable number = true) : (p.rewrite w).Everywhere q := by
  refine Program.everywhere_iff.mpr fun t ht => ?_
  obtain ⟨s, hm, rfl⟩ := List.mem_map.mp ht
  exact h.tree.all.2.2 s (Program.everywhere_iff.mp hp s hm)

end Carries

/-! ## The two rewritings -/

theorem shaped_explicit : explicit.Shaped where
  target e he := by
    cases e with
    | ident | member | index => rfl
    | _ => exact Bool.noConfusion he
  shape s := by
    cases s with
    | cond sp test consequent alternate => cases alternate <;> rfl
    | _ => rfl

theorem shaped_named : named.Shaped where
  target e he := by
    cases e with
    | ident | member | index => rfl
    | _ => exact Bool.noConfusion he
  shape _ := rfl

theorem everywhere_parensIf {group : Bool} {e : Expr} (he : e.Everywhere Node.IsPlain) :
    (e.parensIf group).Everywhere Node.IsPlain := by
  cases group with
  | false => exact he
  | true => exact Expr.everywhere_paren.mpr ⟨⟨rfl, rfl⟩, he⟩

theorem everywhere_bracesIf {group : Bool} {s : Statement} (hs : s.Everywhere Node.IsPlain) :
    (s.bracesIf group).Everywhere Node.IsPlain := by
  cases group with
  | false => exact hs
  | true =>
    refine Statement.everywhere_block.mpr ⟨⟨rfl, rfl⟩, ⟨rfl, rfl⟩, fun t ht => ?_⟩
    rw [List.mem_singleton.mp ht]
    exact hs

theorem isComment_bracesIf (group : Bool) {s : Statement} (hs : s.isComment = false) :
    (s.bracesIf group).isComment = false := by
  cases group with
  | false => exact hs
  | true => rfl

theorem withParens_plain {e : Expr} (hw : (Node.expr e).isWritable Number.isPlain = true)
    (hp : ∀ n ∈ e.nodes.tail, n.IsPlain) : e.withParens.Everywhere Node.IsPlain := by
  cases e with
  | binary sp op left right =>
    obtain ⟨hl, hr⟩ := List.forall_mem_append.mp hp
    refine Expr.everywhere_binary.mpr ⟨⟨rfl, ?_⟩, everywhere_parensIf hl, everywhere_parensIf hr⟩
    -- an operand in parentheses is grouped by no operator, so none is needed any more
    rw [Node.isExplicit, groupsLeft_parensIf, groupsRight_parensIf]
    rfl
  | call sp callee args =>
    obtain ⟨hc, ha⟩ := List.forall_mem_append.mp hp
    refine Expr.everywhere_call.mpr
      ⟨⟨rfl, ?_⟩, everywhere_parensIf hc, forall_mem_exprsNodes.mp ha⟩
    rw [Node.isExplicit, groupsBeforePostfix_parensIf]
    rfl
  | member sp owner property =>
    refine Expr.everywhere_member.mpr ⟨⟨hw, ?_⟩, everywhere_parensIf hp⟩
    rw [Node.isExplicit, groupsBeforePostfix_parensIf]
    rfl
  | index sp owner key =>
    obtain ⟨ho, hk⟩ := List.forall_mem_append.mp hp
    refine Expr.everywhere_index.mpr ⟨⟨rfl, ?_⟩, everywhere_parensIf ho, hk⟩
    rw [Node.isExplicit, groupsBeforePostfix_parensIf]
    rfl
  | _ => exact List.forall_mem_cons.mpr ⟨⟨hw, rfl⟩, hp⟩

theorem withBraces_plain {s : Statement} (hw : (Node.statement s).isWritable Number.isPlain = true)
    (hp : ∀ n ∈ s.nodes.tail, n.IsPlain) : s.withBraces.Everywhere Node.IsPlain := by
  cases s with
  | cond sp test consequent alternate =>
    cases alternate with
    -- without an `else` there is none to go astray
    | none => exact List.forall_mem_cons.mpr ⟨⟨hw, rfl⟩, hp⟩
    | some a =>
      obtain ⟨htc, ha⟩ := List.forall_mem_append.mp hp
      obtain ⟨ht, hc⟩ := List.forall_mem_append.mp htc
      rw [Node.isWritable, Bool.and_eq_true, Bool.not_eq_true'] at hw
      refine Statement.everywhere_cond.mpr
        ⟨⟨?_, ?_⟩, ht, everywhere_bracesIf hc, forall_mem_alternateNodes.mp ha⟩
      · rw [Node.isWritable, isComment_bracesIf _ hw.1, hw.2]
        rfl
      · rw [Node.isExplicit, endsWithOpenIf_bracesIf]
        rfl
  | expr sp e =>
    refine Statement.everywhere_expr.mpr ⟨⟨rfl, ?_⟩, everywhere_parensIf hp⟩
    rw [Node.isExplicit, startsWithObject_parensIf]
    cases e.startsWithObject <;> rfl
  | _ => exact List.forall_mem_cons.mpr ⟨⟨hw, rfl⟩, hp⟩

/-- Writing down parentheses and braces makes every node plain. -/
theorem explicit_carries : explicit.Carries Number.isPlain Node.IsPlain where
  toShaped := shaped_explicit
  expr _ hw hp := withParens_plain hw hp
  statement _ hw hp := withBraces_plain hw hp
  other n he hs hw := by
    refine ⟨hw, ?_⟩
    cases n with
    | expr e => exact absurd rfl (he e)
    | statement s => exact absurd rfl (hs s)
    | _ => rfl

/-- Naming infinite numbers leaves none but plain numbers. -/
theorem named_carries :
    named.Carries Number.isCount fun n => n.isWritable Number.isPlain = true where
  toShaped := shaped_named
  expr e hw hp := by
    show e.nameInfinite.Everywhere _
    unfold Expr.nameInfinite
    split
    · -- no keyword is spelled like infinity, so its text is a name
      have hname : isName "inf" = true := by decide
      exact Expr.everywhere_ident.mpr ⟨rfl, hname⟩
    · rename_i hne
      rw [Expr.everywhere_iff_tail]
      refine ⟨?_, hp⟩
      cases e with
      | literal sp value =>
        cases value with
        | number x =>
          cases x with
          | nan => exact hw
          | finite negative m => exact hw
          | infinite negative =>
            cases negative with
            | false => exact absurd rfl (hne sp)
            | true => exact hw
        | _ => rfl
      | _ => exact hw
  statement s hw hp := by
    show s.Everywhere _
    rw [Statement.everywhere_iff_tail]
    refine ⟨?_, hp⟩
    cases s <;> exact hw
  other n he hs hw := by
    cases n with
    | expr e => exact absurd rfl (he e)
    | statement s => exact absurd rfl (hs s)
    | decl d => cases d; exact hw
    | _ => exact hw

end Rewriting

theorem Expr.Printable.explicit_plain {e : Expr} (h : e.Printable) :
    (e.rewrite .explicit).Everywhere Node.IsPlain :=
  Rewriting.explicit_carries.tree.all.1 e h

theorem Statement.Printable.explicit_plain {s : Statement} (h : s.Printable) :
    (s.rewrite .explicit).Everywhere Node.IsPlain :=
  Rewriting.explicit_carries.tree.all.2.2 s h

/-- What is printable is plain once its parentheses and braces are written down. -/
theorem Program.Printable.explicit_plain {p : Program} (h : p.Printable) :
    (p.rewrite .explicit).Everywhere Node.IsPlain :=
  Rewriting.explicit_carries.program h

end CurlyScript
