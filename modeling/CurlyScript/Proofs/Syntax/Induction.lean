import CurlyScript.Syntax.Walk

/-
  Induction over trees.

  Expressions and statements contain each other, in lists, in options and at the head of loops.
  `Cases` says ONCE what has to be shown of each kind of node, with the hypotheses on everything
  that the node holds; `Cases.all` then gives the property for all trees.  The companions of a
  recursion over trees (one for lists, one for options, ...) are maps in disguise, so a proof
  by `Cases` never needs companions of its own.
-/

namespace CurlyScript.Syntax

/-- What has to be shown of each kind of node: the property holds of a node if it holds of the
    expressions, declarations and statements that stand directly in it. -/
structure Cases (PE : Expr → Prop) (PD : Decl → Prop) (PS : Statement → Prop) : Prop where
  ident : ∀ sp name, PE (.ident sp name)
  literal : ∀ sp value, PE (.literal sp value)
  binary : ∀ sp op left right, PE left → PE right → PE (.binary sp op left right)
  assign : ∀ sp op target value, PE target → PE value → PE (.assign sp op target value)
  update : ∀ sp op isPrefix argument, PE argument → PE (.update sp op isPrefix argument)
  call : ∀ sp callee args, PE callee → (∀ a ∈ args, PE a) → PE (.call sp callee args)
  member : ∀ sp owner property, PE owner → PE (.member sp owner property)
  index : ∀ sp owner key, PE owner → PE key → PE (.index sp owner key)
  arrow : ∀ sp params body, (∀ s ∈ body, PS s) → PE (.arrow sp params body)
  object : ∀ sp properties, (∀ key value, .mk key value ∈ properties → PE value) →
    PE (.object sp properties)
  array : ∀ sp elements, (∀ e ∈ elements, PE e) → PE (.array sp elements)
  paren : ∀ sp inner, PE inner → PE (.paren sp inner)
  declaration : ∀ sp kind name init, (∀ e ∈ init, PE e) → PD (.mk sp kind name init)
  decl : ∀ d, PD d → PS (.decl d)
  function : ∀ sp name params body, (∀ s ∈ body, PS s) → PS (.function sp name params body)
  block : ∀ sp body, (∀ s ∈ body, PS s) → PS (.block sp body)
  ret : ∀ sp argument, (∀ e ∈ argument, PE e) → PS (.ret sp argument)
  cond : ∀ sp test consequent alternate, PE test → PS consequent → (∀ s ∈ alternate, PS s) →
    PS (.cond sp test consequent alternate)
  loop : ∀ sp init test update body, (∀ d, init = some (.decl d) → PD d) →
    (∀ e, init = some (.expr e) → PE e) → (∀ e ∈ test, PE e) → (∀ e ∈ update, PE e) →
    PS body → PS (.loop sp init test update body)
  expr : ∀ sp e, PE e → PS (.expr sp e)
  comment : ∀ sp text, PS (.comment sp text)

namespace Cases

variable {PE : Expr → Prop} {PD : Decl → Prop} {PS : Statement → Prop}

mutual

theorem exprAll (h : Cases PE PD PS) : ∀ e, PE e
  | .ident sp name => h.ident sp name
  | .literal sp value => h.literal sp value
  | .binary sp op left right => h.binary sp op left right (h.exprAll left) (h.exprAll right)
  | .assign sp op target value => h.assign sp op target value (h.exprAll target) (h.exprAll value)
  | .update sp op isPrefix argument => h.update sp op isPrefix argument (h.exprAll argument)
  | .call sp callee args => h.call sp callee args (h.exprAll callee) (h.listAll args)
  | .member sp owner property => h.member sp owner property (h.exprAll owner)
  | .index sp owner key => h.index sp owner key (h.exprAll owner) (h.exprAll key)
  | .arrow sp params body => h.arrow sp params body (h.bodyAll body)
  | .object sp properties => h.object sp properties (h.propertyAll properties)
  | .array sp elements => h.array sp elements (h.listAll elements)
  | .paren sp inner => h.paren sp inner (h.exprAll inner)

theorem listAll (h : Cases PE PD PS) : ∀ (es : List Expr), ∀ e ∈ es, PE e
  | [], _, hm => absurd hm List.not_mem_nil
  | e :: es, x, hm => by
    rcases List.mem_cons.mp hm with hx | hx
    · rw [hx]; exact h.exprAll e
    · exact h.listAll es x hx

theorem optionAll (h : Cases PE PD PS) : ∀ (o : Option Expr), ∀ e ∈ o, PE e
  | none, _, hm => nomatch hm
  | some e, x, hm => by rw [← Option.some.inj hm]; exact h.exprAll e

theorem propertyAll (h : Cases PE PD PS) :
    ∀ (ps : List Property) (key : Name) (value : Expr), .mk key value ∈ ps → PE value
  | [], _, _, hm => absurd hm List.not_mem_nil
  | .mk k v :: ps, key, value, hm => by
    rcases List.mem_cons.mp hm with hx | hx
    · rw [(Property.mk.inj hx).2]; exact h.exprAll v
    · exact h.propertyAll ps key value hx

theorem declAll (h : Cases PE PD PS) : ∀ d, PD d
  | .mk sp kind name init => h.declaration sp kind name init (h.optionAll init)

theorem headAll (h : Cases PE PD PS) : ∀ (i : Option LoopInit),
    (∀ d, i = some (.decl d) → PD d) ∧ (∀ e, i = some (.expr e) → PE e)
  | none => ⟨fun _ hm => absurd hm (by simp), fun _ hm => absurd hm (by simp)⟩
  | some (.decl d) => by
    refine ⟨fun x hm => ?_, fun _ hm => absurd hm (by simp)⟩
    rw [← LoopInit.decl.inj (Option.some.inj hm)]
    exact h.declAll d
  | some (.expr e) => by
    refine ⟨fun _ hm => absurd hm (by simp), fun x hm => ?_⟩
    rw [← LoopInit.expr.inj (Option.some.inj hm)]
    exact h.exprAll e

theorem statementAll (h : Cases PE PD PS) : ∀ s, PS s
  | .decl d => h.decl d (h.declAll d)
  | .function sp name params body => h.function sp name params body (h.bodyAll body)
  | .block sp body => h.block sp body (h.bodyAll body)
  | .ret sp argument => h.ret sp argument (h.optionAll argument)
  | .cond sp test consequent alternate =>
    h.cond sp test consequent alternate (h.exprAll test) (h.statementAll consequent)
      (h.branchAll alternate)
  | .loop sp init test update body =>
    h.loop sp init test update body (h.headAll init).1 (h.headAll init).2 (h.optionAll test)
      (h.optionAll update) (h.statementAll body)
  | .expr sp e => h.expr sp e (h.exprAll e)
  | .comment sp text => h.comment sp text

theorem branchAll (h : Cases PE PD PS) : ∀ (o : Option Statement), ∀ s ∈ o, PS s
  | none, _, hm => nomatch hm
  | some s, x, hm => by rw [← Option.some.inj hm]; exact h.statementAll s

theorem bodyAll (h : Cases PE PD PS) : ∀ (ss : List Statement), ∀ s ∈ ss, PS s
  | [], _, hm => absurd hm List.not_mem_nil
  | s :: ss, x, hm => by
    rcases List.mem_cons.mp hm with hx | hx
    · rw [hx]; exact h.statementAll s
    · exact h.bodyAll ss x hx

end

/-- **Induction over trees.** -/
theorem all (h : Cases PE PD PS) : (∀ e, PE e) ∧ (∀ d, PD d) ∧ (∀ s, PS s) :=
  ⟨h.exprAll, h.declAll, h.statementAll⟩

end Cases

end CurlyScript.Syntax
