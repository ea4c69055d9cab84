import CurlyScript.Proofs.Layout.Generated

/-
  What is named when there is no flat text.

  A generator gives up at the first node of a shape that has no flat text, in the order in which it
  looks at the nodes.  That is NOT the order of the text: of an `if` the first branch comes before
  the test.  But it is an order of the same nodes, with the same first one to refuse unless there is
  an `if` with something to refuse in its test and in its first branch both
  (`Program.generate_refuses`).
-/

namespace CurlyScript

/-! ## The order of the text -/

/-- Of an `if`, the test or the first branch has nothing that is refused. -/
def Node.IsOrderly : Node → Prop
  | .statement (.cond _ test consequent _) =>
    (∀ n ∈ test.nodes, n.refused? = none) ∨ ∀ n ∈ consequent.nodes, n.refused? = none
  | _ => True

/-- Two lists of nodes of which the same is found first. -/
def SameFirst (ms ns : List Node) : Prop :=
  ms.findSome? Node.refused? = ns.findSome? Node.refused?

theorem SameFirst.append {ms ns ms' ns' : List Node} (h : SameFirst ms ns)
    (h' : SameFirst ms' ns') : SameFirst (ms ++ ms') (ns ++ ns') := by
  rw [SameFirst, List.findSome?_append, List.findSome?_append, h, h']

theorem SameFirst.swap {ms ns : List Node}
    (h : (∀ n ∈ ms, n.refused? = none) ∨ ∀ n ∈ ns, n.refused? = none) :
    SameFirst (ms ++ ns) (ns ++ ms) := by
  rw [SameFirst, List.findSome?_append, List.findSome?_append]
  obtain h | h := h
  · rw [List.findSome?_eq_none_iff.mpr h, Option.none_or, Option.or_none]
  · rw [List.findSome?_eq_none_iff.mpr h, Option.none_or, Option.or_none]

theorem SameFirst.cons (n : Node) {ms ns : List Node} (h : SameFirst ms ns) :
    SameFirst (n :: ms) (n :: ns) :=
  .append (show SameFirst [n] [n] from rfl) h

/-- An order of nodes that has the nodes of another order, and the same first find wherever no `if`
    tells the two apart. -/
structure Reorders (ms ns : List Node) : Prop where
  perm : ms.Perm ns
  first : (∀ n ∈ ns, n.IsOrderly) → SameFirst ms ns

namespace Reorders

theorem refl (ns : List Node) : Reorders ns ns := ⟨.refl ns, fun _ => rfl⟩

theorem append {ms ns ms' ns' : List Node} (h : Reorders ms ns) (h' : Reorders ms' ns') :
    Reorders (ms ++ ms') (ns ++ ns') where
  perm := h.perm.append h'.perm
  first hall := by
    obtain ⟨hns, hns'⟩ := List.forall_mem_append.mp hall
    exact (h.first hns).append (h'.first hns')

theorem cons (n : Node) {ms ns : List Node} (h : Reorders ms ns) : Reorders (n :: ms) (n :: ns) :=
  (refl [n]).append h

theorem statements {ss : List Statement} (h : ∀ s ∈ ss, Reorders s.visits s.nodes) :
    Reorders (statementsVisits ss) (statementsNodes ss) := by
  induction ss with
  | nil => exact refl []
  | cons s ss ih =>
    exact (h s List.mem_cons_self).append (ih fun x hx => h x (List.mem_cons_of_mem s hx))

theorem alternate {o : Option Statement} (h : ∀ s ∈ o, Reorders s.visits s.nodes) :
    Reorders (alternateVisits o) (alternateNodes o) := by
  cases o with
  | none => exact refl []
  | some s => exact h s rfl

end Reorders

/-- The two orders of the nodes of a tree. -/
theorem reorders_tree : Syntax.Cases (fun _ => True) (fun _ => True)
    (fun s => Reorders s.visits s.nodes) where
  ident _ _ := trivial
  literal _ _ := trivial
  binary _ _ _ _ _ _ := trivial
  assign _ _ _ _ _ _ := trivial
  update _ _ _ _ _ := trivial
  call _ _ _ _ _ := trivial
  member _ _ _ _ := trivial
  index _ _ _ _ _ := trivial
  arrow _ _ _ _ := trivial
  object _ _ _ := trivial
  array _ _ _ := trivial
  paren _ _ _ := trivial
  declaration _ _ _ _ _ := trivial
  decl d _ := .refl _
  function sp name params body ihb := ((Reorders.statements ihb).cons _).cons _
  block sp body ihb := ((Reorders.statements ihb).cons _).cons _
  ret _ _ _ := .refl _
  cond sp test consequent alternate _ ihc iha := by
    have hrest := Reorders.alternate iha
    have hparts := ((Reorders.refl test.nodes).append ihc).append hrest
    refine ⟨((List.perm_append_comm.append_right _).trans hparts.perm).cons _, fun hall => ?_⟩
    obtain ⟨hcond, hall⟩ := List.forall_mem_cons.mp hall
    obtain ⟨hfront, halternate⟩ := List.forall_mem_append.mp hall
    obtain ⟨-, hconsequent⟩ := List.forall_mem_append.mp hfront
    -- first the branch gets the order of the text, and then it changes places with the test
    have hbranch : SameFirst (consequent.visits ++ test.nodes) (consequent.nodes ++ test.nodes) :=
      (ihc.first hconsequent).append rfl
    have hplaces : SameFirst (consequent.visits ++ test.nodes) (test.nodes ++ consequent.nodes) :=
      hbranch.trans (SameFirst.swap (Or.comm.mp hcond))
    exact (hplaces.append (hrest.first halternate)).cons _
  loop sp init test update body _ _ _ _ ihb := ((Reorders.refl _).append ihb).cons _
  expr _ _ _ := .refl _
  comment _ _ := .refl _

theorem Program.reorders (p : Program) : Reorders p.visits p.nodes :=
  .statements fun s _ => reorders_tree.all.2.2 s

/-! ## Programs -/

/-- There is a flat text just if no node is refused. -/
theorem Program.exists_generate_eq_ok {p : Program} :
    (∃ code, p.generate = .ok code) ↔ ∀ n ∈ p.nodes, n.refused? = none := by
  have hsame : (∀ n ∈ p.visits, n.refused? = none) ↔ ∀ n ∈ p.nodes, n.refused? = none :=
    forall_congr' fun n => imp_congr_left p.reorders.perm.mem_iff
  rw [generate_eq, outcome, ← hsame, ← List.findSome?_eq_none_iff]
  cases p.visits.findSome? Node.refused? with
  | none => exact ⟨fun _ => rfl, fun _ => ⟨_, rfl⟩⟩
  | some shape =>
    constructor
    · rintro ⟨code, ⟨⟩⟩
    · rintro ⟨⟩

/-- There is none just if something is found, and that is named. -/
theorem Program.generate_eq_error {p : Program} {shape : Shape} :
    p.generate = .error ⟨shape⟩ ↔ p.visits.findSome? Node.refused? = some shape := by
  rw [generate_eq, outcome]
  cases p.visits.findSome? Node.refused? with
  | none =>
    constructor
    · rintro ⟨⟩
    · rintro ⟨⟩
  | some first =>
    rw [Except.error.injEq, Unsupported.mk.injEq, Option.some.injEq]

/-- **What is named when there is no flat text.**  There is one just if no node is refused.  Else
    the first node is named that is refused, but of an `if` the first branch is looked at before the
    test; so it is the first in the order of the text unless an `if` has such nodes in both. -/
theorem Program.generate_refuses (p : Program) :
    ((∃ code, p.generate = .ok code) ↔ ∀ n ∈ p.nodes, n.refused? = none) ∧
    (∀ shape, p.generate = .error ⟨shape⟩ ↔ p.visits.findSome? Node.refused? = some shape) ∧
    p.visits.Perm p.nodes ∧
    ((∀ n ∈ p.nodes, n.IsOrderly) →
      ∀ shape, p.generate = .error ⟨shape⟩ ↔ p.nodes.findSome? Node.refused? = some shape) := by
  refine ⟨exists_generate_eq_ok, fun shape => generate_eq_error, p.reorders.perm,
    fun hall shape => ?_⟩
  rw [generate_eq_error, p.reorders.first hall]

/-- A program that calls a function if a name is true. -/
def callIf : Program :=
  [.cond .none (.ident .none "a") (.expr .none (.call .none (.ident .none "f") [])) none]

theorem Program.generate_refuses_callIf : (∀ n ∈ callIf.nodes, n.IsOrderly) ∧
    callIf.generate = .error ⟨.callExpression⟩ := by
  have horderly : ∀ n ∈ callIf.nodes, n.IsOrderly := by
    refine Program.everywhere_iff.mpr fun s hs => ?_
    rw [List.mem_singleton.mp hs, Statement.everywhere_cond]
    refine ⟨.inl (by decide), ?_⟩
    simp [Node.IsOrderly]
  exact ⟨horderly, ((Program.generate_refuses callIf).2.2.2 horderly _).mpr rfl⟩

/-- A program that takes a member if a call gives true, `if (f()) a.b;`. -/
def memberIf : Program :=
  [.cond .none (.call .none (.ident .none "f") [])
    (.expr .none (.member .none (.ident .none "a") ⟨"b", .none⟩)) none]

/-- The call comes first in the text, and the member is named. -/
theorem Program.generate_names_branch :
    memberIf.generate = .error ⟨.memberExpression⟩ ∧
    memberIf.nodes.findSome? Node.refused? = some .callExpression :=
  ⟨rfl, rfl⟩

end CurlyScript
