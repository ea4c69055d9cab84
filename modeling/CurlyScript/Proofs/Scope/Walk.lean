import CurlyScript.Proofs.Scope.Sites
import CurlyScript.Proofs.Syntax.Everywhere

/-
  Outlines are walked in the order of the text.

  A walk comes to the nodes of a tree, each before its children.  A node declares or uses names of
  its own, and it may open a scope: then the nodes inside it follow at once, and so do they in the
  outline (`Walks`).  That the nodes of a program are walked as its outline says is the one
  induction over trees (`Program.walks`); the rest is by induction on the walk.
-/

namespace CurlyScript

namespace Node

/-- The scope that a node opens. -/
def scope? : Node → Option ScopeKind
  | .function _ _ _ _ => some .function
  | .arrow _ _ _ => some .arrow
  | .block _ => some .block
  | _ => none

/-- The nodes inside a node that opens a scope. -/
def inner : Node → List Node
  | .function _ _ _ body | .arrow _ _ body | .block body => statementsNodes body
  | _ => []

/-- What a node itself declares or uses in the scope that it stands in. -/
def outside : Node → List Outline
  | .decl (.mk _ _ name _) => [.declaration name .var]
  | .function _ name _ _ => [.declaration name .function]
  | .ident s name => [.use name s.start]
  | _ => []

/-- What a node declares in the scope that it opens. -/
def params : Node → List Name
  | .function _ _ params _ | .arrow _ params _ => params
  | _ => []

end Node

/-! ## Walks -/

/-- The outline of nodes in the order of a walk.  A node that opens a scope is followed by the nodes
    inside it. -/
inductive Walks : List Node → List Outline → Prop where
  | nil : Walks [] []
  | plain {n : Node} {ns : List Node} {os : List Outline} : n.scope? = none → Walks ns os →
    Walks (n :: ns) (n.outside ++ os)
  | construct {n : Node} {kind : ScopeKind} {ns : List Node} {inner os : List Outline} :
    n.scope? = some kind → Walks n.inner inner → Walks ns os →
    Walks (n :: (n.inner ++ ns))
      (n.outside ++ .construct kind (paramsOutline n.params ++ inner) :: os)

namespace Walks

theorem append {ns ms : List Node} {os os' : List Outline} (h : Walks ns os) (h' : Walks ms os') :
    Walks (ns ++ ms) (os ++ os') := by
  induction h with
  | nil => exact h'
  | plain hn _ ih =>
    rw [List.cons_append, List.append_assoc]
    exact .plain hn ih
  | construct hn hinner _ _ ih =>
    rw [List.cons_append, List.append_assoc, List.append_assoc, List.cons_append]
    exact .construct hn hinner ih

/-- A node that opens a scope, with nothing after it. -/
theorem scope {n : Node} {kind : ScopeKind} {inner : List Outline} (hn : n.scope? = some kind)
    (h : Walks n.inner inner) :
    Walks (n :: n.inner) (n.outside ++ [.construct kind (paramsOutline n.params ++ inner)]) := by
  have hwalk := construct hn h nil
  rwa [List.append_nil] at hwalk

theorem exprs {es : List Expr} (h : ∀ e ∈ es, Walks e.nodes e.outline) :
    Walks (exprsNodes es) (exprsOutline es) := by
  induction es with
  | nil => exact nil
  | cons e es ih =>
    rw [exprsOutline, exprsNodes]
    exact (h e List.mem_cons_self).append (ih fun x hx => h x (List.mem_cons_of_mem e hx))

theorem statements {ss : List Statement} (h : ∀ s ∈ ss, Walks s.nodes s.outline) :
    Walks (statementsNodes ss) (statementsOutline ss) := by
  induction ss with
  | nil => exact nil
  | cons s ss ih =>
    rw [statementsOutline, statementsNodes]
    exact (h s List.mem_cons_self).append (ih fun x hx => h x (List.mem_cons_of_mem s hx))

theorem properties {ps : List Property}
    (h : ∀ key value, .mk key value ∈ ps → Walks value.nodes value.outline) :
    Walks (propertiesNodes ps) (propertiesOutline ps) := by
  induction ps with
  | nil => exact nil
  | cons p ps ih =>
    obtain ⟨key, value⟩ := p
    rw [propertiesOutline, propertiesNodes]
    exact (h key value List.mem_cons_self).append
      (ih fun k v hm => h k v (List.mem_cons_of_mem _ hm))

theorem option {o : Option Expr} (h : ∀ e ∈ o, Walks e.nodes e.outline) :
    Walks (optionNodes o) (optionOutline o) := by
  cases o with
  | none => exact nil
  | some e => exact h e rfl

/-- The nodes of a tree are walked as its outline says. -/
theorem tree : Syntax.Cases (fun e => Walks e.nodes e.outline) (fun d => Walks d.nodes d.outline)
    (fun s => Walks s.nodes s.outline) where
  ident _ _ := plain rfl (plain rfl nil)
  literal _ _ := plain rfl nil
  binary sp op left right hl hr := by
    rw [Expr.outline, Expr.nodes]
    exact plain rfl (hl.append hr)
  assign sp op target value ht hv := by
    rw [Expr.outline, Expr.nodes]
    exact plain rfl (ht.append hv)
  update sp op isPrefix argument ha := by
    rw [Expr.outline, Expr.nodes]
    exact plain rfl ha
  call sp callee args hc ha := by
    rw [Expr.outline, Expr.nodes]
    exact plain rfl (hc.append (exprs ha))
  member sp owner property ho := by
    rw [Expr.outline, Expr.nodes]
    exact plain rfl ho
  index sp owner key ho hk := by
    rw [Expr.outline, Expr.nodes]
    exact plain rfl (ho.append hk)
  arrow sp params body hb := by
    rw [Expr.outline, Expr.nodes]
    have hnode : (Node.arrow sp params body).scope? = some .arrow := rfl
    exact plain rfl (scope hnode (statements hb))
  object sp ps hp := by
    rw [Expr.outline, Expr.nodes]
    exact plain rfl (properties hp)
  array sp elements he := by
    rw [Expr.outline, Expr.nodes]
    exact plain rfl (exprs he)
  paren sp inner hi := by
    rw [Expr.outline, Expr.nodes]
    exact plain rfl hi
  declaration sp kind name init hi := by
    rw [Decl.outline, Decl.nodes]
    have hnode : (Node.decl (.mk sp kind name init)).scope? = none := rfl
    exact plain hnode (option hi)
  decl d hd := by
    rw [Statement.outline, Statement.nodes]
    exact plain rfl hd
  function sp name params body hb := by
    rw [Statement.outline, Statement.nodes]
    have hnode : (Node.function sp name params body).scope? = some .function := rfl
    exact plain rfl (scope hnode (statements hb))
  block sp body hb := by
    rw [Statement.outline, Statement.nodes]
    have hnode : (Node.block body).scope? = some .block := rfl
    exact plain rfl (scope hnode (statements hb))
  ret sp argument ha := by
    rw [Statement.outline, Statement.nodes]
    exact plain rfl (option ha)
  cond sp test consequent alternate ht hc ha := by
    have halternate : Walks (alternateNodes alternate) (alternateOutline alternate) := by
      cases alternate with
      | none => exact nil
      | some s => exact ha s rfl
    rw [Statement.outline, Statement.nodes]
    exact plain rfl ((ht.append hc).append halternate)
  loop sp init test update body hd he ht hu hb := by
    have hinit : Walks (loopInitNodes init) (loopInitOutline init) := by
      cases init with
      | none => exact nil
      | some i =>
        cases i with
        | decl d => exact hd d rfl
        | expr e => exact he e rfl
    rw [Statement.outline, Statement.nodes]
    exact plain rfl (((hinit.append (option ht)).append (option hu)).append hb)
  expr sp e he := by
    rw [Statement.outline, Statement.nodes]
    exact plain rfl he
  comment sp text := by
    rw [Statement.outline, Statement.nodes]
    exact plain rfl (plain rfl nil)

end Walks

/-- **A program is walked as its outline says.** -/
theorem Program.walks (p : Program) : Walks p.nodes p.outline :=
  Walks.statements fun s _ => Walks.tree.all.2.2 s

end CurlyScript
