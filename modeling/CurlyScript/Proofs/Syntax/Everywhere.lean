import CurlyScript.Proofs.Syntax.Induction

/-
  Properties that hold everywhere in a tree.

  A condition on trees that can be checked node by node is a predicate on NODES, and a tree meets
  it if every node that a walk comes to does.  The `iff` lemmas open that for each constructor:
  the condition on the node itself, and the trees that stand directly in it.
-/

namespace CurlyScript

/-- Every node of the expression has the property. -/
def Expr.Everywhere (p : Node → Prop) (e : Expr) : Prop := ∀ n ∈ e.nodes, p n

/-- Every node of the declaration has the property. -/
def Decl.Everywhere (p : Node → Prop) (d : Decl) : Prop := ∀ n ∈ d.nodes, p n

/-- Every node of the statement has the property. -/
def Statement.Everywhere (p : Node → Prop) (s : Statement) : Prop := ∀ n ∈ s.nodes, p n

/-- Every node of the program has the property. -/
def Program.Everywhere (p : Node → Prop) (prog : Program) : Prop := ∀ n ∈ prog.nodes, p n

/-- A walk comes to the expression itself, and then to its parts. -/
theorem Expr.everywhere_iff_tail {p : Node → Prop} {e : Expr} :
    e.Everywhere p ↔ p (.expr e) ∧ ∀ n ∈ e.nodes.tail, p n := by
  cases e <;> exact List.forall_mem_cons

/-- A walk comes to the statement itself, and then to its parts. -/
theorem Statement.everywhere_iff_tail {p : Node → Prop} {s : Statement} :
    s.Everywhere p ↔ p (.statement s) ∧ ∀ n ∈ s.nodes.tail, p n := by
  cases s <;> exact List.forall_mem_cons

/-! ## The companions of a walk -/

theorem exprsNodes_eq_flatMap (es : List Expr) : exprsNodes es = es.flatMap Expr.nodes := by
  induction es with
  | nil => rfl
  | cons e es ih => rw [exprsNodes, ih, List.flatMap_cons]

theorem statementsNodes_eq_flatMap (ss : List Statement) :
    statementsNodes ss = ss.flatMap Statement.nodes := by
  induction ss with
  | nil => rfl
  | cons s ss ih => rw [statementsNodes, ih, List.flatMap_cons]

/-- The value of an entry. -/
def Property.value : Property → Expr
  | .mk _ value => value

theorem propertiesNodes_eq_flatMap (ps : List Property) :
    propertiesNodes ps = ps.flatMap fun p => p.value.nodes := by
  induction ps with
  | nil => rfl
  | cons p ps ih =>
    cases p
    rw [propertiesNodes, ih, List.flatMap_cons, Property.value]

variable {p : Node → Prop}

theorem forall_mem_exprsNodes {es : List Expr} :
    (∀ n ∈ exprsNodes es, p n) ↔ ∀ e ∈ es, e.Everywhere p := by
  rw [exprsNodes_eq_flatMap]
  simp only [List.mem_flatMap, Expr.Everywhere]
  exact ⟨fun h e he n hn => h n ⟨e, he, hn⟩, fun h n ⟨e, he, hn⟩ => h e he n hn⟩

theorem forall_mem_statementsNodes {ss : List Statement} :
    (∀ n ∈ statementsNodes ss, p n) ↔ ∀ s ∈ ss, s.Everywhere p := by
  rw [statementsNodes_eq_flatMap]
  simp only [List.mem_flatMap, Statement.Everywhere]
  exact ⟨fun h s hs n hn => h n ⟨s, hs, hn⟩, fun h n ⟨s, hs, hn⟩ => h s hs n hn⟩

theorem forall_mem_optionNodes {o : Option Expr} :
    (∀ n ∈ optionNodes o, p n) ↔ ∀ e ∈ o, e.Everywhere p := by
  cases o with
  | none => simp [optionNodes]
  | some e => simp [optionNodes, Expr.Everywhere]

theorem forall_mem_alternateNodes {o : Option Statement} :
    (∀ n ∈ alternateNodes o, p n) ↔ ∀ s ∈ o, s.Everywhere p := by
  cases o with
  | none => simp [alternateNodes]
  | some s => simp [alternateNodes, Statement.Everywhere]

theorem forall_mem_propertiesNodes {ps : List Property} :
    (∀ n ∈ propertiesNodes ps, p n) ↔ ∀ key value, .mk key value ∈ ps → value.Everywhere p := by
  induction ps with
  | nil => simp [propertiesNodes]
  | cons q ps ih =>
    obtain ⟨k, v⟩ := q
    rw [propertiesNodes, List.forall_mem_append, ih]
    constructor
    · rintro ⟨hv, hps⟩ key value hm
      rcases List.mem_cons.mp hm with hx | hx
      · rw [(Property.mk.inj hx).2]; exact hv
      · exact hps key value hx
    · intro h
      exact ⟨h k v List.mem_cons_self, fun key value hm => h key value (List.mem_cons_of_mem _ hm)⟩

theorem forall_mem_loopInitNodes {i : Option LoopInit} :
    (∀ n ∈ loopInitNodes i, p n) ↔
      (∀ d, i = some (.decl d) → d.Everywhere p) ∧ (∀ e, i = some (.expr e) → e.Everywhere p) := by
  cases i with
  | none => simp [loopInitNodes]
  | some i =>
    cases i with
    | decl d => simp [loopInitNodes, Decl.Everywhere]
    | expr e => simp [loopInitNodes, Expr.Everywhere]

theorem Program.everywhere_iff {prog : Program} :
    prog.Everywhere p ↔ ∀ s ∈ prog, s.Everywhere p :=
  forall_mem_statementsNodes

/-! ## Constructor by constructor

  A walk of a node is the node followed by the walks of its parts, so each `iff` is a split of a
  list into its head and its segments. -/

namespace Expr

variable {s : Span}

@[simp] theorem everywhere_ident {name : String} :
    (ident s name).Everywhere p ↔ p (.expr (ident s name)) ∧ p (.ident s name) :=
  List.forall_mem_cons.trans (and_congr_right fun _ => List.forall_mem_singleton)

@[simp] theorem everywhere_literal {value : Literal} :
    (literal s value).Everywhere p ↔ p (.expr (literal s value)) :=
  List.forall_mem_singleton

@[simp] theorem everywhere_binary {op : BinaryOp} {left right : Expr} :
    (binary s op left right).Everywhere p ↔
      p (.expr (binary s op left right)) ∧ left.Everywhere p ∧ right.Everywhere p :=
  List.forall_mem_cons.trans (and_congr_right fun _ => List.forall_mem_append)

@[simp] theorem everywhere_assign {op : AssignOp} {target value : Expr} :
    (assign s op target value).Everywhere p ↔
      p (.expr (assign s op target value)) ∧ target.Everywhere p ∧ value.Everywhere p :=
  List.forall_mem_cons.trans (and_congr_right fun _ => List.forall_mem_append)

@[simp] theorem everywhere_update {op : UpdateOp} {isPrefix : Bool} {argument : Expr} :
    (update s op isPrefix argument).Everywhere p ↔
      p (.expr (update s op isPrefix argument)) ∧ argument.Everywhere p :=
  List.forall_mem_cons

@[simp] theorem everywhere_call {callee : Expr} {args : List Expr} :
    (call s callee args).Everywhere p ↔
      p (.expr (call s callee args)) ∧ callee.Everywhere p ∧ ∀ a ∈ args, a.Everywhere p :=
  List.forall_mem_cons.trans (and_congr_right fun _ =>
    List.forall_mem_append.trans (and_congr_right fun _ => forall_mem_exprsNodes))

@[simp] theorem everywhere_member {owner : Expr} {property : Name} :
    (member s owner property).Everywhere p ↔
      p (.expr (member s owner property)) ∧ owner.Everywhere p :=
  List.forall_mem_cons

@[simp] theorem everywhere_index {owner key : Expr} :
    (index s owner key).Everywhere p ↔
      p (.expr (index s owner key)) ∧ owner.Everywhere p ∧ key.Everywhere p :=
  List.forall_mem_cons.trans (and_congr_right fun _ => List.forall_mem_append)

@[simp] theorem everywhere_arrow {params : List Name} {body : List Statement} :
    (arrow s params body).Everywhere p ↔
      p (.expr (arrow s params body)) ∧ p (.arrow s params body) ∧
        ∀ t ∈ body, t.Everywhere p :=
  List.forall_mem_cons.trans (and_congr_right fun _ =>
    List.forall_mem_cons.trans (and_congr_right fun _ => forall_mem_statementsNodes))

@[simp] theorem everywhere_object {properties : List Property} :
    (object s properties).Everywhere p ↔
      p (.expr (object s properties)) ∧
        ∀ key value, .mk key value ∈ properties → value.Everywhere p :=
  List.forall_mem_cons.trans (and_congr_right fun _ => forall_mem_propertiesNodes)

@[simp] theorem everywhere_array {elements : List Expr} :
    (array s elements).Everywhere p ↔
      p (.expr (array s elements)) ∧ ∀ e ∈ elements, e.Everywhere p :=
  List.forall_mem_cons.trans (and_congr_right fun _ => forall_mem_exprsNodes)

@[simp] theorem everywhere_paren {inner : Expr} :
    (paren s inner).Everywhere p ↔ p (.expr (paren s inner)) ∧ inner.Everywhere p :=
  List.forall_mem_cons

end Expr

@[simp] theorem Decl.everywhere_mk {s : Span} {kind : DeclKind} {name : Name}
    {init : Option Expr} :
    (Decl.mk s kind name init).Everywhere p ↔
      p (.decl (.mk s kind name init)) ∧ ∀ e ∈ init, e.Everywhere p :=
  List.forall_mem_cons.trans (and_congr_right fun _ => forall_mem_optionNodes)

namespace Statement

variable {s : Span}

@[simp] theorem everywhere_decl {d : Decl} :
    (decl d).Everywhere p ↔ p (.statement (decl d)) ∧ d.Everywhere p :=
  List.forall_mem_cons

@[simp] theorem everywhere_function {name : Name} {params : List Name} {body : List Statement} :
    (function s name params body).Everywhere p ↔
      p (.statement (function s name params body)) ∧ p (.function s name params body) ∧
        ∀ t ∈ body, t.Everywhere p :=
  List.forall_mem_cons.trans (and_congr_right fun _ =>
    List.forall_mem_cons.trans (and_congr_right fun _ => forall_mem_statementsNodes))

@[simp] theorem everywhere_block {body : List Statement} :
    (block s body).Everywhere p ↔
      p (.statement (block s body)) ∧ p (.block body) ∧ ∀ t ∈ body, t.Everywhere p :=
  List.forall_mem_cons.trans (and_congr_right fun _ =>
    List.forall_mem_cons.trans (and_congr_right fun _ => forall_mem_statementsNodes))

@[simp] theorem everywhere_ret {argument : Option Expr} :
    (ret s argument).Everywhere p ↔
      p (.statement (ret s argument)) ∧ ∀ e ∈ argument, e.Everywhere p :=
  List.forall_mem_cons.trans (and_congr_right fun _ => forall_mem_optionNodes)

@[simp] theorem everywhere_cond {test : Expr} {consequent : Statement}
    {alternate : Option Statement} :
    (cond s test consequent alternate).Everywhere p ↔
      p (.statement (cond s test consequent alternate)) ∧ test.Everywhere p ∧
        consequent.Everywhere p ∧ ∀ a ∈ alternate, a.Everywhere p := by
  refine List.forall_mem_cons.trans (and_congr_right fun _ => ?_)
  refine List.forall_mem_append.trans (Iff.trans ?_ and_assoc)
  exact and_congr List.forall_mem_append forall_mem_alternateNodes

@[simp] theorem everywhere_loop {init : Option LoopInit} {test update : Option Expr}
    {body : Statement} :
    (loop s init test update body).Everywhere p ↔
      p (.statement (loop s init test update body)) ∧
        ((∀ d, init = some (.decl d) → d.Everywhere p) ∧
          (∀ e, init = some (.expr e) → e.Everywhere p)) ∧
        (∀ e ∈ test, e.Everywhere p) ∧ (∀ e ∈ update, e.Everywhere p) ∧ body.Everywhere p := by
  refine List.forall_mem_cons.trans (and_congr_right fun _ => ?_)
  have hhead := List.forall_mem_append.trans
    (and_congr (forall_mem_loopInitNodes (p := p) (i := init))
      (forall_mem_optionNodes (p := p) (o := test)))
  have hupdate := List.forall_mem_append.trans
    (and_congr hhead (forall_mem_optionNodes (p := p) (o := update)))
  have hbody : (∀ n ∈ body.nodes, p n) ↔ body.Everywhere p := Iff.rfl
  exact (List.forall_mem_append.trans (and_congr hupdate hbody)).trans
    (and_assoc.trans and_assoc)

@[simp] theorem everywhere_expr {e : Expr} :
    (expr s e).Everywhere p ↔ p (.statement (expr s e)) ∧ e.Everywhere p :=
  List.forall_mem_cons

@[simp] theorem everywhere_comment {text : String} :
    (comment s text).Everywhere p ↔ p (.statement (comment s text)) ∧ p (.comment s text) :=
  List.forall_mem_cons.trans (and_congr_right fun _ => List.forall_mem_singleton)

end Statement

end CurlyScript
