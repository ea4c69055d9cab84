import CurlyScript.Proofs.Syntax.Lines

/-
  The words of a tree: the kinds of its declarations and its values, in the order of the text.

  They are what a tree says besides names.  A rewriting that changes no words of a node changes
  none of a tree (`Speaks.program`); spans, parentheses, braces and comments are no words.
-/

namespace CurlyScript

/-- The kind of a declaration, or a value. -/
inductive Word where
  | declares (kind : DeclKind)
  | value (l : Literal)
deriving DecidableEq, Repr

/-- The word of a node. -/
def Node.word? : Node → Option Word
  | .decl (.mk _ kind _ _) => some (.declares kind)
  | .expr (.literal _ value) => some (.value value)
  | _ => none

/-- Whether a word is no number that is too large for any. -/
def Word.isFinite : Word → Bool
  | .value (.number x) => x.isFinite
  | _ => true

/-- The words of an expression. -/
def Expr.words (e : Expr) : List Word := e.nodes.filterMap Node.word?

/-- The words of a declaration. -/
def Decl.words (d : Decl) : List Word := d.nodes.filterMap Node.word?

/-- The words of a statement. -/
def Statement.words (s : Statement) : List Word := s.nodes.filterMap Node.word?

/-- The words of a program. -/
def Program.words (p : Program) : List Word := p.nodes.filterMap Node.word?

namespace Rewriting

/-- A rewriting that changes no words of a node. -/
structure Speaks (w : Rewriting) : Prop where
  expr : ∀ e, (w.expr e).words = e.words
  statement : ∀ s, (w.statement s).words = s.words

section companions

variable {w : Rewriting}

theorem words_append {ns ns' ms ms' : List Node}
    (hn : ns.filterMap Node.word? = ns'.filterMap Node.word?)
    (hm : ms.filterMap Node.word? = ms'.filterMap Node.word?) :
    (ns ++ ms).filterMap Node.word? = (ns' ++ ms').filterMap Node.word? := by
  rw [List.filterMap_append, List.filterMap_append, hn, hm]

theorem words_exprs {es : List Expr} (h : ∀ e ∈ es, (e.rewrite w).words = e.words) :
    (exprsNodes (rewriteExprs w es)).filterMap Node.word? =
      (exprsNodes es).filterMap Node.word? := by
  induction es with
  | nil => rfl
  | cons e es ih =>
    exact words_append (h e List.mem_cons_self) (ih fun x hx => h x (List.mem_cons_of_mem e hx))

theorem words_statements {ss : List Statement} (h : ∀ s ∈ ss, (s.rewrite w).words = s.words) :
    (statementsNodes (rewriteStatements w ss)).filterMap Node.word? =
      (statementsNodes ss).filterMap Node.word? := by
  induction ss with
  | nil => rfl
  | cons s ss ih =>
    exact words_append (h s List.mem_cons_self) (ih fun x hx => h x (List.mem_cons_of_mem s hx))

theorem words_option {o : Option Expr} (h : ∀ e ∈ o, (e.rewrite w).words = e.words) :
    (optionNodes (rewriteOption w o)).filterMap Node.word? =
      (optionNodes o).filterMap Node.word? := by
  cases o with
  | none => rfl
  | some e => exact h e rfl

theorem words_properties {ps : List Property}
    (h : ∀ key value, .mk key value ∈ ps → (value.rewrite w).words = value.words) :
    (propertiesNodes (rewriteProperties w ps)).filterMap Node.word? =
      (propertiesNodes ps).filterMap Node.word? := by
  induction ps with
  | nil => rfl
  | cons p ps ih =>
    obtain ⟨key, value⟩ := p
    exact words_append (h key value List.mem_cons_self)
      (ih fun k v hm => h k v (List.mem_cons_of_mem _ hm))

end companions

variable {w : Rewriting}

/-- What changes no words of a node changes none of a tree. -/
theorem Speaks.tree (h : w.Speaks) :
    Syntax.Cases (fun e => (e.rewrite w).words = e.words) (fun d => (d.rewrite w).words = d.words)
      (fun s => (s.rewrite w).words = s.words) where
  ident sp name := (h.expr _).trans rfl
  literal sp value := (h.expr _).trans rfl
  binary sp op left right hl hr := (h.expr _).trans (words_append hl hr)
  assign sp op target value ht hv := (h.expr _).trans (words_append ht hv)
  update sp op isPrefix argument ha := (h.expr _).trans ha
  call sp callee args hc ha := (h.expr _).trans (words_append hc (words_exprs ha))
  member sp owner property ho := (h.expr _).trans ho
  index sp owner key ho hk := (h.expr _).trans (words_append ho hk)
  arrow sp params body hb := (h.expr _).trans (words_statements hb)
  object sp properties hp := (h.expr _).trans (words_properties hp)
  array sp elements he := (h.expr _).trans (words_exprs he)
  paren sp inner hi := (h.expr _).trans hi
  declaration sp kind name init hi := congrArg (Word.declares kind :: ·) (words_option hi)
  decl d hd := (h.statement _).trans hd
  function sp name params body hb := (h.statement _).trans (words_statements hb)
  block sp body hb := (h.statement _).trans (words_statements hb)
  ret sp argument ha := (h.statement _).trans (words_option ha)
  cond sp test consequent alternate ht hc ha := by
    refine (h.statement _).trans (words_append (words_append ht hc) ?_)
    cases alternate with
    | none => rfl
    | some s => exact ha s rfl
  loop sp init test update body hd he ht hu hb := by
    refine (h.statement _).trans (words_append (words_append (words_append ?_
      (words_option ht)) (words_option hu)) hb)
    match init with
    | none => rfl
    | some (.decl d) => exact hd d rfl
    | some (.expr e) => exact he e rfl
  expr sp e he := (h.statement _).trans he
  comment sp text := (h.statement _).trans rfl

/-- What changes no words of a node changes none of a program. -/
theorem Speaks.program (h : w.Speaks) (p : Program) : (p.rewrite w).words = p.words := by
  have hs := @words_statements w p fun s _ => h.tree.all.2.2 s
  rw [rewriteStatements_eq_map] at hs
  exact hs

/-! ## Rewritings that change no words -/

theorem speaks_unspanned : unspanned.Speaks := ⟨fun _ => rfl, fun _ => rfl⟩

theorem words_parensIf (group : Bool) (e : Expr) : (e.parensIf group).words = e.words := by
  cases group <;> rfl

theorem words_bracesIf (group : Bool) (s : Statement) : (s.bracesIf group).words = s.words := by
  cases group with
  | false => rfl
  | true =>
    show (s.nodes ++ []).filterMap Node.word? = s.nodes.filterMap Node.word?
    rw [List.append_nil]

theorem speaks_explicit : explicit.Speaks where
  expr e := by
    cases e with
    | binary sp op left right =>
      exact words_append (words_parensIf _ left) (words_parensIf _ right)
    | call sp callee args => exact words_append (words_parensIf _ callee) rfl
    | member sp owner property => exact words_parensIf _ owner
    | index sp owner key => exact words_append (words_parensIf _ owner) rfl
    | _ => rfl
  statement s := by
    cases s with
    | cond sp test consequent alternate =>
      cases alternate with
      | none => rfl
      | some a => exact words_append (words_append rfl (words_bracesIf _ consequent)) rfl
    | expr sp e => exact words_parensIf _ e
    | _ => rfl

/-- Comments have no words. -/
theorem words_filter (ss : List Statement) :
    (statementsNodes (ss.filter fun s => !s.isComment)).filterMap Node.word? =
      (statementsNodes ss).filterMap Node.word? := by
  induction ss with
  | nil => rfl
  | cons s ss ih =>
    cases s with
    | comment sp text => exact ih
    | _ => exact words_append rfl ih

theorem speaks_uncommented : uncommented.Speaks where
  expr e := by
    cases e with
    | arrow sp params body => exact words_filter body
    | _ => rfl
  statement s := by
    cases s with
    | function sp name params body => exact words_filter body
    | block sp body => exact words_filter body
    | _ => rfl

end Rewriting

theorem Program.words_uncommented (p : Program) : p.uncommented.words = p.words :=
  (Rewriting.words_filter _).trans (Rewriting.speaks_uncommented.program p)

end CurlyScript
