import CurlyScript.Proofs.Layout.Alike
import CurlyScript.Proofs.Syntax.Everywhere

/-
  Flat texts are layouts.

  Two recursions write programs down.  `Program.format` makes pieces and renders them, with margins
  and in a style; `Program.generate` joins strings, and gives up at the first node of a shape that
  has no flat text.  What the second gives of a tree is said here in the words of the first
  (`generated_tree`): the shape of the first node that is refused, in the order in which nodes are
  looked at, or else the text of the layout in a style that puts nothing at the margin.
-/

namespace CurlyScript

/-! ## The style of a flat text -/

/-- The style of a flat text: every line at the margin, every literal on one line, and the braces of
    an empty block on two. -/
def Style.flat : Style := ⟨0, true, true, false, true⟩

/-- What a piece adds to a text without margins. -/
def Piece.flat : Piece → String
  | .text s => s
  | .newline => "\n"
  | .enter | .leave => ""

/-- The text of a layout without margins. -/
def flatText (ps : List Piece) : String := String.join (ps.map Piece.flat)

section

variable (p : Piece) (ps qs : List Piece)

@[simp] theorem flatText_nil : flatText [] = "" := rfl

@[simp] theorem flatText_cons : flatText (p :: ps) = p.flat ++ flatText ps := by
  rw [flatText, List.map_cons, String.join_cons, flatText]

@[simp] theorem flatText_append : flatText (ps ++ qs) = flatText ps ++ flatText qs := by
  rw [flatText, List.map_append, String.join_append, flatText, flatText]

/-- A piece adds nothing but its own text to a sheet whose levels are no spaces apart. -/
theorem written_put (sh : Sheet) : (sh.put 0 p).written = sh.written ++ p.flat := by
  have hmargin : sh.margin 0 = "" := by
    rw [Sheet.margin, Nat.mul_zero]
    cases sh.fresh <;> rfl
  cases p with
  | text s =>
    rw [Sheet.put]
    split
    · rename_i hs
      rw [Piece.flat, String.isEmpty_iff.mp hs, String.append_empty]
    · rw [hmargin, String.append_empty, Piece.flat]
  | newline => exact String.push_eq_append _
  | enter => exact String.append_empty.symm
  | leave => exact String.append_empty.symm

theorem render_zero : render 0 ps = flatText ps := by
  -- for every sheet, since the sheet changes from piece to piece
  have hrun : ∀ sh : Sheet, (ps.foldl (Sheet.put 0) sh).written = sh.written ++ flatText ps := by
    induction ps with
    | nil => exact fun sh => String.append_empty.symm
    | cons p ps ih =>
      intro sh
      rw [List.foldl_cons, ih, written_put, flatText_cons, String.append_assoc]
  rw [render, hrun, Sheet.blank, String.empty_append]

end

/-- Layouts with something between each two are texts with its text between each two. -/
theorem flatText_intercalate (sep : List Piece) (items : List (List Piece)) :
    flatText (List.intercalate sep items) = (flatText sep).intercalate (items.map flatText) := by
  induction items with
  | nil => rfl
  | cons ps items ih =>
    cases items with
    | nil => simp
    | cons qs items =>
      rw [List.intercalate_cons_cons, flatText_append, flatText_append, ih]
      simp only [List.map_cons, String.intercalate_cons_cons]

/-! ## Flat shapes -/

/-- The shapes that a flat text may have. -/
def Shape.isFlat : Shape → Bool
  | variableDeclaration | functionDeclaration | blockStatement | returnStatement | ifStatement
  | expressionStatement | identifier | literal | binaryExpression | arrayExpression
  | objectExpression | parenthesizedExpression => true
  | forStatement | comment | arrowFunctionExpression | callExpression | memberExpression
  | assignmentExpression | updateExpression => false

/-- Whether the shape of a node is flat. -/
def Node.isFlat : Node → Bool
  | .statement s => s.shape.isFlat
  | .expr e => e.shape.isFlat
  | _ => true

/-- The shape of a node if it has no flat text. -/
def Node.refused? : Node → Option Shape
  | .statement s => if s.shape.isFlat then none else some s.shape
  | .expr e => if e.shape.isFlat then none else some e.shape
  | _ => none

theorem Node.refused?_eq_none {n : Node} : n.refused? = none ↔ n.isFlat = true := by
  cases n <;> simp [Node.refused?, Node.isFlat]

/-! ## The order in which nodes are looked at -/

mutual

/-- The nodes of a statement, itself first, but of an `if` the first branch before the test. -/
def Statement.visits (s : Statement) : List Node :=
  .statement s :: match s with
    | .decl d => d.nodes
    | .function sp name params body => .function sp name params body :: statementsVisits body
    | .block _ body => .block body :: statementsVisits body
    | .ret _ argument => optionNodes argument
    | .cond _ test consequent alternate =>
      consequent.visits ++ test.nodes ++ alternateVisits alternate
    | .loop _ init test update body =>
      loopInitNodes init ++ optionNodes test ++ optionNodes update ++ body.visits
    | .expr _ e => e.nodes
    | .comment sp text => [.comment sp text]

/-- The nodes of what follows an `else`, in that order. -/
def alternateVisits : Option Statement → List Node
  | none => []
  | some s => s.visits

/-- The nodes of statements, in that order. -/
def statementsVisits : List Statement → List Node
  | [] => []
  | s :: ss => s.visits ++ statementsVisits ss

end

/-- The nodes of a program in the order in which they are looked at for a flat text. -/
def Program.visits (p : Program) : List Node := statementsVisits p

theorem statementsVisits_eq_flatMap (ss : List Statement) :
    statementsVisits ss = ss.flatMap Statement.visits := by
  induction ss with
  | nil => rfl
  | cons s ss ih => rw [statementsVisits, ih, List.flatMap_cons]

/-! ## What comes of some nodes -/

/-- What a generator gives that looks at the nodes in turn: the shape of the first that is refused,
    or else `a`. -/
def outcome {α : Type} (ns : List Node) (a : α) : Except Unsupported α :=
  match ns.findSome? Node.refused? with
  | some shape => .error ⟨shape⟩
  | none => .ok a

section

variable {α β : Type} {a : α} {b : β} {ns ms : List Node} {n : Node}

theorem outcome_cons (hn : n.refused? = none) : outcome (n :: ns) a = outcome ns a := by
  rw [outcome, List.findSome?_cons, hn, outcome]

theorem outcome_cons_refused {shape : Shape} (hn : n.refused? = some shape) :
    outcome (n :: ns) a = .error ⟨shape⟩ := by
  rw [outcome, List.findSome?_cons, hn]

/-- What is looked at later is not looked at if something was refused before. -/
theorem outcome_bind {k : α → Except Unsupported β} (hk : k a = outcome ms b) :
    outcome ns a >>= k = outcome (ns ++ ms) b := by
  rw [outcome, outcome, List.findSome?_append]
  cases ns.findSome? Node.refused? with
  | none => exact hk
  | some shape => rfl

/-- The last part of a node: all that is left to do is to put texts together. -/
theorem outcome_bind_pure (g : α → β) :
    (outcome ns a >>= fun x => pure (g x)) = outcome ns (g a) := by
  rw [outcome, outcome]
  cases ns.findSome? Node.refused? <;> rfl

theorem mapM_eq_outcome {γ : Type} {xs : List γ} {k : γ → Except Unsupported β}
    {f : γ → List Node} {g : γ → β} (h : ∀ x ∈ xs, k x = outcome (f x) (g x)) :
    xs.mapM k = outcome (xs.flatMap f) (xs.map g) := by
  induction xs with
  | nil => rfl
  | cons x xs ih =>
    rw [List.mapM_cons, h x List.mem_cons_self, ih fun y hy => h y (List.mem_cons_of_mem x hy),
      List.flatMap_cons, List.map_cons]
    exact outcome_bind (outcome_bind_pure _)

end

/-! ## The texts of single nodes -/

theorem flatText_grouped (group : Bool) (ps : List Piece) :
    flatText (Piece.grouped group ps) = wrapped group (flatText ps) := by
  cases group with
  | false => rfl
  | true => simp [Piece.grouped, wrapped, Piece.flat, String.append_assoc]

theorem flatText_inline (items : List (List Piece)) :
    flatText (Piece.inline Style.flat.comma items) = ", ".intercalate (items.map flatText) := by
  rw [Piece.inline, flatText_intercalate]
  rfl

theorem flatText_entries (items : List (List Piece)) :
    flatText (entriesLayout .flat items) = ", ".intercalate (items.map flatText) := by
  cases items with
  | nil => rfl
  | cons ps items => exact flatText_inline _

theorem flatText_params (params : List Name) :
    flatText (paramsLayout .flat params) =
      "(" ++ ", ".intercalate (params.map (·.text)) ++ ")" := by
  rw [paramsLayout, List.cons_append, flatText_cons, flatText_append, flatText_inline,
    List.map_map]
  have htexts : flatText ∘ (fun p : Name => [Piece.text p.text]) = (·.text) := by
    funext p
    simp [Piece.flat]
  rw [htexts]
  simp [Piece.flat, String.append_assoc]

/-- A layout has a piece for a brace and a piece for the line end next to it. -/
theorem openLine_append (code : String) : "\x7b" ++ ("\n" ++ code) = "\x7b\n" ++ code :=
  String.append_assoc.symm

theorem closeLine_append (code : String) : "\n" ++ ("\x7d" ++ code) = "\n\x7d" ++ code :=
  String.append_assoc.symm

/-- Lines that each have an end are lines joined by their ends, and one end more. -/
theorem flatText_lines {ss : List Statement} (hss : ss ≠ []) :
    flatText (linesLayout .flat ss) =
      "\n".intercalate (ss.map fun s => flatText (s.layout .flat)) ++ "\n" := by
  induction ss with
  | nil => exact absurd rfl hss
  | cons s ss ih =>
    rw [linesLayout, flatText_append, flatText_cons, Piece.flat]
    cases ss with
    | nil => simp [linesLayout]
    | cons t ss =>
      rw [ih (List.cons_ne_nil t ss)]
      simp only [List.map_cons, String.intercalate_cons_cons, String.append_assoc]

theorem flatText_block (ss : List Statement) :
    flatText (blockLayout .flat (linesLayout .flat ss)) =
      blockText (ss.map fun s => flatText (s.layout .flat)) := by
  have hbraces : flatText (blockLayout .flat (linesLayout .flat ss)) =
      "\x7b" ++ ("\n" ++ (flatText (linesLayout .flat ss) ++ "\x7d")) := by
    rw [blockLayout, Style.flat, Bool.not_true, Bool.and_false]
    simp [Piece.braces, Piece.flat]
  rw [hbraces]
  cases ss with
  | nil => rfl
  | cons s ss =>
    rw [flatText_lines (List.cons_ne_nil s ss), blockText, List.map_cons]
    simp [openLine_append, String.append_assoc]

/-! ## Trees -/

/-- **What a generator gives of a tree.** -/
theorem generated_tree : Syntax.Cases
    (fun e => e.generate = outcome e.nodes (flatText (e.layout .flat)))
    (fun d => (Statement.decl d).generate = outcome d.nodes (flatText (d.layout .flat) ++ ";"))
    (fun s => s.generate = outcome s.visits (flatText (s.layout .flat))) where
  ident _ name := by simp [Expr.generate, Expr.layout, Piece.flat, Expr.nodes]; rfl
  literal _ value := by simp [Expr.generate, Expr.layout, Piece.flat, Expr.nodes]; rfl
  binary sp op left right ihl ihr := by
    rw [Expr.generate, ihl, Expr.nodes, outcome_cons rfl]
    refine outcome_bind ?_
    rw [ihr, outcome_bind_pure, Expr.layout]
    simp only [flatText_append, flatText_grouped]
    simp [operatorLayout, Style.flat, Piece.flat, String.append_assoc]
  assign sp op target value _ _ := (outcome_cons_refused rfl).symm
  update sp op isPrefix argument _ := (outcome_cons_refused rfl).symm
  call sp callee args _ _ := (outcome_cons_refused rfl).symm
  member sp owner property _ := (outcome_cons_refused rfl).symm
  index sp owner key _ _ := (outcome_cons_refused rfl).symm
  arrow sp params body _ := (outcome_cons_refused rfl).symm
  object sp properties ihp := by
    have hall : ∀ p ∈ properties,
        p.generate = outcome p.value.nodes (flatText (p.layout .flat)) := by
      rintro ⟨key, value⟩ hm
      rw [Property.generate, ihp key value hm]
      exact (outcome_bind_pure _).trans (by rw [Property.layout, flatText_cons, Piece.flat]; rfl)
    rw [Expr.generate, propertiesGenerate_eq_mapM, mapM_eq_outcome hall, outcome_bind_pure,
      ← propertiesNodes_eq_flatMap, Expr.nodes, outcome_cons rfl, Expr.layout,
      propertiesLayout_eq_map]
    simp [flatText_entries, Piece.flat, Function.comp_def, String.append_assoc]
  array sp elements ihe := by
    rw [Expr.generate, exprsGenerate_eq_mapM, mapM_eq_outcome ihe, outcome_bind_pure,
      ← exprsNodes_eq_flatMap, Expr.nodes, outcome_cons rfl, Expr.layout, exprsLayout_eq_map]
    simp [flatText_entries, Piece.flat, Function.comp_def, String.append_assoc]
  paren sp inner ihi := by
    rw [Expr.generate, ihi, outcome_bind_pure, Expr.nodes, outcome_cons rfl, Expr.layout]
    simp [Piece.flat, String.append_assoc]
  declaration sp kind name init ihi := by
    rw [Decl.nodes, outcome_cons rfl, Decl.layout]
    cases init with
    | none => simp [Statement.generate, optionLayout, optionNodes, Piece.flat]; rfl
    | some e =>
      rw [Statement.generate, ihi e rfl, outcome_bind_pure]
      simp [optionLayout, optionNodes, Piece.flat, String.append_assoc]
  decl d ihd := by
    rw [ihd, Statement.visits, outcome_cons rfl, Statement.layout]
    simp [Piece.flat]
  function sp name params body ihb := by
    rw [Statement.generate, statementsGenerate_eq_mapM, mapM_eq_outcome ihb, outcome_bind_pure,
      ← statementsVisits_eq_flatMap, Statement.visits, outcome_cons rfl, outcome_cons rfl,
      ← flatText_block, Statement.layout]
    have hspace (code : String) : ")" ++ (" " ++ code) = ") " ++ code := String.append_assoc.symm
    simp [hspace, flatText_params, Piece.flat, String.append_assoc]
  block sp body ihb := by
    rw [Statement.generate, statementsGenerate_eq_mapM, mapM_eq_outcome ihb, outcome_bind_pure,
      ← statementsVisits_eq_flatMap, Statement.visits, outcome_cons rfl, outcome_cons rfl,
      ← flatText_block, Statement.layout]
  ret sp argument iha := by
    rw [Statement.visits, outcome_cons rfl, Statement.layout]
    cases argument with
    | none => simp [Statement.generate, optionLayout, optionNodes, Piece.flat]; rfl
    | some e =>
      rw [Statement.generate, iha e rfl, outcome_bind_pure]
      have hspace (code : String) : "return" ++ (" " ++ code) = "return " ++ code :=
        String.append_assoc.symm
      simp [hspace, optionLayout, optionNodes, Piece.flat, String.append_assoc]
  cond sp test consequent alternate iht ihc iha := by
    have halternate : alternateGenerate alternate =
        outcome (alternateVisits alternate) (flatText (alternateLayout .flat alternate)) := by
      cases alternate with
      | none => rfl
      | some a =>
        rw [alternateGenerate, iha a rfl, outcome_bind_pure, alternateVisits, alternateLayout,
          flatText_cons, Piece.flat]
    rw [Statement.generate, ihc, iht, halternate, Statement.visits, outcome_cons rfl,
      List.append_assoc]
    refine outcome_bind (outcome_bind ?_)
    rw [outcome_bind_pure, Statement.layout]
    split <;>
      simp [Piece.flat, Piece.braces, openLine_append, closeLine_append, String.append_assoc]
  loop sp init test update body _ _ _ _ _ := (outcome_cons_refused rfl).symm
  expr sp e ihe := by
    rw [Statement.generate, ihe, outcome_bind_pure, Statement.visits, outcome_cons rfl,
      Statement.layout, flatText_append, flatText_grouped]
    simp [Piece.flat]
  comment sp text := (outcome_cons_refused rfl).symm

/-- **What a generator gives of a program.**  The text is its layout in the style of flat texts,
    without the end of the last line. -/
theorem Program.generate_eq (p : Program) : p.generate =
    outcome p.visits (render 0 (List.intercalate [.newline] (p.map (Statement.layout .flat)))) := by
  have hlines : statementsGenerate p =
      outcome p.visits (p.map fun s => flatText (s.layout .flat)) := by
    rw [statementsGenerate_eq_mapM, mapM_eq_outcome fun s _ => generated_tree.all.2.2 s,
      ← statementsVisits_eq_flatMap, visits]
  rw [generate, hlines, outcome_bind_pure, render_zero, flatText_intercalate, List.map_map]
  rfl

end CurlyScript
