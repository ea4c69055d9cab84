import CurlyScript.Proofs.Layout.Alike
import CurlyScript.Proofs.Layout.Ink

/-
  The depth of a layout is the number of constructs around.

  A layout steps one level deeper and back, and what it writes is indented by the level that a
  counter has reached.  Here is a printer without a counter.  It is told how many constructs are
  around what it prints, and tells its parts.

  1. **The printer** — `Expr.placed st n` and its like: every text comes with the number of
     constructs around it.  That number grows in four places: in the lines of a block, in a first
     branch that gets braces, in the entries of a literal that has a line for each, and in the body
     of a loop on a line of its own.

  2. **Levels in pairs** — `Places n ps qs`: the pieces `ps` step deeper and back in pairs, and
     `qs` are their texts and line ends, each text with the number of pairs around it, and `n`
     more.  Every layout is placed as the printer says (`Places.tree`).

  3. **The counter** — where levels come in pairs, the counter is in the end what it was, and no
     step back is taken at the level of the start (`Places.balanced`); and the characters are those
     of the printer (`Places.ink_eq`).
-/

namespace CurlyScript

variable {st : Style} {n : Nat}

/-! ## The printer -/

/-- A text with the number of constructs around it, or the end of a line. -/
inductive Placed where
  | text (around : Nat) (s : String)
  | newline
deriving DecidableEq, Repr

namespace Placed

/-- What is in parentheses if `group` is set. -/
def grouped (n : Nat) (group : Bool) (qs : List Placed) : List Placed :=
  if group then text n "(" :: qs ++ [text n ")"] else qs

/-- Items on one line. -/
def inline (n : Nat) (comma : String) (items : List (List Placed)) : List Placed :=
  List.intercalate [text n comma] items

/-- Names in parentheses. -/
def params (st : Style) (n : Nat) (ps : List Name) : List Placed :=
  text n "(" :: inline n st.comma (ps.map fun p => [text n p.text]) ++ [text n ")"]

/-- An operator between its operands. -/
def operator (st : Style) (n : Nat) (sign : String) (right : Expr) (group : Bool) : List Placed :=
  if st.spacedOperators || (!group && gluesTo sign right) then [text n (" " ++ sign ++ " ")]
  else [text n sign]

/-- Lines between braces.  The braces are not inside of what they enclose. -/
def braces (n : Nat) (lines : List Placed) : List Placed :=
  text n "\x7b" :: newline :: lines ++ [text n "\x7d"]

/-- A block with these lines. -/
def block (st : Style) (n : Nat) (lines : List Placed) : List Placed :=
  if lines.isEmpty && !st.openBlocks then [text n "\x7b\x7d"] else braces n lines

/-- How many constructs are around an entry of a literal. -/
def aroundEntry (st : Style) (n : Nat) : Nat := if st.brokenLiterals then n + 1 else n

/-- The entries of a literal, each on a line of its own or all on one. -/
def entries (st : Style) (n : Nat) (items : List (List Placed)) : List Placed :=
  if items.isEmpty then []
  else if st.brokenLiterals then
    newline :: List.intercalate [text (n + 1) ",", newline] items ++ [newline]
  else inline n st.comma items

end Placed

open Placed

mutual

/-- An expression with `n` constructs around it. -/
def Expr.placed (st : Style) (n : Nat) : Expr → List Placed
  | .ident _ name => [text n name]
  | .literal _ value => [text n value.text]
  | .binary _ op left right =>
    grouped n (op.groupsLeft left) (left.placed st n) ++
      operator st n op.spelling right (op.groupsRight right) ++
      grouped n (op.groupsRight right) (right.placed st n)
  | .assign _ op target value =>
    target.placed st n ++ operator st n op.spelling value false ++ value.placed st n
  | .update _ op isPrefix argument =>
    if isPrefix then text n op.spelling :: argument.placed st n
    else argument.placed st n ++ [text n op.spelling]
  | .call _ callee args =>
    grouped n callee.groupsBeforePostfix (callee.placed st n) ++
      text n "(" :: inline n st.comma (exprsPlaced st n args) ++ [text n ")"]
  | .member _ owner property =>
    grouped n owner.groupsBeforePostfix (owner.placed st n) ++ [text n ".", text n property.text]
  | .index _ owner key =>
    grouped n owner.groupsBeforePostfix (owner.placed st n) ++
      text n "[" :: key.placed st n ++ [text n "]"]
  | .arrow _ params body =>
    Placed.params st n params ++ text n " => " :: block st n (linesPlaced st (n + 1) body)
  | .object _ properties =>
    text n "\x7b" :: entries st n (propertiesPlaced st (aroundEntry st n) properties) ++
      [text n "\x7d"]
  | .array _ elements =>
    text n "[" :: entries st n (exprsPlaced st (aroundEntry st n) elements) ++ [text n "]"]
  | .paren _ inner => text n "(" :: inner.placed st n ++ [text n ")"]

/-- Expressions one by one. -/
def exprsPlaced (st : Style) (n : Nat) : List Expr → List (List Placed)
  | [] => []
  | e :: es => e.placed st n :: exprsPlaced st n es

/-- The entries of an object one by one. -/
def propertiesPlaced (st : Style) (n : Nat) : List Property → List (List Placed)
  | [] => []
  | .mk key value :: ps =>
    (text n (key.text ++ ": ") :: value.placed st n) :: propertiesPlaced st n ps

/-- An expression that may be left out, with `before` before it. -/
def optionPlaced (st : Style) (n : Nat) (before : String) : Option Expr → List Placed
  | none => []
  | some e => text n before :: e.placed st n

/-- A declaration, without a semicolon. -/
def Decl.placed (st : Style) (n : Nat) : Decl → List Placed
  | .mk _ kind name init =>
    text n (kind.spelling ++ " " ++ name.text) :: optionPlaced st n " = " init

/-- The first part of a loop's head. -/
def loopInitPlaced (st : Style) (n : Nat) : Option LoopInit → List Placed
  | none => []
  | some (.decl d) => d.placed st n
  | some (.expr e) => e.placed st n

/-- A statement with `n` constructs around it, without the end of its last line. -/
def Statement.placed (st : Style) (n : Nat) : Statement → List Placed
  | .decl d => d.placed st n ++ [text n ";"]
  | .function _ name params body =>
    text n ("function " ++ name.text) :: Placed.params st n params ++
      text n " " :: block st n (linesPlaced st (n + 1) body)
  | .block _ body => block st n (linesPlaced st (n + 1) body)
  | .ret _ argument => text n "return" :: optionPlaced st n " " argument ++ [text n ";"]
  | .cond _ test consequent alternate =>
    text n "if (" :: test.placed st n ++ text n ") " ::
      (if alternate.isSome && consequent.endsWithOpenIf then
        braces n (consequent.placed st (n + 1) ++ [newline])
      else consequent.placed st n) ++ alternatePlaced st n alternate
  | .loop _ init test update body =>
    text n "for (" :: loopInitPlaced st n init ++ text n ";" :: optionPlaced st n " " test ++
      text n ";" :: optionPlaced st n " " update ++ text n ")" ::
      (if body.shape = .blockStatement then text n " " :: body.placed st n
      else newline :: body.placed st (n + 1))
  | .expr _ e => grouped n e.startsWithObject (e.placed st n) ++ [text n ";"]
  | .comment _ s => [text n s]

/-- An `else` and what follows it. -/
def alternatePlaced (st : Style) (n : Nat) : Option Statement → List Placed
  | none => []
  | some s => text n " else " :: s.placed st n

/-- Statements, each with the end of its last line. -/
def linesPlaced (st : Style) (n : Nat) : List Statement → List Placed
  | [] => []
  | s :: ss => s.placed st n ++ newline :: linesPlaced st n ss

end

/-! ### The companions of the printer -/

theorem exprsPlaced_eq_map (es : List Expr) : exprsPlaced st n es = es.map (Expr.placed st n) := by
  induction es with
  | nil => rfl
  | cons e es ih => rw [exprsPlaced, ih, List.map_cons]

/-- An entry of an object with `n` constructs around it. -/
def Property.placed (st : Style) (n : Nat) : Property → List Placed
  | .mk key value => .text n (key.text ++ ": ") :: value.placed st n

theorem propertiesPlaced_eq_map (ps : List Property) :
    propertiesPlaced st n ps = ps.map (Property.placed st n) := by
  induction ps with
  | nil => rfl
  | cons p ps ih =>
    cases p
    rw [propertiesPlaced, ih, List.map_cons, Property.placed]

/-! ## Levels in pairs -/

/-- Pieces that step deeper and back in pairs, and their texts, with `n` constructs around all. -/
inductive Places : Nat → List Piece → List Placed → Prop where
  | nil {n : Nat} : Places n [] []
  | text {n : Nat} {ps : List Piece} {qs : List Placed} (s : String) :
    Places n ps qs → Places n (.text s :: ps) (.text n s :: qs)
  | newline {n : Nat} {ps : List Piece} {qs : List Placed} :
    Places n ps qs → Places n (.newline :: ps) (.newline :: qs)
  | within {n : Nat} {ps ps' : List Piece} {qs qs' : List Placed} :
    Places (n + 1) ps qs → Places n ps' qs' →
    Places n (.enter :: ps ++ .leave :: ps') (qs ++ qs')

namespace Places

variable {ps ps' : List Piece} {qs qs' : List Placed}

theorem append (h : Places n ps qs) (h' : Places n ps' qs') :
    Places n (ps ++ ps') (qs ++ qs') := by
  induction h with
  | nil => exact h'
  | text s _ ih => exact .text s (ih h')
  | newline _ ih => exact .newline (ih h')
  | within hin _ _ ih =>
    have hboth := Places.within hin (ih h')
    simpa using hboth

theorem sign (s : String) : Places n [.text s] [.text n s] := .text s .nil

/-- A level deeper and back. -/
theorem deeper (h : Places (n + 1) ps qs) : Places n (.enter :: ps ++ [.leave]) qs := by
  have hin := Places.within h .nil
  rwa [List.append_nil] at hin

theorem grouped (group : Bool) (h : Places n ps qs) :
    Places n (Piece.grouped group ps) (Placed.grouped n group qs) := by
  cases group with
  | false => exact h
  | true => exact .text "(" (h.append (.sign ")"))

theorem operator (sign : String) (right : Expr) (group : Bool) :
    Places n (operatorLayout st sign right group) (Placed.operator st n sign right group) := by
  rw [operatorLayout, Placed.operator]
  split
  · exact .sign _
  · exact .sign sign

theorem intercalate {γ : Type} {sep : List Piece} {sep' : List Placed} {f : γ → List Piece}
    {g : γ → List Placed} {xs : List γ} (hsep : Places n sep sep')
    (h : ∀ x ∈ xs, Places n (f x) (g x)) :
    Places n (List.intercalate sep (xs.map f)) (List.intercalate sep' (xs.map g)) := by
  induction xs with
  | nil => exact .nil
  | cons x xs ih =>
    have hx := h x List.mem_cons_self
    have hxs := ih fun y hy => h y (List.mem_cons_of_mem _ hy)
    cases xs with
    | nil =>
      rw [List.map_singleton, List.map_singleton, List.intercalate_singleton,
        List.intercalate_singleton]
      exact hx
    | cons y ys =>
      rw [List.map_cons, List.map_cons, List.map_cons, List.map_cons,
        List.intercalate_cons_cons, List.intercalate_cons_cons]
      exact (hx.append hsep).append hxs

theorem params (ps : List Name) : Places n (paramsLayout st ps) (Placed.params st n ps) := by
  have hnames := intercalate (.sign st.comma) fun (p : Name) (_ : p ∈ ps) => .sign (n := n) p.text
  exact (Places.text "(" hnames).append (.sign ")")

/-- The entries of a literal are a level deeper if each has a line of its own. -/
theorem entries {γ : Type} {f : γ → List Piece} {g : Nat → γ → List Placed} {xs : List γ}
    (h : ∀ x ∈ xs, ∀ n, Places n (f x) (g n x)) :
    Places n (entriesLayout st (xs.map f))
      (Placed.entries st n (xs.map (g (Placed.aroundEntry st n)))) := by
  rw [entriesLayout, Placed.entries, List.isEmpty_map, List.isEmpty_map]
  cases hempty : xs.isEmpty with
  | true => exact .nil
  | false =>
    cases hbroken : st.brokenLiterals with
    | true =>
      have haround : Placed.aroundEntry st n = n + 1 := by rw [Placed.aroundEntry, if_pos hbroken]
      have hitems := intercalate (.text "," (.newline .nil)) fun x hx => h x hx (n + 1)
      have hlines := (hitems.append (.newline .nil)).deeper
      rw [haround]
      simp only [Piece.stacked, List.append_assoc, List.cons_append, List.nil_append] at hlines ⊢
      exact .newline hlines
    | false =>
      have haround : Placed.aroundEntry st n = n := by
        rw [Placed.aroundEntry, hbroken, if_neg Bool.false_ne_true]
      rw [haround]
      exact intercalate (.sign st.comma) fun x hx => h x hx n

theorem braces (h : Places (n + 1) ps qs) : Places n (Piece.braces ps) (Placed.braces n qs) :=
  .text "\x7b" (.newline (.within h (.sign "\x7d")))

theorem lines {body : List Statement}
    (h : ∀ s ∈ body, Places n (s.layout st) (s.placed st n)) :
    Places n (linesLayout st body) (linesPlaced st n body) := by
  induction body with
  | nil => exact .nil
  | cons s body ih =>
    have hbody := ih fun t ht => h t (List.mem_cons_of_mem _ ht)
    exact (h s List.mem_cons_self).append (.newline hbody)

theorem block {body : List Statement}
    (h : ∀ s ∈ body, ∀ n, Places n (s.layout st) (s.placed st n)) :
    Places n (blockLayout st (linesLayout st body))
      (Placed.block st n (linesPlaced st (n + 1) body)) := by
  have hlines := lines (n := n + 1) fun s hs => h s hs (n + 1)
  have hempty : (linesLayout st body).isEmpty = (linesPlaced st (n + 1) body).isEmpty := by
    rw [Bool.eq_iff_iff, List.isEmpty_iff, List.isEmpty_iff]
    cases body <;> simp [linesLayout, linesPlaced]
  rw [blockLayout, Placed.block, hempty]
  split
  · exact .sign _
  · exact braces hlines

theorem option {o : Option Expr} (before : String)
    (h : ∀ e ∈ o, ∀ n, Places n (e.layout st) (e.placed st n)) :
    Places n (optionLayout st before o) (optionPlaced st n before o) := by
  cases o with
  | none => exact .nil
  | some e => exact .text before (h e rfl n)

/-- **Every layout is placed** as the printer without a counter says. -/
theorem tree : Syntax.Cases (fun e => ∀ n, Places n (e.layout st) (e.placed st n))
    (fun d => ∀ n, Places n (d.layout st) (d.placed st n))
    (fun s => ∀ n, Places n (s.layout st) (s.placed st n)) where
  ident _ name _ := .sign name
  literal _ value _ := .sign value.text
  binary _ _ _ right hl hr n :=
    ((grouped _ (hl n)).append (operator _ right _)).append (grouped _ (hr n))
  assign _ _ _ value ht hv n := ((ht n).append (operator _ value _)).append (hv n)
  update _ op isPrefix _ ha n := by
    cases isPrefix with
    | true => exact .text op.spelling (ha n)
    | false => exact (ha n).append (.sign op.spelling)
  call _ callee args hc ha n := by
    rw [Expr.layout, Expr.placed, exprsLayout_eq_map, exprsPlaced_eq_map]
    have hargs := intercalate (.sign st.comma) fun a hm => ha a hm n
    exact ((grouped _ (hc n)).append (.text "(" hargs)).append (.sign ")")
  member _ _ property ho n := (grouped _ (ho n)).append (.text "." (.sign property.text))
  index _ _ _ ho hk n := ((grouped _ (ho n)).append (.text "[" (hk n))).append (.sign "]")
  arrow _ ps body hb n := (params ps).append (.text " => " (block hb))
  object _ properties hp n := by
    rw [Expr.layout, Expr.placed, propertiesLayout_eq_map, propertiesPlaced_eq_map]
    have hentry : ∀ p ∈ properties, ∀ n, Places n (p.layout st) (p.placed st n) := by
      rintro ⟨key, value⟩ hm n
      exact .text (key.text ++ ": ") (hp key value hm n)
    exact (Places.text "\x7b" (entries hentry)).append (.sign "\x7d")
  array _ elements he n := by
    rw [Expr.layout, Expr.placed, exprsLayout_eq_map, exprsPlaced_eq_map]
    exact (Places.text "[" (entries he)).append (.sign "]")
  paren _ _ hi n := .text "(" ((hi n).append (.sign ")"))
  declaration _ kind name init hi n :=
    .text (kind.spelling ++ " " ++ name.text) (option " = " hi)
  decl _ hd n := (hd n).append (.sign ";")
  function _ name ps body hb n :=
    (Places.text _ (params ps)).append (.text " " (block hb))
  block _ body hb n := block hb
  ret _ argument ha n := (Places.text "return" (option " " ha)).append (.sign ";")
  cond _ test consequent alternate ht hc ha n := by
    have hconsequent : Places n
        (if alternate.isSome && consequent.endsWithOpenIf then
          Piece.braces (consequent.layout st ++ [.newline]) else consequent.layout st)
        (if alternate.isSome && consequent.endsWithOpenIf then
          Placed.braces n (consequent.placed st (n + 1) ++ [.newline])
        else consequent.placed st n) := by
      split
      · exact braces ((hc (n + 1)).append (.newline .nil))
      · exact hc n
    have halternate : Places n (alternateLayout st alternate) (alternatePlaced st n alternate) := by
      cases alternate with
      | none => exact .nil
      | some a => exact .text " else " (ha a rfl n)
    exact ((Places.text "if (" (ht n)).append (.text ") " hconsequent)).append halternate
  loop _ init test update body hd he ht hu hb n := by
    have hinit : Places n (loopInitLayout st init) (loopInitPlaced st n init) := by
      cases init with
      | none => exact .nil
      | some i =>
        cases i with
        | decl d => exact hd d rfl n
        | expr e => exact he e rfl n
    have hbody : Places n
        (if body.shape = .blockStatement then .text " " :: body.layout st
          else .newline :: .enter :: body.layout st ++ [.leave])
        (if body.shape = .blockStatement then .text n " " :: body.placed st n
          else .newline :: body.placed st (n + 1)) := by
      split
      · exact .text " " (hb n)
      · exact .newline (deeper (hb (n + 1)))
    exact (((Places.text "for (" hinit).append (.text ";" (option " " ht))).append
      (.text ";" (option " " hu))).append (.text ")" hbody)
  expr _ e he n := (grouped _ (he n)).append (.sign ";")
  comment _ text _ := .sign text

end Places

/-! ## The counter -/

/-- Pieces that leave the counter as it was, and never take it below that. -/
structure Balanced (width : Nat) (ps : List Piece) : Prop where
  /-- The counter is in the end what it was. -/
  restores : ∀ sh : Sheet, (ps.foldl (Sheet.put width) sh).depth = sh.depth
  /-- Where a level ends, the counter is higher than it was. -/
  above : ∀ (sh : Sheet) (before after : List Piece), ps = before ++ .leave :: after →
    sh.depth < (before.foldl (Sheet.put width) sh).depth

@[simp] theorem Sheet.depth_put_text (width : Nat) (sh : Sheet) (s : String) :
    (sh.put width (.text s)).depth = sh.depth := by
  rw [Sheet.put]
  split <;> rfl

namespace Balanced

variable {width : Nat} {ps ps' : List Piece}

theorem nil : Balanced width [] where
  restores _ := rfl
  above _ before after h := absurd h (by simp)

/-- A piece that leaves the counter as it is. -/
theorem cons {p : Piece} (hp : ∀ sh : Sheet, (sh.put width p).depth = sh.depth)
    (hleave : p ≠ .leave) (h : Balanced width ps) : Balanced width (p :: ps) where
  restores sh := by rw [List.foldl_cons, h.restores, hp]
  above sh before after hps := by
    cases before with
    | nil => exact absurd (List.cons.inj hps).1 hleave
    | cons q before =>
      obtain ⟨rfl, hrest⟩ := List.cons.inj hps
      have habove := h.above (sh.put width p) before after hrest
      rw [hp] at habove
      exact habove

/-- A level around pieces, and pieces after it. -/
theorem within (h : Balanced width ps) (h' : Balanced width ps') :
    Balanced width (.enter :: ps ++ .leave :: ps') := by
  have hinner : ∀ sh : Sheet,
      ((ps ++ [Piece.leave]).foldl (Sheet.put width) (sh.put width .enter)).depth = sh.depth := by
    intro sh
    rw [List.foldl_append]
    show (ps.foldl (Sheet.put width) (sh.put width .enter)).depth - 1 = sh.depth
    rw [h.restores]
    rfl
  constructor
  · intro sh
    rw [List.append_cons, List.foldl_append, h'.restores]
    exact hinner sh
  · intro sh before after hps
    cases before with
    | nil => exact absurd (List.cons.inj hps).1 (by decide)
    | cons q before =>
      obtain ⟨rfl, hrest⟩ := List.cons.inj hps
      have hself : sh.depth < (ps.foldl (Sheet.put width) (sh.put width .enter)).depth := by
        rw [h.restores]
        exact Nat.lt_succ_self sh.depth
      rw [List.foldl_cons]
      -- the level that ends comes after this one, or is this one, or lies within it
      rcases List.append_eq_append_iff.mp hrest with ⟨more, rfl, hmore⟩ | ⟨more, rfl, hmore⟩
      · cases more with
        | nil =>
          rw [List.append_nil]
          exact hself
        | cons r more =>
          obtain ⟨rfl, hps'⟩ := List.cons.inj hmore
          let outside := (ps ++ [Piece.leave]).foldl (Sheet.put width) (sh.put width .enter)
          have habove := h'.above outside more after hps'
          rw [hinner sh, ← List.foldl_append, ← List.append_cons] at habove
          exact habove
      · cases more with
        | nil =>
          rw [List.append_nil] at hself
          exact hself
        | cons r more =>
          obtain ⟨rfl, -⟩ := List.cons.inj hmore
          have habove := h.above (sh.put width .enter) before more rfl
          exact Nat.lt_of_succ_lt habove

end Balanced

theorem Places.balanced {ps : List Piece} {qs : List Placed} (h : Places n ps qs) (width : Nat) :
    Balanced width ps := by
  induction h with
  | nil => exact .nil
  | text s _ ih => exact ih.cons (fun sh => sh.depth_put_text width s) (by simp)
  | newline _ ih => exact ih.cons (fun _ => rfl) (by simp)
  | within _ _ ih ih' => exact ih.within ih'

/-- The characters of placed text. -/
def inkPlaced (width : Nat) (fresh : Bool) : List Placed → List Char
  | [] => []
  | .text n s :: qs =>
    if s.isEmpty then inkPlaced width fresh qs
    else (if fresh then List.replicate (n * width) ' ' else []) ++ s.toList ++
      inkPlaced width false qs
  | .newline :: qs => '\n' :: inkPlaced width true qs

/-- What follows has the characters that it is placed with, so the whole has. -/
theorem Places.ink_append {ps : List Piece} {qs : List Placed} {width : Nat} (h : Places n ps qs) :
    ∀ {rest : List Piece} {rest' : List Placed},
      (∀ fresh, ink width n fresh rest = inkPlaced width fresh rest') →
      ∀ fresh, ink width n fresh (ps ++ rest) = inkPlaced width fresh (qs ++ rest') := by
  induction h with
  | nil => exact fun hrest => hrest
  | text s _ ih =>
    intro rest rest' hrest fresh
    rw [List.cons_append, List.cons_append, ink, inkPlaced, ih hrest, ih hrest]
  | newline _ ih =>
    intro rest rest' hrest fresh
    rw [List.cons_append, List.cons_append, ink, inkPlaced, ih hrest]
  | @within n _ ps' _ qs' _ _ ih ih' =>
    intro rest rest' hrest fresh
    have hafter : ∀ fresh, ink width (n + 1) fresh (.leave :: ps' ++ rest) =
        inkPlaced width fresh (qs' ++ rest') := ih' hrest
    rw [List.append_assoc, List.append_assoc]
    exact ih hafter fresh

/-- The characters of a layout are those of the printer without a counter. -/
theorem Places.ink_eq {ps : List Piece} {qs : List Placed} {width : Nat} (h : Places n ps qs)
    (fresh : Bool) : ink width n fresh ps = inkPlaced width fresh qs := by
  have hend : ∀ fresh, ink width n fresh [] = inkPlaced width fresh [] := fun _ => rfl
  have hink := h.ink_append hend fresh
  rwa [List.append_nil, List.append_nil] at hink

end CurlyScript
