import CurlyScript.Proofs.Layout.Spelled

/-
  The text of an expression, or of a statement, beside other text.

  Two layouts one after the other are not the two texts one after the other, for what comes first on
  a line is indented.  But no expression ends with a line end (`Expr.endsInLine`), so text after it
  goes on in its last line, and an expression alone, which is laid out at the margin, may be put
  into a text as it stands (`Expr.scans_beside`).  So may a statement, unless it is a comment
  (`Statement.scans_beside`).
-/

namespace CurlyScript

variable {width : Nat} {st : Style}

/-! ## Layouts one after the other -/

/-- What follows some pieces is laid out at the depth that they leave. -/
theorem ink_append (width : Nat) (ps : List Piece) : ∀ depth fresh, ∃ depth' fresh', ∀ qs,
    ink width depth fresh (ps ++ qs) = ink width depth fresh ps ++ ink width depth' fresh' qs := by
  induction ps with
  | nil => exact fun depth fresh => ⟨depth, fresh, fun _ => rfl⟩
  | cons p ps ih =>
    intro depth fresh
    cases p with
    | text s =>
      cases hs : s.isEmpty with
      | true =>
        obtain ⟨depth', fresh', h⟩ := ih depth fresh
        refine ⟨depth', fresh', fun qs => ?_⟩
        rw [List.cons_append, ink, ink, hs, if_pos rfl, if_pos rfl, h]
      | false =>
        obtain ⟨depth', fresh', h⟩ := ih depth false
        refine ⟨depth', fresh', fun qs => ?_⟩
        rw [List.cons_append, ink, ink, hs, if_neg Bool.false_ne_true, if_neg Bool.false_ne_true, h,
          List.append_assoc _ (ink width depth false ps)]
    | newline =>
      obtain ⟨depth', fresh', h⟩ := ih depth true
      exact ⟨depth', fresh', fun qs => congrArg (List.cons '\n') (h qs)⟩
    | enter => exact ih (depth + 1) fresh
    | leave => exact ih (depth - 1) fresh

/-- Pieces after which something stands on the line. -/
def EndsOnLine (width : Nat) (ps : List Piece) : Prop :=
  ∀ depth fresh, ∃ depth', ∀ qs,
    ink width depth fresh (ps ++ qs) = ink width depth fresh ps ++ ink width depth' false qs

namespace EndsOnLine

/-- Whatever was before does not matter. -/
theorem after (ps : List Piece) {qs : List Piece} (h : EndsOnLine width qs) :
    EndsOnLine width (ps ++ qs) := by
  intro depth fresh
  obtain ⟨d, f, hink⟩ := ink_append width ps depth fresh
  obtain ⟨d', hink'⟩ := h d f
  refine ⟨d', fun rs => ?_⟩
  rw [List.append_assoc, hink, hink, hink', List.append_assoc]

/-- Text stands on the line if it is not empty. -/
theorem text {s : String} (hs : s.isEmpty = false) : EndsOnLine width [.text s] := by
  intro depth fresh
  refine ⟨depth, fun qs => ?_⟩
  rw [List.singleton_append, ink, ink, hs, if_neg Bool.false_ne_true, if_neg Bool.false_ne_true,
    ink, List.append_nil]

theorem concat (ps : List Piece) {s : String} (hs : s.isEmpty = false) :
    EndsOnLine width (ps ++ [.text s]) :=
  (text hs).after ps

theorem block (lines : List Piece) : EndsOnLine width (blockLayout st lines) := by
  rw [blockLayout]
  split
  · exact text rfl
  · have hbraces : Piece.braces lines =
        (.text "\x7b" :: .newline :: .enter :: lines ++ [.leave]) ++ [.text "\x7d"] := by
      simp [Piece.braces]
    rw [hbraces]
    exact concat _ rfl

/-- The end of a level leaves the line as it is. -/
theorem leave {ps : List Piece} (h : EndsOnLine width ps) : EndsOnLine width (ps ++ [.leave]) := by
  intro depth fresh
  obtain ⟨d, hink⟩ := h depth fresh
  refine ⟨d - 1, fun qs => ?_⟩
  rw [List.append_assoc, hink, hink, List.singleton_append, ink, ink, ink, List.append_nil]

end EndsOnLine

/-- Pieces that end within a line, or leave no trace at all. -/
def EndsInLine (width : Nat) (ps : List Piece) : Prop :=
  ∀ depth fresh, ∃ depth' fresh', (fresh' = true → fresh = true ∧ depth' = depth) ∧ ∀ qs,
    ink width depth fresh (ps ++ qs) = ink width depth fresh ps ++ ink width depth' fresh' qs

theorem EndsOnLine.inLine {ps : List Piece} (h : EndsOnLine width ps) : EndsInLine width ps := by
  intro depth fresh
  obtain ⟨d, hink⟩ := h depth fresh
  exact ⟨d, false, Bool.noConfusion, hink⟩

namespace EndsInLine

theorem append {ps qs : List Piece} (h : EndsInLine width ps) (h' : EndsInLine width qs) :
    EndsInLine width (ps ++ qs) := by
  intro depth fresh
  obtain ⟨d, f, hfresh, hink⟩ := h depth fresh
  obtain ⟨d', f', hfresh', hink'⟩ := h' d f
  refine ⟨d', f', fun hf => ?_, fun rs => ?_⟩
  · obtain ⟨hf, rfl⟩ := hfresh' hf
    exact hfresh hf
  · rw [List.append_assoc, hink, hink', hink, List.append_assoc]

theorem text (s : String) : EndsInLine width [.text s] := by
  cases hs : s.isEmpty with
  | true =>
    intro depth fresh
    refine ⟨depth, fresh, fun hf => ⟨hf, rfl⟩, fun qs => ?_⟩
    rw [List.singleton_append, ink, ink, hs, if_pos rfl, if_pos rfl]
    rfl
  | false => exact (EndsOnLine.text hs).inLine

/-- Whatever was before, text that is not empty ends within a line. -/
theorem concat (ps : List Piece) {s : String} (hs : s.isEmpty = false) :
    EndsInLine width (ps ++ [.text s]) :=
  (EndsOnLine.concat ps hs).inLine

theorem grouped {ps : List Piece} (group : Bool) (h : EndsInLine width ps) :
    EndsInLine width (Piece.grouped group ps) := by
  cases group with
  | false => exact h
  | true => exact concat (.text "(" :: ps) rfl

theorem operator (ps : List Piece) (o : Operator) (right : Expr) (group : Bool) :
    EndsInLine width (ps ++ operatorLayout st o.spelling right group) := by
  rw [operatorLayout]
  split
  · exact concat ps (by cases o <;> decide)
  · exact concat ps (by cases o <;> decide)

theorem block (ps lines : List Piece) : EndsInLine width (ps ++ blockLayout st lines) :=
  ((EndsOnLine.block lines).after ps).inLine

end EndsInLine

/-- No expression ends with a line end. -/
theorem Expr.endsInLine (e : Expr) : EndsInLine width (e.layout st) := by
  cases e with
  | ident _ name => exact .text name
  | literal _ value => exact .text value.text
  | binary _ op _ right =>
    exact (EndsInLine.operator _ op.operator right _).append (.grouped _ right.endsInLine)
  | assign _ op _ value =>
    exact (EndsInLine.operator _ op.operator value _).append value.endsInLine
  | update _ op isPrefix argument =>
    have hne : op.spelling.isEmpty = false := by cases op <;> decide
    cases isPrefix with
    | true => exact (EndsInLine.text op.spelling).append argument.endsInLine
    | false => exact .concat (argument.layout st) hne
  | member _ owner property =>
    have hname : EndsInLine width (Piece.grouped owner.groupsBeforePostfix (owner.layout st) ++
        [.text "."] ++ [.text property.text]) := (EndsInLine.concat _ rfl).append (.text _)
    rw [List.append_assoc] at hname
    exact hname
  | arrow _ params body =>
    have hblock : EndsInLine width (paramsLayout st params ++ [.text " => "] ++
        blockLayout st (linesLayout st body)) := .block _ _
    rw [List.append_assoc] at hblock
    exact hblock
  -- every other expression ends with a sign that closes it
  | _ => exact .concat _ rfl

/-! ## Texts one after the other -/

/-- Text is laid out as it stands after some spaces, if it is indented. -/
theorem ink_text (width depth : Nat) (fresh : Bool) (s : String) :
    ∃ n, ink width depth fresh [.text s] = List.replicate n ' ' ++ s.toList ∧
      ((fresh = true → depth = 0) → n = 0) := by
  rw [ink]
  split
  · rename_i hs
    rw [String.isEmpty_iff.mp hs]
    exact ⟨0, rfl, fun _ => rfl⟩
  · cases fresh with
    | false => exact ⟨0, List.append_nil _, fun _ => rfl⟩
    | true =>
      refine ⟨depth * width, List.append_nil _, fun h => ?_⟩
      rw [h rfl, Nat.zero_mul]

/-- An expression as text in the given style. -/
def Expr.format (st : Style) (e : Expr) : String := render st.indent (e.layout st)

/-- Text after that of an expression goes on in the last line. -/
theorem Expr.ink_concat (e : Expr) (s : String) :
    ink st.indent 0 true (e.layout st ++ [.text s]) = (e.format st).toList ++ s.toList := by
  have hends : EndsInLine st.indent (e.layout st) := e.endsInLine
  obtain ⟨depth, fresh, hfresh, hink⟩ := hends 0 true
  obtain ⟨n, htext, hn⟩ := ink_text st.indent depth fresh s
  rw [hink, htext, hn fun hf => (hfresh hf).2, Expr.format, render_toList]
  rfl

/-- Text is laid out as what it is, for it may be indented as far as it is concerned. -/
theorem Lays.ofScans {after : String} {ts : List Terminal} (h : Scans after.toList ts) :
    Lays width [.text after] ts := by
  intro depth fresh
  obtain ⟨n, htext, -⟩ := ink_text width depth fresh after
  show Scans (ink width depth fresh [.text after]) ts
  rw [htext]
  refine .blanks (fun b hb => ?_) h
  rw [List.eq_of_mem_replicate hb]
  decide

/-- **An expression beside other text** is spelled out as it is alone, if a break follows. -/
theorem Expr.scans_beside (st : Style) {e : Expr} (he : e.Everywhere Node.IsPlain)
    {before after : String} {us ts : List Terminal} (hbefore : Spells Anything before.toList us)
    (hafter : Scans after.toList ts) (hbreaks : Breaks after.toList) :
    Scans (before ++ e.format st ++ after).toList (us ++ (e.terminals ++ ts)) := by
  have hinked : Inked st.indent Breaks [.text after] := by
    intro depth fresh
    obtain ⟨n, htext, -⟩ := ink_text st.indent depth fresh after
    show Breaks (ink st.indent depth fresh [.text after])
    rw [htext]
    cases n with
    | zero => exact hbreaks
    | succ n => exact breaks_space _
  have hscans : Scans (ink st.indent 0 true (e.layout st ++ [.text after])) (e.terminals ++ ts) :=
    (laid_tree st.indent st).all.1 e he [.text after] ts hinked (.ofScans hafter) 0 true
  rw [e.ink_concat] at hscans
  rw [String.toList_append, String.toList_append, List.append_assoc]
  exact hbefore _ _ trivial hscans

/-! ## Statements beside other text -/

/-- A statement that is no comment, nor has one for a branch, ends with a sign. -/
theorem Statement.endsOnLine {s : Statement} (hs : s.Everywhere Node.IsPlain)
    (hcomment : s.isComment = false) : EndsOnLine width (s.layout st) := by
  cases s with
  | function sp name params body =>
    have hblock : EndsOnLine width (blockLayout st (linesLayout st body)) := .block _
    exact (hblock.after [.text " "]).after _
  | block sp body => exact .block _
  | cond sp test consequent alternate =>
    obtain ⟨⟨hw, hx⟩, -, hc, ha⟩ := Statement.everywhere_cond.mp hs
    rw [Node.isWritable, Bool.and_eq_true, Bool.not_eq_true'] at hw
    cases alternate with
    | none =>
      have hconsequent := (endsOnLine hc hw.1).after [.text ") "]
      rw [layout, alternateLayout, List.append_nil]
      exact hconsequent.after _
    | some a =>
      have halternate := (endsOnLine (ha a rfl) (Bool.not_eq_true' _ ▸ hw.2)).after [.text " else "]
      exact halternate.after _
  | loop sp init test update body =>
    obtain ⟨⟨hw, -⟩, -, -, -, hb⟩ := Statement.everywhere_loop.mp hs
    rw [Node.isWritable, Bool.not_eq_true'] at hw
    have hbody := endsOnLine hb hw
    have htail : EndsOnLine width (if body.shape = .blockStatement then .text " " :: body.layout st
        else .newline :: .enter :: body.layout st ++ [.leave]) := by
      split
      · exact hbody.after [.text " "]
      · exact (hbody.after [.newline, .enter]).leave
    exact (htail.after [.text ")"]).after _
  | comment sp text => exact Bool.noConfusion hcomment
  -- every other statement ends with a semicolon
  | _ => exact .concat _ rfl

/-- A statement as text in the given style, without the end of its last line. -/
def Statement.format (st : Style) (s : Statement) : String := render st.indent (s.layout st)

/-- **A statement beside other text** is spelled out as it is alone. -/
theorem Statement.scans_beside (st : Style) {s : Statement} (hs : s.Everywhere Node.IsPlain)
    (hcomment : s.isComment = false) {before after : String} {us ts : List Terminal}
    (hbefore : Spells Anything before.toList us) (hafter : Scans after.toList ts) :
    Scans (before ++ s.format st ++ after).toList (us ++ (s.terminals ++ ts)) := by
  have hlaid := (laid_tree st.indent st).all.2.2 s hs
  have hscans := hlaid.before hcomment (Lays.ofScans hafter) 0 true
  have hends : EndsOnLine st.indent (s.layout st) := s.endsOnLine hs hcomment
  obtain ⟨depth, hink⟩ := hends 0 true
  obtain ⟨n, htext, hn⟩ := ink_text st.indent depth false after
  have hcons : ink st.indent 0 true (s.layout st ++ [.text after]) =
      (s.format st).toList ++ after.toList := by
    rw [hink, htext, hn Bool.noConfusion, Statement.format, render_toList]
    rfl
  rw [String.toList_append, String.toList_append, List.append_assoc, ← hcons]
  exact hbefore _ _ trivial hscans

end CurlyScript
