import CurlyScript.Proofs.Layout.Alike
import CurlyScript.Proofs.Layout.Ink

/-
  A layout spells out the terminals of its tree.

  For a plain tree the layout in EVERY style is the terminals of the tree, with blanks between them
  (`Program.scans_format`).  An expression may end with a word, so what follows it must be a break;
  a statement ends with a sign, or it is a comment, and then a line end must follow.

  The one place where a layout has to look ahead is an operator before `++` or `--`.
-/

namespace CurlyScript

open Terminal

variable {width : Nat} {st : Style}

/-- The layout of an expression spells it out before whatever is a break. -/
def Expr.IsLaid (width : Nat) (st : Style) (e : Expr) : Prop :=
  ∀ ps ts, Inked width Breaks ps → Lays width ps ts →
    Lays width (e.layout st ++ ps) (e.terminals ++ ts)

/-- The layout of a declaration spells it out before whatever is a break. -/
def Decl.IsLaid (width : Nat) (st : Style) (d : Decl) : Prop :=
  ∀ ps ts, Inked width Breaks ps → Lays width ps ts →
    Lays width (d.layout st ++ ps) (d.terminals ++ ts)

/-- What follows is the end of the line. -/
def EndsLine (rest : List Char) : Prop := ∀ d ∈ rest.head?, d = '\n'

/-- The layout of a statement spells it out before whatever is a new line after a comment. -/
def Statement.IsLaid (width : Nat) (st : Style) (s : Statement) : Prop :=
  ∀ ps ts, (s.isComment = true → Inked width EndsLine ps) → Lays width ps ts →
    Lays width (s.layout st ++ ps) (s.terminals ++ ts)

/-- What follows matters after a comment only. -/
theorem Statement.IsLaid.before {s : Statement} (h : s.IsLaid width st)
    (hs : s.isComment = false) {ps : List Piece} {ts : List Terminal} (hps : Lays width ps ts) :
    Lays width (s.layout st ++ ps) (s.terminals ++ ts) := by
  refine h ps ts (fun hyes => ?_) hps
  rw [hs] at hyes
  exact Bool.noConfusion hyes

/-! ## Signs -/

section signs

variable {ps : List Piece} {ts : List Terminal}

theorem Lays.punctuation (p : Punctuation) (h : Lays width ps ts) :
    Lays width (.text p.spelling :: ps) (punctuation p :: ts) := by
  have hne : p.spelling.isEmpty = false := by cases p <;> decide
  exact .text (Spells.punctuation p) hne inked_anything h

theorem isEmpty_name_append {s : String} (hs : isName s = true) (t : String) :
    (s ++ t).isEmpty = false := by
  cases hcs : s.toList with
  | nil =>
    rw [isName, hcs] at hs
    exact Bool.noConfusion hs
  | cons c cs =>
    refine @isEmpty_eq_false _ c (cs ++ t.toList) ?_
    rw [String.toList_append, hcs]
    rfl

theorem Lays.name {s : String} (hs : isName s = true) (hb : Inked width Breaks ps)
    (h : Lays width ps ts) : Lays width (.text s :: ps) (Terminal.name s :: ts) := by
  refine .text (Spells.name hs) ?_ hb h
  rw [← String.append_empty (s := s)]
  exact isEmpty_name_append hs ""

theorem Lays.space (h : Lays width ps ts) : Lays width (.text " " :: ps) ts := by
  have hspace : Spells Anything (" ").toList [] := Spells.blank
  exact .text hspace rfl inked_anything h

/-- A step sign runs into nothing. -/
theorem Lays.update (op : UpdateOp) (h : Lays width ps ts) :
    Lays width (.text op.spelling :: ps) (operator op.operator :: ts) := by
  have hne : op.spelling.isEmpty = false := by cases op <;> decide
  exact .text (Spells.update op) hne inked_anything h

/-- What may stand after the sign of an operator. -/
def KeepsApart (o : Operator) (rest : List Char) : Prop :=
  ∀ d ∈ rest.head?, (Sign.operator o).runsInto d = false

theorem Spells.operator (o : Operator) :
    Spells (KeepsApart o) o.spelling.toList [operator o] :=
  fun _ _ hr hs => .sign (.operator o) hr hs

theorem keepsApart_space (o : Operator) (rest : List Char) : KeepsApart o (' ' :: rest) := by
  intro d hd
  rw [← Option.some.inj hd]
  cases o <;> decide

theorem Spells.spacedOperator (o : Operator) :
    Spells Anything (" " ++ o.spelling ++ " ").toList [.operator o] := by
  rw [String.toList_append, String.toList_append]
  exact ((Spells.operator o).spaced (keepsApart_space o)).space

theorem inked_breaks_operator (st : Style) (o : Operator) (right : Expr) (grouped : Bool) :
    Inked width Breaks (operatorLayout st o.spelling right grouped ++ ps) := by
  rw [operatorLayout]
  split
  · cases o <;> exact inked_breaks_text rfl (by decide) (by decide)
  · cases o <;> exact inked_breaks_text rfl (by decide) (by decide)

/-- An operator is spelled out before its right operand, with spaces around it if it would run
    into the operand. -/
theorem Lays.operatorLayout (st : Style) (o : Operator) {right : Expr}
    (hr : right.Everywhere Node.IsPlain)
    (h : Lays width (right.layout st ++ ps) (right.terminals ++ ts)) :
    Lays width (operatorLayout st o.spelling right false ++ (right.layout st ++ ps))
      (.operator o :: (right.terminals ++ ts)) := by
  rw [CurlyScript.operatorLayout]
  split
  · have hne : (" " ++ o.spelling ++ " ").isEmpty = false := by cases o <;> decide
    exact .text (Spells.spacedOperator o) hne inked_anything h
  · rename_i hglue
    have hne : o.spelling.isEmpty = false := by cases o <;> decide
    refine .text (Spells.operator o) hne (fun depth fresh d hd => ?_) h
    -- the operand begins with its first terminal, and that is no step of this sign
    obtain ⟨us, hus⟩ := right.terminals_eq_first
    have hscan := h depth fresh
    have hspelled : right.first.isSpelled = true :=
      hscan.isSpelled _ (by rw [hus]; exact List.mem_cons_self)
    rw [hus] at hscan
    cases hruns : (Sign.operator o).runsInto d with
    | false => rfl
    | true =>
      exfalso
      rcases hscan.head d hd with hblank | hfirst
      · rcases runsInto_operator hruns with hmem | ⟨-, rfl⟩ | ⟨-, rfl⟩
        · have hnot := List.all_eq_true.mp isBlank_runOns d hmem
          rw [hblank] at hnot
          exact Bool.noConfusion hnot
        · exact absurd hblank (by decide)
        · exact absurd hblank (by decide)
      · obtain ⟨hmem, hplus, hminus⟩ :=
          head_beginsExpression hspelled right.first_beginsExpression hfirst
        have hglued : ∀ op : UpdateOp, right.first = .operator op.operator →
            o.spelling.toList.getLast? = some op.sign → False := by
          intro op hop hlast
          apply hglue
          have hlead := Expr.leadingUpdate?_of_first hr hop
          rw [gluesTo, hlead]
          simp [hlast]
        rcases runsInto_operator hruns with hm | ⟨rfl, rfl⟩ | ⟨rfl, rfl⟩
        · exact hmem hm
        · exact hglued .increment (hplus rfl) rfl
        · exact hglued .decrement (hminus rfl) rfl

end signs

/-! ## Lists -/

section lists

variable {γ : Type} {l : γ → List Piece} {t : γ → List Terminal} {ps : List Piece}
  {ts : List Terminal}

/-- Items with commas between them are spelled out if each of them is, before a break. -/
theorem lays_intercalate {sep : List Piece} (hbreak : ∀ qs, Inked width Breaks (sep ++ qs))
    (hsep : ∀ qs us, Lays width qs us →
      Lays width (sep ++ qs) (Terminal.punctuation .comma :: us))
    {xs : List γ} (hx : ∀ x ∈ xs, ∀ qs us, Inked width Breaks qs → Lays width qs us →
      Lays width (l x ++ qs) (t x ++ us))
    (hps : Inked width Breaks ps) (h : Lays width ps ts) :
    Lays width (List.intercalate sep (xs.map l) ++ ps)
      (List.intercalate [Terminal.punctuation .comma] (xs.map t) ++ ts) := by
  induction xs with
  | nil => exact h
  | cons x xs ih =>
    have hrest := ih fun y hy => hx y (List.mem_cons_of_mem x hy)
    cases xs with
    | nil =>
      rw [List.map_singleton, List.map_singleton, List.intercalate_singleton,
        List.intercalate_singleton]
      exact hx x List.mem_cons_self ps ts hps h
    | cons y ys =>
      rw [List.map_cons, List.map_cons, List.map_cons, List.map_cons,
        List.intercalate_cons_cons, List.intercalate_cons_cons]
      simp only [List.append_assoc]
      -- what follows `x` is a comma, so it is a break whatever the other items are
      exact hx x List.mem_cons_self _ _ (hbreak _) (hsep _ _ hrest)

theorem lays_comma (st : Style) (h : Lays width ps ts) :
    Lays width (.text st.comma :: ps) (Terminal.punctuation .comma :: ts) := by
  rw [Style.comma]
  split
  · exact .text Spells.commaSpace rfl inked_anything h
  · exact h.punctuation .comma

theorem inked_breaks_comma (st : Style) : Inked width Breaks (.text st.comma :: ps) := by
  rw [Style.comma]
  split
  · exact inked_breaks_text rfl (by decide) (by decide)
  · exact inked_breaks_text rfl (by decide) (by decide)

/-- Items on one line, up to a closing sign. -/
theorem lays_inline (st : Style) {close : Punctuation} (hclose : close ≠ .dot) {xs : List γ}
    (hx : ∀ x ∈ xs, ∀ qs us, Inked width Breaks qs → Lays width qs us →
      Lays width (l x ++ qs) (t x ++ us)) (h : Lays width ps ts) :
    Lays width (Piece.inline st.comma (xs.map l) ++ .text close.spelling :: ps)
      (separated close (xs.map t) ++ ts) := by
  rw [separated, List.append_assoc]
  exact lays_intercalate (fun _ => inked_breaks_comma st) (fun _ _ hq => lays_comma st hq) hx
    (inked_breaks_punctuation close hclose) (h.punctuation close)

/-- The entries of a literal, up to its closing sign. -/
theorem lays_entries (st : Style) {close : Punctuation} (hclose : close ≠ .dot) {xs : List γ}
    (hx : ∀ x ∈ xs, ∀ qs us, Inked width Breaks qs → Lays width qs us →
      Lays width (l x ++ qs) (t x ++ us)) (h : Lays width ps ts) :
    Lays width (entriesLayout st (xs.map l) ++ .text close.spelling :: ps)
      (separated close (xs.map t) ++ ts) := by
  rw [entriesLayout]
  split
  · rename_i hempty
    rw [List.isEmpty_iff, List.map_eq_nil_iff] at hempty
    rw [hempty]
    exact h.punctuation close
  · split
    · rw [separated, List.append_assoc, Piece.stacked]
      simp only [List.cons_append, List.append_assoc, List.nil_append]
      refine .newline (.enter ?_)
      have hend : Lays width (.newline :: .leave :: .text close.spelling :: ps)
          (Terminal.punctuation close :: ts) := .newline (.leave (h.punctuation close))
      exact lays_intercalate (fun _ => inked_breaks_text rfl (by decide) (by decide))
        (fun _ _ hq => (Lays.newline hq).punctuation .comma) hx inked_breaks_newline hend
    · exact lays_inline st hclose hx h

/-- Names in parentheses. -/
theorem lays_params (st : Style) {params : List Name}
    (hp : params.all (fun p => isName p.text) = true) (h : Lays width ps ts) :
    Lays width (paramsLayout st params ++ ps) (Terminal.params params ++ ts) := by
  rw [List.all_eq_true] at hp
  have hname : ∀ p ∈ params, ∀ qs us, Inked width Breaks qs → Lays width qs us →
      Lays width ([.text p.text] ++ qs) ([Terminal.name p.text] ++ us) :=
    fun p hm qs us hq hl => hl.name (hp p hm) hq
  have hclose : Punctuation.rParen ≠ .dot := nofun
  have hopen := (lays_inline st hclose hname h).punctuation .lParen
  rw [paramsLayout]
  simp only [List.cons_append, List.append_assoc, List.nil_append]
  exact hopen

end lists

/-! ## Blocks -/

section blocks

variable {ps : List Piece} {ts : List Terminal}

theorem linesLayout_eq_nil {body : List Statement} (h : linesLayout st body = []) : body = [] := by
  cases body with
  | nil => rfl
  | cons s body =>
    rw [linesLayout] at h
    exact absurd h (List.append_ne_nil_of_right_ne_nil _ (List.cons_ne_nil _ _))

/-- Statements, each with the end of its line. -/
theorem lays_lines {body : List Statement} (hb : ∀ s ∈ body, s.IsLaid width st)
    (h : Lays width ps ts) :
    Lays width (linesLayout st body ++ ps) (statementsTerminals body ++ ts) := by
  induction body with
  | nil => exact h
  | cons s body ih =>
    have hrest := ih fun x hx => hb x (List.mem_cons_of_mem s hx)
    rw [linesLayout, statementsTerminals]
    simp only [List.append_assoc, List.cons_append]
    -- every line ends, which is all that a comment asks for
    refine hb s List.mem_cons_self _ _ (fun _ depth fresh d hd => ?_) (.newline hrest)
    exact (Option.some.inj hd).symm

/-- A block: its lines between braces. -/
theorem lays_block {body : List Statement} (hb : ∀ s ∈ body, s.IsLaid width st)
    (h : Lays width ps ts) :
    Lays width (blockLayout st (linesLayout st body) ++ ps)
      (punctuation .lBrace :: (statementsTerminals body ++ punctuation .rBrace :: ts)) := by
  rw [blockLayout]
  split
  · rename_i hempty
    rw [Bool.and_eq_true, List.isEmpty_iff] at hempty
    rw [linesLayout_eq_nil hempty.1]
    exact .text Spells.bracePair rfl inked_anything h
  · rw [Piece.braces]
    simp only [List.cons_append, List.append_assoc, List.nil_append]
    have hclose : Lays width (.leave :: .text Punctuation.rBrace.spelling :: ps)
        (punctuation .rBrace :: ts) := .leave (h.punctuation .rBrace)
    exact (Lays.newline (.enter (lays_lines hb hclose))).punctuation .lBrace

end blocks

/-! ## Trees -/

theorem Lays.literal {value : Literal} {sp : Span} {ps : List Piece} {ts : List Terminal}
    (hw : (Node.expr (.literal sp value)).isWritable Number.isPlain = true)
    (hps : Inked width Breaks ps) (h : Lays width ps ts) :
    Lays width (.text value.text :: ps) (value.terminal :: ts) := by
  cases value with
  | number x =>
    have hn := Number.isNumeral_text hw
    have hspells : Spells Breaks x.text.toList [⟨.number, x.text⟩] := by
      intro rest us hr hs
      have hscan := Scans.numeral hn hr hs
      rwa [String.ofList_toList] at hscan
    have hne : x.text.isEmpty = false := by
      obtain ⟨ds, tail, hds, -, htext, -⟩ := isNumeral_iff.mp hn
      obtain ⟨c, ds, rfl⟩ := List.exists_cons_of_ne_nil hds
      exact isEmpty_eq_false htext
    exact .text hspells hne hps h
  | string s =>
    have hq : isQuoted (Text.encode s).toList = true := by
      rw [Text.encode, String.toList_ofList]
      exact isQuoted_encode s.toList
    have hspells : Spells Anything (Text.encode s).toList [⟨.string, Text.encode s⟩] := by
      intro rest us _ hs
      have hscan := Scans.quoted hq hs
      rwa [String.ofList_toList] at hscan
    have hne : (Text.encode s).isEmpty = false :=
      isEmpty_eq_false (c := '"') (by rw [Text.encode, String.toList_ofList]; rfl)
    exact .text hspells hne inked_anything h
  | bool b =>
    cases b with
    | true => exact .text (Spells.keyword .true_) rfl hps h
    | false => exact .text (Spells.keyword .false_) rfl hps h
  | null => exact .text (Spells.keyword .null) rfl hps h
  | undefined => exact .text (Spells.keyword .undefined) rfl hps h

/-- A point before a name ends a word before it, since no name begins with a digit. -/
theorem breaks_dot {s : String} (hs : isName s = true) (rest : List Char) :
    Breaks ('.' :: (s.toList ++ rest)) := by
  refine ⟨fun d hd => ?_, fun d ds hd => ?_⟩
  · rw [← Option.some.inj hd]
    decide
  · rw [isName, Bool.and_eq_true] at hs
    cases hcs : s.toList with
    | nil =>
      rw [hcs] at hs
      exact Bool.noConfusion hs.1
    | cons c cs =>
      rw [hcs, isWord, Bool.and_eq_true] at hs
      rw [hcs] at hd
      rw [← (List.cons.inj (List.cons.inj hd).2).1]
      exact isDigit_eq_false_of_isWordStart hs.1.1

theorem inked_breaks_dot {s : String} {ps : List Piece} (hs : isName s = true) :
    Inked width Breaks (.text "." :: .text s :: ps) := by
  intro depth fresh
  have hpoint : (".").isEmpty = false := rfl
  have hne : s.isEmpty = false := by
    rw [← String.append_empty (s := s)]
    exact isEmpty_name_append hs ""
  have hink : ink width depth fresh (.text "." :: .text s :: ps) =
      (if fresh then List.replicate (depth * width) ' ' else []) ++
        '.' :: (s.toList ++ ink width depth false ps) := by
    simp only [ink, hne, hpoint, Bool.false_eq_true, if_false]
    simp
  show Breaks (ink width depth fresh (.text "." :: .text s :: ps))
  rw [hink]
  split
  · cases depth * width with
    | zero => exact breaks_dot hs _
    | succ k => exact breaks_space _
  · exact breaks_dot hs _

namespace Expr

theorem isLaid_ident (sp : Span) {s : String} (hs : isName s = true) :
    (ident sp s).IsLaid width st :=
  fun _ _ hps h => h.name hs hps

theorem isLaid_literal (sp : Span) {value : Literal}
    (hw : (Node.expr (.literal sp value)).isWritable Number.isPlain = true) :
    (literal sp value).IsLaid width st :=
  fun _ _ hps h => h.literal hw hps

theorem isLaid_binary (sp : Span) {op : BinaryOp} {left right : Expr}
    (hl : left.IsLaid width st) (hr : right.IsLaid width st) (hp : right.Everywhere Node.IsPlain)
    (hgl : op.groupsLeft left = false) (hgr : op.groupsRight right = false) :
    (binary sp op left right).IsLaid width st := by
  intro ps ts hps h
  have hright := (hr ps ts hps h).operatorLayout st op.operator hp
  have hleft := hl _ _ (inked_breaks_operator st op.operator right false) hright
  rw [layout, terminals, hgl, hgr]
  simp only [Piece.grouped, List.append_assoc, List.cons_append]
  exact hleft

theorem isLaid_assign (sp : Span) (op : AssignOp) {target value : Expr}
    (ht : target.IsLaid width st) (hv : value.IsLaid width st)
    (hp : value.Everywhere Node.IsPlain) : (assign sp op target value).IsLaid width st := by
  intro ps ts hps h
  have hvalue := (hv ps ts hps h).operatorLayout st op.operator hp
  have htarget := ht _ _ (inked_breaks_operator st op.operator value false) hvalue
  rw [layout, terminals]
  simp only [List.append_assoc, List.cons_append]
  exact htarget

theorem isLaid_update (sp : Span) (op : UpdateOp) (isPrefix : Bool) {argument : Expr}
    (ha : argument.IsLaid width st) : (update sp op isPrefix argument).IsLaid width st := by
  intro ps ts hps h
  cases isPrefix with
  | true => exact (ha ps ts hps h).update op
  | false =>
    have hbreak : Inked width Breaks (.text op.spelling :: ps) := by
      cases op <;> exact inked_breaks_text rfl (by decide) (by decide)
    have hargument := ha _ _ hbreak (h.update op)
    rw [layout, terminals]
    simp only [Bool.false_eq_true, if_false, List.append_assoc, List.cons_append, List.nil_append]
    exact hargument

theorem isLaid_call (sp : Span) {callee : Expr} {args : List Expr} (hc : callee.IsLaid width st)
    (ha : ∀ a ∈ args, a.IsLaid width st) (hg : callee.groupsBeforePostfix = false) :
    (call sp callee args).IsLaid width st := by
  intro ps ts _ h
  have hclose : Punctuation.rParen ≠ .dot := nofun
  have hargs := (lays_inline st hclose ha h).punctuation .lParen
  have hcallee := hc _ _ (inked_breaks_punctuation .lParen nofun) hargs
  rw [layout, terminals, hg, exprsLayout_eq_map, exprsTerminals_eq_map]
  simp only [Piece.grouped, List.append_assoc, List.cons_append, List.nil_append]
  exact hcallee

theorem isLaid_member (sp : Span) {owner : Expr} {property : Name} (ho : owner.IsLaid width st)
    (hn : isName property.text = true) (hg : owner.groupsBeforePostfix = false) :
    (member sp owner property).IsLaid width st := by
  intro ps ts hps h
  have howner := ho _ _ (inked_breaks_dot hn) ((h.name hn hps).punctuation .dot)
  rw [layout, terminals, hg]
  simp only [Piece.grouped, List.append_assoc, List.cons_append, List.nil_append]
  exact howner

theorem isLaid_index (sp : Span) {owner key : Expr} (ho : owner.IsLaid width st)
    (hk : key.IsLaid width st) (hg : owner.groupsBeforePostfix = false) :
    (index sp owner key).IsLaid width st := by
  intro ps ts _ h
  have hkey := hk _ _ (inked_breaks_punctuation .rBracket nofun) (h.punctuation .rBracket)
  have howner := ho _ _ (inked_breaks_punctuation .lBracket nofun) (hkey.punctuation .lBracket)
  rw [layout, terminals, hg]
  simp only [Piece.grouped, List.append_assoc, List.cons_append, List.nil_append]
  exact howner

theorem isLaid_arrow (sp : Span) {params : List Name} {body : List Statement}
    (hp : params.all (fun p => isName p.text) = true) (hb : ∀ s ∈ body, s.IsLaid width st) :
    (arrow sp params body).IsLaid width st := by
  intro ps ts _ h
  have hbody := lays_block hb h
  have harrow := Lays.text Spells.spaceArrow rfl inked_anything hbody
  have hparams := lays_params st hp harrow
  rw [layout, terminals]
  simp only [List.append_assoc, List.cons_append, List.nil_append]
  exact hparams

theorem isLaid_object (sp : Span) {properties : List Property}
    (hp : ∀ key value, .mk key value ∈ properties →
      isName key.text = true ∧ value.IsLaid width st) :
    (object sp properties).IsLaid width st := by
  intro ps ts _ h
  have hclose : Punctuation.rBrace ≠ .dot := nofun
  have hitem : ∀ p ∈ properties, ∀ qs us, Inked width Breaks qs → Lays width qs us →
      Lays width (p.layout st ++ qs) (p.terminals ++ us) := by
    rintro ⟨key, value⟩ hm qs us hqs hq
    obtain ⟨hk, hv⟩ := hp key value hm
    have hspells : Spells Anything (key.text ++ ": ").toList
        [Terminal.name key.text, punctuation .colon] := by
      rw [String.toList_append]
      exact (Spells.name hk).append ((Spells.punctuation .colon).spaced fun _ => trivial)
        fun _ _ => breaks_cons (by decide) (by decide) _
    have hentry := Lays.text hspells (isEmpty_name_append hk _) inked_anything (hv qs us hqs hq)
    exact hentry
  have hopen := (lays_entries st hclose hitem h).punctuation .lBrace
  rw [layout, terminals, propertiesLayout_eq_map, propertiesTerminals_eq_map]
  simp only [List.append_assoc, List.cons_append, List.nil_append]
  exact hopen

theorem isLaid_array (sp : Span) {elements : List Expr} (he : ∀ e ∈ elements, e.IsLaid width st) :
    (array sp elements).IsLaid width st := by
  intro ps ts _ h
  have hclose : Punctuation.rBracket ≠ .dot := nofun
  have hopen := (lays_entries st hclose he h).punctuation .lBracket
  rw [layout, terminals, exprsLayout_eq_map, exprsTerminals_eq_map]
  simp only [List.append_assoc, List.cons_append, List.nil_append]
  exact hopen

theorem isLaid_paren (sp : Span) {inner : Expr} (hi : inner.IsLaid width st) :
    (paren sp inner).IsLaid width st := by
  intro ps ts _ h
  have hinner := hi _ _ (inked_breaks_punctuation .rParen nofun) (h.punctuation .rParen)
  rw [layout, terminals]
  simp only [List.append_assoc, List.cons_append, List.nil_append]
  exact hinner.punctuation .lParen

end Expr

/-- A value that may be left out, with a sign or a space before it. -/
theorem lays_option (before : String) {us : List Terminal} {o : Option Expr} {ps : List Piece}
    {ts : List Terminal} (hspells : Spells Anything before.toList us)
    (hne : before.isEmpty = false) (ho : ∀ e ∈ o, e.IsLaid width st)
    (hps : Inked width Breaks ps) (h : Lays width ps ts) :
    Lays width (optionLayout st before o ++ ps) (optionTerminals us o ++ ts) := by
  cases o with
  | none => exact h
  | some e =>
    rw [optionLayout, optionTerminals, List.append_assoc]
    exact .text hspells hne inked_anything (ho e rfl ps ts hps h)

theorem inked_breaks_option (st : Style) (before : String) {c : Char} {cs : List Char}
    (o : Option Expr) {ps : List Piece} (hs : before.toList = c :: cs)
    (hc : isWordPart c = false) (hdot : c ≠ '.') (hps : Inked width Breaks ps) :
    Inked width Breaks (optionLayout st before o ++ ps) := by
  cases o with
  | none => exact hps
  | some e => exact inked_breaks_text hs hc hdot

theorem Decl.isLaid {sp : Span} {kind : DeclKind} {s : Name} {init : Option Expr}
    (hs : isName s.text = true) (hi : ∀ e ∈ init, e.IsLaid width st) :
    (Decl.mk sp kind s init).IsLaid width st := by
  intro ps ts hps h
  have hspells : Spells Breaks (kind.spelling ++ " " ++ s.text).toList
      [.keyword kind.keyword, .name s.text] := by
    rw [String.toList_append, String.toList_append, List.append_assoc]
    exact (Spells.keyword kind.keyword).append (Spells.name hs).space fun _ _ => breaks_space _
  have hne : (kind.spelling ++ " " ++ s.text).isEmpty = false := by
    cases kind <;> exact isEmpty_eq_false (by rw [String.toList_append]; rfl)
  have hinit := lays_option " = " (Spells.spacedOperator .eq) rfl hi hps h
  have hbreak := inked_breaks_option st " = " init rfl (by decide) (by decide) hps
  have hdecl := Lays.text hspells hne hbreak hinit
  exact hdecl

namespace Statement

theorem isLaid_decl {d : Decl} (hd : d.IsLaid width st) : (decl d).IsLaid width st := by
  intro ps ts _ h
  have hdecl := hd _ _ (inked_breaks_punctuation .semicolon nofun) (h.punctuation .semicolon)
  rw [layout, terminals]
  simp only [List.append_assoc, List.cons_append, List.nil_append]
  exact hdecl

theorem isLaid_function (sp : Span) {s : Name} {params : List Name} {body : List Statement}
    (hs : isName s.text = true) (hp : params.all (fun p => isName p.text) = true)
    (hb : ∀ s ∈ body, s.IsLaid width st) : (function sp s params body).IsLaid width st := by
  intro ps ts _ h
  have hspells : Spells Breaks ("function " ++ s.text).toList
      [.keyword .function, .name s.text] := by
    rw [String.toList_append]
    exact (Spells.keyword .function).append (Spells.name hs).space fun _ _ => breaks_space _
  have hne : ("function " ++ s.text).isEmpty = false :=
    isEmpty_eq_false (by rw [String.toList_append]; rfl)
  have hbody := (lays_block hb h).space
  have hparams := lays_params st hp hbody
  have hname := Lays.text hspells hne (inked_breaks_punctuation .lParen nofun) hparams
  rw [layout, terminals]
  simp only [List.append_assoc, List.cons_append, List.nil_append]
  exact hname

theorem isLaid_block (sp : Span) {body : List Statement} (hb : ∀ s ∈ body, s.IsLaid width st) :
    (block sp body).IsLaid width st := by
  intro ps ts _ h
  rw [layout, terminals]
  simp only [List.append_assoc, List.cons_append, List.nil_append]
  exact lays_block hb h

theorem isLaid_ret (sp : Span) {argument : Option Expr} (ha : ∀ e ∈ argument, e.IsLaid width st) :
    (ret sp argument).IsLaid width st := by
  intro ps ts _ h
  have hsemi : Inked width Breaks (.text Punctuation.semicolon.spelling :: ps) :=
    inked_breaks_punctuation .semicolon nofun
  have hargument := lays_option " " Spells.blank rfl ha hsemi (h.punctuation .semicolon)
  have hbreak := inked_breaks_option st " " argument rfl (by decide) (by decide) hsemi
  have hne : Keyword.return_.spelling.isEmpty = false := by decide
  have hret := Lays.text (Spells.keyword .return_) hne hbreak hargument
  rw [layout, terminals]
  simp only [List.append_assoc, List.cons_append, List.nil_append]
  exact hret

theorem isLaid_cond (sp : Span) {test : Expr} {consequent : Statement}
    {alternate : Option Statement} (ht : test.IsLaid width st) (hc : consequent.IsLaid width st)
    (ha : ∀ s ∈ alternate, s.IsLaid width st) (hcomment : consequent.isComment = false)
    (hacomment : ∀ s ∈ alternate, s.isComment = false)
    (hopen : alternate.isSome = true → consequent.endsWithOpenIf = false) :
    (cond sp test consequent alternate).IsLaid width st := by
  intro ps ts _ h
  have halternate : Lays width (alternateLayout st alternate ++ ps)
      (alternateTerminals alternate ++ ts) := by
    cases alternate with
    | none => exact h
    | some a =>
      have hbranch := (ha a rfl).before (hacomment a rfl) h
      have helse := Lays.text Spells.spaceElse rfl inked_anything hbranch
      exact helse
  have hconsequent := hc.before hcomment halternate
  have hparen := Lays.text Spells.parenSpace rfl inked_anything hconsequent
  have htest := ht _ _ (inked_breaks_text rfl (by decide) (by decide)) hparen
  have hif := Lays.text Spells.ifParen rfl inked_anything htest
  -- an open `if` before an `else` would be given braces, which the tree does not have
  have hbraces : (alternate.isSome && consequent.endsWithOpenIf) = false := by
    cases alternate with
    | none => rfl
    | some a => exact hopen rfl
  rw [layout, terminals, hbraces]
  simp only [Bool.false_eq_true, if_false, List.append_assoc, List.cons_append]
  exact hif

theorem isLaid_loop (sp : Span) {init : Option LoopInit} {test update : Option Expr}
    {body : Statement} (hd : ∀ d, init = some (.decl d) → d.IsLaid width st)
    (he : ∀ e, init = some (.expr e) → e.IsLaid width st) (ht : ∀ e ∈ test, e.IsLaid width st)
    (hu : ∀ e ∈ update, e.IsLaid width st) (hb : body.IsLaid width st)
    (hcomment : body.isComment = false) : (loop sp init test update body).IsLaid width st := by
  intro ps ts _ h
  have hbody : Lays width ((if body.shape = .blockStatement then .text " " :: body.layout st
      else .newline :: .enter :: body.layout st ++ [.leave]) ++ ps) (body.terminals ++ ts) := by
    -- a block goes on the line of the loop, any other body on a line of its own
    split
    · exact (hb.before hcomment h).space
    · simp only [List.append_assoc, List.cons_append, List.nil_append]
      exact .newline (.enter (hb.before hcomment (.leave h)))
  -- from the end of the head to its beginning, since each part asks what follows it
  have hparen := hbody.punctuation .rParen
  have hupdate := lays_option " " Spells.blank rfl hu (inked_breaks_punctuation .rParen nofun)
    hparen
  have hsemi := hupdate.punctuation .semicolon
  have htest := lays_option " " Spells.blank rfl ht (inked_breaks_punctuation .semicolon nofun)
    hsemi
  have hhead := htest.punctuation .semicolon
  have hinit : ∀ {qs us}, Inked width Breaks qs → Lays width qs us →
      Lays width (loopInitLayout st init ++ qs) (loopInitTerminals init ++ us) := by
    intro qs us hqs hq
    match init with
    | none => exact hq
    | some (.decl d) => exact hd d rfl qs us hqs hq
    | some (.expr e) => exact he e rfl qs us hqs hq
  have hloop := Lays.text Spells.forParen rfl inked_anything
    (hinit (inked_breaks_punctuation .semicolon nofun) hhead)
  rw [layout, terminals]
  simp only [List.append_assoc, List.cons_append]
  exact hloop

theorem isLaid_expr (sp : Span) {e : Expr} (he : e.IsLaid width st)
    (hobject : e.startsWithObject = false) : (expr sp e).IsLaid width st := by
  intro ps ts _ h
  have hexpr := he _ _ (inked_breaks_punctuation .semicolon nofun) (h.punctuation .semicolon)
  rw [layout, terminals, hobject]
  simp only [Piece.grouped, List.append_assoc, List.cons_append]
  exact hexpr

theorem isLaid_comment (sp : Span) {text : String} (hs : isCommentText text = true) :
    (comment sp text).IsLaid width st := by
  intro ps ts hps h
  have hspells : Spells EndsLine text.toList [⟨.comment, text⟩] :=
    fun rest us hr hrest => Scans.comment hs hr hrest
  have hne : text.isEmpty = false := by
    cases hcs : text.toList with
    | nil =>
      rw [isCommentText, hcs] at hs
      exact Bool.noConfusion hs
    | cons c cs => exact isEmpty_eq_false hcs
  exact Lays.text hspells hne (hps rfl) h

end Statement

/-! ## Plain trees -/

/-- Every plain tree is spelled out by its layout. -/
theorem laid_tree (width : Nat) (st : Style) : Syntax.Cases
    (fun e => e.Everywhere Node.IsPlain → e.IsLaid width st)
    (fun d => d.Everywhere Node.IsPlain → d.IsLaid width st)
    (fun s => s.Everywhere Node.IsPlain → s.IsLaid width st) where
  ident sp s hp := by
    obtain ⟨-, hn⟩ := Expr.everywhere_ident.mp hp
    exact Expr.isLaid_ident sp hn.1
  literal sp value hp := Expr.isLaid_literal sp (Expr.everywhere_literal.mp hp).1
  binary sp op left right ihl ihr hp := by
    obtain ⟨⟨-, hx⟩, hl, hr⟩ := Expr.everywhere_binary.mp hp
    rw [Node.isExplicit, Bool.and_eq_true, Bool.not_eq_true', Bool.not_eq_true'] at hx
    exact Expr.isLaid_binary sp (ihl hl) (ihr hr) hr hx.1 hx.2
  assign sp op target value iht ihv hp := by
    obtain ⟨-, ht, hv⟩ := Expr.everywhere_assign.mp hp
    exact Expr.isLaid_assign sp op (iht ht) (ihv hv) hv
  update sp op isPrefix argument iha hp := by
    obtain ⟨-, ha⟩ := Expr.everywhere_update.mp hp
    exact Expr.isLaid_update sp op isPrefix (iha ha)
  call sp callee args ihc iha hp := by
    obtain ⟨⟨-, hx⟩, hc, ha⟩ := Expr.everywhere_call.mp hp
    rw [Node.isExplicit, Bool.not_eq_true'] at hx
    exact Expr.isLaid_call sp (ihc hc) (fun a hm => iha a hm (ha a hm)) hx
  member sp owner property iho hp := by
    obtain ⟨⟨hw, hx⟩, ho⟩ := Expr.everywhere_member.mp hp
    rw [Node.isExplicit, Bool.not_eq_true'] at hx
    exact Expr.isLaid_member sp (iho ho) hw hx
  index sp owner key iho ihk hp := by
    obtain ⟨⟨-, hx⟩, ho, hk⟩ := Expr.everywhere_index.mp hp
    rw [Node.isExplicit, Bool.not_eq_true'] at hx
    exact Expr.isLaid_index sp (iho ho) (ihk hk) hx
  arrow sp params body ihb hp := by
    obtain ⟨-, ⟨hw, -⟩, hb⟩ := Expr.everywhere_arrow.mp hp
    rw [Node.isWritable, Bool.and_eq_true] at hw
    exact Expr.isLaid_arrow sp hw.1 fun s hs => ihb s hs (hb s hs)
  object sp properties ihp hp := by
    obtain ⟨⟨hw, -⟩, hall⟩ := Expr.everywhere_object.mp hp
    rw [Node.isWritable, List.all_eq_true] at hw
    exact Expr.isLaid_object sp fun key value hm =>
      ⟨hw _ hm, ihp key value hm (hall key value hm)⟩
  array sp elements ihe hp := by
    obtain ⟨-, hall⟩ := Expr.everywhere_array.mp hp
    exact Expr.isLaid_array sp fun e he => ihe e he (hall e he)
  paren sp inner ihi hp := Expr.isLaid_paren sp (ihi (Expr.everywhere_paren.mp hp).2)
  declaration sp kind s init ihi hp := by
    obtain ⟨hn, hi⟩ := Decl.everywhere_mk.mp hp
    exact Decl.isLaid hn.1 fun e he => ihi e he (hi e he)
  decl d ihd hp := Statement.isLaid_decl (ihd (Statement.everywhere_decl.mp hp).2)
  function sp s params body ihb hp := by
    obtain ⟨-, ⟨hw, -⟩, hb⟩ := Statement.everywhere_function.mp hp
    rw [Node.isWritable, Bool.and_eq_true] at hw
    exact Statement.isLaid_function sp hw.1 hw.2 fun s hs => ihb s hs (hb s hs)
  block sp body ihb hp := by
    obtain ⟨-, -, hb⟩ := Statement.everywhere_block.mp hp
    exact Statement.isLaid_block sp fun s hs => ihb s hs (hb s hs)
  ret sp argument iha hp := by
    obtain ⟨-, ha⟩ := Statement.everywhere_ret.mp hp
    exact Statement.isLaid_ret sp fun e he => iha e he (ha e he)
  cond sp test consequent alternate iht ihc iha hp := by
    obtain ⟨⟨hw, hx⟩, ht, hc, ha⟩ := Statement.everywhere_cond.mp hp
    rw [Node.isWritable, Bool.and_eq_true, Bool.not_eq_true'] at hw
    refine Statement.isLaid_cond sp (iht ht) (ihc hc) (fun s hs => iha s hs (ha s hs)) hw.1
      (fun s hs => ?_) fun hsome => ?_
    · have hall := hw.2
      rw [Option.mem_def.mp hs] at hall
      exact Bool.not_eq_true' _ ▸ hall
    · cases alternate with
      | none => exact Bool.noConfusion hsome
      | some a => exact Bool.not_eq_true' _ ▸ hx
  loop sp init test update body ihd ihe iht ihu ihb hp := by
    obtain ⟨⟨hw, -⟩, ⟨hd, he⟩, ht, hu, hb⟩ := Statement.everywhere_loop.mp hp
    rw [Node.isWritable, Bool.not_eq_true'] at hw
    exact Statement.isLaid_loop sp (fun d h => ihd d h (hd d h)) (fun e h => ihe e h (he e h))
      (fun e h => iht e h (ht e h)) (fun e h => ihu e h (hu e h)) (ihb hb) hw
  expr sp e ihe hp := by
    obtain ⟨⟨-, hx⟩, he⟩ := Statement.everywhere_expr.mp hp
    rw [Node.isExplicit, Bool.not_eq_true'] at hx
    exact Statement.isLaid_expr sp (ihe he) hx
  comment sp text hp := by
    obtain ⟨-, hn⟩ := Statement.everywhere_comment.mp hp
    exact Statement.isLaid_comment sp hn.1

/-- **The terminals of a formatted text** are those of the program, in every style. -/
theorem Program.scans_format {p : Program} (hp : p.Everywhere Node.IsPlain) (st : Style) :
    Scans (Program.format st p).toList (Program.terminals p) := by
  have hall := Program.everywhere_iff.mp hp
  have hlaid := lays_lines (fun s hs => (laid_tree st.indent st).all.2.2 s (hall s hs)) Lays.nil
  rw [List.append_nil, List.append_nil] at hlaid
  rw [Program.format, render_toList]
  exact hlaid 0 true

end CurlyScript
