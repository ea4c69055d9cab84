import CurlyScript.Proofs.Layout.Beside

/-
  How the text of an expression begins.

  Two questions are asked of an expression before it is written next to other text: whether it
  begins with the brace of an object, and with which step.  Both follow the LEFT EDGE of the tree,
  down to where a parenthesis, a bracket or a word comes first.  So does the layout: whatever is
  first on that edge is the first piece of text, with the parentheses that are put around operands,
  callees and owners (`Expr.headed_layout`).

  A piece is at most indented, so the characters of the text begin as the layout does, wherever the
  expression is written (`Headed.foretold`).  So the two questions are answered by the text
  (`Expr.text_begins`).
-/

namespace CurlyScript

/-- The characters that tell an object or a step from all else that an expression begins with. -/
def openings : List Char := ['\x7b', '+', '-']

/-- How a layout begins: with the brace of an object, with a step, or with neither. -/
inductive Headed : Bool → Option UpdateOp → List Piece → Prop
  | brace (ps : List Piece) : Headed true none (.text "\x7b" :: ps)
  | step (op : UpdateOp) (ps : List Piece) : Headed false (some op) (.text op.spelling :: ps)
  | other {s : String} {c : Char} {cs : List Char} (hs : s.toList = c :: cs) (hc : c ∉ openings)
      (ps : List Piece) : Headed false none (.text s :: ps)

variable {brace : Bool} {step : Option UpdateOp} {ps : List Piece} {st : Style}

namespace Headed

/-- What follows does not matter. -/
theorem append (h : Headed brace step ps) (qs : List Piece) : Headed brace step (ps ++ qs) := by
  cases h with
  | brace ps => exact .brace (ps ++ qs)
  | step op ps => exact .step op (ps ++ qs)
  | other hs hc ps => exact .other hs hc (ps ++ qs)

/-- In parentheses nothing begins with what it begins with alone. -/
theorem grouped (group : Bool) (h : Headed brace step ps) :
    Headed (!group && brace) (if group then none else step) (Piece.grouped group ps) := by
  cases group with
  | false => exact h
  | true => exact .other (s := "(") rfl (by decide) (ps ++ [.text ")"])

end Headed

/-- A character of a word begins neither an object nor a step. -/
theorem notMem_openings {c : Char} (hc : isWordPart c = true) : c ∉ openings := by
  intro hmem
  have hnone : openings.all (fun d => !isWordPart d) = true := by decide
  have hnot := List.all_eq_true.mp hnone c hmem
  rw [hc] at hnot
  exact Bool.noConfusion hnot

theorem Headed.name {s : String} (hs : isName s = true) : Headed false none [.text s] := by
  have hword : isWord s.toList = true := (Bool.and_eq_true_iff.mp hs).1
  cases hcs : s.toList with
  | nil =>
    rw [hcs] at hword
    exact Bool.noConfusion hword
  | cons c cs =>
    rw [hcs, isWord, Bool.and_eq_true] at hword
    exact .other hcs (notMem_openings (isWordPart_of_isWordStart hword.1)) []

/-- A literal begins with a digit, a quote or a letter. -/
theorem Headed.literal {value : Literal} {sp : Span}
    (hw : (Node.expr (.literal sp value)).isWritable Number.isPlain = true) :
    Headed false none [.text value.text] := by
  cases value with
  | number x =>
    obtain ⟨ds, tail, hne, hdigits, htext, -⟩ := isNumeral_iff.mp (Number.isNumeral_text hw)
    obtain ⟨d, ds, rfl⟩ := List.exists_cons_of_ne_nil hne
    exact .other htext (notMem_openings (isWordPart_of_isDigit (hdigits d List.mem_cons_self))) []
  | string s => exact .other String.toList_ofList (by decide) []
  | bool b => cases b <;> exact .other rfl (by decide) []
  | null => exact .other rfl (by decide) []
  | undefined => exact .other rfl (by decide) []

/-- **The layout of an expression begins as the left edge of the tree does.** -/
theorem Expr.headed_layout (st : Style) : ∀ {e : Expr}, e.Printable →
    Headed e.startsWithObject e.leadingUpdate? (e.layout st)
  | .ident _ _, he => .name (Expr.everywhere_ident.mp he).2
  | .literal _ _, he => .literal (Expr.everywhere_literal.mp he)
  | .binary _ op left _, he => by
    obtain ⟨-, hleft, -⟩ := Expr.everywhere_binary.mp he
    exact (((headed_layout st hleft).grouped (op.groupsLeft left)).append _).append _
  | .assign _ _ target _, he => by
    obtain ⟨-, htarget, -⟩ := Expr.everywhere_assign.mp he
    exact ((headed_layout st htarget).append _).append _
  | .update _ op isPrefix argument, he => by
    obtain ⟨-, hargument⟩ := Expr.everywhere_update.mp he
    cases isPrefix with
    | true => exact .step op _
    | false => exact (headed_layout st hargument).append _
  | .call _ callee _, he => by
    obtain ⟨-, hcallee, -⟩ := Expr.everywhere_call.mp he
    exact (((headed_layout st hcallee).grouped callee.groupsBeforePostfix).append _).append _
  | .member _ owner _, he => by
    obtain ⟨-, howner⟩ := Expr.everywhere_member.mp he
    exact ((headed_layout st howner).grouped owner.groupsBeforePostfix).append _
  | .index _ owner _, he => by
    obtain ⟨-, howner, -⟩ := Expr.everywhere_index.mp he
    exact (((headed_layout st howner).grouped owner.groupsBeforePostfix).append _).append _
  | .arrow _ _ _, _ => .other rfl (by decide) _
  | .object _ _, _ => .brace _
  | .array _ _, _ => .other rfl (by decide) _
  | .paren _ _, _ => .other rfl (by decide) _

/-! ## The characters -/

/-- Characters begin with a brace, and with a step, just if they are said to. -/
structure Foretold (brace : Bool) (step : Option UpdateOp) (cs : List Char) : Prop where
  brace_iff : ['\x7b'] <+: cs ↔ brace = true
  step_iff : ∀ op : UpdateOp, op.spelling.toList <+: cs ↔ step = some op

/-- The text of a step is its sign, twice. -/
theorem UpdateOp.toList_spelling (op : UpdateOp) : op.spelling.toList = [op.sign, op.sign] := by
  cases op <;> rfl

theorem UpdateOp.sign_injective : Function.Injective UpdateOp.sign := by
  intro op op' h
  cases op <;> cases op' <;> first | rfl | exact absurd h (by decide)

theorem UpdateOp.sign_mem (op : UpdateOp) : op.sign ∈ openings := by
  cases op <;> decide

theorem UpdateOp.sign_ne_brace (op : UpdateOp) : op.sign ≠ '\x7b' := by
  cases op <;> decide

namespace Foretold

theorem ofBrace (cs : List Char) : Foretold true none ('\x7b' :: cs) where
  brace_iff := by simp
  step_iff op := by
    rw [op.toList_spelling, List.cons_prefix_cons]
    simp [op.sign_ne_brace]

theorem ofStep (op : UpdateOp) (cs : List Char) :
    Foretold false (some op) (op.spelling.toList ++ cs) where
  brace_iff := by
    rw [op.toList_spelling, List.cons_append, List.cons_prefix_cons]
    simp [op.sign_ne_brace.symm]
  step_iff op' := by
    rw [op.toList_spelling, op'.toList_spelling]
    simp only [List.cons_append, List.nil_append, List.cons_prefix_cons, List.nil_prefix, and_true,
      and_self, UpdateOp.sign_injective.eq_iff, Option.some.injEq]
    exact eq_comm

theorem ofOther {c : Char} (hc : c ∉ openings) (cs : List Char) :
    Foretold false none (c :: cs) where
  brace_iff := by
    have hbrace : '\x7b' ≠ c := fun h => hc (h ▸ by decide)
    rw [List.cons_prefix_cons]
    simp [hbrace]
  step_iff op := by
    have hsign : op.sign ≠ c := fun h => hc (h ▸ op.sign_mem)
    rw [op.toList_spelling, List.cons_prefix_cons]
    simp [hsign]

end Foretold

/-- **Characters begin as the layout does**, once they are indented. -/
theorem Headed.foretold (h : Headed brace step ps) (width : Nat) (sh : Sheet) :
    ∃ cs, (ps.foldl (Sheet.put width) sh).written.toList =
        (sh.written ++ sh.margin width).toList ++ cs ∧ Foretold brace step cs := by
  have hput : ∀ {s : String} (ps : List Piece), s.isEmpty = false →
      ((.text s :: ps).foldl (Sheet.put width) sh).written.toList =
        (sh.written ++ sh.margin width).toList ++ (s.toList ++ ink width sh.depth false ps) := by
    intro s ps hs
    rw [List.foldl_cons, written_foldl_put, Sheet.put, hs, if_neg Bool.false_ne_true]
    simp
  cases h with
  | brace ps => exact ⟨_, hput ps rfl, .ofBrace _⟩
  | step op ps => exact ⟨_, hput ps (isEmpty_eq_false op.toList_spelling), .ofStep op _⟩
  | other hs hc ps =>
    refine ⟨_, hput ps (isEmpty_eq_false hs), ?_⟩
    rw [hs]
    exact .ofOther hc _

/-- **The text of an expression begins as is foretold**, alone and wherever it is written, once the
    line is indented: with a brace just if the expression starts with an object, and with a step
    just if that is its leading one. -/
theorem Expr.text_begins {e : Expr} (he : e.Printable) (st : Style) :
    ((['\x7b'] <+: (e.format st).toList ↔ e.startsWithObject = true) ∧
      ∀ op : UpdateOp, op.spelling.toList <+: (e.format st).toList ↔ e.leadingUpdate? = some op) ∧
    ∀ sh : Sheet, ∃ cs,
      ((e.layout st).foldl (Sheet.put st.indent) sh).written.toList =
        (sh.written ++ sh.margin st.indent).toList ++ cs ∧
      Foretold e.startsWithObject e.leadingUpdate? cs := by
  have hheaded := Expr.headed_layout st he
  obtain ⟨cs, hcs, hforetold⟩ := hheaded.foretold st.indent .blank
  have hmargin : (Sheet.blank.margin st.indent).toList = [] := by
    simp [Sheet.margin, Sheet.blank]
  have hformat : (e.format st).toList = cs := by
    rw [Expr.format, render, hcs, String.toList_append, hmargin]
    rfl
  rw [hformat]
  exact ⟨⟨hforetold.brace_iff, hforetold.step_iff⟩, hheaded.foretold st.indent⟩

/-- `++a.b - {}`, as the owner of a member or alone. -/
def stepped : Expr :=
  .binary .none .sub (.update .none .increment true (.member .none (.ident .none "a") ⟨"b", .none⟩))
    (.object .none [])

/-- The step begins the text, and in parentheses it does not; an object in the same place does. -/
theorem Expr.text_begins_stepped :
    (stepped.Printable ∧ (Expr.member .none stepped ⟨"k", .none⟩).Printable ∧
      (Expr.member .none (.object .none []) ⟨"k", .none⟩).Printable) ∧
    (UpdateOp.increment.spelling.toList <+: (stepped.format .standard).toList ∧
      ¬ ['\x7b'] <+: (stepped.format .standard).toList) ∧
    ¬ UpdateOp.increment.spelling.toList <+:
      ((Expr.member .none stepped ⟨"k", .none⟩).format .standard).toList ∧
    ['\x7b'] <+: ((Expr.member .none (.object .none []) ⟨"k", .none⟩).format .standard).toList := by
  have halone : stepped.Printable := by decide
  have howner : (Expr.member .none stepped ⟨"k", .none⟩).Printable := by decide
  have hobject : (Expr.member .none (.object .none []) ⟨"k", .none⟩).Printable := by decide
  obtain ⟨⟨hbrace, hstep⟩, -⟩ := Expr.text_begins halone .standard
  obtain ⟨⟨-, hgrouped⟩, -⟩ := Expr.text_begins howner .standard
  obtain ⟨⟨hopen, -⟩, -⟩ := Expr.text_begins hobject .standard
  refine ⟨⟨halone, howner, hobject⟩, ⟨(hstep .increment).mpr (by decide), fun h => ?_⟩,
    fun h => ?_, hopen.mpr (by decide)⟩
  · exact absurd (hbrace.mp h) (by decide)
  · exact absurd ((hgrouped .increment).mp h) (by decide)

end CurlyScript
