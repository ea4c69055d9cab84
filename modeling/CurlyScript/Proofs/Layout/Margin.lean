import CurlyScript.Proofs.Layout.Depth
import CurlyScript.Proofs.Token.Munch
import CurlyScript.Proofs.Syntax.Printable

/-
  The lines of a layout.

  `Depth` says how many constructs are around each text of a layout.  Here the texts are put
  together to lines.  A line has as many constructs around as the FIRST text on it, for a construct
  that this text closes is no longer around it.

  1. **Lines** — `linesOf line? qs`: the lines of placed text, where `line?` is what stands on the
     first of them already.

  2. **Tidy text** — `Tidy m qs m'`: text is tidy if each line begins and ends with ink, and a
     comment has a line for itself; `m` is what stands on the line before the text, and `m'` what
     stands on its last line.  Text that may follow on any line is tidy if its parts are (`Fills`),
     and so is the layout of whatever is printable (`Fills.tree`).

  3. **The text** — the characters of tidy text are its lines, each with its margin before it and a
     line feed after it (`inkPlaced_eq`), and each line is neat (`isNeat_of_tidy`).
-/

namespace CurlyScript

variable {st : Style} {n : Nat}

/-! ## Lines -/

/-- A line: what stands on it, and how many constructs are around the first text of that.  A comment
    of several lines counts as one. -/
structure Line where
  /-- The number of constructs around. -/
  around : Nat
  /-- The characters after the margin. -/
  content : List Char
deriving DecidableEq, Repr

/-- The characters of a line, with its margin and its end. -/
def Line.chars (width : Nat) (l : Line) : List Char :=
  List.replicate (l.around * width) ' ' ++ l.content ++ ['\n']

/-- A line once a text is added to it, which may be the first. -/
def Line.extended (line? : Option Line) (n : Nat) (s : String) : Line :=
  match line? with
  | none => ⟨n, s.toList⟩
  | some l => ⟨l.around, l.content ++ s.toList⟩

/-- The lines of placed text, with the line that was begun before. -/
def linesOf : Option Line → List Placed → List Line
  | line?, [] => line?.toList
  | line?, .newline :: qs => line?.getD ⟨0, []⟩ :: linesOf none qs
  | line?, .text n s :: qs =>
    if s.isEmpty then linesOf line? qs else linesOf (some (Line.extended line? n s)) qs

/-- The lines of a program in the given style. -/
def Program.lines (st : Style) (p : Program) : List Line := linesOf none (linesPlaced st 0 p)

/-- Whether some characters begin with one that is no blank. -/
def beginsInked (cs : List Char) : Bool := cs.head?.any fun c => !Text.isBlank c

/-- Whether some characters end with one that is no blank. -/
def endsInked (cs : List Char) : Bool := cs.getLast?.any fun c => !Text.isBlank c

/-- A line as it should be: something stands on it, right after the margin, and it ends with that,
    unless it is a comment, which ends as it likes. -/
structure Line.IsNeat (l : Line) : Prop where
  /-- The line begins with ink. -/
  begins : beginsInked l.content = true
  /-- The line is a comment, or is one line and ends with ink. -/
  ends : isCommentText (String.ofList l.content) = true ∨
    ('\n' ∉ l.content ∧ endsInked l.content = true)

/-! ## Texts -/

/-- Whether a text is part of a line: it is not empty, and has no line feed. -/
def isPart (s : String) : Bool := !s.isEmpty && !s.toList.contains '\n'

/-- Whether a text may begin a line. -/
def isLead (s : String) : Bool := isPart s && beginsInked s.toList

/-- Whether a text may begin a line and end it. -/
def isSolid (s : String) : Bool := isLead s && endsInked s.toList

theorem isLead_of_isSolid {s : String} (h : isSolid s = true) : isLead s = true :=
  (Bool.and_eq_true _ _ ▸ h).1

theorem isPart_of_isLead {s : String} (h : isLead s = true) : isPart s = true :=
  (Bool.and_eq_true _ _ ▸ h).1

/-- Text without blanks. -/
theorem isSolid_of_forall {s : String} (hne : s.toList ≠ [])
    (h : ∀ c ∈ s.toList, Text.isBlank c = false) : isSolid s = true := by
  have hnewline : '\n' ∉ s.toList := fun hm => absurd (h '\n' hm) (by decide)
  have hempty : s.isEmpty = false := by
    obtain ⟨c, cs, hs⟩ := List.exists_cons_of_ne_nil hne
    exact isEmpty_eq_false hs
  have hbegins : beginsInked s.toList = true := by
    rw [beginsInked, List.head?_eq_some_head hne, Option.any_some, h _ (List.head_mem hne)]
    rfl
  have hends : endsInked s.toList = true := by
    rw [endsInked, List.getLast?_eq_some_getLast hne, Option.any_some, h _ (List.getLast_mem hne)]
    rfl
  simp [isSolid, isLead, isPart, hempty, hnewline, hbegins, hends]

theorem beginsInked_append {cs : List Char} (h : beginsInked cs = true) (ds : List Char) :
    beginsInked (cs ++ ds) = true := by
  cases cs with
  | nil => exact Bool.noConfusion h
  | cons c cs => exact h

theorem endsInked_append (cs : List Char) {ds : List Char} (h : endsInked ds = true) :
    endsInked (cs ++ ds) = true := by
  cases hlast : ds.getLast? with
  | none =>
    rw [endsInked, hlast] at h
    exact Bool.noConfusion h
  | some d =>
    rw [endsInked, hlast] at h
    rw [endsInked, List.getLast?_append, hlast, Option.some_or]
    exact h

theorem isPart_iff {s : String} : isPart s = true ↔ s.toList ≠ [] ∧ '\n' ∉ s.toList := by
  rw [isPart, Bool.and_eq_true, Bool.not_eq_true', Bool.not_eq_true', List.contains_eq_mem,
    decide_eq_false_iff_not, ← Bool.not_eq_true, String.isEmpty_iff, ← String.toList_inj]
  rfl

theorem isLead_append {s t : String} (hs : isLead s = true) (ht : '\n' ∉ t.toList) :
    isLead (s ++ t) = true := by
  rw [isLead, Bool.and_eq_true, isPart_iff] at hs ⊢
  obtain ⟨⟨hne, hnewline⟩, hbegins⟩ := hs
  rw [String.toList_append]
  refine ⟨⟨List.append_ne_nil_of_left_ne_nil hne _, ?_⟩, beginsInked_append hbegins _⟩
  exact fun hm => (List.mem_append.mp hm).elim hnewline ht

theorem isSolid_append {s t : String} (hs : isLead s = true) (ht : isSolid t = true) :
    isSolid (s ++ t) = true := by
  have hpart := isPart_iff.mp (isPart_of_isLead (isLead_of_isSolid ht))
  rw [isSolid, Bool.and_eq_true] at ht ⊢
  refine ⟨isLead_append hs hpart.2, ?_⟩
  rw [String.toList_append]
  exact endsInked_append s.toList ht.2

theorem isSolid_name {s : String} (h : isName s = true) : isSolid s = true := by
  rw [isName, Bool.and_eq_true] at h
  cases hs : s.toList with
  | nil =>
    rw [hs] at h
    exact Bool.noConfusion h.1
  | cons c cs =>
    rw [hs, isWord, Bool.and_eq_true, List.all_eq_true] at h
    apply isSolid_of_forall
    · rw [hs]
      exact List.cons_ne_nil c cs
    · rw [hs, List.forall_mem_cons]
      exact ⟨isBlank_eq_false_of_isWordPart (isWordPart_of_isWordStart h.1.1), fun d hd =>
        isBlank_eq_false_of_isWordPart (h.1.2 d hd)⟩

theorem isSolid_numeral {s : String} (h : isNumeral s.toList = true) : isSolid s = true := by
  obtain ⟨ds, tail, hne, hds, hs, htail⟩ := isNumeral_iff.mp h
  have hdigit : ∀ {cs : List Char}, (∀ c ∈ cs, c.isDigit = true) →
      ∀ c ∈ cs, Text.isBlank c = false :=
    fun hcs c hc => isBlank_eq_false_of_isWordPart (isWordPart_of_isDigit (hcs c hc))
  apply isSolid_of_forall
  · rw [hs]
    exact List.append_ne_nil_of_left_ne_nil hne tail
  · rw [hs, List.forall_mem_append]
    refine ⟨hdigit hds, ?_⟩
    rcases htail with rfl | ⟨fraction, rfl, -, hfraction⟩
    · exact fun _ hc => absurd hc List.not_mem_nil
    · rw [List.forall_mem_cons]
      exact ⟨by decide, hdigit hfraction⟩

theorem newline_notMem_escape (cs : List Char) : '\n' ∉ Text.escape cs := by
  induction cs with
  | nil => exact List.not_mem_nil
  | cons c cs ih =>
    unfold Text.escape
    split
    · rename_i l h
      have hl : '\n' ≠ l := by
        unfold Text.escapeLetter? at h
        split at h <;> cases h <;> decide
      simp [hl, ih]
    · rename_i h
      have hc : '\n' ≠ c := by
        rintro rfl
        simp [Text.escapeLetter?] at h
      simp [hc, ih]

theorem isSolid_encode (v : String) : isSolid (Text.encode v) = true := by
  have hquote : isLead "\"" = true := by decide
  have hencode : Text.encode v = "\"" ++ String.ofList (Text.escape v.toList) ++ "\"" := by
    rw [← String.toList_inj]
    simp [Text.encode]
  rw [hencode]
  refine isSolid_append (isLead_append hquote ?_) (by decide)
  rw [String.toList_ofList]
  exact newline_notMem_escape v.toList

theorem isSolid_literal {sp : Span} {value : Literal}
    (h : (Node.expr (.literal sp value)).isWritable Number.isPlain = true) :
    isSolid value.text = true := by
  cases value with
  | number x => exact isSolid_numeral (Number.isNumeral_text h)
  | string v => exact isSolid_encode v
  | bool b => cases b <;> decide
  | null => decide
  | undefined => decide

/-! ## Tidy text -/

/-- What stands on a line. -/
inductive Mark where
  /-- Nothing. -/
  | fresh
  /-- Something that ends with ink. -/
  | solid
  /-- Something that ends with a blank. -/
  | spaced
  /-- A comment, after which nothing may stand. -/
  | remark
deriving DecidableEq, Repr

/-- What stands on a line after a text that is part of it. -/
def Mark.after (s : String) : Mark := if endsInked s.toList then .solid else .spaced

theorem Mark.after_ne_remark (s : String) : Mark.after s ≠ .remark := by
  rw [Mark.after]
  split <;> decide

/-- Placed text that is tidy, after what stands on the line before, up to what stands on the last
    line. -/
inductive Tidy : Mark → List Placed → Mark → Prop where
  | nil {m : Mark} : Tidy m [] m
  | text {m m' : Mark} {n : Nat} {s : String} {qs : List Placed} : isPart s = true → m ≠ .remark →
    (m = .fresh → beginsInked s.toList = true) → Tidy (.after s) qs m' →
    Tidy m (.text n s :: qs) m'
  | comment {m' : Mark} {n : Nat} {s : String} {qs : List Placed} : isCommentText s = true →
    Tidy .remark qs m' → Tidy .fresh (.text n s :: qs) m'
  | newline {m m' : Mark} {qs : List Placed} : m = .solid ∨ m = .remark → Tidy .fresh qs m' →
    Tidy m (.newline :: qs) m'

theorem Tidy.append {m m' m'' : Mark} {qs rs : List Placed} (h : Tidy m qs m')
    (h' : Tidy m' rs m'') : Tidy m (qs ++ rs) m'' := by
  induction h with
  | nil => exact h'
  | text hpart hm hfresh _ ih => exact .text hpart hm hfresh (ih h')
  | comment hs _ ih => exact .comment hs (ih h')
  | newline hm _ ih => exact .newline hm (ih h')

/-- Text that may stand anywhere on a line, and ends with ink. -/
def Fills (qs : List Placed) : Prop := ∀ m, m ≠ .remark → Tidy m qs .solid

namespace Fills

variable {qs rs : List Placed} {s : String}

/-- A text that begins with ink, before other text. -/
theorem lead (hs : isLead s = true) (h : Fills qs) : Fills (.text n s :: qs) := by
  intro m hm
  have hrest := h (.after s) (Mark.after_ne_remark s)
  exact .text (isPart_of_isLead hs) hm (fun _ => (Bool.and_eq_true _ _ ▸ hs).2) hrest

theorem text (hs : isSolid s = true) : Fills [.text n s] := by
  intro m hm
  have hlead := isLead_of_isSolid hs
  have hafter : Mark.after s = .solid := if_pos (Bool.and_eq_true _ _ ▸ hs).2
  refine .text (isPart_of_isLead hlead) hm (fun _ => (Bool.and_eq_true _ _ ▸ hlead).2) ?_
  rw [hafter]
  exact .nil

theorem append (h : Fills qs) (h' : Fills rs) : Fills (qs ++ rs) :=
  fun m hm => (h m hm).append (h' .solid (by decide))

/-- Text between which stands a text, perhaps with blanks around it. -/
theorem join (hs : isPart s = true) (h : Fills qs) (h' : Fills rs) :
    Fills (qs ++ .text n s :: rs) := by
  intro m hm
  have hrest := h' (.after s) (Mark.after_ne_remark s)
  exact (h m hm).append (.text hs (by decide) (fun hf => absurd hf (by decide)) hrest)

/-- Text on two lines. -/
theorem nextLine (h : Fills qs) (h' : Fills rs) : Fills (qs ++ .newline :: rs) :=
  fun m hm => (h m hm).append (.newline (.inl rfl) (h' .fresh (by decide)))

/-- Text, and lines after its own, up to a text that closes. -/
theorem enclosed {close : String} (h : Fills qs) (hrows : Tidy .fresh rs .fresh)
    (hclose : isSolid close = true) : Fills (qs ++ .newline :: rs ++ [.text n close]) := by
  intro m hm
  have hrows' := (h m hm).append (.newline (.inl rfl) hrows)
  exact hrows'.append (text hclose .fresh (by decide))

theorem row (h : Fills qs) : Tidy .fresh (qs ++ [.newline]) .fresh :=
  (h .fresh (by decide)).append (.newline (.inl rfl) .nil)

theorem concat (h : Fills qs) (hs : isSolid s = true) : Fills (qs ++ [.text n s]) :=
  h.append (text hs)

theorem grouped (group : Bool) (h : Fills qs) : Fills (Placed.grouped n group qs) := by
  cases group with
  | false => exact h
  | true => exact (lead (by decide) h).concat (by decide)

theorem operator {o : Operator} {right : Expr} {group : Bool} (h : Fills qs) (h' : Fills rs) :
    Fills (qs ++ Placed.operator st n o.spelling right group ++ rs) := by
  have hspaced : isPart (" " ++ o.spelling ++ " ") = true := by cases o <;> decide
  have htight : isPart o.spelling = true := by cases o <;> decide
  rw [Placed.operator, List.append_assoc]
  split
  · exact h.join hspaced h'
  · exact h.join htight h'

theorem option {before : String} {o : Option Expr} (hbefore : isPart before = true)
    (h : Fills qs) (ho : ∀ e ∈ o, Fills (e.placed st n)) :
    Fills (qs ++ optionPlaced st n before o) := by
  cases o with
  | none =>
    rw [optionPlaced, List.append_nil]
    exact h
  | some e => exact h.join hbefore (ho e rfl)

/-- Items with something between them that keeps text tidy. -/
theorem intercalate {γ : Type} {sep : List Placed} {f : γ → List Placed} {x : γ} {xs : List γ}
    (hsep : ∀ {qs rs}, Fills qs → Fills rs → Fills (qs ++ sep ++ rs))
    (h : ∀ y ∈ x :: xs, Fills (f y)) : Fills (List.intercalate sep ((x :: xs).map f)) := by
  induction xs generalizing x with
  | nil =>
    rw [List.map_singleton, List.intercalate_singleton]
    exact h x List.mem_cons_self
  | cons y ys ih =>
    rw [List.map_cons, List.map_cons, List.intercalate_cons_cons, ← List.map_cons]
    exact hsep (h x List.mem_cons_self) (ih fun z hz => h z (List.mem_cons_of_mem _ hz))

theorem isPart_comma (st : Style) : isPart st.comma = true := by
  rw [Style.comma]
  split <;> decide

/-- Items on one line, after a text. -/
theorem inline {γ : Type} {f : γ → List Placed} {xs : List γ} (hs : isSolid s = true)
    (h : ∀ x ∈ xs, Fills (f x)) :
    Fills (.text n s :: Placed.inline n st.comma (xs.map f)) := by
  cases xs with
  | nil => exact text hs
  | cons x xs =>
    have hsep : ∀ {qs rs}, Fills qs → Fills rs → Fills (qs ++ [.text n st.comma] ++ rs) := by
      intro qs rs hq hr
      rw [List.append_assoc]
      exact hq.join (isPart_comma st) hr
    exact lead (isLead_of_isSolid hs) (intercalate hsep h)

theorem params {ps : List Name} (h : ps.all (fun p => isName p.text) = true) :
    Fills (Placed.params st n ps) := by
  rw [List.all_eq_true] at h
  exact (inline (by decide) fun p hp => text (isSolid_name (h p hp))).concat (by decide)

/-- The entries of a literal between its brackets. -/
theorem entries {γ : Type} {f : Nat → γ → List Placed} {xs : List γ} {close : String}
    (hs : isSolid s = true) (hclose : isSolid close = true) (h : ∀ x ∈ xs, ∀ n, Fills (f n x)) :
    Fills (.text n s :: Placed.entries st n (xs.map (f (Placed.aroundEntry st n))) ++
      [.text n close]) := by
  rw [Placed.entries, List.isEmpty_map]
  cases xs with
  | nil => exact (text hs).concat hclose
  | cons x xs =>
    rw [List.isEmpty_cons, if_neg Bool.false_ne_true]
    split
    · have hsep : ∀ {qs rs}, Fills qs → Fills rs →
          Fills (qs ++ [.text (n + 1) ",", .newline] ++ rs) := by
        intro qs rs hq hr
        have hline := (hq.concat (n := n + 1) (s := ",") (by decide)).nextLine hr
        simpa using hline
      have hrows := (intercalate hsep fun y hy => h y hy (Placed.aroundEntry st n)).row
      have hall := (text (n := n) hs).enclosed (n := n) hrows hclose
      simpa using hall
    · exact (inline hs fun y hy => h y hy _).concat hclose

end Fills

/-! ## Statements -/

/-- The statements of a block, or of the program, stand in rows. -/
theorem Tidy.rows {body : List Statement} (hprintable : ∀ s ∈ body, s.Printable)
    (h : ∀ s ∈ body, s.Printable → s.isComment = false → Fills (s.placed st n)) :
    Tidy .fresh (linesPlaced st n body) .fresh := by
  induction body with
  | nil => exact .nil
  | cons s body ih =>
    have hs := hprintable s List.mem_cons_self
    have hbody := ih (fun t ht => hprintable t (List.mem_cons_of_mem _ ht)) fun t ht =>
      h t (List.mem_cons_of_mem _ ht)
    cases hcomment : s.isComment with
    | false =>
      have hrow := (h s List.mem_cons_self hs hcomment) .fresh (by decide)
      exact hrow.append (.newline (.inl rfl) hbody)
    | true =>
      -- what a comment ends with is its own affair, so its row is no text that fills a line
      cases s with
      | comment sp text =>
        obtain ⟨-, htext⟩ := Statement.everywhere_comment.mp hs
        exact .comment htext (.newline (.inr rfl) hbody)
      | _ => exact Bool.noConfusion hcomment

namespace Fills

theorem block {body : List Statement} (h : Tidy .fresh (linesPlaced st (n + 1) body) .fresh) :
    Fills (Placed.block st n (linesPlaced st (n + 1) body)) := by
  have hbrace : isSolid "\x7b" = true := by decide
  rw [Placed.block]
  split
  · exact text (by decide)
  · exact (text hbrace).enclosed h (by decide)

/-- **The layout of whatever is printable is tidy**, but for comments, which have lines of their
    own. -/
theorem tree : Syntax.Cases (fun e => e.Printable → ∀ n, Fills (e.placed st n))
    (fun d => d.Everywhere (fun n => n.isWritable Number.isPlain = true) →
      ∀ n, Fills (d.placed st n))
    (fun s => s.Printable → s.isComment = false → ∀ n, Fills (s.placed st n)) where
  ident sp name he _ := text (isSolid_name (Expr.everywhere_ident.mp he).2)
  literal sp value he _ := text (isSolid_literal (Expr.everywhere_literal.mp he))
  binary sp op left right hl hr he n := by
    obtain ⟨-, hleft, hright⟩ := Expr.everywhere_binary.mp he
    exact (grouped _ (hl hleft n)).operator (o := op.operator) (grouped _ (hr hright n))
  assign sp op target value ht hv he n := by
    obtain ⟨-, htarget, hvalue⟩ := Expr.everywhere_assign.mp he
    exact (ht htarget n).operator (o := op.operator) (hv hvalue n)
  update sp op isPrefix argument ha he n := by
    obtain ⟨-, hargument⟩ := Expr.everywhere_update.mp he
    have hsign : isSolid op.spelling = true := by cases op <;> decide
    cases isPrefix with
    | true => exact lead (isLead_of_isSolid hsign) (ha hargument n)
    | false => exact (ha hargument n).concat hsign
  call sp callee args hc ha he n := by
    obtain ⟨-, hcallee, hargs⟩ := Expr.everywhere_call.mp he
    rw [Expr.placed, exprsPlaced_eq_map]
    have hopen : isSolid "(" = true := by decide
    have hlist : Fills (.text n "(" :: Placed.inline n st.comma (args.map (Expr.placed st n))) :=
      inline hopen fun a hm => ha a hm (hargs a hm) n
    exact ((grouped _ (hc hcallee n)).append hlist).concat (by decide)
  member sp owner property ho he n := by
    obtain ⟨hname, howner⟩ := Expr.everywhere_member.mp he
    exact (grouped _ (ho howner n)).append (lead (by decide) (text (isSolid_name hname)))
  index sp owner key ho hk he n := by
    obtain ⟨-, howner, hkey⟩ := Expr.everywhere_index.mp he
    exact ((grouped _ (ho howner n)).append (lead (by decide) (hk hkey n))).concat (by decide)
  arrow sp ps body hb he n := by
    obtain ⟨-, hw, hbody⟩ := Expr.everywhere_arrow.mp he
    rw [Node.isWritable, Bool.and_eq_true] at hw
    have hrows := Tidy.rows hbody fun s hm hs hc => hb s hm hs hc (n + 1)
    exact (params hw.1).join (by decide) (block hrows)
  object sp properties hp he n := by
    obtain ⟨hw, hvalues⟩ := Expr.everywhere_object.mp he
    rw [Node.isWritable, List.all_eq_true] at hw
    rw [Expr.placed, propertiesPlaced_eq_map]
    refine entries (by decide) (by decide) ?_
    rintro ⟨key, value⟩ hm n
    have hkey := isLead_append (t := ": ") (isLead_of_isSolid (isSolid_name (hw _ hm))) (by decide)
    exact lead hkey (hp key value hm (hvalues key value hm) n)
  array sp elements hes he n := by
    obtain ⟨-, helements⟩ := Expr.everywhere_array.mp he
    rw [Expr.placed, exprsPlaced_eq_map]
    exact entries (by decide) (by decide) fun e hm => hes e hm (helements e hm)
  paren sp inner hi he n := by
    obtain ⟨-, hinner⟩ := Expr.everywhere_paren.mp he
    exact (lead (by decide) (hi hinner n)).concat (by decide)
  declaration sp kind name init hi hd n := by
    obtain ⟨hname, hinit⟩ := Decl.everywhere_mk.mp hd
    have hword : isLead (kind.spelling ++ " ") = true := by cases kind <;> decide
    have hhead := text (n := n) (isSolid_append hword (isSolid_name hname))
    exact hhead.option (by decide) fun e hm => hi e hm (hinit e hm) n
  decl d hd hs _ n := by
    obtain ⟨-, hdecl⟩ := Statement.everywhere_decl.mp hs
    exact (hd hdecl n).concat (by decide)
  function sp name ps body hb hs _ n := by
    obtain ⟨-, hw, hbody⟩ := Statement.everywhere_function.mp hs
    rw [Node.isWritable, Bool.and_eq_true] at hw
    have hhead : isSolid ("function " ++ name.text) = true :=
      isSolid_append (by decide) (isSolid_name hw.1)
    have hrows := Tidy.rows hbody fun s hm hs hc => hb s hm hs hc (n + 1)
    exact (lead (isLead_of_isSolid hhead) (params hw.2)).join (by decide) (block hrows)
  block sp body hb hs _ n := by
    obtain ⟨-, -, hbody⟩ := Statement.everywhere_block.mp hs
    exact block (Tidy.rows hbody fun s hm hs hc => hb s hm hs hc (n + 1))
  ret sp argument ha hs _ n := by
    obtain ⟨-, hargument⟩ := Statement.everywhere_ret.mp hs
    have hword := text (n := n) (s := "return") (by decide)
    exact (hword.option (by decide) fun e hm => ha e hm (hargument e hm) n).concat (by decide)
  cond sp test consequent alternate ht hc ha hs _ n := by
    obtain ⟨hw, htest, hconsequent, halternate⟩ := Statement.everywhere_cond.mp hs
    rw [Node.isWritable, Bool.and_eq_true, Bool.not_eq_true'] at hw
    have hbrace : isSolid "\x7b" = true := by decide
    have hbranch : Fills (if alternate.isSome && consequent.endsWithOpenIf then
        Placed.braces n (consequent.placed st (n + 1) ++ [.newline])
        else consequent.placed st n) := by
      split
      · exact (text hbrace).enclosed (hc hconsequent hw.1 (n + 1)).row (by decide)
      · exact hc hconsequent hw.1 n
    have hif := (lead (n := n) (s := "if (") (by decide) (ht htest n)).join (n := n) (s := ") ")
      (by decide) hbranch
    cases alternate with
    | none =>
      rw [Statement.placed, alternatePlaced, List.append_nil]
      exact hif
    | some a =>
      have ha' : a.isComment = false := Bool.not_eq_true' _ ▸ hw.2
      exact hif.join (by decide) (ha a rfl (halternate a rfl) ha' n)
  loop sp init test update body hd he ht hu hb hs _ n := by
    obtain ⟨hw, ⟨hdecl, hexpr⟩, htest, hupdate, hbody⟩ := Statement.everywhere_loop.mp hs
    rw [Node.isWritable, Bool.not_eq_true'] at hw
    have hfor : isSolid "for (" = true := by decide
    have hhead : Fills (.text n "for (" :: loopInitPlaced st n init) := by
      cases init with
      | none => exact text hfor
      | some i =>
        cases i with
        | decl d => exact lead (isLead_of_isSolid hfor) (hd d rfl (hdecl d rfl) n)
        | expr e => exact lead (isLead_of_isSolid hfor) (he e rfl (hexpr e rfl) n)
    have hpart : ∀ {o : Option Expr}, (∀ e ∈ o, e.Printable → ∀ n, Fills (e.placed st n)) →
        (∀ e ∈ o, e.Printable) → Fills (.text n ";" :: optionPlaced st n " " o) :=
      fun ho hprintable => (text (n := n) (s := ";") (by decide)).option (by decide)
        fun e hm => ho e hm (hprintable e hm) n
    have hclose : isSolid ")" = true := by decide
    have htail : Fills (.text n ")" :: if body.shape = .blockStatement then
        .text n " " :: body.placed st n else .newline :: body.placed st (n + 1)) := by
      split
      · exact (text hclose).join (by decide) (hb hbody hw n)
      · exact (text hclose).nextLine (hb hbody hw (n + 1))
    exact ((hhead.append (hpart ht htest)).append (hpart hu hupdate)).append htail
  expr sp e he hs _ n := by
    obtain ⟨-, hexpr⟩ := Statement.everywhere_expr.mp hs
    exact (grouped _ (he hexpr n)).concat (by decide)
  comment sp text _ hcomment := Bool.noConfusion hcomment

end Fills

/-! ## The text -/

/-- What a line that was begun is like. -/
inductive Mark.Fits : Mark → Option Line → Prop where
  | fresh : Fits .fresh none
  | solid {l : Line} : beginsInked l.content = true → '\n' ∉ l.content →
    endsInked l.content = true → Fits .solid (some l)
  | spaced {l : Line} : beginsInked l.content = true → '\n' ∉ l.content → Fits .spaced (some l)
  | remark {l : Line} : isCommentText (String.ofList l.content) = true → Fits .remark (some l)

/-- A text on a line leaves the line as its mark says. -/
theorem Mark.Fits.text {m : Mark} {line? : Option Line} {s : String} (h : m.Fits line?)
    (hs : isPart s = true) (hm : m ≠ .remark)
    (hfresh : m = .fresh → beginsInked s.toList = true) (n : Nat) :
    (Mark.after s).Fits (some (Line.extended line? n s)) := by
  obtain ⟨hne, hnewline⟩ := isPart_iff.mp hs
  have hline : beginsInked (Line.extended line? n s).content = true ∧
      '\n' ∉ (Line.extended line? n s).content ∧
      (endsInked s.toList = true → endsInked (Line.extended line? n s).content = true) := by
    have hadded : ∀ {l : Line}, beginsInked l.content = true → '\n' ∉ l.content →
        beginsInked (l.content ++ s.toList) = true ∧ '\n' ∉ l.content ++ s.toList ∧
        (endsInked s.toList = true → endsInked (l.content ++ s.toList) = true) :=
      fun hb hn => ⟨beginsInked_append hb _,
        fun hmem => (List.mem_append.mp hmem).elim hn hnewline, endsInked_append _⟩
    cases h with
    | fresh => exact ⟨hfresh rfl, hnewline, id⟩
    | solid hb hn _ => exact hadded hb hn
    | spaced hb hn => exact hadded hb hn
    | remark _ => exact absurd rfl hm
  rw [Mark.after]
  split
  · rename_i hends
    exact .solid hline.1 hline.2.1 (hline.2.2 hends)
  · exact .spaced hline.1 hline.2.1

theorem beginsInked_comment {s : String} (h : isCommentText s = true) :
    beginsInked s.toList = true := by
  have hslash : ∀ cs, beginsInked ('/' :: cs) = true := by
    intro cs
    show (!Text.isBlank '/') = true
    decide
  rw [isCommentText] at h
  split at h
  · rename_i cs hcs
    rw [hcs]
    exact hslash _
  · rename_i cs hcs
    rw [hcs]
    exact hslash _
  · exact Bool.noConfusion h

/-- A comment has a line for itself. -/
theorem Mark.Fits.comment {s : String} (hs : isCommentText s = true) (n : Nat) :
    Mark.remark.Fits (some (Line.extended none n s)) := by
  apply Mark.Fits.remark
  rw [Line.extended, String.ofList_toList]
  exact hs

theorem isEmpty_of_isPart {s : String} (h : isPart s = true) : s.isEmpty = false := by
  simpa using (isPart_iff.mp h).1

theorem isEmpty_of_beginsInked {s : String} (h : beginsInked s.toList = true) :
    s.isEmpty = false := by
  cases hs : s.toList with
  | nil =>
    rw [hs] at h
    exact Bool.noConfusion h
  | cons c cs => exact isEmpty_eq_false hs

/-- A line that may end is neat. -/
theorem Mark.Fits.isNeat {m : Mark} {line? : Option Line} (h : m.Fits line?)
    (hm : m = .solid ∨ m = .remark) : ∃ l, line? = some l ∧ l.IsNeat := by
  cases h with
  | fresh => simp at hm
  | solid hb hn he => exact ⟨_, rfl, hb, .inr ⟨hn, he⟩⟩
  | spaced _ _ => simp at hm
  | @remark l hs =>
    have hbegins := beginsInked_comment hs
    rw [String.toList_ofList] at hbegins
    exact ⟨l, rfl, hbegins, .inl hs⟩

/-- Every line of tidy text is neat. -/
theorem isNeat_of_tidy {m m' : Mark} {qs : List Placed} (h : Tidy m qs m') (hend : m' = .fresh) :
    ∀ {line? : Option Line}, m.Fits line? → ∀ l ∈ linesOf line? qs, l.IsNeat := by
  induction h with
  | nil =>
    subst hend
    rintro _ ⟨⟩ l hl
    exact absurd hl List.not_mem_nil
  | @text m m' n s qs hs hm hfresh _ ih =>
    intro line? hfits
    rw [linesOf, isEmpty_of_isPart hs, if_neg Bool.false_ne_true]
    exact ih hend (hfits.text hs hm hfresh n)
  | @comment m' n s qs hs _ ih =>
    rintro _ ⟨⟩
    rw [linesOf, isEmpty_of_beginsInked (beginsInked_comment hs), if_neg Bool.false_ne_true]
    exact ih hend (.comment hs n)
  | newline hm _ ih =>
    intro line? hfits
    obtain ⟨l, rfl, hl⟩ := hfits.isNeat hm
    rw [linesOf, List.forall_mem_cons]
    exact ⟨hl, ih hend .fresh⟩

/-- The characters of a line that was begun. -/
def Line.inked (width : Nat) (l : Line) : List Char :=
  List.replicate (l.around * width) ' ' ++ l.content

/-- A text adds itself to the line, and the margin if it is the first. -/
theorem inkPlaced_text {s : String} (hs : s.isEmpty = false) (width : Nat) (line? : Option Line)
    (n : Nat) (qs : List Placed) :
    line?.elim [] (Line.inked width) ++ inkPlaced width line?.isNone (.text n s :: qs) =
      (Line.extended line? n s).inked width ++ inkPlaced width false qs := by
  rw [inkPlaced, hs, if_neg Bool.false_ne_true]
  cases line? with
  | none => rfl
  | some l => simp [Line.extended, Line.inked]

/-- The characters of tidy text are its lines. -/
theorem inkPlaced_eq {m m' : Mark} {qs : List Placed} (h : Tidy m qs m') (hend : m' = .fresh)
    (width : Nat) : ∀ {line? : Option Line}, m.Fits line? →
      line?.elim [] (Line.inked width) ++ inkPlaced width line?.isNone qs =
        (linesOf line? qs).flatMap (Line.chars width) := by
  induction h with
  | nil =>
    subst hend
    rintro _ ⟨⟩
    rfl
  | @text m m' n s qs hs hm hfresh _ ih =>
    intro line? hfits
    have hempty := isEmpty_of_isPart hs
    rw [inkPlaced_text hempty, linesOf, hempty, if_neg Bool.false_ne_true]
    exact ih hend (hfits.text hs hm hfresh n)
  | @comment m' n s qs hs _ ih =>
    rintro _ ⟨⟩
    have hempty := isEmpty_of_beginsInked (beginsInked_comment hs)
    rw [inkPlaced_text hempty, linesOf, hempty, if_neg Bool.false_ne_true]
    exact ih hend (.comment hs n)
  | newline hm _ ih =>
    intro line? hfits
    obtain ⟨l, rfl, -⟩ := hfits.isNeat hm
    rw [linesOf, List.flatMap_cons, ← ih hend .fresh]
    simp [inkPlaced, Line.inked, Line.chars]

/-- A line feed ends a line. -/
theorem linesOf_ne_nil {qs : List Placed} (h : .newline ∈ qs) (line? : Option Line) :
    linesOf line? qs ≠ [] := by
  induction qs generalizing line? with
  | nil => exact absurd h List.not_mem_nil
  | cons q qs ih =>
    cases q with
    | newline => exact List.cons_ne_nil _ _
    | text n s =>
      have hqs : .newline ∈ qs := by simpa using h
      rw [linesOf]
      split
      · exact ih hqs _
      · exact ih hqs _

/-- A neat line does not end with a line feed of its own. -/
theorem Line.IsNeat.exists_concat {l : Line} (h : l.IsNeat) :
    ∃ cs c, l.content = cs ++ [c] ∧ c ≠ '\n' := by
  have hline : '\n' ∉ l.content → ∃ cs c, l.content = cs ++ [c] ∧ c ≠ '\n' := by
    intro hnewline
    rcases List.eq_nil_or_concat l.content with hnil | ⟨cs, c, hcs⟩
    · have hbegins := h.begins
      rw [hnil] at hbegins
      exact Bool.noConfusion hbegins
    · rw [hcs] at hnewline ⊢
      refine ⟨cs, c, List.concat_eq_append, ?_⟩
      rintro rfl
      exact hnewline (by simp)
  rcases h.ends with hcomment | ⟨hnewline, -⟩
  · rw [isCommentText, String.toList_ofList] at hcomment
    split at hcomment
    · rename_i cs hcs
      apply hline
      rw [hcs]
      simpa using hcomment
    · rename_i cs hcs
      obtain ⟨body, -, rfl⟩ := closesAtEnd_iff.mp hcomment
      exact ⟨'/' :: '*' :: (body ++ ['*']), '/', by rw [hcs]; simp, by decide⟩
    · exact Bool.noConfusion hcomment
  · exact hline hnewline

namespace Program

theorem lines_eq_nil_iff {p : Program} : p.lines st = [] ↔ p = [] := by
  constructor
  · intro h
    cases p with
    | nil => rfl
    | cons s p =>
      have hmem : Placed.newline ∈ linesPlaced st 0 (s :: p) :=
        List.mem_append_right _ List.mem_cons_self
      exact absurd h (linesOf_ne_nil hmem none)
  · rintro rfl
    rfl

/-- **The lines of a formatted text.**  A program without statements has an empty text, and any
    other text ends with exactly one line feed.  After every expression and every statement the
    counter of levels is what it was before, and wherever a level ends it is higher than that, so it
    never saturates.  The text is the lines of the printer without a counter, each indented once for
    each construct around it.  Each line begins with ink, right after its margin; and it is one line
    of text and ends with ink, or it is a comment, which may end with blanks and go on for several
    lines. -/
theorem format_lines {p : Program} (hp : p.Printable) (st : Style) :
    (p.format st = "" ↔ p = []) ∧
    (p ≠ [] → ∃ front c, (p.format st).toList = front ++ [c, '\n'] ∧ c ≠ '\n') ∧
    (∀ e : Expr, Balanced st.indent (e.layout st)) ∧
    (∀ s : Statement, Balanced st.indent (s.layout st)) ∧
    (p.format st).toList = (p.lines st).flatMap (Line.chars st.indent) ∧
    ∀ l ∈ p.lines st, l.IsNeat := by
  have hprintable : ∀ s ∈ p, s.Printable := Program.everywhere_iff.mp hp
  have htidy : Tidy .fresh (linesPlaced st 0 p) .fresh :=
    Tidy.rows hprintable fun s _ hs hc => Fills.tree.all.2.2 s hs hc 0
  have hplaces : Places 0 (linesLayout st p) (linesPlaced st 0 p) :=
    Places.lines fun s _ => Places.tree.all.2.2 s 0
  have hlines : (p.format st).toList = (p.lines st).flatMap (Line.chars st.indent) := by
    rw [Program.format, render_toList, hplaces.ink_eq]
    exact inkPlaced_eq htidy rfl st.indent .fresh
  have hneat : ∀ l ∈ p.lines st, l.IsNeat := isNeat_of_tidy htidy rfl .fresh
  have hends : p ≠ [] → ∃ front c, (p.format st).toList = front ++ [c, '\n'] ∧ c ≠ '\n' := by
    intro hne
    rcases List.eq_nil_or_concat (p.lines st) with hnil | ⟨before, l, hlast⟩
    · exact absurd (lines_eq_nil_iff.mp hnil) hne
    · rw [hlast] at hlines hneat
      obtain ⟨cs, c, hcontent, hc⟩ := (hneat l (by simp)).exists_concat
      refine ⟨before.flatMap (Line.chars st.indent) ++
        (List.replicate (l.around * st.indent) ' ' ++ cs), c, ?_, hc⟩
      rw [hlines]
      simp [Line.chars, hcontent]
  refine ⟨?_, hends, fun e => (Places.tree.all.1 e 0).balanced st.indent,
    fun s => (Places.tree.all.2.2 s 0).balanced st.indent, hlines, hneat⟩
  constructor
  · intro hempty
    by_contra hne
    obtain ⟨front, c, htext, -⟩ := hends hne
    rw [hempty] at htext
    simp at htext
  · rintro rfl
    rfl

/-- A loop without a block around an `if` that needs braces, a literal and a function in each
    other, and comments that end with a blank or go over two lines. -/
def terraced : Program :=
  [.comment .none "/* a\n b */",
    .loop .none none none none (.cond .none (.ident .none "a")
      (.cond .none (.ident .none "b") (.expr .none (.call .none (.ident .none "c")
        [.object .none [.mk ⟨"d", .none⟩ (.arrow .none [] [.comment .none "// e "])]])) none)
      (some (.block .none [.ret .none none]))),
    .expr .none (.ident .none "f")]

theorem format_lines_terraced : terraced.Printable ∧
    (terraced.format .standard = "" ↔ terraced = []) ∧
    (terraced ≠ [] →
      ∃ front c, (terraced.format .standard).toList = front ++ [c, '\n'] ∧ c ≠ '\n') ∧
    (∀ e : Expr, Balanced 2 (e.layout .standard)) ∧
    (∀ s : Statement, Balanced 2 (s.layout .standard)) ∧
    (terraced.format .standard).toList =
      (terraced.lines .standard).flatMap (Line.chars 2) ∧
    ∀ l ∈ terraced.lines .standard, l.IsNeat := by
  have hp : terraced.Printable := by decide
  exact ⟨hp, format_lines hp .standard⟩

/-- The line that closes a construct has one less around, and so has the line after the body of a
    loop, which nothing closes. -/
example : (terraced.lines .standard).map (fun l => (l.around, String.ofList l.content)) =
    [(0, "/* a\n b */"), (0, "for (;;)"), (1, "if (a) \x7b"), (2, "if (b) c(\x7b"),
      (3, "d: () => \x7b"), (4, "// e "), (3, "\x7d"), (2, "\x7d);"), (1, "\x7d else \x7b"),
      (2, "return;"), (1, "\x7d"), (0, "f;")] := by
  decide +kernel

end Program

end CurlyScript
