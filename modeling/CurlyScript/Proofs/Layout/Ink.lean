import CurlyScript.Layout.Tree
import CurlyScript.Proofs.Syntax.Terminals

/-
  The characters of a layout, and the terminals that they are.

  A piece is laid out at some depth, on a fresh line or not; `ink` gives the characters from there
  on.  Depth and freshness only ever add blanks, and blanks make no terminals.  So what is shown of
  a layout is shown for EVERY depth, fresh or not (`Inked`), and pieces are put before a layout one
  by one.
-/

namespace CurlyScript

variable {width : Nat}

/-- The characters of the pieces from some depth on. -/
def ink (width depth : Nat) (fresh : Bool) : List Piece → List Char
  | [] => []
  | .text s :: ps =>
    if s.isEmpty then ink width depth fresh ps
    else (if fresh then List.replicate (depth * width) ' ' else []) ++ s.toList ++
      ink width depth false ps
  | .newline :: ps => '\n' :: ink width depth true ps
  | .enter :: ps => ink width (depth + 1) fresh ps
  | .leave :: ps => ink width (depth - 1) fresh ps

/-- Pieces are added to a sheet as ink. -/
theorem written_foldl_put (ps : List Piece) : ∀ sh : Sheet,
    (ps.foldl (Sheet.put width) sh).written.toList =
      sh.written.toList ++ ink width sh.depth sh.fresh ps := by
  -- for every sheet, since its depth and freshness change from piece to piece
  induction ps with
  | nil => intro sh; exact (List.append_nil _).symm
  | cons p ps ih =>
    intro sh
    rw [List.foldl_cons, ih]
    cases p with
    | text s =>
      rw [ink, Sheet.put]
      split
      · rfl
      · have hmargin : (sh.margin width).toList =
            if sh.fresh then List.replicate (sh.depth * width) ' ' else [] := by
          rw [Sheet.margin]
          split
          · exact String.toList_ofList
          · rfl
        simp only [String.toList_append, hmargin, List.append_assoc]
    | newline =>
      rw [ink, Sheet.put]
      simp
    | enter => rfl
    | leave => rfl

/-- A text is the ink of its layout. -/
theorem render_toList (ps : List Piece) : (render width ps).toList = ink width 0 true ps :=
  written_foldl_put ps .blank

/-- Whatever the depth, and on a fresh line or not, the ink is as described. -/
def Inked (width : Nat) (p : List Char → Prop) (ps : List Piece) : Prop :=
  ∀ depth fresh, p (ink width depth fresh ps)

/-- Whatever the depth, and on a fresh line or not, the ink is these terminals. -/
def Lays (width : Nat) (ps : List Piece) (ts : List Terminal) : Prop :=
  Inked width (fun cs => Scans cs ts) ps

variable {ps qs : List Piece} {ts us : List Terminal}

/-! ## One piece -/

theorem Lays.nil : Lays width [] [] := fun _ _ => .nil

theorem Lays.newline (h : Lays width ps ts) : Lays width (.newline :: ps) ts :=
  fun depth _ => .blank (by decide) (h depth true)

theorem Lays.enter (h : Lays width ps ts) : Lays width (.enter :: ps) ts :=
  fun depth fresh => h (depth + 1) fresh

theorem Lays.leave (h : Lays width ps ts) : Lays width (.leave :: ps) ts :=
  fun depth fresh => h (depth - 1) fresh

/-- Characters that are terminals, if what follows them is as `ok` demands. -/
def Spells (ok : List Char → Prop) (cs : List Char) (us : List Terminal) : Prop :=
  ∀ rest ts, ok rest → Scans rest ts → Scans (cs ++ rest) (us ++ ts)

/-- Text that is terminals, before a layout. -/
theorem Lays.text {ok : List Char → Prop} {s : String} (hs : Spells ok s.toList us)
    (hne : s.isEmpty = false) (hok : Inked width ok ps) (h : Lays width ps ts) :
    Lays width (.text s :: ps) (us ++ ts) := by
  intro depth fresh
  have hscan := hs _ ts (hok depth false) (h depth false)
  show Scans (ink width depth fresh (.text s :: ps)) (us ++ ts)
  rw [ink, hne, if_neg Bool.false_ne_true, List.append_assoc]
  refine .blanks (fun b hb => ?_) hscan
  split at hb
  · rw [List.eq_of_mem_replicate hb]
    decide
  · exact absurd hb List.not_mem_nil

/-- What is true whatever follows. -/
def Anything (_ : List Char) : Prop := True

theorem inked_anything : Inked width Anything ps := fun _ _ => trivial

theorem isEmpty_eq_false {s : String} {c : Char} {cs : List Char} (hs : s.toList = c :: cs) :
    s.isEmpty = false := by
  cases h : s.isEmpty with
  | false => rfl
  | true =>
    rw [String.isEmpty_iff.mp h] at hs
    exact nomatch hs

theorem breaks_cons {c : Char} (hc : isWordPart c = false) (hdot : c ≠ '.') (cs : List Char) :
    Breaks (c :: cs) := by
  refine ⟨fun d hd => ?_, fun d ds hd => absurd (List.cons.inj hd).1 hdot⟩
  rw [← Option.some.inj hd]
  exact hc

/-- Text that begins with a sign ends a word before it. -/
theorem inked_breaks_text {s : String} {c : Char} {cs : List Char} (hs : s.toList = c :: cs)
    (hc : isWordPart c = false) (hdot : c ≠ '.') : Inked width Breaks (.text s :: ps) := by
  intro depth fresh
  show Breaks (ink width depth fresh (.text s :: ps))
  rw [ink, isEmpty_eq_false hs, if_neg Bool.false_ne_true, hs]
  -- the margin, if there is one, is spaces, and a space is a break as well
  cases hm : (if fresh then List.replicate (depth * width) ' ' else []) with
  | nil => exact breaks_cons hc hdot _
  | cons b bs =>
    have hb : b = ' ' := by
      have hmem : b ∈ (if fresh then List.replicate (depth * width) ' ' else []) := by
        rw [hm]
        exact List.mem_cons_self
      split at hmem
      · exact List.eq_of_mem_replicate hmem
      · exact absurd hmem List.not_mem_nil
    rw [hb]
    exact breaks_cons (by decide) (by decide) _

theorem inked_breaks_newline : Inked width Breaks (.newline :: ps) :=
  fun _ _ => breaks_cons (by decide) (by decide) _

theorem inked_breaks_punctuation (p : Punctuation) (hp : p ≠ .dot) :
    Inked width Breaks (.text p.spelling :: ps) := by
  cases p with
  | dot => exact absurd rfl hp
  | _ => exact inked_breaks_text rfl (by decide) (by decide)

/-! ## Texts of one or more terminals -/

namespace Spells

theorem append {ok ok' : List Char → Prop} {cs ds : List Char} {us vs : List Terminal}
    (h : Spells ok cs us) (h' : Spells ok' ds vs) (hok : ∀ rest, ok' rest → ok (ds ++ rest)) :
    Spells ok' (cs ++ ds) (us ++ vs) := by
  intro rest ts hr hs
  rw [List.append_assoc, List.append_assoc]
  exact h _ _ (hok rest hr) (h' rest ts hr hs)

theorem blank : Spells Anything [' '] [] := fun _ _ _ hs => .blank (by decide) hs

theorem name {s : String} (hs : isName s = true) : Spells Breaks s.toList [.name s] :=
  fun _ _ hr h => .name hs hr h

theorem keyword (k : Keyword) : Spells Breaks k.spelling.toList [.keyword k] :=
  fun _ _ hr h => .keyword k hr h

/-- A sign that begins no longer one runs into nothing. -/
theorem runsInto_eq_false {s : Sign} (hne : s ≠ .operator .slash)
    (h : ∀ t ∈ Sign.scanOrder, t.spelling.toList.dropLast ≠ s.spelling.toList) (d : Char) :
    s.runsInto d = false := by
  rw [Sign.runsInto, beq_eq_false_iff_ne.mpr hne, Bool.false_and, Bool.or_false,
    List.any_eq_false]
  intro t ht heq
  refine h t ht ?_
  rw [beq_iff_eq.mp heq, List.dropLast_concat]

theorem punctuation (p : Punctuation) :
    Spells Anything p.spelling.toList [.punctuation p] := by
  have hne : Sign.punctuation p ≠ .operator .slash := nofun
  have hlonger : ∀ t ∈ Sign.scanOrder,
      t.spelling.toList.dropLast ≠ (Sign.punctuation p).spelling.toList := by
    cases p <;> decide
  exact fun _ _ _ h => .sign (.punctuation p) (fun d _ => runsInto_eq_false hne hlonger d) h

theorem update (op : UpdateOp) :
    Spells Anything op.spelling.toList [.operator op.operator] := by
  have hne : Sign.operator op.operator ≠ .operator .slash := by cases op <;> decide
  have hlonger : ∀ t ∈ Sign.scanOrder,
      t.spelling.toList.dropLast ≠ (Sign.operator op.operator).spelling.toList := by
    cases op <;> decide
  exact fun _ _ _ h => .sign (.operator op.operator)
    (fun d _ => runsInto_eq_false hne hlonger d) h

/-- A space before a text. -/
theorem space {ok : List Char → Prop} {cs : List Char} {us : List Terminal}
    (h : Spells ok cs us) : Spells ok (' ' :: cs) us :=
  fun rest ts hr hs => .blank (by decide) (h rest ts hr hs)

/-- A space after a text that it ends. -/
theorem spaced {ok : List Char → Prop} {cs : List Char} {us : List Terminal}
    (h : Spells ok cs us) (hok : ∀ rest, ok (' ' :: rest)) : Spells Anything (cs ++ [' ']) us := by
  have hs := h.append blank (fun rest _ => hok rest)
  rwa [List.append_nil] at hs

end Spells

theorem breaks_space (rest : List Char) : Breaks (' ' :: rest) :=
  breaks_cons (by decide) (by decide) rest

/-! ### The texts of a layout -/

namespace Spells

theorem ifParen : Spells Anything "if (".toList [.keyword .if_, .punctuation .lParen] :=
  (keyword .if_).append (punctuation .lParen).space fun _ _ => breaks_space _

theorem forParen : Spells Anything "for (".toList [.keyword .for_, .punctuation .lParen] :=
  (keyword .for_).append (punctuation .lParen).space fun _ _ => breaks_space _

theorem parenSpace : Spells Anything ") ".toList [.punctuation .rParen] :=
  (punctuation .rParen).spaced fun _ => trivial

theorem spaceElse : Spells Anything " else ".toList [.keyword .else_] :=
  ((keyword .else_).spaced breaks_space).space

theorem spaceArrow : Spells Anything " => ".toList [.punctuation .fatArrow] :=
  ((punctuation .fatArrow).spaced fun _ => trivial).space

theorem bracePair :
    Spells Anything "\x7b\x7d".toList [.punctuation .lBrace, .punctuation .rBrace] :=
  (punctuation .lBrace).append (punctuation .rBrace) fun _ h => h

theorem commaSpace : Spells Anything ", ".toList [.punctuation .comma] :=
  (punctuation .comma).spaced fun _ => trivial

end Spells

/-! ## Operators -/

/-- A text begins with a blank or with its first terminal. -/
theorem Scans.head {cs : List Char} {t : Terminal} (h : Scans cs (t :: ts)) :
    ∀ d ∈ cs.head?, Text.isBlank d = true ∨ d ∈ t.text.toList.head? := by
  intro d hd
  cases h with
  | blank hb _ =>
    rw [← Option.some.inj hd]
    exact Or.inl hb
  | token _ _ _ =>
    rw [String.toList_ofList]
    exact Or.inr hd

/-- The characters that make an operator longer, or a comment of it, but for `+` and `-`. -/
def runOns : List Char := ['>', '=', '&', '|', '/', '*']

theorem isWordPart_runOns : (runOns ++ ['+', '-']).all (fun c => !isWordPart c) = true := by decide

theorem isBlank_runOns : runOns.all (fun c => !Text.isBlank c) = true := by decide

/-- A sign is longer than an operator by a character that makes it longer, or by its own. -/
theorem runsInto_operator {o : Operator} {d : Char} (h : (Sign.operator o).runsInto d = true) :
    d ∈ runOns ∨ (o = .plus ∧ d = '+') ∨ (o = .minus ∧ d = '-') := by
  -- all signs that are longer than some operator by one character, checked once for all
  have hlonger : ∀ t ∈ Sign.scanOrder, ∀ o ∈ Operator.all,
      t.spelling.toList.dropLast = o.spelling.toList →
      runOns.any (fun d => t.spelling.toList.getLast? = some d) = true ∨
        (o = .plus ∧ t.spelling.toList.getLast? = some '+') ∨
        (o = .minus ∧ t.spelling.toList.getLast? = some '-') := by decide
  have ho : o ∈ Operator.all := by cases o <;> decide
  rw [Sign.runsInto, Bool.or_eq_true, List.any_eq_true] at h
  rcases h with ⟨t, ht, heq⟩ | h
  · have hspell := beq_iff_eq.mp heq
    have hlast : t.spelling.toList.getLast? = some d := by
      rw [hspell, List.getLast?_concat]
    have hdrop : t.spelling.toList.dropLast = o.spelling.toList := by
      rw [hspell, List.dropLast_concat]
      rfl
    rcases hlonger t ht o ho hdrop with hany | ⟨rfl, hcl⟩ | ⟨rfl, hcl⟩
    · obtain ⟨c, hc, hcl⟩ := List.any_eq_true.mp hany
      have hcl := of_decide_eq_true hcl
      rw [hlast] at hcl
      rw [Option.some.inj hcl]
      exact Or.inl hc
    · rw [hlast] at hcl
      exact Or.inr (Or.inl ⟨rfl, Option.some.inj hcl⟩)
    · rw [hlast] at hcl
      exact Or.inr (Or.inr ⟨rfl, Option.some.inj hcl⟩)
  · -- what would open a comment
    rw [Bool.and_eq_true, Bool.or_eq_true] at h
    left
    rcases h.2 with hd | hd
    · rw [beq_iff_eq.mp hd]
      decide
    · rw [beq_iff_eq.mp hd]
      decide

/-- The first character of what begins an expression. -/
theorem head_beginsExpression {t : Terminal} (hs : t.isSpelled = true)
    (hb : t.kind.beginsExpression = true) {d : Char} (hd : d ∈ t.text.toList.head?) :
    d ∉ runOns ∧ (d = '+' → t = .operator .plusPlus) ∧ (d = '-' → t = .operator .minusMinus) := by
  have hword : ∀ c, isWordPart c = true → c ∉ runOns ∧ c ≠ '+' ∧ c ≠ '-' := by
    intro c hc
    have hne : ∀ x ∈ runOns ++ ['+', '-'], c ≠ x := by
      intro x hx
      have hnot := List.all_eq_true.mp isWordPart_runOns x hx
      rw [Bool.not_eq_true'] at hnot
      exact ne_of_isWordPart hc hnot
    exact ⟨fun hm => hne c (List.mem_append_left ['+', '-'] hm) rfl, hne _ (by decide),
      hne _ (by decide)⟩
  -- words and numerals begin with a character of a word, and none of those continues a sign
  have hother : ∀ {c}, isWordPart c = true → c ∉ runOns ∧
      (c = '+' → t = .operator .plusPlus) ∧ (c = '-' → t = .operator .minusMinus) := fun hc =>
    ⟨(hword _ hc).1, fun h => absurd h (hword _ hc).2.1, fun h => absurd h (hword _ hc).2.2⟩
  obtain ⟨kind, text⟩ := t
  cases kind with
  | keyword k =>
    have htext : text = k.spelling := beq_iff_eq.mp hs
    subst htext
    cases k <;> first
      | exact Bool.noConfusion hb
      | (rw [← Option.some.inj hd]; exact ⟨by decide, by decide, by decide⟩)
  | operator o =>
    have htext : text = o.spelling := beq_iff_eq.mp hs
    subst htext
    cases o <;> first
      | exact Bool.noConfusion hb
      | (rw [← Option.some.inj hd]; exact ⟨by decide, fun _ => rfl, by decide⟩)
      | (rw [← Option.some.inj hd]; exact ⟨by decide, by decide, fun _ => rfl⟩)
  | punctuation p =>
    have htext : text = p.spelling := beq_iff_eq.mp hs
    subst htext
    cases p <;> first
      | exact Bool.noConfusion hb
      | (rw [← Option.some.inj hd]; exact ⟨by decide, by decide, by decide⟩)
  | ident =>
    have hn : isWord text.toList = true := (Bool.and_eq_true _ _ ▸ hs).1
    cases hcs : text.toList with
    | nil => rw [hcs] at hn; exact Bool.noConfusion hn
    | cons c cs =>
      rw [hcs, isWord, Bool.and_eq_true] at hn
      rw [show d = c by rw [hcs] at hd; exact (Option.some.inj hd).symm]
      exact hother (isWordPart_of_isWordStart hn.1)
  | number =>
    obtain ⟨ds, tail, hne, hds, htext, -⟩ := isNumeral_iff.mp hs
    obtain ⟨c, ds, rfl⟩ := List.exists_cons_of_ne_nil hne
    rw [show d = c by rw [htext] at hd; exact (Option.some.inj hd).symm]
    exact hother (isWordPart_of_isDigit (hds c List.mem_cons_self))
  | string =>
    have hq : isQuoted text.toList = true := hs
    cases hcs : text.toList with
    | nil => rw [hcs] at hq; exact Bool.noConfusion hq
    | cons c cs =>
      rw [hcs, isQuoted, Bool.and_eq_true, Bool.or_eq_true, beq_iff_eq, beq_iff_eq] at hq
      rw [show d = c by rw [hcs] at hd; exact (Option.some.inj hd).symm]
      rcases hq.1 with rfl | rfl <;>
        exact ⟨by decide, fun h => absurd h (by decide), fun h => absurd h (by decide)⟩
  | comment => exact Bool.noConfusion hb
  | eof => exact Bool.noConfusion hb

end CurlyScript
