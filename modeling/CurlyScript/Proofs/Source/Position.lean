import Mathlib.Data.List.DropRight
import Mathlib.Data.Prod.Lex
import CurlyScript.Source.Position
import CurlyScript.Source.Span

/-
  Positions keep the order of offsets.

  A position only ever moves on, from character to character (`Position.lt_after`).  So a later
  offset has no earlier position, wherever the two stand, and of two BOUNDARIES, between which
  there is a character, the later one has a later position.

  At a boundary the scan has gone through the characters before it and no others
  (`Position.advance_append`), and what it has counted of them are the line feeds and the
  characters since the last of these (`Position.foldl_after`).
-/

namespace CurlyScript

/-- The bytes of a text are those of its characters. -/
theorem byteLength_toList (s : String) : byteLength s.toList = s.utf8ByteSize := by
  have hbytes : ∀ cs : List Char, (String.ofList cs).utf8ByteSize = byteLength cs := by
    intro cs
    induction cs with
    | nil => rfl
    | cons c cs ih =>
      rw [String.ofList_cons, String.utf8ByteSize_append, ih, byteLength_cons]
      simp
  rw [← hbytes, String.ofList_toList]

/-- A byte offset that is not inside a character. -/
def IsBoundary (source : String) (offset : Nat) : Prop :=
  String.Pos.Raw.IsValid source ⟨offset⟩

/-- A boundary is where a text can be cut in two. -/
theorem isBoundary_iff {source : String} {offset : Nat} : IsBoundary source offset ↔
    ∃ before after : String, source = before ++ after ∧ offset = before.utf8ByteSize := by
  rw [IsBoundary, String.Pos.Raw.isValid_iff_exists_append]
  simp [String.Pos.Raw.ext_iff]

namespace Position

/-- The place in the order of reading: line by line, and in a line column by column. -/
def place (p : Position) : Nat ×ₗ Nat := toLex (p.line, p.column)

theorem place_injective : Function.Injective place := by
  rintro ⟨line, column⟩ ⟨line', column'⟩ h
  obtain ⟨rfl, rfl⟩ := Prod.mk.inj (toLex.injective h)
  rfl

/-- Positions are ordered line by line, and in a line column by column. -/
instance : LinearOrder Position := LinearOrder.lift' place place_injective

theorem lt_iff {p q : Position} :
    p < q ↔ p.line < q.line ∨ p.line = q.line ∧ p.column < q.column :=
  Prod.Lex.toLex_lt_toLex

variable {p : Position} {cs ds : List Char} {m n : Nat}

/-! ## Character by character -/

/-- **Every character leads on.** -/
theorem lt_after (p : Position) (c : Char) : p < p.after c := by
  rw [lt_iff, after]
  split
  · exact .inl (Nat.lt_succ_self _)
  · exact .inr ⟨rfl, Nat.lt_succ_self _⟩

theorem le_foldl_after (p : Position) (cs : List Char) : p ≤ cs.foldl after p := by
  induction cs generalizing p with
  | nil => exact le_rfl
  | cons c cs ih => exact (p.lt_after c).le.trans (ih (p.after c))

/-- What characters lead to from the first place: a line for each line feed, and in the last line a
    column for each character. -/
theorem foldl_after (cs : List Char) : cs.foldl after first =
    ⟨1 + cs.count '\n', 1 + (cs.rtakeWhile (· ≠ '\n')).length⟩ := by
  -- from the end, since a line feed makes the characters before it count no more
  induction cs using List.reverseRecOn with
  | nil => rfl
  | append_singleton cs c ih =>
    rw [List.foldl_concat, ih, after, List.count_append, List.rtakeWhile_concat]
    by_cases hc : c = '\n'
    · simp [hc, Nat.add_assoc]
    · simp [hc, Nat.add_assoc]

/-! ## Up to an offset -/

/-- Characters that end within the offset are all gone through. -/
theorem advance_append (h : byteLength cs ≤ n) :
    p.advance n (cs ++ ds) = (cs.foldl after p).advance (n - byteLength cs) ds := by
  induction cs generalizing p n with
  | nil => rfl
  | cons c cs ih =>
    rw [byteLength_cons] at h
    have hpos := c.utf8Size_pos
    rw [List.cons_append, advance, if_neg (by omega), ih (by omega), byteLength_cons,
      Nat.sub_sub]
    rfl

/-- At a boundary the scan stops. -/
theorem advance_zero (p : Position) (cs : List Char) : p.advance 0 cs = p := by
  cases cs with
  | nil => rfl
  | cons c cs => exact if_pos rfl

theorem le_advance (p : Position) (n : Nat) (cs : List Char) : p ≤ p.advance n cs := by
  induction cs generalizing p n with
  | nil => exact le_rfl
  | cons c cs ih =>
    rw [advance]
    split
    · exact le_rfl
    · exact (p.lt_after c).le.trans (ih _ _)

/-- **A later offset has no earlier position**, be it at a boundary or inside a character. -/
theorem advance_mono (p : Position) (h : m ≤ n) (cs : List Char) :
    p.advance m cs ≤ p.advance n cs := by
  induction cs generalizing p m n with
  | nil => exact le_rfl
  | cons c cs ih =>
    rw [advance]
    by_cases hm : m = 0
    · rw [if_pos hm]
      exact le_advance p n (c :: cs)
    · rw [if_neg hm, advance, if_neg (by omega)]
      exact ih _ (by omega)

/-! ## In a text -/

/-- The position of a boundary is what the characters before it lead to. -/
theorem ofOffset_append (before after : String) :
    ofOffset (before ++ after) before.utf8ByteSize = before.toList.foldl Position.after first := by
  rw [ofOffset, String.toList_append, ← byteLength_toList, advance_append le_rfl, Nat.sub_self,
    advance_zero]

/-- An offset past the end has the position of the end. -/
theorem ofOffset_of_le {source : String} {offset : Nat} (h : source.utf8ByteSize ≤ offset) :
    ofOffset source offset = source.toList.foldl after first := by
  rw [← byteLength_toList] at h
  have hall := @advance_append first source.toList [] offset h
  rw [List.append_nil] at hall
  exact hall

/-- Of two boundaries the later one has the later position. -/
theorem strictMonoOn_ofOffset (source : String) :
    StrictMonoOn (ofOffset source) {offset | IsBoundary source offset} := by
  intro a ha b hb hlt
  obtain ⟨before, after, rfl, rfl⟩ := isBoundary_iff.mp ha
  obtain ⟨before', after', hsame, rfl⟩ := isBoundary_iff.mp hb
  have hchars : before.toList ++ after.toList = before'.toList ++ after'.toList := by
    rw [← String.toList_append, hsame, String.toList_append]
  rw [ofOffset_append, hsame, ofOffset_append]
  rw [← byteLength_toList, ← byteLength_toList] at hlt
  -- the earlier boundary has fewer characters before it, so some character stands between
  rcases List.append_eq_append_iff.mp hchars with ⟨between, hbefore, -⟩ | ⟨between, hbefore, -⟩
  · cases between with
    | nil =>
      rw [hbefore, List.append_nil] at hlt
      exact absurd hlt (Nat.lt_irrefl _)
    | cons c cs =>
      rw [hbefore, List.foldl_append, List.foldl_cons]
      exact (lt_after _ c).trans_le (le_foldl_after _ cs)
  · rw [hbefore, byteLength_append] at hlt
    omega

/-- **Positions are exact, and in the order of offsets.**  The position of a boundary counts the
    line feeds before it and the characters since the last of them.  Of two boundaries the later one
    has the later position, so no two have the same; of any two offsets the later one has no earlier
    position, and past the end there is none but that of the end. -/
theorem ofOffset_exact (source : String) :
    (∀ before after : String, source = before ++ after →
      ofOffset source before.utf8ByteSize = ⟨1 + before.toList.count '\n',
        1 + (before.toList.rtakeWhile (· ≠ '\n')).length⟩) ∧
    StrictMonoOn (ofOffset source) {offset | IsBoundary source offset} ∧
    Set.InjOn (ofOffset source) {offset | IsBoundary source offset} ∧
    Monotone (ofOffset source) ∧
    ∀ offset, source.utf8ByteSize ≤ offset →
      ofOffset source offset = ofOffset source source.utf8ByteSize := by
  refine ⟨?_, strictMonoOn_ofOffset source, (strictMonoOn_ofOffset source).injOn, ?_, ?_⟩
  · rintro before after rfl
    rw [ofOffset_append, foldl_after]
  · intro a b hle
    exact advance_mono first hle source.toList
  · intro offset hpast
    rw [ofOffset_of_le hpast, ofOffset_of_le le_rfl]

/-- The first character takes two bytes, and the line feed after it is cut off. -/
theorem ofOffset_exact_accented :
    ("é\nb" = "é\n" ++ "b" ∧ ofOffset "é\nb" 3 = ⟨2, 1⟩) ∧
    (IsBoundary "é\nb" 2 ∧ IsBoundary "é\nb" 3 ∧ ofOffset "é\nb" 2 < ofOffset "é\nb" 3) ∧
    ofOffset "é\nb" 2 ≠ ofOffset "é\nb" 3 ∧
    ofOffset "é\nb" 1 ≤ ofOffset "é\nb" 2 ∧
    ofOffset "é\nb" 9 = ofOffset "é\nb" 4 := by
  obtain ⟨hexact, hstrict, hinj, hmono, hpast⟩ := ofOffset_exact "é\nb"
  have hcut : "é\nb" = "é\n" ++ "b" := by decide
  have htwo : IsBoundary "é\nb" 2 := isBoundary_iff.mpr ⟨"é", "\nb", by decide, by decide⟩
  have hthree : IsBoundary "é\nb" 3 := isBoundary_iff.mpr ⟨"é\n", "b", hcut, by decide⟩
  refine ⟨⟨hcut, hexact "é\n" "b" hcut⟩, ⟨htwo, hthree, hstrict htwo hthree (by decide)⟩,
    fun hsame => ?_, hmono (by decide), hpast 9 (by decide)⟩
  exact absurd (hinj htwo hthree hsame) (by decide)

end Position

end CurlyScript
