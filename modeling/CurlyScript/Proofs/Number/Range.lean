import CurlyScript.Grammar.Expression
import CurlyScript.Layout.Tree
import CurlyScript.Proofs.Number.ReadBack
import CurlyScript.Proofs.Token.Terminal

/-
  The range of numbers.

  A numeral may be of any length, but a number has an end to its range.  From `overflow` on a value
  is nearer to the number that would follow the last one, and is read as infinite
  (`Magnitude.isSome_nearest?`).  Below that the text of a literal is a numeral again, of the same
  value; an infinite literal is written as a WORD.  So the range is all that stands between a
  numeral and its text (`scan_numeral`).
-/

namespace CurlyScript

-- Powers are those of `Nat` itself, whichever other structure on `Nat` is in scope.  A numeral
-- as exponent has its type written out, lest a default choose the power.
attribute [local instance (high)] instPowNat

/-- The least value that is too large for a number: it lies half way from the last number to the
    one that would follow it, which has the even rank. -/
def overflow : Nat := 2 ^ (1024 : Nat) - 2 ^ (970 : Nat)

/-! ## Rounding -/

/-- A quotient is rounded down below the half and up above it, and on the half to what is even. -/
theorem roundDiv_cases (a b : Nat) :
    (roundDiv a b = a / b ∧ 2 * (a % b) ≤ b ∧ (2 * (a % b) = b → a / b % 2 = 0)) ∨
    (roundDiv a b = a / b + 1 ∧ b ≤ 2 * (a % b) ∧ (2 * (a % b) = b → a / b % 2 = 1)) := by
  unfold roundDiv
  generalize a / b = q
  generalize a % b = r
  dsimp only
  split
  · omega
  · split <;> omega

/-- What is rounded to less than an even number lies below the half before it, for that half itself
    is rounded up. -/
theorem roundDiv_lt_iff {a b k : Nat} (hb : 0 < b) :
    roundDiv a b < 2 * k ↔ 2 * a + b < 4 * k * b := by
  have hsum := Nat.div_add_mod a b
  have hmod := Nat.mod_lt a hb
  have hround := roundDiv_cases a b
  generalize a / b = q at *
  generalize a % b = r at *
  subst hsum
  obtain hlt | heq | hgt : q + 1 < 2 * k ∨ q + 1 = 2 * k ∨ 2 * k ≤ q := by omega
  · have hmul : (2 * q + 4) * b ≤ 4 * k * b := Nat.mul_le_mul_right b (by omega)
    rw [Nat.add_mul, Nat.mul_assoc 2, Nat.mul_comm q] at hmul
    omega
  · have hmul : (2 * q + 2) * b = 4 * k * b := congrArg (· * b) (by omega)
    rw [Nat.add_mul, Nat.mul_assoc 2, Nat.mul_comm q] at hmul
    omega
  · have hmul : 4 * k * b ≤ 2 * q * b := Nat.mul_le_mul_right b (by omega)
    rw [Nat.mul_assoc 2, Nat.mul_comm q] at hmul
    omega

namespace Magnitude

theorem unitsPerOne_pos : 0 < unitsPerOne := by decide +kernel

/-- The least value that is too large, in units. -/
theorem overflow_mul : overflow * unitsPerOne = (4 * binade - 1) * 2 ^ (2044 : Nat) := by
  decide +kernel

/-- The quotient at the spacing of its block: less than two blocks, and at least one unless the
    block is the first. -/
theorem quot_bounds {q block : Nat} (hblock : q.log2 - 52 = block) :
    q / 2 ^ block < 2 * binade ∧ (block = 0 ∨ binade ≤ q / 2 ^ block) := by
  have hpow : 0 < 2 ^ block := Nat.two_pow_pos block
  have htwo : 2 * binade * 2 ^ block = 2 ^ (53 + block) := by
    rw [Nat.pow_add]
    rfl
  have hone : binade * 2 ^ block = 2 ^ (52 + block) := by
    rw [Nat.pow_add]
    rfl
  constructor
  · rw [Nat.div_lt_iff_lt_mul hpow, htwo]
    have hlog : q.log2 < 53 + block := by omega
    exact Nat.lt_of_lt_of_le Nat.lt_log2_self (Nat.pow_le_pow_right (by decide) hlog)
  · rw [Nat.le_div_iff_mul_le hpow, hone]
    rcases Nat.eq_zero_or_pos block with h0 | hpos
    · exact .inl h0
    · have hlog : 52 + block = q.log2 := by omega
      have hne : q ≠ 0 := by
        rintro rfl
        rw [Nat.log2_zero] at hlog
        omega
      exact .inr (hlog ▸ Nat.log2_self_le hne)

/-- The rank that a fraction of units is rounded to lies within the first blocks if the fraction is
    less than half way from the last number in them to the next. -/
theorem rank_lt_iff {scaled den block top : Nat} (hden : 0 < den)
    (hblock : (scaled / den).log2 - 52 = block) :
    block * binade + roundDiv scaled (den <<< block) < (top + 3) * binade ↔
      scaled < (4 * binade - 1) * 2 ^ top * den := by
  have hbinade : 0 < binade := Nat.two_pow_pos _
  have hpow : 0 < 2 ^ block := Nat.two_pow_pos block
  obtain ⟨hhigh, hlow⟩ := quot_bounds hblock
  have hround := roundDiv_cases scaled (den * 2 ^ block)
  rw [← Nat.div_div_eq_div_mul] at hround
  rw [Nat.shiftLeft_eq, Nat.add_mul]
  obtain hlt | rfl | hgt : block ≤ top ∨ block = top + 1 ∨ top + 2 ≤ block := by omega
  · -- not even the last rank of a lower block lies beyond
    have hrank : block * binade ≤ top * binade := Nat.mul_le_mul_right binade hlt
    have hvalue : scaled / den < (4 * binade - 1) * 2 ^ top :=
      Nat.lt_of_lt_of_le ((Nat.div_lt_iff_lt_mul hpow).mp hhigh)
        (Nat.mul_le_mul (by omega) (Nat.pow_le_pow_right (by decide) hlt))
    exact iff_of_true (by omega) ((Nat.div_lt_iff_lt_mul hden).mp hvalue)
  · -- in the last block the range ends half a spacing above the last number
    have hlast := @roundDiv_lt_iff scaled (den * 2 ^ (top + 1)) binade (Nat.mul_pos hden hpow)
    have htwice : den * 2 ^ (top + 1) = 2 * (2 ^ top * den) := by
      rw [Nat.pow_succ', Nat.mul_comm, Nat.mul_assoc]
    obtain ⟨k, hk⟩ : ∃ k, 4 * binade = k + 1 := ⟨4 * binade - 1, by omega⟩
    rw [htwice] at hlast ⊢
    rw [Nat.mul_assoc (4 * binade - 1), hk, Nat.add_sub_cancel, Nat.add_mul]
    have hmul : 4 * binade * (2 * (2 ^ top * den)) =
        2 * (k * (2 ^ top * den)) + 2 * (2 ^ top * den) := by
      rw [hk, Nat.add_mul, Nat.one_mul, Nat.mul_left_comm]
    rw [hmul] at hlast
    omega
  · have hrank : (top + 2) * binade ≤ block * binade := Nat.mul_le_mul_right binade hgt
    have hone := hlow.resolve_left (by omega)
    have hvalue : (4 * binade - 1) * 2 ^ top ≤ scaled / den := by
      refine Nat.le_trans ?_ ((Nat.le_div_iff_mul_le hpow).mp hone)
      have hfour : 4 * binade * 2 ^ top = binade * 2 ^ (top + 2) := by
        rw [Nat.pow_add, Nat.mul_comm 4, Nat.mul_assoc, Nat.mul_comm 4]
      refine Nat.le_trans (Nat.mul_le_mul_right _ (Nat.sub_le _ 1)) ?_
      rw [hfour]
      exact Nat.mul_le_mul_left binade (Nat.pow_le_pow_right (by decide) hgt)
    rw [Nat.add_mul] at hrank
    refine iff_of_false (by omega) ?_
    rw [Nat.not_lt]
    exact (Nat.le_div_iff_mul_le hden).mp hvalue

/-- **The end of the range.**  There is a nearest magnitude just below `overflow`. -/
theorem isSome_nearest? {num den : Nat} (hden : 0 < den) :
    (nearest? num den).isSome = true ↔ num < overflow * den := by
  have hrange : num < overflow * den ↔
      num * unitsPerOne < (4 * binade - 1) * 2 ^ (2044 : Nat) * den := by
    rw [← overflow_mul, Nat.mul_right_comm]
    exact (Nat.mul_lt_mul_right unitsPerOne_pos).symm
  rw [hrange, ← @rank_lt_iff _ _ _ 2044 hden rfl, nearest?]
  split
  · rename_i h
    simp [h]
  · rename_i h
    simp [h]

end Magnitude

/-! ## Decimals -/

namespace Decimal

theorem magnitude?_places (n places : Nat) : magnitude? ⟨n, -places⟩ =
    if n = 0 ∨ ((digitsOf n).length - places : Int) < -325 then some .zero
    else if ((digitsOf n).length - places : Int) > 310 then none
    else Magnitude.nearest? n (10 ^ places) := by
  cases places with
  | zero =>
    have hread := magnitude?_ofNat n 0
    rw [Nat.pow_zero, Nat.mul_one] at hread
    exact hread
  | succ e => exact magnitude?_negSucc n e

/-- A decimal denotes a magnitude just if it is less than `overflow`.  The bounds at which reading
    is cut off agree with that. -/
theorem isSome_magnitude? (n places : Nat) :
    (magnitude? ⟨n, -places⟩).isSome = true ↔ n < overflow * 10 ^ places := by
  have hten : 0 < 10 ^ places := Nat.pow_pos (by decide)
  have hone : 1 ≤ overflow := by decide +kernel
  rw [magnitude?_places]
  split
  · rename_i hsmall
    refine iff_of_true rfl ?_
    refine Nat.lt_of_lt_of_le ?_ (Nat.le_mul_of_pos_left _ hone)
    rcases hsmall with rfl | hlen
    · exact hten
    · exact (Nat.length_toDigits_le_iff (by decide) (by omega)).mp
        (show (digitsOf n).length ≤ places by omega)
  · split
    · rename_i hlarge
      refine iff_of_false (by decide) ?_
      have hover : overflow ≤ 10 ^ (310 : Nat) := by decide +kernel
      have hlen : ¬ (digitsOf n).length ≤ 310 + places := by omega
      rw [digitsOf, Nat.length_toDigits_le_iff (by decide) (by omega), Nat.not_lt,
        Nat.pow_add] at hlen
      rw [Nat.not_lt]
      exact Nat.le_trans (Nat.mul_le_mul_right _ hover) hlen
    · exact Magnitude.isSome_nearest? hten

theorem isFinite_number (negative : Bool) (d : Decimal) :
    (d.number negative).isFinite = d.magnitude?.isSome := by
  rw [number]
  cases d.magnitude? <;> rfl

end Decimal

/-! ## Numerals -/

/-- The digits of a numeral as a whole number, as if there were no point. -/
def digits (cs : List Char) : Nat := Decimal.ofDigits (cs.filter Char.isDigit)

/-- How many digits of a numeral come after the point. -/
def places (cs : List Char) : Nat := (cs.dropWhile Char.isDigit).length - 1

/-- A numeral denotes its digits, scaled by the places after the point. -/
theorem ofChars?_numeral {cs : List Char} (h : isNumeral cs = true) :
    Decimal.ofChars? cs = some ⟨digits cs, -places cs⟩ := by
  obtain ⟨ds, tail, hne, hds, rfl, rfl | ⟨f, rfl, -, hf⟩⟩ := isNumeral_iff.mp h
  · rw [List.append_nil, (Decimal.ofChars?_eq hne hds hds).1, digits, places,
      List.filter_eq_self.mpr hds, List.dropWhile_eq_nil_iff.mpr hds]
    rfl
  · have hdot : ('.' : Char).isDigit = false := by decide
    rw [(Decimal.ofChars?_eq hne hds hf).2, digits, places, List.filter_append,
      List.filter_cons_of_neg (hdot ▸ Bool.false_ne_true), List.filter_eq_self.mpr hds,
      List.filter_eq_self.mpr hf, List.dropWhile_append_of_pos hds,
      List.dropWhile_cons_of_neg (hdot ▸ Bool.false_ne_true)]
    rfl

/-- **What a numeral denotes.**  It is finite just if it is less than `overflow`, and has no minus
    sign. -/
theorem ofText?_of_isNumeral {cs : List Char} (h : isNumeral cs = true) :
    ∃ x, Number.ofText? (String.ofList cs) = some x ∧ x.isCount = true ∧
      (x.isFinite = true ↔ digits cs < overflow * 10 ^ places cs) := by
  obtain ⟨x, hx, hcount⟩ := Number.ofText?_isCount h
  refine ⟨x, hx, hcount, ?_⟩
  rw [Number.ofText?_numeral h, Number.ofUnsigned?, ofChars?_numeral h] at hx
  rw [← Option.some.inj hx, Decimal.isFinite_number, Decimal.isSome_magnitude?]

/-! ## Tokens -/

/-- A numeral is one number token. -/
theorem scan_of_isNumeral {s : String} (h : isNumeral s.toList = true) (keep : Bool) :
    ∃ u, scan s keep = .ok [u, Token.endAt (byteLength s.toList)] ∧
      u.terminal = ⟨.number, s⟩ := by
  have hscans := Scans.numeral h breaks_nil .nil
  rw [List.append_nil, String.ofList_toList] at hscans
  exact scan_singleton hscans rfl keep

/-- What digits denote is finite, or infinite without a minus sign. -/
theorem Number.isCount_cases {x : Number} (h : x.isCount = true) :
    (x.isFinite = true ∧ x.isPlain = true) ∨ (x.isFinite = false ∧ x = .infinite false) := by
  cases x with
  | nan => exact Bool.noConfusion h
  | finite negative m => exact .inl ⟨rfl, h⟩
  | infinite negative =>
    cases negative with
    | false => exact .inr ⟨rfl, rfl⟩
    | true => exact Bool.noConfusion h

/-- The text of a number that is finite and has no minus sign is one token, which is read as that
    number. -/
theorem scan_text {x : Number} (h : x.isPlain = true) (keep : Bool) :
    ∃ u, scan x.text keep = .ok [u, Token.endAt (byteLength x.text.toList)] ∧
      u.kind = .number ∧ Grammar.literal? u = some (.number x) := by
  obtain ⟨u, hscan, hu⟩ := scan_of_isNumeral (Number.isNumeral_text h) keep
  obtain ⟨kind, lexeme, span⟩ := u
  obtain ⟨rfl, rfl⟩ := Terminal.mk.inj hu
  refine ⟨_, hscan, rfl, ?_⟩
  show (Number.ofText? x.text).map Literal.number = _
  rw [Number.ofText?_text h]
  rfl

/-- The text of the infinite number is a name. -/
theorem scan_infinite (keep : Bool) :
    ∃ u, scan (Number.infinite false).text keep = .ok [u, Token.endAt 3] ∧
      u.terminal = .name "inf" := by
  have hname : isName "inf" = true := by decide +kernel
  have hscans := Scans.name hname breaks_nil .nil
  rw [List.append_nil] at hscans
  exact scan_singleton hscans rfl keep

/-- A token of a text that stands for a number is a numeral. -/
theorem isNumeral_of_scan {source : String} {keep : Bool} {tokens : List Token} {t : Token}
    (h : scan source keep = .ok tokens) (ht : t ∈ tokens) (hk : t.kind = .number) :
    isNumeral t.lexeme.toList = true := by
  have hspelled := isSpelled_of_scan h ht (by rw [hk]; decide)
  obtain ⟨kind, lexeme, span⟩ := t
  obtain rfl : kind = .number := hk
  exact hspelled

/-- **Numbers survive being written**, as far as their range goes.  The operand that a numeral of a
    text is read as is a number, finite just if the numeral is less than `overflow`.  The text of a
    finite one is one number token of the same value; any other is written as the name `inf`. -/
theorem scan_numeral {source : String} {keep : Bool} {tokens : List Token} {t : Token}
    (h : scan source keep = .ok tokens) (ht : t ∈ tokens) (hk : t.kind = .number) :
    ∃ x : Number,
      (∀ (c d : Cursor) (hd : d.size < c.size) (r : Rules c.size),
        c.next? = some ⟨t, d, hd⟩ →
          Grammar.primary c r = .ok ⟨.literal t.span (.number x), d, hd⟩) ∧
      (x.isFinite = true ↔ digits t.lexeme.toList < overflow * 10 ^ places t.lexeme.toList) ∧
      ∀ keep', ∃ u, scan (Literal.number x).text keep' =
          .ok [u, Token.endAt (byteLength (Literal.number x).text.toList)] ∧
        if x.isFinite then u.kind = .number ∧ Grammar.literal? u = some (.number x)
        else u.terminal = .name "inf" := by
  have hnumeral := isNumeral_of_scan h ht hk
  obtain ⟨x, hx, hcount, hfinite⟩ := ofText?_of_isNumeral hnumeral
  rw [String.ofList_toList] at hx
  refine ⟨x, fun c d hd r hnext => ?_, hfinite, fun keep' => ?_⟩
  · obtain ⟨kind, lexeme, span⟩ := t
    obtain rfl : kind = .number := hk
    have hliteral : Grammar.literal? ⟨.number, lexeme, span⟩ = some (.number x) := by
      show (Number.ofText? lexeme).map Literal.number = _
      rw [hx]
      rfl
    rw [Grammar.primary, hnext]
    dsimp only
    rw [hliteral]
  · show ∃ u, scan x.text keep' = .ok [u, Token.endAt (byteLength x.text.toList)] ∧ _
    rcases x.isCount_cases hcount with ⟨hfin, hplain⟩ | ⟨hfin, rfl⟩
    · rw [hfin]
      exact scan_text hplain keep'
    · exact scan_infinite keep'

theorem scan_numeral_quarter :
    ∃ t tokens, scan "0.25" false = .ok tokens ∧ t ∈ tokens ∧ t.kind = .number ∧
      ∃ x : Number, x.isFinite = true ∧
        ∃ u, scan (Literal.number x).text false =
            .ok [u, Token.endAt (byteLength (Literal.number x).text.toList)] ∧
          Grammar.literal? u = some (.number x) := by
  have hscan : scan "0.25" false = .ok [⟨.number, "0.25", ⟨0, 4⟩⟩, Token.endAt 4] := by
    decide +kernel
  refine ⟨_, _, hscan, List.mem_cons_self, rfl, ?_⟩
  obtain ⟨x, -, hfinite, htext⟩ := scan_numeral hscan List.mem_cons_self rfl
  have hx : x.isFinite = true := hfinite.mpr (by decide +kernel)
  obtain ⟨u, hu, hread⟩ := htext false
  rw [hx] at hread
  exact ⟨x, hx, u, hu, hread.2⟩

/-- The digits of 10^309: a one and 309 zeros. -/
def pastRange : List Char := '1' :: List.replicate 309 '0'

/-- The numeral of 10^309 is one number token.  The literal that it is read as is written as a
    name. -/
theorem scan_pastRange :
    ∃ t u, scan (String.ofList pastRange) false =
        .ok [t, Token.endAt (byteLength (String.ofList pastRange).toList)] ∧
      t.kind = .number ∧ Grammar.literal? t = some (.number (.infinite false)) ∧
      scan (Literal.number (.infinite false)).text false = .ok [u, Token.endAt 3] ∧
      u.kind = .ident := by
  have hnumeral : isNumeral pastRange = true := by decide +kernel
  have htext : isNumeral (String.ofList pastRange).toList = true := by
    rw [String.toList_ofList]
    exact hnumeral
  obtain ⟨t, hscan, ht⟩ := scan_of_isNumeral htext false
  obtain ⟨u, hname, hu⟩ := scan_infinite false
  refine ⟨t, u, hscan, congrArg Terminal.kind ht, ?_, hname, congrArg Terminal.kind hu⟩
  obtain ⟨kind, lexeme, span⟩ := t
  obtain ⟨rfl, rfl⟩ := Terminal.mk.inj ht
  obtain ⟨x, hx, hcount, hfinite⟩ := ofText?_of_isNumeral hnumeral
  have hlarge : ¬ digits pastRange < overflow * 10 ^ places pastRange := by decide +kernel
  rcases x.isCount_cases hcount with ⟨hfin, -⟩ | ⟨-, rfl⟩
  · exact absurd (hfinite.mp hfin) hlarge
  · show (Number.ofText? (String.ofList pastRange)).map Literal.number = _
    rw [hx]
    rfl

end CurlyScript
