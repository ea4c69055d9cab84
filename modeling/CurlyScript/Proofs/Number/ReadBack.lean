import CurlyScript.Number.Notation
import CurlyScript.Proofs.Token.Spelling

/-
  Numbers read back.

  The plain notation of a decimal denotes that decimal, or one of the same value, and the shortest
  decimal of a magnitude denotes the magnitude.  So a finite number without a sign is written as a
  numeral that denotes it (`Number.ofText?_text`).

  The search for the shortest decimal tries whether a candidate reads back, so of those nothing is
  left to prove.  It is the fallback, the EXACT expansion, that needs an argument: it is a whole
  number of the spacing of its block, so rounding leaves it alone (`Magnitude.nearest?_units`).
-/

namespace CurlyScript

-- Powers are those of `Nat` itself, whichever other structure on `Nat` is in scope.  A numeral
-- as exponent has its type written out, lest a default choose the power.
attribute [local instance (high)] instPowNat

/-- A finite number without a minus sign. -/
def Number.isPlain : Number → Bool
  | .finite negative _ => !negative
  | _ => false

/-- A number that digits can denote: finite or too large, without a minus sign. -/
def Number.isCount : Number → Bool
  | .finite negative _ | .infinite negative => !negative
  | .nan => false

namespace Decimal

/-! ## Plain notation -/

theorem digitsOf_ne_nil (n : Nat) : digitsOf n ≠ [] := Nat.toDigits_ne_nil

theorem isDigit_of_mem_digitsOf {n : Nat} {c : Char} (h : c ∈ digitsOf n) : c.isDigit = true :=
  Nat.isDigit_of_mem_toDigits (by decide) (by decide) h

theorem ofDigits_digitsOf (n : Nat) : ofDigits (digitsOf n) = n := Nat.ofDigitChars_ten_toDigits

theorem ofDigits_append_zeros (cs : List Char) (e : Nat) :
    ofDigits (cs ++ List.replicate e '0') = 10 ^ e * ofDigits cs := by
  show Nat.ofDigitChars 10 (cs ++ List.replicate e '0') 0 = _
  rw [Nat.ofDigitChars_append, Nat.ofDigitChars_replicate_zero]
  rfl

theorem ofDigits_zeros_append (e : Nat) (cs : List Char) :
    ofDigits (List.replicate e '0' ++ cs) = ofDigits cs := by
  show Nat.ofDigitChars 10 (List.replicate e '0' ++ cs) 0 = _
  rw [Nat.ofDigitChars_append, Nat.ofDigitChars_replicate_zero, Nat.mul_zero]
  rfl

/-- What the digits around a point, if there is one, denote. -/
theorem ofChars?_eq {ds fraction : List Char} (hne : ds ≠ []) (hds : ∀ d ∈ ds, d.isDigit = true)
    (hfr : ∀ d ∈ fraction, d.isDigit = true) :
    ofChars? ds = some ⟨ofDigits ds, 0⟩ ∧
      ofChars? (ds ++ '.' :: fraction) = some ⟨ofDigits (ds ++ fraction), -fraction.length⟩ := by
  have hempty : ds.isEmpty = false := by
    cases ds with
    | nil => exact absurd rfl hne
    | cons => rfl
  constructor
  · rw [ofChars?]
    simp only [List.takeWhile_eq_self_iff.mpr hds, List.dropWhile_eq_nil_iff.mpr hds, hempty]
    simp [exponent?]
  · have hdot : ('.' : Char).isDigit = false := by decide
    rw [ofChars?]
    simp only [List.takeWhile_append_of_pos hds, List.dropWhile_append_of_pos hds,
      List.takeWhile_cons_of_neg (hdot ▸ Bool.false_ne_true),
      List.dropWhile_cons_of_neg (hdot ▸ Bool.false_ne_true), List.append_nil,
      List.takeWhile_eq_self_iff.mpr hfr, List.dropWhile_eq_nil_iff.mpr hfr, hempty]
    simp [exponent?]

/-- The plain notation of a decimal is digits, or digits around a point. -/
theorem plain_eq (d : Decimal) : ∃ ds fraction : List Char, ds ≠ [] ∧
    (∀ c ∈ ds, c.isDigit = true) ∧ (∀ c ∈ fraction, c.isDigit = true) ∧
    ((∃ e : Nat, d.exponent = e ∧ d.plain = ds ∧ ofDigits ds = 10 ^ e * d.digits) ∨
      (d.plain = ds ++ '.' :: fraction ∧ fraction ≠ [] ∧ d.exponent = -fraction.length ∧
        ofDigits (ds ++ fraction) = d.digits)) := by
  obtain ⟨n, exponent⟩ := d
  have hne := digitsOf_ne_nil n
  have hdigits : ∀ c ∈ digitsOf n, c.isDigit = true := fun c => isDigit_of_mem_digitsOf
  have hzeros : ∀ e, ∀ c ∈ List.replicate e '0', c.isDigit = true := by
    intro e c hc
    rw [List.eq_of_mem_replicate hc]
    decide
  cases exponent with
  | ofNat e =>
    refine ⟨digitsOf n ++ List.replicate e '0', [], ?_, ?_, nofun, Or.inl ⟨e, rfl, rfl, ?_⟩⟩
    · exact List.append_ne_nil_of_left_ne_nil hne _
    · exact List.forall_mem_append.mpr ⟨hdigits, hzeros e⟩
    · rw [ofDigits_append_zeros, ofDigits_digitsOf]
  | negSucc e =>
    -- the point falls within the digits, or zeros come before them
    by_cases hlt : e + 1 < (digitsOf n).length
    · refine ⟨(digitsOf n).take ((digitsOf n).length - (e + 1)),
        (digitsOf n).drop ((digitsOf n).length - (e + 1)), ?_,
        fun c hc => hdigits c (List.mem_of_mem_take hc),
        fun c hc => hdigits c (List.mem_of_mem_drop hc), Or.inr ⟨?_, ?_, ?_, ?_⟩⟩
      · rw [← List.length_pos_iff, List.length_take]
        omega
      · rw [plain]
        exact if_pos hlt
      · rw [← List.length_pos_iff, List.length_drop]
        omega
      · rw [List.length_drop]
        show Int.negSucc e = _
        omega
      · rw [List.take_append_drop, ofDigits_digitsOf]
    · refine ⟨['0'], List.replicate (e + 1 - (digitsOf n).length) '0' ++ digitsOf n, by simp,
        ?_, ?_, Or.inr ⟨?_, ?_, ?_, ?_⟩⟩
      · intro c hc
        rw [List.mem_singleton.mp hc]
        decide
      · exact List.forall_mem_append.mpr ⟨hzeros _, hdigits⟩
      · rw [plain]
        exact if_neg hlt
      · exact List.append_ne_nil_of_right_ne_nil _ hne
      · rw [List.length_append, List.length_replicate]
        show Int.negSucc e = _
        omega
      · have h := ofDigits_zeros_append (e + 1 - (digitsOf n).length + 1) (digitsOf n)
        rw [List.replicate_succ, ofDigits_digitsOf] at h
        exact h

theorem isNumeral_plain (d : Decimal) : isNumeral d.plain = true := by
  obtain ⟨ds, fraction, hne, hds, hfr, ⟨_, _, hp, -⟩ | ⟨hp, hf, -, -⟩⟩ := d.plain_eq
  · exact isNumeral_iff.mpr ⟨ds, [], hne, hds, by rw [hp, List.append_nil], Or.inl rfl⟩
  · exact isNumeral_iff.mpr ⟨ds, _, hne, hds, hp, Or.inr ⟨fraction, rfl, hf, hfr⟩⟩

/-- Each power of ten makes a whole number longer by one digit. -/
theorem length_digitsOf_mul {n : Nat} (hn : 0 < n) (e : Nat) :
    (digitsOf (10 ^ e * n)).length = (digitsOf n).length + e := by
  induction e with
  | zero => rw [Nat.pow_zero, Nat.one_mul, Nat.add_zero]
  | succ e ih =>
    have hpos : 0 < 10 ^ e * n := Nat.mul_pos (Nat.pow_pos (by decide)) hn
    have h := Nat.toDigits_append_toDigits (b := 10) (d := 0) (by decide) hpos (by decide)
    have hmul : 10 ^ (e + 1) * n = 10 * (10 ^ e * n) + 0 := by
      rw [Nat.pow_succ, Nat.add_zero, Nat.mul_comm (10 ^ e), Nat.mul_assoc]
    rw [digitsOf, hmul, ← h, List.length_append, Nat.toDigits_zero, ← digitsOf, ih,
      List.length_singleton, Nat.add_assoc]

theorem magnitude?_ofNat (n e : Nat) : magnitude? ⟨n, e⟩ =
    if n = 0 ∨ ((digitsOf n).length + e : Int) < -325 then some .zero
    else if ((digitsOf n).length + e : Int) > 310 then none
    else Magnitude.nearest? (n * 10 ^ e) 1 := rfl

theorem magnitude?_negSucc (n e : Nat) : magnitude? ⟨n, Int.negSucc e⟩ =
    if n = 0 ∨ ((digitsOf n).length + Int.negSucc e : Int) < -325 then some .zero
    else if ((digitsOf n).length + Int.negSucc e : Int) > 310 then none
    else Magnitude.nearest? n (10 ^ (e + 1)) := rfl

/-- Zeros at the end stand for a power of ten. -/
theorem magnitude?_mul (n e : Nat) :
    magnitude? ⟨10 ^ e * n, 0⟩ = magnitude? ⟨n, e⟩ := by
  have hcast : (0 : Int) = ((0 : Nat) : Int) := rfl
  rw [hcast, magnitude?_ofNat, magnitude?_ofNat]
  rcases Nat.eq_zero_or_pos n with rfl | hn
  · rw [if_pos (Or.inl (Nat.mul_zero _)), if_pos (Or.inl rfl)]
  · -- reading cuts off by the number of digits and the exponent together, and moving zeros from one
    -- to the other keeps their sum
    have h0 : 10 ^ e * n ≠ 0 := Nat.ne_of_gt (Nat.mul_pos (Nat.pow_pos (by decide)) hn)
    rw [length_digitsOf_mul hn e, Nat.pow_zero, Nat.mul_one, Nat.mul_comm n]
    simp only [h0, Nat.ne_of_gt hn, false_or, Int.natCast_add, Int.natCast_zero, Int.add_zero]

/-- What is read off the plain notation of a decimal has the value of the decimal. -/
theorem ofChars?_plain (d : Decimal) :
    ∃ d', ofChars? d.plain = some d' ∧ d'.magnitude? = d.magnitude? := by
  obtain ⟨ds, fraction, hne, hds, hfr, ⟨e, he, hp, hv⟩ | ⟨hp, -, he, hv⟩⟩ := d.plain_eq
  · refine ⟨_, by rw [hp]; exact (ofChars?_eq hne hds hfr).1, ?_⟩
    rw [hv, magnitude?_mul, ← he]
  · refine ⟨_, by rw [hp]; exact (ofChars?_eq hne hds hfr).2, ?_⟩
    rw [hv, ← he]

end Decimal

/-! ## Every magnitude reads back -/

theorem roundDiv_mul (k : Nat) {b : Nat} (hb : 0 < b) : roundDiv (k * b) b = k := by
  unfold roundDiv
  rw [Nat.mul_div_cancel k hb, Nat.mul_mod_left]
  exact if_pos hb

namespace Magnitude

/-- A magnitude lies on the grid of its block: `block` is the number of the block and `place` its
    value in multiples of the spacing there. -/
theorem units_eq (m : Magnitude) : ∃ block place, m.units = place * 2 ^ block ∧
    m.units.log2 - 52 = block ∧ block * binade + place = m.rank := by
  have hbinade : binade = 2 ^ (52 : Nat) := rfl
  unfold units
  split
  · -- below the first power of two the grid is the one of block zero, and the rank is its own place
    rename_i hlt
    refine ⟨0, m.rank, by rw [Nat.pow_zero, Nat.mul_one], ?_, by omega⟩
    have hlog : m.rank.log2 < 53 := by
      rcases Nat.eq_zero_or_pos m.rank with h0 | hpos
      · rw [h0]; decide
      · exact (Nat.log2_lt (Nat.ne_of_gt hpos)).mpr (by omega)
    omega
  · rename_i hge
    have hdiv : 1 ≤ m.rank / binade := Nat.div_pos (by omega) (by rw [hbinade]; omega)
    have hmod : m.rank % binade < binade := Nat.mod_lt _ (by rw [hbinade]; omega)
    have hsum := Nat.div_add_mod m.rank binade
    refine ⟨m.rank / binade - 1, binade + m.rank % binade, Nat.shiftLeft_eq _ _, ?_, ?_⟩
    · -- the leading bit of the significand is its bit 52, so the logarithm tells the block
      have hlog : ((binade + m.rank % binade) <<< (m.rank / binade - 1)).log2 =
          52 + (m.rank / binade - 1) := by
        rw [Nat.shiftLeft_eq]
        refine (Nat.log2_eq_iff ?_).mpr ⟨?_, ?_⟩
        · exact Nat.ne_of_gt (Nat.mul_pos (by rw [hbinade]; omega) (Nat.pow_pos (by decide)))
        · rw [Nat.pow_add]
          exact Nat.mul_le_mul_right _ (by omega)
        · rw [Nat.add_right_comm, Nat.pow_add]
          exact Nat.mul_lt_mul_of_pos_right (by omega) (Nat.pow_pos (by decide))
      omega
    · obtain ⟨q, hq⟩ : ∃ q, m.rank / binade = q + 1 := ⟨m.rank / binade - 1, by omega⟩
      rw [hq, Nat.mul_succ, Nat.mul_comm] at hsum
      rw [hq, Nat.add_sub_cancel]
      omega

/-- The exact value of a magnitude, over any denominator, is nearest to the magnitude itself. -/
theorem nearest?_units (m : Magnitude) {num den : Nat} (hden : 0 < den)
    (h : num * unitsPerOne = m.units * den) : nearest? num den = some m := by
  obtain ⟨block, place, hu, hb, hr⟩ := m.units_eq
  -- the exact quotient has the logarithm of the magnitude, so it is rounded on the grid of the
  -- magnitude, and there nothing is left to round
  have hdiv : num * unitsPerOne / den = m.units := by rw [h, Nat.mul_div_cancel _ hden]
  have hround : roundDiv (num * unitsPerOne) (den <<< block) = place := by
    rw [h, hu, Nat.shiftLeft_eq, Nat.mul_assoc, Nat.mul_comm (2 ^ block)]
    exact roundDiv_mul place (Nat.mul_pos hden (Nat.pow_pos (by decide)))
  unfold nearest?
  simp only [hdiv, hb, hround, hr]
  exact dif_pos m.rank_lt

end Magnitude

theorem two_pow_le_mul {k a b : Nat} (h : k ≤ a + b) : 2 ^ k ≤ 2 ^ a * 2 ^ b := by
  rw [← Nat.pow_add]
  exact Nat.pow_le_pow_right (by decide) h

namespace Magnitude

/-- Every magnitude is less than `10 ^ 309`. -/
theorem units_lt (m : Magnitude) : m.units < 10 ^ (309 : Nat) * unitsPerOne := by
  obtain ⟨block, place, hu, hb, hr⟩ := m.units_eq
  have hlt := m.rank_lt
  have hbinade : binade = 2 ^ (52 : Nat) := rfl
  have hunits : m.units < 2 ^ (block + 53) := by
    rcases Nat.eq_zero_or_pos m.units with h0 | hpos
    · rw [h0]; exact Nat.pow_pos (by decide)
    · exact (Nat.log2_lt (Nat.ne_of_gt hpos)).mp (by omega)
  have hblock : block ≤ 2046 := by
    rw [hbinade] at hr hlt
    omega
  have hpow : 2 ^ (block + 53) ≤ 2 ^ (1025 : Nat) * unitsPerOne := by
    rw [unitsPerOne]
    exact @two_pow_le_mul (block + 53) 1025 1074 (by omega)
  have hten : 2 ^ (1025 : Nat) ≤ 10 ^ (309 : Nat) := by decide +kernel
  exact Nat.lt_of_lt_of_le hunits (Nat.le_trans hpow (Nat.mul_le_mul_right unitsPerOne hten))

/-- The exact expansion is neither so short nor so long that reading would cut it off. -/
theorem length_exact (m : Magnitude) (h : 0 < m.units) :
    750 ≤ (Decimal.digitsOf m.exact.digits).length ∧
      (Decimal.digitsOf m.exact.digits).length ≤ 1383 := by
  have hfive : 10 ^ (749 : Nat) ≤ 5 ^ (1074 : Nat) := by decide +kernel
  have hlow : 10 ^ (749 : Nat) ≤ m.units * 5 ^ (1074 : Nat) :=
    Nat.le_trans hfive (Nat.le_mul_of_pos_left _ h)
  have hhigh : m.units * 5 ^ (1074 : Nat) < 10 ^ (1383 : Nat) := by
    have hpos : 0 < 5 ^ (1074 : Nat) := Nat.pow_pos (by decide)
    have hmul := Nat.mul_lt_mul_of_pos_right m.units_lt hpos
    have hten : 10 ^ (309 : Nat) * unitsPerOne * 5 ^ (1074 : Nat) = 10 ^ (1383 : Nat) := by
      decide +kernel
    rw [hten] at hmul
    exact hmul
  constructor
  · have hiff :=
      @Nat.length_toDigits_le_iff 10 (m.units * 5 ^ (1074 : Nat)) 749 (by decide) (by decide)
    rw [← Nat.not_lt]
    intro hlt
    exact absurd (hiff.mp (Nat.le_of_lt_succ hlt)) (Nat.not_lt.mpr hlow)
  · exact (Nat.length_toDigits_le_iff (by decide) (by decide)).mpr hhigh

theorem units_pos {m : Magnitude} (h : m.rank ≠ 0) : 0 < m.units := by
  obtain ⟨block, place, hu, hb, hr⟩ := m.units_eq
  rcases Nat.eq_zero_or_pos m.units with h0 | hpos
  · exfalso
    rw [h0] at hu hb
    have hplace : place = 0 := by
      rcases Nat.mul_eq_zero.mp hu.symm with hp | hp
      · exact hp
      · exact absurd hp (Nat.ne_of_gt (Nat.pow_pos (by decide)))
    have hblock : block = 0 := hb.symm
    rw [hplace, hblock] at hr
    omega
  · exact hpos

/-- The exact expansion reads back. -/
theorem exact_magnitude? {m : Magnitude} (h : m.rank ≠ 0) : m.exact.magnitude? = some m := by
  have hpos := units_pos h
  obtain ⟨hlow, hhigh⟩ := m.length_exact hpos
  have hden : 0 < 10 ^ (1073 + 1) := @Nat.pow_pos 10 (1073 + 1) (by decide)
  have hvalue : m.exact.digits * unitsPerOne = m.units * 10 ^ (1073 + 1) := by
    show m.units * 5 ^ (1074 : Nat) * 2 ^ (1074 : Nat) = _
    rw [Nat.mul_assoc, ← Nat.mul_pow]
  have hzero : m.exact.digits ≠ 0 := by
    intro h0
    rw [h0] at hlow
    exact absurd hlow (by decide)
  show Decimal.magnitude? ⟨m.exact.digits, Int.negSucc 1073⟩ = some m
  rw [Decimal.magnitude?_negSucc, if_neg, if_neg]
  · exact nearest?_units m hden hvalue
  · omega
  · rintro (h0 | h0)
    · exact hzero h0
    · omega

/-- **The shortest decimal reads back.** -/
theorem shortest_magnitude? (m : Magnitude) : m.shortest.magnitude? = some m := by
  unfold shortest
  split
  · rename_i h0
    obtain ⟨rank, hlt⟩ := m
    obtain rfl : rank = 0 := h0
    exact Decimal.magnitude?_ofNat 0 0
  · rename_i h0
    split
    · -- a candidate is taken only after it has been read back
      rename_i d hd
      have hr : m.reads d = true := List.find?_some hd
      exact beq_iff_eq.mp hr
    · exact exact_magnitude? h0

end Magnitude

/-! ## Literals -/

namespace Number

/-- A numeral is read as digits without a sign. -/
theorem ofText?_numeral {cs : List Char} (h : isNumeral cs = true) :
    ofText? (String.ofList cs) = ofUnsigned? false cs := by
  obtain ⟨ds, tail, hne, hds, rfl, -⟩ := isNumeral_iff.mp h
  obtain ⟨d, ds, rfl⟩ := List.exists_cons_of_ne_nil hne
  have hd := hds d List.mem_cons_self
  rw [ofText?, String.toList_ofList]
  split
  · rename_i heq
    rw [(List.cons.inj heq).1] at hd
    exact absurd hd (by decide)
  · rename_i heq
    rw [(List.cons.inj heq).1] at hd
    exact absurd hd (by decide)
  · rfl

/-- Every numeral denotes a number, which has no minus sign. -/
theorem ofText?_isCount {cs : List Char} (h : isNumeral cs = true) :
    ∃ x, ofText? (String.ofList cs) = some x ∧ x.isCount = true := by
  have hchars : ∃ d, Decimal.ofChars? cs = some d := by
    obtain ⟨ds, tail, hne, hds, rfl, rfl | ⟨f, rfl, -, hf⟩⟩ := isNumeral_iff.mp h
    · rw [List.append_nil]
      exact ⟨_, (Decimal.ofChars?_eq hne hds hds).1⟩
    · exact ⟨_, (Decimal.ofChars?_eq hne hds hf).2⟩
  obtain ⟨d, hd⟩ := hchars
  refine ⟨d.number false, by rw [ofText?_numeral h, ofUnsigned?, hd], ?_⟩
  unfold Decimal.number
  split <;> rfl

theorem text_plain {x : Number} (h : x.isPlain = true) :
    ∃ m : Magnitude, x = .finite false m ∧ x.text = String.ofList m.shortest.plain := by
  cases x with
  | finite negative m =>
    cases negative with
    | false => exact ⟨m, rfl, rfl⟩
    | true => exact Bool.noConfusion h
  | _ => exact Bool.noConfusion h

/-- A finite number without a sign is written as a numeral. -/
theorem isNumeral_text {x : Number} (h : x.isPlain = true) : isNumeral x.text.toList = true := by
  obtain ⟨m, -, ht⟩ := text_plain h
  rw [ht, String.toList_ofList]
  exact m.shortest.isNumeral_plain

/-- **A finite number without a sign reads back from its text.** -/
theorem ofText?_text {x : Number} (h : x.isPlain = true) : ofText? x.text = some x := by
  obtain ⟨m, rfl, ht⟩ := text_plain h
  obtain ⟨d, hd, hm⟩ := m.shortest.ofChars?_plain
  rw [ht, ofText?_numeral m.shortest.isNumeral_plain, ofUnsigned?, hd]
  show some (d.number false) = _
  rw [Decimal.number, hm, m.shortest_magnitude?]

end Number

end CurlyScript
