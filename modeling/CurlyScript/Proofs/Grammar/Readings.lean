import CurlyScript.Grammar.Program
import CurlyScript.Proofs.Grammar.Cut

/-
  Readings by the rules, whatever the number of tokens that the rules are for.

  What is read at a cursor does not depend on how many tokens the rules allow for, as long as they
  allow for those to come; so `ReadsExpression c e d` and its like name no number.

  Where nothing comes after it, an operand is a whole expression, and so are operands with tight
  operators between them: the looser levels find nothing to go on with.
-/

namespace CurlyScript

namespace Grammar

/-- The rules for fewer than `m` tokens are the same, whichever larger number they come from. -/
theorem restrict_rules {m n : Nat} (h : m ≤ n) : (rules n).restrict h = rules m := by
  induction m using Nat.strongRecOn generalizing n with
  | ind m ih =>
    cases m with
    | zero =>
      rw [Rules.restrict, rules, Rules.mk.injEq]
      refine ⟨funext₂ fun c hc => ?_, funext₃ fun _ c hc => ?_, funext₂ fun c hc => ?_,
        funext₂ fun c hc => ?_⟩ <;> exact absurd hc (Nat.not_lt_zero _)
    | succ m =>
      obtain ⟨n, rfl⟩ := Nat.exists_eq_succ_of_ne_zero
        (Nat.ne_of_gt (Nat.lt_of_lt_of_le m.succ_pos h))
      have hsame : ∀ (c : Cursor) (hc : c.size < m + 1) (hn : c.size ≤ n) (hm : c.size ≤ m),
          (rules n).restrict hn = (rules m).restrict hm :=
        fun c hc hn hm => (ih c.size hc hn).trans (ih c.size hc hm).symm
      rw [Rules.restrict, rules, rules, Rules.mk.injEq]
      refine ⟨funext₂ fun c hc => ?_, funext₃ fun least c hc => ?_, funext₂ fun c hc => ?_,
        funext₂ fun c hc => ?_⟩
      · exact congrArg (expression c) (hsame c hc _ _)
      · exact congrArg (binary least c) (hsame c hc _ _)
      · exact congrArg (unary c) (hsame c hc _ _)
      · exact congrArg (statement c) (hsame c hc _ _)

variable {n : Nat} {c : Cursor}

theorem rules_expression (h : c.size < n) :
    (rules n).expression c h = expression c (rules c.size) := by
  cases n with
  | zero => exact absurd h (Nat.not_lt_zero _)
  | succ n => exact congrArg (expression c) (restrict_rules _)

theorem rules_binary {least : Nat} (h : c.size < n) :
    (rules n).binary least c h = binary least c (rules c.size) := by
  cases n with
  | zero => exact absurd h (Nat.not_lt_zero _)
  | succ n => exact congrArg (binary least c) (restrict_rules _)

theorem rules_unary (h : c.size < n) : (rules n).unary c h = unary c (rules c.size) := by
  cases n with
  | zero => exact absurd h (Nat.not_lt_zero _)
  | succ n => exact congrArg (unary c) (restrict_rules _)

theorem rules_statement (h : c.size < n) :
    (rules n).statement c h = statement c (rules c.size) := by
  cases n with
  | zero => exact absurd h (Nat.not_lt_zero _)
  | succ n => exact congrArg (statement c) (restrict_rules _)

/-! ## Readings by the rules -/

/-- Reading an expression at `c` gives `e` and comes to `d`. -/
def ReadsExpression (c : Cursor) (e : Expr) (d : Cursor) : Prop :=
  Arrives e d (expression c (rules c.size))

/-- Reading operands at `c` gives `e` and comes to `d`. -/
def ReadsBinary (least : Nat) (c : Cursor) (e : Expr) (d : Cursor) : Prop :=
  Arrives e d (binary least c (rules c.size))

/-- Reading one operand at `c` gives `e` and comes to `d`. -/
def ReadsUnary (c : Cursor) (e : Expr) (d : Cursor) : Prop :=
  Arrives e d (unary c (rules c.size))

/-- Reading a statement at `c` gives `s` and comes to `d`. -/
def ReadsStatement (c : Cursor) (s : Statement) (d : Cursor) : Prop :=
  Arrives s d (statement c (rules c.size))

section rules

variable {c d : Cursor} {e : Expr} {least : Nat} {s : Statement}

theorem ReadsExpression.arrives (h : ReadsExpression c e d) (n : Nat) (hc : c.size < n) :
    Arrives e d ((rules n).expression c hc) := by
  rw [rules_expression]
  exact h

theorem ReadsBinary.arrives (h : ReadsBinary least c e d) (n : Nat) (hc : c.size < n) :
    Arrives e d ((rules n).binary least c hc) := by
  rw [rules_binary]
  exact h

theorem ReadsUnary.arrives (h : ReadsUnary c e d) (n : Nat) (hc : c.size < n) :
    Arrives e d ((rules n).unary c hc) := by
  rw [rules_unary]
  exact h

theorem ReadsStatement.arrives (h : ReadsStatement c s d) (n : Nat) (hc : c.size < n) :
    Arrives s d ((rules n).statement c hc) := by
  rw [rules_statement]
  exact h

end rules

/-! ## From a part of an expression to a whole one -/

/-- A step that is taken is taken under a weaker condition too. -/
theorem take?_mono {α : Type} {f g : TokenKind → Option α} {c d : Cursor} {v : α}
    {hd : d.size < c.size} (hfg : ∀ k, f k = some v → g k = some v)
    (h : c.take? f = some ⟨v, d, hd⟩) : c.take? g = some ⟨v, d, hd⟩ := by
  unfold Cursor.take? at h ⊢
  split at h
  · cases h
  · obtain ⟨a, ha, heq⟩ := Option.map_eq_some_iff.mp h
    have hv : a = v := congrArg Step.value heq
    exact Option.map_eq_some_iff.mpr ⟨a, (hv ▸ hfg _ (hv ▸ ha)), heq⟩

section whole

variable {n least : Nat} {r : Rules n} {c d : Cursor} {e left : Expr}

/-- Where operands are read to the very end, looser operators are none the fewer. -/
theorem operands_zero (h : c.size < n) (hread : Arrives e d (operands r least left c h))
    (hd : Closes d.rest) : Arrives e d (operands r 0 left c h) := by
  induction hk : c.size using Nat.strongRecOn generalizing c left with
  | ind k ih =>
    rw [operands] at hread ⊢
    split at hread
    · obtain ⟨hlt, heq⟩ := hread
      obtain ⟨rfl, rfl⟩ : left = e ∧ c = d := by simpa using heq
      rw [Cursor.take?_eq_none_of_closes hd rfl rfl]
      exact .ok _
    · rename_i op f hf htake
      have hzero : c.take? (binaryFrom? 0) = some ⟨op, f, hf⟩ := by
        refine take?_mono (fun k hk => ?_) htake
        rw [binaryFrom?_eq, Option.filter_eq_some_iff] at hk ⊢
        exact ⟨hk.1, decide_eq_true (Nat.zero_le _)⟩
      rw [hzero]
      obtain ⟨hlt, heq⟩ := hread
      dsimp only at heq ⊢
      cases hright : r.binary (op.precedence + 1) f (Cursor.size_lt₂ hf h) with
      | error e' => rw [hright] at heq; cases heq
      | ok s =>
        rw [hright] at heq
        exact ih s.rest.size (by have := s.lt; omega) _ ⟨hlt, heq⟩ rfl

/-- Operands up to an end are a whole expression. -/
theorem ReadsBinary.whole (h : ReadsBinary least c e d) (hd : Closes d.rest) :
    ReadsExpression c e d := by
  have hzero : ReadsBinary 0 c e d := by
    rw [ReadsBinary, binary] at h ⊢
    cases hu : unary c (rules c.size) with
    | error e' => rw [hu] at h; obtain ⟨_, h⟩ := h; cases h
    | ok s =>
      rw [hu] at h
      exact operands_zero _ h hd
  refine Arrives.bind hzero fun hlt => ?_
  dsimp only
  rw [Cursor.take?_eq_none_of_closes hd rfl rfl]
  exact .ok _

/-- An operand up to an end is a whole expression. -/
theorem ReadsUnary.whole (h : ReadsUnary c e d) (hd : Closes d.rest) : ReadsExpression c e d := by
  have hzero : ReadsBinary 0 c e d := by
    refine Arrives.bind h fun hlt => ?_
    dsimp only
    rw [operands, Cursor.take?_eq_none_of_closes hd rfl rfl]
    exact .ok _
  exact hzero.whole hd

end whole

end Grammar

end CurlyScript
