import CurlyScript.Proofs.Grammar.Derives
import CurlyScript.Proofs.Grammar.Readings

/-
  What operands and operators between them are read as.

  The rules climb: an operator takes what was read before it as its left operand, and reads its
  right one up to the first operator that is not tighter.  What they build can be said without any
  of this: the operator at the top is the LAST of the LOOSEST ones, and what stands on either side
  of it is built in the same way (`Operations.tree`).

  The two meet in `Operations.tree_climb`.  To take the first operator, with the run of tighter ones
  after it, for the left operand of the rest changes nothing of the tree; this is what one round of
  the loop does.

  `Following.operands` is the invariant of the loop: from any left operand and under any least
  precedence it builds the tree of the operators that are at least as tight, and stops before the
  first one that is not.
-/

namespace CurlyScript

/-- Operators, each with the operand after it. -/
abbrev Operations := List (BinaryOp × Expr)

namespace Operations

/-! ## The tree -/

/-- The last of the loosest among some operators, and what stands before it and after it. -/
structure Split (ops : Operations) where
  before : Operations
  op : BinaryOp
  operand : Expr
  after : Operations
  whole : before ++ (op, operand) :: after = ops
  /-- None before it is looser. -/
  le_before : ∀ x ∈ before, op.precedence ≤ x.1.precedence
  /-- All after it are tighter. -/
  lt_after : ∀ x ∈ after, op.precedence < x.1.precedence

/-- Finds the last of the loosest operators. -/
def split (x : BinaryOp × Expr) : (ops : Operations) → Split (x :: ops)
  | [] => ⟨[], x.1, x.2, [], rfl, nofun, nofun⟩
  | y :: ops =>
    let s := split y ops
    if h : x.1.precedence < s.op.precedence then
      ⟨[], x.1, x.2, y :: ops, rfl, nofun, fun z hz => by
        rw [← s.whole, List.mem_append, List.mem_cons] at hz
        obtain hz | rfl | hz := hz
        · exact Nat.lt_of_lt_of_le h (s.le_before z hz)
        · exact h
        · exact Nat.lt_trans h (s.lt_after z hz)⟩
    else
      ⟨x :: s.before, s.op, s.operand, s.after, congrArg (List.cons x) s.whole,
        List.forall_mem_cons.mpr ⟨Nat.not_lt.mp h, s.le_before⟩, s.lt_after⟩

variable {ops : Operations} {first left e : Expr} {op : BinaryOp}

theorem Split.length_eq (s : Split ops) :
    s.before.length + s.after.length + 1 = ops.length := by
  have h := congrArg List.length s.whole
  rw [List.length_append, List.length_cons] at h
  omega

/-- No operator is looser than the one that is found. -/
theorem Split.le (s : Split ops) : ∀ x ∈ ops, s.op.precedence ≤ x.1.precedence := by
  intro x hx
  rw [← s.whole, List.mem_append, List.mem_cons] at hx
  obtain hx | rfl | hx := hx
  · exact s.le_before x hx
  · exact Nat.le_refl _
  · exact Nat.le_of_lt (s.lt_after x hx)

/-- Two operations with an operator between them. -/
def join (left : Expr) (op : BinaryOp) (right : Expr) : Expr :=
  .binary (left.span.merge right.span) op left right

/-- The tree of operands with operators between them: the last of the loosest operators is at the
    top. -/
def tree (first : Expr) : Operations → Expr
  | [] => first
  | x :: ops =>
    let s := split x ops
    join (tree first s.before) s.op (tree s.operand s.after)
termination_by ops => ops.length
decreasing_by
  all_goals
    have h := (split x ops).length_eq
    rw [List.length_cons] at h ⊢
    omega

@[simp] theorem tree_nil (first : Expr) : tree first [] = first := by rw [tree]

/-- None is found later than another: it would be at least as loose as one before it, which is
    tighter. -/
theorem Split.length_before_le (s t : Split ops) : s.before.length ≤ t.before.length := by
  rcases List.append_eq_append_iff.mp (s.whole.trans t.whole.symm) with
    ⟨bs, hb, -⟩ | ⟨bs, hb, ha⟩
  · rw [hb, List.length_append]
    exact Nat.le_add_right _ _
  · cases bs with
    | nil => rw [hb, List.append_nil]
    | cons b bs =>
      obtain ⟨rfl, hafter⟩ := List.cons.inj ha
      have hle := s.le_before (t.op, t.operand) (by simp [hb])
      have hlt := t.lt_after (s.op, s.operand) (by simp [hafter])
      exact absurd hle (Nat.not_le.mpr hlt)

/-- There is but one last of the loosest operators. -/
theorem Split.unique (s t : Split ops) : s = t := by
  have hlength : s.before.length = t.before.length :=
    Nat.le_antisymm (s.length_before_le t) (t.length_before_le s)
  obtain ⟨before, op, operand, after, whole, hle, hlt⟩ := s
  obtain ⟨before', op', operand', after', whole', hle', hlt'⟩ := t
  obtain ⟨rfl, hrest⟩ := List.append_inj (whole.trans whole'.symm) hlength
  obtain ⟨hx, rfl⟩ := List.cons.inj hrest
  obtain ⟨rfl, rfl⟩ := Prod.mk.inj hx
  rfl

/-- The last of the loosest operators is at the top, however it is found. -/
theorem tree_eq (first : Expr) (s : Split ops) :
    tree first ops = join (tree first s.before) s.op (tree s.operand s.after) := by
  cases ops with
  | nil =>
    have h := s.length_eq
    rw [List.length_nil] at h
    omega
  | cons x ops => rw [tree, s.unique (split x ops)]

example (a b c : Expr) :
    (split (.sub, a) [(.mul, b), (.sub, c)]).before = [(.sub, a), (.mul, b)] := rfl

/-- An operator with tighter ones after it, and after these none that is tighter, is part of the
    left operand of the rest. -/
theorem tree_climb {tighter rest : Operations}
    (htighter : ∀ x ∈ tighter, op.precedence < x.1.precedence)
    (hrest : ∀ x ∈ rest.head?, x.1.precedence ≤ op.precedence) :
    tree left ((op, e) :: tighter ++ rest) = tree (join left op (tree e tighter)) rest := by
  -- on the rest: it loses its loosest operator and all after that
  induction hn : rest.length using Nat.strongRecOn generalizing rest with
  | ind n ih =>
    cases rest with
    | nil =>
      rw [List.append_nil, tree_nil]
      have hbefore : ∀ x ∈ ([] : Operations), op.precedence ≤ x.1.precedence :=
        fun _ hx => absurd hx List.not_mem_nil
      exact (tree_eq left ⟨[], op, e, tighter, rfl, hbefore, htighter⟩).trans (by rw [tree_nil])
    | cons y rest =>
      let s := split y rest
      have hop : s.op.precedence ≤ op.precedence :=
        Nat.le_trans (s.le y List.mem_cons_self) (hrest y rfl)
      have hbefore : ∀ x ∈ (op, e) :: tighter ++ s.before, s.op.precedence ≤ x.1.precedence := by
        intro x hx
        rw [List.cons_append, List.mem_cons, List.mem_append] at hx
        obtain rfl | hx | hx := hx
        · exact hop
        · exact Nat.le_trans hop (Nat.le_of_lt (htighter x hx))
        · exact s.le_before x hx
      have hwhole : ((op, e) :: tighter ++ s.before) ++ (s.op, s.operand) :: s.after =
          (op, e) :: tighter ++ y :: rest := by
        rw [List.append_assoc, s.whole]
      have hhead : ∀ x ∈ s.before.head?, x.1.precedence ≤ op.precedence := by
        intro x hx
        refine hrest x ?_
        rw [← s.whole]
        cases hb : s.before with
        | nil => rw [hb] at hx; cases hx
        | cons b bs => rw [hb] at hx; exact hx
      have hlength := s.length_eq
      rw [tree_eq left ⟨_, s.op, s.operand, s.after, hwhole, hbefore, s.lt_after⟩, tree_eq _ s]
      exact congrArg (fun l => join l s.op (tree s.operand s.after))
        (ih s.before.length (by omega) hhead rfl)

/-! ## Runs -/

/-- The operators before the first one that is looser than `least`. -/
def run (least : Nat) (ops : Operations) : Operations := ops.takeWhile (least ≤ ·.1.precedence)

/-- The operators from the first one on that is looser than `least`. -/
def beyond (least : Nat) (ops : Operations) : Operations :=
  ops.dropWhile (least ≤ ·.1.precedence)

section runs

variable {least p : Nat} {x : BinaryOp × Expr}

theorem run_cons (h : least ≤ x.1.precedence) : run least (x :: ops) = x :: run least ops :=
  List.takeWhile_cons_of_pos (decide_eq_true h)

theorem run_cons_of_lt (h : x.1.precedence < least) : run least (x :: ops) = [] :=
  List.takeWhile_cons_of_neg (by simpa using h)

theorem beyond_cons (h : least ≤ x.1.precedence) : beyond least (x :: ops) = beyond least ops :=
  List.dropWhile_cons_of_pos (decide_eq_true h)

theorem beyond_cons_of_lt (h : x.1.precedence < least) : beyond least (x :: ops) = x :: ops :=
  List.dropWhile_cons_of_neg (by simpa using h)

theorem run_append_beyond (least : Nat) (ops : Operations) :
    run least ops ++ beyond least ops = ops :=
  List.takeWhile_append_dropWhile

theorem length_beyond_le (least : Nat) (ops : Operations) :
    (beyond least ops).length ≤ ops.length :=
  (List.dropWhile_suffix _).length_le

theorem le_of_mem_run (h : x ∈ run least ops) : least ≤ x.1.precedence := by
  have hx := List.mem_takeWhile_imp h
  exact of_decide_eq_true hx

/-- A run under a looser operator goes on where one under a tighter operator stops. -/
theorem run_eq_append (h : least ≤ p) (ops : Operations) :
    run least ops = run p ops ++ run least (beyond p ops) := by
  conv_lhs => rw [← run_append_beyond p ops]
  exact List.takeWhile_append_of_pos fun x hx => decide_eq_true (Nat.le_trans h (le_of_mem_run hx))

theorem beyond_eq (h : least ≤ p) (ops : Operations) :
    beyond least ops = beyond least (beyond p ops) := by
  conv_lhs => rw [← run_append_beyond p ops]
  exact List.dropWhile_append_of_pos fun x hx => decide_eq_true (Nat.le_trans h (le_of_mem_run hx))

/-- What stands beyond a run, in whatever run, begins with a looser operator. -/
theorem lt_of_mem_head?_beyond (h : x ∈ (run least (beyond p ops)).head?) :
    x.1.precedence < p := by
  have hx : x ∈ (beyond p ops).head? := by
    rw [← run_append_beyond least (beyond p ops)]
    exact List.mem_head?_append_of_mem_head? h
  have hnot := List.head?_dropWhile_not (fun x : BinaryOp × Expr => decide (p ≤ x.1.precedence)) ops
  rw [show (ops.dropWhile fun x => decide (p ≤ x.1.precedence)).head? = some x from hx] at hnot
  simpa using hnot

/-- No operator is looser than the loosest. -/
theorem run_zero (ops : Operations) : run 0 ops = ops :=
  List.takeWhile_eq_self_iff.mpr fun _ _ => decide_eq_true (Nat.zero_le _)

theorem beyond_zero (ops : Operations) : beyond 0 ops = [] :=
  List.dropWhile_eq_nil_iff.mpr fun _ _ => decide_eq_true (Nat.zero_le _)

end runs

end Operations

/-! ## The loop -/

open Operations

namespace Grammar

/-- From `c` on stand operators, each with an operand that is read up to the next one, and the last
    up to `d`. -/
inductive Following : Cursor → Operations → Cursor → Prop
  | done (c : Cursor) : Following c [] c
  | more {c d e f : Cursor} {op : BinaryOp} {operand : Expr} {ops : Operations}
    (hop : Finds op d (c.take? TokenKind.binary?)) (hoperand : ReadsUnary d operand e)
    (hops : Following e ops f) : Following c ((op, operand) :: ops) f

/-- From `c` to `d` stand operands with operators between them, each operand such that it is read up
    to the operator after it. -/
def Joined (c : Cursor) (first : Expr) (ops : Operations) (d : Cursor) : Prop :=
  ∃ e, ReadsUnary c first e ∧ Following e ops d

variable {c d : Cursor} {first left : Expr} {ops : Operations} {least : Nat} {n : Nat}

/-- The operator that is taken under a least precedence is the one that stands there, or none. -/
theorem take?_binaryFrom? (c : Cursor) (least : Nat) :
    c.take? (binaryFrom? least) =
      (c.take? TokenKind.binary?).filter (least ≤ ·.value.precedence) := by
  unfold Cursor.take?
  cases c.next? with
  | none => rfl
  | some s =>
    dsimp only
    rw [binaryFrom?_eq]
    show ((s.value.kind.binary?).filter _).map _ = ((s.value.kind.binary?).map _).filter _
    cases s.value.kind.binary? with
    | none => rfl
    | some op =>
      rw [Option.map_some, Option.filter_some, Option.filter_some]
      split <;> rfl

/-- The loop stops before an operator that is looser, or none. -/
theorem operands_stop {r : Rules n} (hc : c.size < n)
    (h : ∀ s, c.take? TokenKind.binary? = some s → s.value.precedence < least) :
    Grammar.operands r least left c hc = .ok ⟨left, c, hc⟩ := by
  have hnone : c.take? (binaryFrom? least) = none := by
    rw [take?_binaryFrom?, Option.filter_eq_none_iff]
    intro s hs
    rw [decide_eq_true_eq, Nat.not_le]
    exact h s hs
  rw [Grammar.operands, hnone]

/-- One round of the loop. -/
theorem operands_step {r : Rules n} (hc : c.size < n) {op : BinaryOp} {right : Expr} {e : Cursor}
    {hd : d.size < c.size} {he : e.size < d.size}
    (htake : c.take? TokenKind.binary? = some ⟨op, d, hd⟩) (hleast : least ≤ op.precedence)
    (hright : r.binary (op.precedence + 1) d (Cursor.size_lt₂ hd hc) = .ok ⟨right, e, he⟩) :
    Grammar.operands r least left c hc =
      Grammar.operands r least (join left op right) e (Cursor.size_lt₃ he hd hc) := by
  have hsome : c.take? (binaryFrom? least) = some ⟨op, d, hd⟩ := by
    rw [take?_binaryFrom?, htake]
    exact Option.filter_some_pos (decide_eq_true hleast)
  rw [Grammar.operands, hsome]
  dsimp only
  rw [hright]
  rfl

/-- **What the loop builds.**  Under `least` it takes the operators that stand there up to the first
    one that is looser, and builds their tree on what was read before. -/
theorem Following.operands (h : Following c ops d) (hd : d.kind.binary? = none) (least : Nat)
    (left : Expr) (hc : c.size < n) :
    ∃ e, Following e (beyond least ops) d ∧
      Arrives (tree left (run least ops)) e (Grammar.operands (rules n) least left c hc) := by
  -- on the operators left; the right operand leaves fewer of them to the loop
  induction hk : ops.length using Nat.strongRecOn generalizing c ops n least left with
  | ind k ih =>
    cases h with
    | done =>
      refine ⟨d, .done d, ?_⟩
      have hnone : d.take? TokenKind.binary? = none :=
        Cursor.take?_eq_none (by rwa [← Cursor.kind_eq])
      rw [operands_stop hc (by rw [hnone]; rintro _ ⟨⟩)]
      exact (tree_nil left).symm ▸ .ok hc
    | @more _ f g _ op operand ops hop hoperand hops =>
      obtain ⟨hf, htake⟩ := hop
      rw [List.length_cons] at hk
      by_cases hleast : least ≤ op.precedence
      · -- the right operand takes the operators that are tighter
        have hright : ∃ g', Following g' (beyond (op.precedence + 1) ops) d ∧
            ReadsBinary (op.precedence + 1) f (tree operand (run (op.precedence + 1) ops)) g' := by
          obtain ⟨hg, hunary⟩ := hoperand
          obtain ⟨g', hrest, hread⟩ :=
            ih ops.length (by omega) hops (op.precedence + 1) operand hg rfl
          exact ⟨g', hrest, Arrives.bind ⟨hg, hunary⟩ fun _ => hread⟩
        obtain ⟨g', hrest, hright⟩ := hright
        obtain ⟨hg', hright⟩ := hright.arrives n (Cursor.size_lt₂ hf hc)
        -- and the loop goes on with those of the others that are tight enough
        have hfewer := length_beyond_le (op.precedence + 1) ops
        obtain ⟨e, hrest, hread⟩ := ih _ (by omega) hrest least
          (join left op (tree operand (run (op.precedence + 1) ops)))
          (Cursor.size_lt₃ hg' hf hc) rfl
        have hle : least ≤ op.precedence + 1 := Nat.le_succ_of_le hleast
        refine ⟨e, ?_, ?_⟩
        · rw [beyond_cons hleast, beyond_eq hle]
          exact hrest
        · rw [run_cons hleast, run_eq_append hle, ← List.cons_append,
            tree_climb (fun x hx => le_of_mem_run hx)
              (fun x hx => Nat.le_of_lt_succ (lt_of_mem_head?_beyond hx)),
            operands_step hc htake hleast hright]
          exact hread
      · rw [Nat.not_le] at hleast
        refine ⟨c, ?_, ?_⟩
        · rw [beyond_cons_of_lt hleast]
          exact .more ⟨hf, htake⟩ hoperand hops
        · rw [run_cons_of_lt hleast, tree_nil, operands_stop hc]
          · exact .ok hc
          · intro s hs
            rw [htake] at hs
            exact Option.some.inj hs ▸ hleast

/-- **Operators are read by precedence.**  Operands with operators between them are read as the tree
    that has the last of the loosest operators at the top, and so on below, if neither an operator
    nor an assignment follows. -/
theorem readsExpression_of_joined (h : Joined c first ops d) (hbinary : d.kind.binary? = none)
    (hassign : d.kind.assign? = none) : ReadsExpression c (tree first ops) d := by
  obtain ⟨e, hfirst, hops⟩ := h
  have hzero : ReadsBinary 0 c (tree first ops) d := by
    refine hfirst.bind fun he => ?_
    obtain ⟨d', hrest, hread⟩ := hops.operands hbinary 0 first he
    rw [beyond_zero] at hrest
    rw [run_zero] at hread
    cases hrest with
    | done => exact hread
  refine hzero.bind fun hd => ?_
  dsimp only
  rw [Cursor.take?_eq_none (by rwa [← Cursor.kind_eq])]
  exact .ok hd

/-- Operators of every level, some of them twice, and a sign before an operand. -/
def ladderTokens : List Token :=
  [(TokenKind.ident, "a"), (.operator .orOr, "||"), (.ident, "b"), (.operator .star, "*"),
    (.ident, "c"), (.operator .minus, "-"), (.ident, "d"), (.operator .minus, "-"),
    (.operator .plusPlus, "++"), (.ident, "e"), (.operator .lt, "<"), (.ident, "f"),
    (.operator .andAnd, "&&"), (.ident, "g")].zipIdx.map fun ((kind, lexeme), i) =>
      ⟨kind, lexeme, ⟨i, i + 1⟩⟩

/-- The cursor before the token of number `i`. -/
def ladder (i : Nat) : Cursor := ⟨ladderTokens.drop i, i, ladderTokens.length⟩

theorem readsExpression_of_joined_ladder :
    let word (s : String) (i : Nat) : Expr := .ident ⟨i, i + 1⟩ s
    let ops : Operations := [(.or_, word "b" 2), (.mul, word "c" 4), (.sub, word "d" 6),
      (.sub, .update ⟨8, 10⟩ .increment true (word "e" 9)), (.lt, word "f" 11),
      (.and_, word "g" 13)]
    (Joined (ladder 0) (word "a" 0) ops (ladder 14) ∧ (ladder 14).kind.binary? = none ∧
        (ladder 14).kind.assign? = none) ∧
      ReadsExpression (ladder 0) (tree (word "a" 0) ops) (ladder 14) := by
  intro word ops
  have hjoined : Joined (ladder 0) (word "a" 0) ops (ladder 14) := by
    refine ⟨ladder 1, ⟨by decide, by with_unfolding_all exact rfl⟩, ?_⟩
    refine .more (d := ladder 2) (e := ladder 3) ⟨by decide, rfl⟩
      ⟨by decide, by with_unfolding_all exact rfl⟩ ?_
    refine .more (d := ladder 4) (e := ladder 5) ⟨by decide, rfl⟩
      ⟨by decide, by with_unfolding_all exact rfl⟩ ?_
    refine .more (d := ladder 6) (e := ladder 7) ⟨by decide, rfl⟩
      ⟨by decide, by with_unfolding_all exact rfl⟩ ?_
    refine .more (d := ladder 8) (e := ladder 10) ⟨by decide, rfl⟩
      ⟨by decide, by with_unfolding_all exact rfl⟩ ?_
    refine .more (d := ladder 11) (e := ladder 12) ⟨by decide, rfl⟩
      ⟨by decide, by with_unfolding_all exact rfl⟩ ?_
    refine .more (d := ladder 13) (e := ladder 14) ⟨by decide, rfl⟩
      ⟨by decide, by with_unfolding_all exact rfl⟩ ?_
    exact .done _
  have hbinary : (ladder 14).kind.binary? = none := by decide
  have hassign : (ladder 14).kind.assign? = none := by decide
  exact ⟨⟨hjoined, hbinary, hassign⟩, readsExpression_of_joined hjoined hbinary hassign⟩

end Grammar

end CurlyScript
