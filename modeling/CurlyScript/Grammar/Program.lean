import CurlyScript.Grammar.Statement

/-
  Programs: the rules tied together, and whole texts read.
-/

namespace CurlyScript

/-- The rules for fewer than `n` tokens.  Each is its definition over the rules for fewer still. -/
def Grammar.rules : (n : Nat) → Rules n
  | 0 => {
      expression := fun _ h => absurd h (Nat.not_lt_zero _)
      binary := fun _ _ h => absurd h (Nat.not_lt_zero _)
      unary := fun _ h => absurd h (Nat.not_lt_zero _)
      statement := fun _ h => absurd h (Nat.not_lt_zero _) }
  | n + 1 => {
      expression := fun c h => expression c ((rules n).restrict (Nat.le_of_lt_succ h))
      binary := fun p c h => binary p c ((rules n).restrict (Nat.le_of_lt_succ h))
      unary := fun c h => unary c ((rules n).restrict (Nat.le_of_lt_succ h))
      statement := fun c h => statement c ((rules n).restrict (Nat.le_of_lt_succ h)) }

namespace Program

/-- The statements from a cursor on, after those of `done`, which stand in reverse order. -/
def readFrom (done : List Statement) (c : Cursor) : Except SyntaxError Program :=
  if c.atEnd then .ok done.reverse
  else do
    let ⟨s, d, _⟩ ← Grammar.statement c (Grammar.rules c.size)
    readFrom (s :: done) d
termination_by c.size

/-- The statements of a program are read one after another, up to the end. -/
inductive Unrolls : Cursor → Program → Prop where
  | ended {c : Cursor} : c.atEnd = true → Unrolls c []
  | more {c : Cursor} {a : Step c.size Statement} {p : Program} :
    Grammar.statement c (Grammar.rules c.size) = .ok a → Unrolls a.rest p →
      Unrolls c (a.value :: p)

/-- What is read after the statements of `done` is a program of its own. -/
theorem unrolls_of_readFrom {done : List Statement} {c : Cursor} {p : Program}
    (h : readFrom done c = .ok p) : ∃ q, p = done.reverse ++ q ∧ Unrolls c q := by
  -- on the tokens left, for every list of statements read so far
  induction hk : c.size using Nat.strongRecOn generalizing c done with
  | ind k ih =>
    subst hk
    rw [readFrom] at h
    split at h
    · rename_i hend
      refine ⟨[], ?_, .ended hend⟩
      rw [← Except.ok.inj h, List.append_nil]
    · cases hx : Grammar.statement c (Grammar.rules c.size) with
      | error e => rw [hx] at h; cases h
      | ok a =>
        rw [hx] at h
        obtain ⟨q, rfl, hq⟩ := ih a.rest.size a.lt h rfl
        refine ⟨a.value :: q, ?_, .more hx hq⟩
        rw [List.reverse_cons, List.append_assoc]
        rfl

/-- The program that a list of tokens makes up. -/
def ofTokens (ts : List Token) : Except SyntaxError Program := readFrom [] (.ofTokens ts)

theorem unrolls_of_ofTokens {ts : List Token} {p : Program} (h : ofTokens ts = .ok p) :
    Unrolls (.ofTokens ts) p := by
  obtain ⟨q, rfl, hq⟩ := unrolls_of_readFrom h
  exact hq

/-- The program that a text makes up, with or without its comments. -/
def ofSource (source : String) (keepComments : Bool) : Except ReadError Program :=
  match scan source keepComments with
  | .error e => .error (.lexical e)
  | .ok ts => match ofTokens ts with
    | .error e => .error (.syntactic e)
    | .ok p => .ok p

/-- A text that can be scanned is read as its tokens are. -/
theorem ofSource_eq_mapError {source : String} {keep : Bool} {tokens : List Token}
    (h : scan source keep = .ok tokens) :
    ofSource source keep = (ofTokens tokens).mapError .syntactic := by
  rw [ofSource, h]
  dsimp only
  cases ofTokens tokens <;> rfl

/-- What is read from a text is what its tokens make up. -/
theorem ofSource_eq_ok_iff {source : String} {keep : Bool} {p : Program} :
    ofSource source keep = .ok p ↔
      ∃ tokens, scan source keep = .ok tokens ∧ ofTokens tokens = .ok p := by
  rw [ofSource]
  cases scan source keep with
  | error e => simp
  | ok tokens => cases hread : ofTokens tokens <;> simp [hread]

end Program

end CurlyScript
