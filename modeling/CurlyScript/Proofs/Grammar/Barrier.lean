import CurlyScript.Proofs.Grammar.Edited

/-
  The first end token is a barrier, and every reading goes forward.

  The tokens need not come from a text: an end token may stand anywhere among them, or nowhere, and
  nothing is known of the texts and places of the others.  A cursor has them all, those behind an
  end token too.

  1. **Rules** — `Forward c x`: the reading `x` goes from `c` to a cursor that `c` reaches, so that
     no end token stands between the two.  Every primitive step does; there is one lemma for each
     rule, and the knot is tied by induction on the number of tokens (`rules_forward`).  That a rule
     leaves fewer tokens is in its type, so it even `Advances`.

  2. **Programs** — a program that is read cuts the tokens before the first end token into as many
     parts as it has statements, none of them empty (`Unrolls.parts`).

  3. **Behind the end** — since no step gets past the first end token, two cursors with the same
     tokens before it give the same steps.  One is then the other edited by an edit that changes
     nothing, and reading keeps step with edits (`readFrom_congr`).
-/

namespace CurlyScript

/-! ## Readings -/

/-- The second cursor is further on, and no end token stands between the two. -/
def Cursor.Advances (c d : Cursor) : Prop :=
  ∃ taken, taken ≠ [] ∧ c.tokens = taken ++ d.tokens ∧ ∀ t ∈ taken, t.kind ≠ .eof

/-- Who leaves fewer tokens has taken some. -/
theorem Cursor.Reaches.advances {c d : Cursor} (h : c.Reaches d) (hlt : d.size < c.size) :
    c.Advances d := by
  obtain ⟨taken, hc, htaken⟩ := h.taken
  refine ⟨taken, ?_, hc, htaken⟩
  rintro rfl
  rw [size, size, hc] at hlt
  exact absurd hlt (Nat.lt_irrefl _)

/-- Whatever is read from the cursor, no end token is taken. -/
def Forward {n : Nat} {α : Type} (c : Cursor) (x : Read (Step n α)) : Prop :=
  Gives (fun _ d => c.Reaches d) x

namespace Forward

variable {m n : Nat} {α β γ : Type} {c d : Cursor} {k : TokenKind}

theorem error (e : SyntaxError) : Forward (n := n) (α := α) c (.error e) := Gives.error e

theorem ok {v : α} (h : c.Reaches d) (hd : d.size < n) : Forward c (.ok ⟨v, d, hd⟩) :=
  Gives.ok (p := fun _ d => c.Reaches d) h hd

/-- Reading ends right where it is. -/
theorem done {v : α} (hd : d.size < n) : Forward d (.ok ⟨v, d, hd⟩) := ok (.refl d) hd

/-- Reading goes on from a cursor that was reached. -/
theorem after {x : Read (Step n α)} (h : c.Reaches d) (hx : Forward d x) : Forward c x :=
  hx.mono fun _ _ => h.trans

/-- One reading after another. -/
theorem bind {x : Read (Step m α)} {f : Step m α → Read (Step n β)} (hx : Forward c x)
    (hf : ∀ v d hd, Forward d (f ⟨v, d, hd⟩)) : Forward c (x >>= f) :=
  Gives.bind hx fun v d hd hreach => after hreach (hf v d hd)

/-- A reading after a check that takes no token. -/
theorem check {x : Except SyntaxError γ} {f : γ → Read (Step n β)} (hf : ∀ v, Forward c (f v)) :
    Forward c (x >>= f) :=
  Gives.check fun v _ => hf v

theorem map {x : Read (Step m α)} {f : Step m α → Step n β} (hx : Forward c x)
    (hf : ∀ s, (f s).rest = s.rest) : Forward c (x.map f) := by
  intro s hs
  cases x with
  | error e => cases hs
  | ok a =>
    rw [← Except.ok.inj hs, hf a]
    exact hx a rfl

theorem expect (c : Cursor) (k : TokenKind) : Forward c (c.expect k) := by
  rw [Cursor.expect]
  split
  · rename_i s hs
    exact ok (.accept? hs) _
  · exact error _

/-- A node that ends here, or with the semicolon that comes next. -/
theorem ended {v : α} (hd : (d.past (.punctuation .semicolon)).1.size < n) :
    Forward d (.ok ⟨v, (d.past (.punctuation .semicolon)).1, hd⟩) :=
  ok (.past d _) hd

end Forward

/-! ## Rules -/

/-- The rules take no end token. -/
structure Rules.Forward {n : Nat} (r : Rules n) : Prop where
  expression : ∀ c h, CurlyScript.Forward c (r.expression c h)
  binary : ∀ p c h, CurlyScript.Forward c (r.binary p c h)
  unary : ∀ c h, CurlyScript.Forward c (r.unary c h)
  statement : ∀ c h, CurlyScript.Forward c (r.statement c h)

theorem Rules.Forward.restrict {m n : Nat} {r : Rules n} (hr : r.Forward) (h : m ≤ n) :
    (r.restrict h).Forward where
  expression c hc := hr.expression c (Nat.lt_of_lt_of_le hc h)
  binary p c hc := hr.binary p c (Nat.lt_of_lt_of_le hc h)
  unary c hc := hr.unary c (Nat.lt_of_lt_of_le hc h)
  statement c hc := hr.statement c (Nat.lt_of_lt_of_le hc h)

namespace Grammar

variable {n : Nat} {α : Type} {r : Rules n}

theorem forward_name (c : Cursor) : Forward c (name c) :=
  (Forward.expect c .ident).map fun _ => rfl

/-- A list takes no end token if its items take none. -/
theorem forward_delimited (close : Punctuation)
    {item : (c : Cursor) → c.size < n → Read (Step c.size α)}
    (hitem : ∀ c h, Forward c (item c h)) (comma : Bool) (c : Cursor) (h : c.size < n) :
    Forward c (delimited close item comma c h) := by
  -- on the tokens left: every item takes some
  induction hk : c.size using Nat.strongRecOn generalizing c comma with
  | ind k ih =>
    rw [delimited]
    split
    · rename_i s hs
      exact .ok (.accept? hs) _
    · refine (hitem c h).bind fun x d hd => ?_
      dsimp only
      split
      · exact (Forward.expect d (.punctuation close)).bind fun _ e he => .done _
      · rename_i t e he hcomma
        refine .after (.accept? hcomma) ?_
        exact (ih e.size (by omega) true e _ rfl).bind fun _ f hf => .done _

theorem forward_untilBrace {item : (c : Cursor) → c.size < n → Read (Step c.size α)}
    (hitem : ∀ c h, Forward c (item c h)) (c : Cursor) (h : c.size < n) :
    Forward c (untilBrace item c h) := by
  induction hk : c.size using Nat.strongRecOn generalizing c with
  | ind k ih =>
    rw [untilBrace]
    split
    · exact (Forward.expect c (.punctuation .rBrace)).bind fun _ d hd => .done _
    · refine (hitem c h).bind fun x d hd => ?_
      exact (ih d.size (by omega) d _ rfl).bind fun _ e he => .done _

/-! ### Expressions -/

theorem forward_property (hr : r.Forward) (c : Cursor) (h : c.size < n) :
    Forward c (property r c h) := by
  refine (forward_name c).bind fun key d hd => ?_
  refine (Forward.expect d (.punctuation .colon)).bind fun _ e he => ?_
  exact (hr.expression e _).bind fun value f hf => .done _

theorem forward_element (hr : r.Forward) (c : Cursor) (h : c.size < n) :
    Forward c (element r c h) :=
  (hr.expression c h).map fun _ => rfl

theorem forward_arrowStatement (hr : r.Forward) (c : Cursor) (h : c.size < n) :
    Forward c (arrowStatement r c h) := by
  rw [arrowStatement]
  split
  · exact hr.statement c h
  · exact (hr.expression c h).bind fun e d hd => .ended _

theorem forward_groupOrArrow (hr : r.Forward) (start : Nat) (c : Cursor) (h : c.size < n) :
    Forward c (groupOrArrow r start c h) := by
  refine (forward_delimited .rParen (forward_element hr) false c h).bind ?_
  rintro ⟨elements, comma⟩ d hd
  dsimp only
  split
  · rename_i t e he harrow
    refine .after (.accept? harrow) (.check fun params => ?_)
    refine (Forward.expect e (.punctuation .lBrace)).bind fun _ f hf => ?_
    exact (forward_untilBrace (forward_arrowStatement hr) f _).bind fun body g hg => .done _
  · split
    · exact .done _
    · exact .error _

theorem forward_primary (c : Cursor) {r : Rules c.size} (hr : r.Forward) :
    Forward c (primary c r) := by
  rw [primary]
  split
  · exact .error _
  · rename_i t d hd hnext
    split
    · exact .ok (.next? hnext) _
    · exact .after (.next? hnext) (forward_groupOrArrow hr _ d hd)
    · refine .after (.next? hnext) ?_
      exact (forward_delimited .rBracket hr.expression false d hd).bind fun _ e he => .done _
    · refine .after (.next? hnext) ?_
      exact (forward_delimited .rBrace (forward_property hr) false d hd).bind fun _ e he => .done _
    · split
      · exact .ok (.next? hnext) _
      · exact .error _

theorem forward_postfixes (hr : r.Forward) (first : TokenKind) (start : Nat) (e : Expr) (c : Cursor)
    (h : c.size < n) : Forward c (postfixes r first start e c h) := by
  -- on the tokens left: every sign takes one
  induction hk : c.size using Nat.strongRecOn generalizing c e with
  | ind k ih =>
    rw [postfixes]
    split
    · exact .done _
    · rename_i t d hd hnext
      split
      · refine .after (.next? hnext) ?_
        have hargs := (hr.restrict (Nat.le_of_lt h)).expression
        refine (forward_delimited .rParen hargs false d hd).bind fun args f hf => ?_
        exact ih f.size (by omega) _ f _ rfl
      · refine .after (.next? hnext) ?_
        refine (forward_name d).bind fun property f hf => ?_
        have hlt : f.size < d.size := hf
        exact ih f.size (by omega) _ f _ rfl
      · refine .after (.next? hnext) ?_
        refine (hr.expression d _).bind fun key f hf => ?_
        refine (Forward.expect f (.punctuation .rBracket)).bind fun _ g hg => ?_
        exact ih g.size (by omega) _ g _ rfl
      · split
        · refine .check fun _ => ?_
          exact .after (.next? hnext) (ih d.size (by omega) _ d _ rfl)
        · exact .done _

theorem forward_unary (c : Cursor) {r : Rules c.size} (hr : r.Forward) : Forward c (unary c r) := by
  rw [unary]
  split
  · rename_i op d hd hop
    refine .after (.take? hop) ?_
    refine (hr.unary d _).bind fun argument e he => ?_
    exact .check fun _ => .done _
  · refine (forward_primary c hr).bind fun e d hd => ?_
    exact forward_postfixes hr _ _ e d hd

theorem forward_operands (hr : r.Forward) (least : Nat) (left : Expr) (c : Cursor)
    (h : c.size < n) : Forward c (operands r least left c h) := by
  induction hk : c.size using Nat.strongRecOn generalizing c left with
  | ind k ih =>
    rw [operands]
    split
    · exact .done _
    · rename_i op d hd hop
      refine .after (.take? hop) ?_
      refine (hr.binary _ d _).bind fun right e he => ?_
      exact ih e.size (by omega) _ e _ rfl

theorem forward_binary (least : Nat) (c : Cursor) {r : Rules c.size} (hr : r.Forward) :
    Forward c (binary least c r) := by
  refine (forward_unary c hr).bind fun left d hd => ?_
  exact forward_operands hr least left d hd

theorem forward_expression (c : Cursor) {r : Rules c.size} (hr : r.Forward) :
    Forward c (expression c r) := by
  refine (forward_binary 0 c hr).bind fun target d hd => ?_
  dsimp only
  split
  · exact .done _
  · rename_i op e he hop
    refine .check fun _ => .after (.take? hop) ?_
    exact (hr.expression e _).bind fun value f hf => .done _

/-! ### Statements -/

theorem forward_nested (hr : r.Forward) (c : Cursor) (h : c.size < n) :
    Forward c (nested r c h) := by
  refine .after (.skipComments c) ?_
  exact (hr.statement c.skipComments _).bind fun s d hd => .done _

theorem forward_declared (hr : r.Forward) (c : Cursor) (h : c.size < n) :
    Forward c (declared r c h) := by
  refine (forward_name c).bind fun s d hd => ?_
  dsimp only
  split
  · exact .done _
  · rename_i t e he heq
    refine .after (.accept? heq) ?_
    exact (hr.expression e _).bind fun init f hf => .done _

theorem forward_clause (stop : Punctuation) (hr : r.Forward) (c : Cursor) (h : c.size < n) :
    Forward c (clause stop r c h) := by
  rw [clause]
  split
  · exact .done _
  · exact (hr.expression c h).bind fun e d hd => .done _

theorem forward_loopInit (hr : r.Forward) (c : Cursor) (h : c.size < n) :
    Forward c (loopInit r c h) := by
  rw [loopInit]
  split
  · rename_i kind d hd hkind
    refine .after (.take? hkind) ?_
    exact (forward_declared hr d _).bind fun _ e he => .done _
  · exact (forward_clause .semicolon hr c h).map fun _ => rfl

theorem forward_function (hr : r.Forward) (start : Nat) (c : Cursor) (h : c.size < n) :
    Forward c (function r start c h) := by
  refine (forward_name c).bind fun s d hd => ?_
  refine (Forward.expect d (.punctuation .lParen)).bind fun _ e he => ?_
  refine (forward_delimited .rParen (fun c _ => forward_name c) false e _).bind ?_
  intro params f hf
  refine (Forward.expect f (.punctuation .lBrace)).bind fun _ g hg => ?_
  exact (forward_untilBrace hr.statement g _).bind fun body i hi => .done _

theorem forward_conditional (hr : r.Forward) (start : Nat) (c : Cursor) (h : c.size < n) :
    Forward c (conditional r start c h) := by
  refine (Forward.expect c (.punctuation .lParen)).bind fun _ d hd => ?_
  refine (hr.expression d _).bind fun test e he => ?_
  refine (Forward.expect e (.punctuation .rParen)).bind fun _ f hf => ?_
  refine (forward_nested hr f _).bind fun consequent g hg => ?_
  dsimp only
  split
  · exact .done _
  · rename_i t i hi helse
    refine .after (.accept? helse) ?_
    exact (forward_nested hr i _).bind fun alternate j hj => .done _

theorem forward_loop (hr : r.Forward) (start : Nat) (c : Cursor) (h : c.size < n) :
    Forward c (loop r start c h) := by
  refine (Forward.expect c (.punctuation .lParen)).bind fun _ d hd => ?_
  refine (forward_loopInit hr d _).bind fun init e he => ?_
  refine (Forward.expect e (.punctuation .semicolon)).bind fun _ f hf => ?_
  refine (forward_clause .semicolon hr f _).bind fun test g hg => ?_
  refine (Forward.expect g (.punctuation .semicolon)).bind fun _ i hi => ?_
  refine (forward_clause .rParen hr i _).bind fun update j hj => ?_
  refine (Forward.expect j (.punctuation .rParen)).bind fun _ k hk => ?_
  exact (forward_nested hr k _).bind fun body l hl => .done _

theorem forward_returning (hr : r.Forward) (start : Nat) (c : Cursor) (h : c.size < n) :
    Forward c (returning r start c h) := by
  rw [returning]
  split
  · have hargument : Forward (n := n) c ((r.expression c h).map fun s =>
        ⟨some s.value, s.rest, Nat.lt_trans s.lt h⟩) := (hr.expression c h).map fun _ => rfl
    exact hargument.bind fun argument d hd => .ended _
  · exact .ended _

theorem forward_declaration (hr : r.Forward) (start : Nat) (kind : DeclKind) (c : Cursor)
    (h : c.size < n) : Forward c (declaration r start kind c h) := by
  refine (forward_declared hr c h).bind ?_
  rintro ⟨s, init⟩ d hd
  exact .ended _

theorem forward_expressionStatement (c : Cursor) {r : Rules c.size} (hr : r.Forward) :
    Forward c (expressionStatement c r) :=
  (forward_expression c hr).bind fun _ _ _ => .ended _

theorem forward_statement (c : Cursor) {r : Rules c.size} (hr : r.Forward) :
    Forward c (statement c r) := by
  rw [statement]
  split
  · rename_i t d hd hcomment
    exact .ok (.comment? hcomment) _
  · split
    · exact .error _
    · rename_i t d hd hnext
      split
      · exact .after (.next? hnext) (forward_declaration hr _ _ d hd)
      · exact .after (.next? hnext) (forward_declaration hr _ _ d hd)
      · exact .after (.next? hnext) (forward_declaration hr _ _ d hd)
      · exact .after (.next? hnext) (forward_function hr _ d hd)
      · exact .after (.next? hnext) (forward_returning hr _ d hd)
      · exact .after (.next? hnext) (forward_conditional hr _ d hd)
      · exact .after (.next? hnext) (forward_loop hr _ d hd)
      · refine .after (.next? hnext) ?_
        exact (forward_untilBrace hr.statement d hd).bind fun body e he => .done _
      · split
        · exact forward_expressionStatement c hr
        · exact .error _

/-! ### The knot -/

theorem rules_forward : ∀ n, (rules n).Forward
  | 0 => {
      expression := fun _ h => absurd h (Nat.not_lt_zero _)
      binary := fun _ _ h => absurd h (Nat.not_lt_zero _)
      unary := fun _ h => absurd h (Nat.not_lt_zero _)
      statement := fun _ h => absurd h (Nat.not_lt_zero _) }
  | n + 1 => {
      expression := fun c h =>
        forward_expression c ((rules_forward n).restrict (Nat.le_of_lt_succ h))
      binary := fun p c h => forward_binary p c ((rules_forward n).restrict (Nat.le_of_lt_succ h))
      unary := fun c h => forward_unary c ((rules_forward n).restrict (Nat.le_of_lt_succ h))
      statement := fun c h =>
        forward_statement c ((rules_forward n).restrict (Nat.le_of_lt_succ h)) }

/-- Where a statement is read, the text does not end. -/
theorem atEnd_of_statement {c : Cursor} {a : Step c.size Statement}
    (h : statement c (rules c.size) = .ok a) : c.atEnd = false := by
  have hlt := (forward_statement c (rules_forward c.size) a h).rest_lt a.lt
  rw [Bool.eq_false_iff, Ne, Cursor.atEnd_iff]
  intro hr
  rw [hr] at hlt
  exact Nat.not_lt_zero _ hlt

end Grammar

/-! ## Programs -/

namespace Program

/-- One part of the tokens for each statement, none of the parts empty. -/
structure Parts (ts : List Token) (p : Program) (parts : List (List Token)) : Prop where
  flatten : parts.flatten = ts
  length : parts.length = p.length
  ne_nil : ∀ part ∈ parts, part ≠ []

/-- The tokens to come are cut into one part for each statement that is read. -/
theorem Unrolls.parts {c : Cursor} {p : Program} (h : Unrolls c p) :
    ∃ parts, Parts c.rest p parts := by
  induction h with
  | ended hend =>
    exact ⟨[], (Cursor.atEnd_iff.mp hend).symm, rfl, fun _ hpart => absurd hpart List.not_mem_nil⟩
  | @more c a p hx _ ih =>
    have hforward := Grammar.forward_statement c (Grammar.rules_forward c.size)
    obtain ⟨part, hne, hsplit, hpart⟩ := (hforward a hx).advances a.lt
    obtain ⟨parts, hparts⟩ := ih
    refine ⟨part :: parts, ?_, ?_, List.forall_mem_cons.mpr ⟨hne, hparts.ne_nil⟩⟩
    · rw [List.flatten_cons, hparts.flatten, Cursor.Reaches.rest_eq hsplit hpart]
    · rw [List.length_cons, List.length_cons, hparts.length]

end Program

/-! ## Behind the end -/

namespace Edit

/-- Moving nothing and leaving nothing out. -/
def still : Edit := ⟨id, false, monotone_id⟩

theorem tokens_still (ts : List Token) : still.tokens ts = ts := by
  have hall : ts.filter still.keeps = ts := List.filter_eq_self.mpr fun _ _ => rfl
  have htoken : still.token = id := rfl
  rw [tokens, hall, htoken, List.map_id]

/-- Cursors with the same tokens before the end, and the same end, are not told apart. -/
theorem meets_still {c c' : Cursor} (hrest : c'.rest = c.rest) (hfinish : c'.finish = c.finish) :
    still.Meets c c' :=
  ⟨hrest.trans (tokens_still _).symm, hfinish⟩

end Edit

namespace Program

/-- **Only the tokens before the first end token are read.** -/
theorem readFrom_congr {c c' : Cursor} (hrest : c'.rest = c.rest)
    (hfinish : c'.finish = c.finish) : readFrom [] c' = readFrom [] c := by
  -- both keep step with one and the same reading, that from `c`
  have hagree : ∀ d : Cursor, d.rest = c.rest → d.finish = c.finish →
      Edit.still.Agrees (fun p p' => p' = Edit.still.statements p) (readFrom [] c)
        (readFrom [] d) := fun _ hr hf => agrees_readFrom (Edit.meets_still hr hf)
  rw [(hagree c' hrest hfinish).eq_map, ← (hagree c rfl rfl).eq_map]

/-- **Reading ends with every list of tokens, and at the first end token.**

    1. A statement or an expression that is read, by itself or within others, takes some tokens, and
       no end token.
    2. For every list of tokens there is an error, or a program; and then the tokens before the
       first end token are cut into as many parts as the program has statements, none of them empty.
    3. What follows the first end token does not matter.
    4. No end token at all is the same as one at the end of the last token. -/
theorem ofTokens_up_to_eof :
    (∀ n (c : Cursor) (h : c.size < n),
      (∀ s, (Grammar.rules n).statement c h = .ok s → c.Advances s.rest) ∧
        ∀ s, (Grammar.rules n).expression c h = .ok s → c.Advances s.rest) ∧
    (∀ ts : List Token, (∃ e, ofTokens ts = .error e) ∨ ∃ p parts, ofTokens ts = .ok p ∧
      Parts (ts.takeWhile (·.kind ≠ .eof)) p parts) ∧
    (∀ (ts us : List Token) (e : Token), (∀ t ∈ ts, t.kind ≠ .eof) → e.kind = .eof →
      ofTokens (ts ++ [e] ++ us) = ofTokens (ts ++ [e])) ∧
    ∀ ts : List Token, (∀ t ∈ ts, t.kind ≠ .eof) →
      ofTokens ts = ofTokens (ts ++ [Token.endAt ((ts.getLast?.map (·.span.stop)).getD 0)]) := by
  refine ⟨?_, ?_, ?_, ?_⟩
  · intro n c h
    have hrules := Grammar.rules_forward n
    constructor
    · intro s hs
      exact (hrules.statement c h s hs).advances s.lt
    · intro s hs
      exact (hrules.expression c h s hs).advances s.lt
  · intro ts
    cases hread : ofTokens ts with
    | error e => exact .inl ⟨e, rfl⟩
    | ok p =>
      obtain ⟨parts, hparts⟩ := (unrolls_of_ofTokens hread).parts
      exact .inr ⟨p, parts, rfl, hparts⟩
  · intro ts us e hts he
    rw [List.append_assoc, List.singleton_append]
    refine readFrom_congr ?_ ?_
    · rw [Cursor.rest_ofTokens hts he, Cursor.rest_ofTokens hts he]
    · rw [Cursor.finish_ofTokens hts he, Cursor.finish_ofTokens hts he]
  · intro ts hts
    refine readFrom_congr ?_ ?_
    · rw [Cursor.rest_of_proper hts, Cursor.rest_ofTokens hts rfl]
      rfl
    · rw [Cursor.finish_of_proper hts, Cursor.finish_ofTokens hts rfl]
      rfl

/-- A call, an end token in the middle, and another call that is not read. -/
def interrupted : List Token :=
  [⟨.ident, "f", ⟨0, 1⟩⟩, ⟨.punctuation .lParen, "(", ⟨1, 2⟩⟩, ⟨.punctuation .rParen, ")", ⟨2, 3⟩⟩,
    ⟨.eof, "", ⟨3, 3⟩⟩, ⟨.ident, "g", ⟨3, 4⟩⟩, ⟨.punctuation .lParen, "(", ⟨4, 5⟩⟩]

theorem ofTokens_up_to_eof_interrupted :
    (∃ s, (Grammar.rules 7).statement ⟨interrupted, 0, 5⟩ (by decide) = .ok s ∧
      Cursor.Advances ⟨interrupted, 0, 5⟩ s.rest) ∧
    (∃ s, (Grammar.rules 7).expression ⟨interrupted, 0, 5⟩ (by decide) = .ok s ∧
      Cursor.Advances ⟨interrupted, 0, 5⟩ s.rest) ∧
    ofTokens interrupted = ofTokens (interrupted.take 4) ∧
    ofTokens (interrupted.take 3) = ofTokens (interrupted.take 4) := by
  obtain ⟨hadvance, -, hafter, hnone⟩ := ofTokens_up_to_eof
  refine ⟨?_, ?_, ?_, ?_⟩
  · have hok : ((Grammar.rules 7).statement ⟨interrupted, 0, 5⟩ (by decide)).isOk = true := by
      decide +kernel
    cases hs : (Grammar.rules 7).statement ⟨interrupted, 0, 5⟩ (by decide) with
    | error e => rw [hs] at hok; exact Bool.noConfusion hok
    | ok s => exact ⟨s, rfl, (hadvance 7 _ _).1 s hs⟩
  · have hok : ((Grammar.rules 7).expression ⟨interrupted, 0, 5⟩ (by decide)).isOk = true := by
      decide +kernel
    cases hs : (Grammar.rules 7).expression ⟨interrupted, 0, 5⟩ (by decide) with
    | error e => rw [hs] at hok; exact Bool.noConfusion hok
    | ok s => exact ⟨s, rfl, (hadvance 7 _ _).2 s hs⟩
  · exact hafter (interrupted.take 3) (interrupted.drop 4) ⟨.eof, "", ⟨3, 3⟩⟩ (by decide) rfl
  · exact hnone (interrupted.take 3) (by decide)

end Program

end CurlyScript
