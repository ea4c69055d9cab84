import CurlyScript.Proofs.Grammar.Comments

/-
  A program is written with its own tokens.

  What is read from the tokens of a text has those tokens for one of its writings, in order and
  without gaps, and is of the shape that the grammar gives (`Program.mem_writings_of_ofTokens`).  If
  comments are kept, some of them are statements of the program and the others were passed over.
-/

namespace CurlyScript

open Writing

/-- Whether a node is of the shape that the grammar gives: only names and members are stored into,
    the lines of an arrow function are expressions and `return`s, and no operand, callee, owner or
    branch is one that would have needed parentheses or braces. -/
def Node.isGrammatical : Node → Bool
  | .expr (.assign _ _ target _) => target.isTarget
  | .expr (.update _ _ _ argument) => argument.isTarget
  | .arrow _ _ body =>
    body.all fun s => s.shape == .returnStatement || s.shape == .expressionStatement
  | n => n.isGrouped

namespace Program

/-- The statements that are read one after another are written with the tokens to come. -/
theorem Unrolls.passes {c : Cursor} {p : Program} (h : Unrolls c p) (hc : c.Tidy) :
    ∃ d, c.Passes (statementsWritings p) d ∧ d.rest = [] := by
  induction h with
  | @ended c hend => exact ⟨c, .refl c, Cursor.atEnd_iff.mp hend⟩
  | more hx _ ih =>
    have hs := Grammar.gives_statement _ (Grammar.rules_derive _) hc _ hx
    obtain ⟨d, hpassed, hend⟩ := ih (Cursor.Passes.tidy hs hc)
    exact ⟨d, Cursor.Passes.trans hs hpassed, hend⟩

/-- What is read from a text is written with the tokens of the text, but for comments that were
    passed over. -/
theorem thinned_of_ofTokens {source : String} {keep : Bool} {before : List Token} {stop : Nat}
    {p : Program} (hscan : scan source keep = .ok (before ++ [Token.endAt stop]))
    (hread : ofTokens (before ++ [Token.endAt stop]) = .ok p) :
    ∃ ts ∈ p.writings, Thinned before ts := by
  obtain ⟨before', heq, hproper, -⟩ := scan_eq_append hscan
  obtain ⟨rfl, -⟩ := List.append_inj_left' heq rfl
  have hrest : (Cursor.ofTokens (before ++ [Token.endAt stop])).rest = before :=
    Cursor.rest_ofTokens hproper rfl []
  have hc : (Cursor.ofTokens (before ++ [Token.endAt stop])).Tidy := by
    rw [Cursor.Tidy, hrest]
    exact (inOrder_of_scan hscan).sublist (List.sublist_append_left _ _)
  obtain ⟨d, ⟨ts, hts, htakes⟩, hend⟩ := (unrolls_of_ofTokens hread).passes hc
  obtain ⟨raw, hraw, hthin⟩ := htakes.rest
  rw [hrest, hend, List.append_nil] at hraw
  rw [hraw]
  exact ⟨ts, hts, hthin⟩

/-- What is read without comments is written with all tokens of the text. -/
theorem written_of_ofSource {source : String} {p : Program} (h : ofSource source false = .ok p) :
    ∃ ts, scan source false = .ok (ts ++ [Token.endAt (byteLength source.toList)]) ∧
      ts ∈ p.writings := by
  obtain ⟨tokens, hscan, hread⟩ := ofSource_eq_ok_iff.mp h
  obtain ⟨before, rfl, -, hproper⟩ := scan_eq_append hscan
  obtain ⟨ts, hts, hthin⟩ := thinned_of_ofTokens hscan hread
  exact ⟨before, hscan, hthin.eq (hproper rfl) ▸ hts⟩

/-- Where nothing within is a comment, a node that was read is of the shape of the grammar. -/
theorem isGrammatical_of_isRead {n : Node} (hgrouped : n.IsGrouped) (hread : n.IsRead)
    (hquiet : n.Within fun m => m.comment? = none) : n.isGrammatical = true := by
  cases n with
  | expr e =>
    cases e with
    | assign | update => exact hread
    | _ => exact hgrouped
  | arrow sp params body =>
    have hlines : body.all Statement.isArrowLine = true := (Bool.and_eq_true_iff.mp hread).2
    refine List.all_eq_true.mpr fun s hs => ?_
    have hline := List.all_eq_true.mp hlines s hs
    cases s with
    | comment csp text =>
      -- a comment in the body would be a node within
      have hnone := forall_mem_statementsNodes.mp hquiet _ hs (.comment csp text)
        (List.mem_cons_of_mem _ List.mem_cons_self)
      exact nomatch hnone
    | ret | expr => rfl
    | _ => exact Bool.noConfusion hline
  | _ => exact hgrouped

/-- **A program is written with the tokens of its text**, all of them and in order, and has the
    shape that the grammar gives. -/
theorem mem_writings_of_ofTokens {source : String} {tokens : List Token} {p : Program}
    (hscan : scan source false = .ok tokens) (hread : ofTokens tokens = .ok p) :
    ∃ ts, tokens = ts ++ [Token.endAt (byteLength source.toList)] ∧ ts ∈ p.writings ∧
      p.Everywhere fun n => n.isGrammatical = true := by
  obtain ⟨before, rfl, -, hproper⟩ := scan_eq_append hscan
  obtain ⟨ts, hts, hthin⟩ := thinned_of_ofTokens hscan hread
  obtain rfl : ts = before := hthin.eq (hproper rfl)
  have hquiet : p.Everywhere fun n => n.comment? = none := by
    have hcomments : ts.filter Token.isComment = [] := by
      refine List.filter_eq_nil_iff.mpr fun t ht => ?_
      rw [hproper rfl t ht]
      exact Bool.noConfusion
    rw [comments_of_mem_writings hts] at hcomments
    exact List.filterMap_eq_nil_iff.mp hcomments
  have hisRead := everywhere_of_ofSource (ofSource_eq_ok_iff.mpr ⟨_, hscan, hread⟩)
  refine ⟨ts, rfl, hts, fun n hn => ?_⟩
  exact isGrammatical_of_isRead (isGrouped_of_ofTokens hread n hn) (hisRead n hn)
    (hquiet.within n hn)

/-- A text with parameters, operators of one level, lists with a comma at the end, and no
    semicolons but one. -/
def listing : String := "if(a)f(['b',],(x,y,)=>{x-y-1 return x});else g={k:h[0].i++,}"

theorem mem_writings_of_ofTokens_listing : ∃ tokens p,
    (scan listing false = .ok tokens ∧ ofTokens tokens = .ok p) ∧
      ∃ ts, tokens = ts ++ [Token.endAt (byteLength listing.toList)] ∧ ts ∈ p.writings ∧
        p.Everywhere fun n => n.isGrammatical = true := by
  have hok :
      ((scan listing false).toOption.bind fun ts => (ofTokens ts).toOption).isSome = true := by
    decide +kernel
  cases hscan : scan listing false with
  | error e =>
    rw [hscan] at hok
    exact Bool.noConfusion hok
  | ok tokens =>
    rw [hscan] at hok
    cases hread : ofTokens tokens with
    | error e =>
      have hnone : (ofTokens tokens).toOption.isSome = true := hok
      rw [hread] at hnone
      exact Bool.noConfusion hnone
    | ok p => exact ⟨tokens, p, ⟨rfl, hread⟩, mem_writings_of_ofTokens hscan hread⟩

end Program

end CurlyScript
