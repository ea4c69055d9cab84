import CurlyScript.Proofs.Grammar.Edited
import CurlyScript.Proofs.Grammar.Linear
import CurlyScript.Proofs.Scope.Rewritten
import CurlyScript.Scope.Resolution

/-
  Comments mean nothing.

  A text is read with its comments or without them, and the two trees differ in the comments alone
  (`Program.ofSource_false`): leaving comments out of the tokens is an edit that moves nothing.  The
  comments of the tree are among those of the text, stand in no branch, and say nothing about names.
-/

namespace CurlyScript

/-! ## The outline of a tree without comments -/

/-- Comments have no outline. -/
theorem statementsOutline_filter (ss : List Statement) :
    statementsOutline (ss.filter fun s => !s.isComment) = statementsOutline ss := by
  induction ss with
  | nil => rfl
  | cons s ss ih =>
    cases s with
    | comment sp text => exact ih
    | _ => exact congrArg (_ ++ ·) ih

theorem Rewriting.outlines_uncommented : uncommented.Outlines (fun _ => True) Eq where
  nil := rfl
  append := by rintro os _ qs _ rfl rfl; rfl
  declaration n kind := rfl
  use name s := rfl
  construct := by rintro kind os _ rfl; rfl
  expr e := by
    cases e with
    | arrow sp params body =>
      show [Outline.construct .arrow (_ ++ statementsOutline (body.filter _))] = _
      rw [statementsOutline_filter]
      rfl
    | _ => rfl
  statement s _ := by
    cases s with
    | function sp name params body =>
      show [_, Outline.construct .function (_ ++ statementsOutline (body.filter _))] = _
      rw [statementsOutline_filter]
      rfl
    | block sp body =>
      show [Outline.construct .block (statementsOutline (body.filter _))] = _
      rw [statementsOutline_filter]
      rfl
    | _ => rfl
  cond sp test consequent alternate _ ht hc ha := by
    show _ ++ _ ++ _ = _
    rw [ht, hc, ha]
    rfl

namespace Program

theorem outline_uncommented (p : Program) : p.uncommented.outline = p.outline := by
  rw [uncommented, outline, statementsOutline_filter]
  exact Rewriting.outlines_uncommented.program fun _ _ => trivial

theorem resolve_congr {p q : Program} (h : p.outline = q.outline) : p.resolve = q.resolve := by
  rw [resolve, resolve, p.actions_eq, q.actions_eq, h]

/-! ## Reading without comments -/

/-- Leaving out the comments of a token list, and moving nothing. -/
def quieting : Edit := ⟨id, true, monotone_id⟩

theorem tokens_quieting (ts : List Token) : quieting.tokens ts = ts.filter Token.isProper := by
  have hkeeps : quieting.keeps = Token.isProper := rfl
  have htoken : quieting.token = id := rfl
  rw [Edit.tokens, hkeeps, htoken, List.map_id]

theorem eq_map_of_agrees {x y : Except SyntaxError Program}
    (h : quieting.Agrees (fun p q => q = quieting.statements p) x y) : y = x.map uncommented := by
  match x, y, h with
  | .error _, .error _, rfl => rfl
  | .ok _, .ok _, rfl => rfl

/-- **Reading without comments is reading with them and leaving them out**, of the tree as of the
    tokens, and there is an error in both readings or in none. -/
theorem ofSource_false (source : String) :
    ofSource source false = (ofSource source true).map uncommented := by
  rw [ofSource, ofSource, scan_false]
  cases hscan : scan source true with
  | error e => rfl
  | ok tokens =>
    obtain ⟨before, rfl, hproper, -⟩ := scan_eq_append hscan
    have hmap := eq_map_of_agrees (ofTokens_edited hproper (byteLength source.toList))
    rw [tokens_quieting] at hmap
    simp only [Except.map]
    rw [hmap]
    cases ofTokens (before ++ [Token.endAt (byteLength source.toList)]) <;> rfl

/-- What is read without comments is what is read with them, but for these. -/
theorem exists_uncommented_eq {source : String} {p : Program} (h : ofSource source false = .ok p) :
    ∃ kept, ofSource source true = .ok kept ∧ kept.uncommented = p := by
  rw [ofSource_false] at h
  cases hkept : ofSource source true with
  | error e =>
    rw [hkept] at h
    exact nomatch h
  | ok kept =>
    rw [hkept] at h
    exact ⟨kept, rfl, Except.ok.inj h⟩

end Program

/-! ## Where the comments of a tree are -/

/-- The statements that stand in a statement as its branches or its body, without braces of their
    own in the tree. -/
def Node.branches : Node → List Statement
  | .statement (.cond _ _ consequent alternate) => consequent :: alternate.toList
  | .statement (.loop _ _ _ _ body) => [body]
  | _ => []

theorem Node.isComment_of_mem_branches {n : Node} (hn : n.IsRead) {s : Statement}
    (hs : s ∈ n.branches) : s.isComment = false := by
  cases n with
  | statement t =>
    cases t with
    | cond sp test consequent alternate =>
      obtain ⟨hc, ha⟩ := Bool.and_eq_true_iff.mp hn
      rcases List.mem_cons.mp hs with rfl | hs
      · exact Bool.not_eq_true' _ ▸ hc
      · cases alternate with
        | none => exact absurd hs List.not_mem_nil
        | some a =>
          rw [List.mem_singleton.mp hs]
          exact Bool.not_eq_true' _ ▸ ha
    | loop sp init test update body =>
      rw [List.mem_singleton.mp hs]
      exact Bool.not_eq_true' _ ▸ hn
    | _ => exact absurd hs List.not_mem_nil
  | _ => exact absurd hs List.not_mem_nil

namespace Program

/-- The comments of a tree are some of those of its text, in their order. -/
theorem comments_sublist {source : String} {tokens : List Token} {p : Program}
    (hscan : scan source true = .ok tokens) (hread : ofTokens tokens = .ok p) :
    p.comments.Sublist (tokens.filter Token.isComment) := by
  obtain ⟨before, rfl, -, -⟩ := scan_eq_append hscan
  obtain ⟨ts, hts, hthin⟩ := thinned_of_ofTokens hscan hread
  rw [← comments_of_mem_writings hts, List.filter_append]
  exact (hthin.1.filter Token.isComment).trans (List.sublist_append_left _ _)

/-- **Comments never change what a program means.**  Without them a text has the same tokens, is
    read as the same tree or fails with the same error, and its names resolve alike; and in the
    tree they are as they are in the text, on lines of their own. -/
theorem ofSource_without_comments (source : String) :
    scan source false = (scan source true).map (List.filter Token.isProper) ∧
    ofSource source false = (ofSource source true).map uncommented ∧
    ∀ tokens p, scan source true = .ok tokens → ofSource source true = .ok p →
      p.comments.Sublist (tokens.filter Token.isComment) ∧
      (p.Everywhere fun n => ∀ s ∈ n.branches, s.isComment = false) ∧
      p.uncommented.resolve = p.resolve := by
  refine ⟨scan_false source, ofSource_false source, fun tokens p hscan hread => ⟨?_, ?_, ?_⟩⟩
  · obtain ⟨tokens', hscan', hp⟩ := ofSource_eq_ok_iff.mp hread
    obtain rfl : tokens' = tokens := Except.ok.inj (hscan'.symm.trans hscan)
    exact comments_sublist hscan hp
  · exact fun n hn s hs => Node.isComment_of_mem_branches (everywhere_of_ofSource hread n hn) hs
  · exact resolve_congr p.outline_uncommented

/-- A text with comments between statements, which are read, and between other tokens. -/
def annotated : String := "/*a*/if(x)/*b*/{/*c*/}else/*d*/y=()=>{/*e*/}//f"

theorem ofSource_without_comments_annotated : ∃ tokens p,
    (scan annotated true = .ok tokens ∧ ofSource annotated true = .ok p) ∧
      p.comments.Sublist (tokens.filter Token.isComment) ∧
      (p.Everywhere fun n => ∀ s ∈ n.branches, s.isComment = false) ∧
      p.uncommented.resolve = p.resolve := by
  have hok : (ofSource annotated true).isOk = true := by decide +kernel
  cases hread : ofSource annotated true with
  | error e =>
    rw [hread] at hok
    exact Bool.noConfusion hok
  | ok p =>
    obtain ⟨tokens, hscan, -⟩ := ofSource_eq_ok_iff.mp hread
    exact ⟨tokens, p, ⟨hscan, rfl⟩,
      (ofSource_without_comments annotated).2.2 tokens p hscan hread⟩

end Program

end CurlyScript
