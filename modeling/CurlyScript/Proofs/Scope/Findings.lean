import CurlyScript.Finding
import CurlyScript.Proofs.Grammar.Linear
import CurlyScript.Proofs.Grammar.Told

/-
  Findings are complete, and a policy only leaves some of them out.

  The rule on `var` goes over the nodes of the tree, wherever declarations may stand.  The word is a
  keyword, so the grammar has a place for it only where a declaration begins, and a declaration
  stands where its word does: what the rule finds in the nodes is what can be found in the tokens
  (`Finding.echoes_ofNode?`).

  A policy says which rules are looked into at all.  What the others find does not depend on that, so
  a policy takes findings away and changes nothing else (`Program.filter_lint`).
-/

namespace CurlyScript

/-! ## Policies -/

namespace Program

variable {p : Program} {policy : Policy}

theorem rule_of_mem_findingsOf {r : Resolution} {rule : Rule} {f : Finding}
    (h : f ∈ p.findingsOf r rule) : f.rule = rule := by
  cases rule with
  | undefined | unused | redeclared =>
    obtain ⟨x, -, rfl⟩ := List.mem_map.mp h
    rfl
  | noVar =>
    obtain ⟨n, -, hn⟩ := List.mem_filterMap.mp h
    rw [Finding.ofNode?.eq_def] at hn
    split at hn
    · rw [← Option.some.inj hn]
      rfl
    · cases hn

/-- To choose among findings by their rules is to look into fewer rules. -/
theorem filter_lint (p : Program) (policy chosen : Policy) :
    (p.lint policy).filter (fun f => chosen f.rule) =
      p.lint fun rule => chosen rule && policy rule := by
  -- all that one rule finds is chosen, or nothing
  have hone : ∀ rule, (p.findingsOf p.resolve rule).filter (fun f => chosen f.rule) =
      if chosen rule then p.findingsOf p.resolve rule else [] := by
    intro rule
    split
    · rename_i hrule
      refine List.filter_eq_self.mpr fun f hf => ?_
      rw [rule_of_mem_findingsOf hf]
      exact hrule
    · rename_i hrule
      refine List.filter_eq_nil_iff.mpr fun f hf => ?_
      rw [rule_of_mem_findingsOf hf]
      exact hrule
  rw [lint, lint, List.filter_flatMap, ← List.filter_filter]
  induction Rule.all.filter policy with
  | nil => rfl
  | cons rule rules ih =>
    rw [List.flatMap_cons, ih, hone, List.filter_cons]
    cases chosen rule <;> rfl

/-- The findings stand rule by rule. -/
theorem pairwise_lint (p : Program) (policy : Policy) :
    (p.lint policy).Pairwise fun f g => Rule.all.idxOf f.rule ≤ Rule.all.idxOf g.rule := by
  have hrules : Rule.all.Pairwise fun a b => Rule.all.idxOf a ≤ Rule.all.idxOf b := by decide
  rw [lint, List.pairwise_flatMap]
  constructor
  · intro rule _
    refine List.pairwise_of_forall_mem_list fun f hf g hg => ?_
    rw [rule_of_mem_findingsOf hf, rule_of_mem_findingsOf hg]
  · refine (hrules.filter policy).imp fun {a b} hab f hf g hg => ?_
    rw [rule_of_mem_findingsOf hf, rule_of_mem_findingsOf hg]
    exact hab

end Program

/-! ## The word `var` -/

namespace Finding

/-- The finding at a token, if it is the word `var`. -/
def ofToken? (t : Token) : Option Finding :=
  if t.kind = .keyword .var then some (noVar t.span.start) else none

/-- The rule finds in the nodes of a tree what there is in its tokens. -/
theorem echoes_ofNode? : Writing.Echoes ofToken? ofNode? where
  quiet t _ hd := by
    refine if_neg fun hvar => ?_
    rw [hvar] at hd
    cases hd
  still n hn := by
    cases n with
    | decl => exact Bool.noConfusion hn
    | _ => rfl
  decl t sp kind name init ht hstart := by
    cases kind with
    | var =>
      rw [ofToken?, hstart]
      exact if_pos ht
    | const | let_ => exact if_neg fun hvar => absurd (ht.symm.trans hvar) (by decide)
  comment sp text := rfl

/-- The offsets of what is found in tokens are those of the word. -/
theorem map_offset_ofToken? (ts : List Token) : (ts.filterMap ofToken?).map offset =
    (ts.filter (·.kind = .keyword .var)).map (·.span.start) := by
  induction ts with
  | nil => rfl
  | cons t ts ih =>
    by_cases hvar : t.kind = .keyword .var
    · have hsome : ofToken? t = some (noVar t.span.start) := if_pos hvar
      rw [List.filterMap_cons_some hsome, List.filter_cons_of_pos (by simp [hvar]),
        List.map_cons, List.map_cons, ih]
      rfl
    · have hnone : ofToken? t = none := if_neg hvar
      rw [List.filterMap_cons_none hnone, List.filter_cons_of_neg (by simp [hvar]), ih]

end Finding

/-- Tokens of one class begin one after the other, unless it is the end of the text. -/
theorem pairwise_start_of_scan {source : String} {keep : Bool} {tokens : List Token}
    (h : scan source keep = .ok tokens) {k : TokenKind} (hk : k ≠ .eof) :
    ((tokens.filter (·.kind = k)).map (·.span.start)).Pairwise (· < ·) := by
  rw [List.pairwise_map]
  refine ((inOrder_of_scan h).sublist List.filter_sublist).2.imp_of_mem fun {t u} ht _ hbefore => ?_
  obtain ⟨hmem, hkind⟩ := List.mem_filter.mp ht
  have hlt := start_lt_stop_of_scan h t hmem (of_decide_eq_true hkind ▸ hk)
  exact Nat.lt_of_lt_of_le hlt hbefore

namespace Program

/-- **Findings are complete, and a policy only leaves some of them out.**  In a text that can be read
    the declarations with `var` that are found stand where the word stands in the tokens, each once
    and in the order of the text.  Under any policy the findings are those of the rules that count,
    among all findings and in the same order, rule by rule. -/
theorem lint_of_ofSource {source : String} {p : Program} (h : ofSource source false = .ok p) :
    ∃ tokens, scan source false = .ok tokens ∧
      ((p.lint .strict).filter (·.rule = .noVar)).map Finding.offset =
        (tokens.filter (·.kind = .keyword .var)).map (·.span.start) ∧
      (((p.lint .strict).filter (·.rule = .noVar)).map Finding.offset).Pairwise (· < ·) ∧
      ∀ policy : Policy, p.lint policy = (p.lint .strict).filter (fun f => policy f.rule) ∧
        (p.lint policy).Pairwise fun f g => Rule.all.idxOf f.rule ≤ Rule.all.idxOf g.rule := by
  obtain ⟨ts, hscan, hwritten⟩ := written_of_ofSource h
  have hfound : (p.lint .strict).filter (·.rule = .noVar) = p.nodes.filterMap Finding.ofNode? := by
    rw [filter_lint p .strict fun rule => rule = .noVar, lint]
    exact List.append_nil _
  have hoffsets : ((p.lint .strict).filter (·.rule = .noVar)).map Finding.offset =
      ((ts ++ [Token.endAt (byteLength source.toList)]).filter (·.kind = .keyword .var)).map
        (·.span.start) := by
    rw [hfound, ← tells_of_mem_writings Finding.echoes_ofNode? hwritten,
      Finding.map_offset_ofToken?, List.filter_append]
    exact congrArg (List.map _) (List.append_nil _).symm
  refine ⟨_, hscan, hoffsets, ?_, fun policy => ⟨?_, p.pairwise_lint policy⟩⟩
  · rw [hoffsets]
    exact pairwise_start_of_scan hscan (by decide)
  · rw [filter_lint]
    exact congrArg p.lint (funext fun rule => (Bool.and_true (policy rule)).symm)

/-- A text with `var` wherever a declaration may stand, and in a string and a comment. -/
def scattered : String :=
  "var a;if(b)var c;else{var d}for(var e;;)f();function g(){var h}\"var\"//var"

theorem lint_of_ofSource_scattered : ∃ p, ofSource scattered false = .ok p ∧
    ∃ tokens, scan scattered false = .ok tokens ∧
      ((p.lint .strict).filter (·.rule = .noVar)).map Finding.offset =
        (tokens.filter (·.kind = .keyword .var)).map (·.span.start) ∧
      (((p.lint .strict).filter (·.rule = .noVar)).map Finding.offset).Pairwise (· < ·) ∧
      ∀ policy : Policy, p.lint policy = (p.lint .strict).filter (fun f => policy f.rule) ∧
        (p.lint policy).Pairwise fun f g => Rule.all.idxOf f.rule ≤ Rule.all.idxOf g.rule := by
  have hok : (ofSource scattered false).isOk = true := by decide +kernel
  cases h : ofSource scattered false with
  | error e =>
    rw [h] at hok
    exact Bool.noConfusion hok
  | ok p => exact ⟨p, rfl, lint_of_ofSource h⟩

end Program

end CurlyScript
