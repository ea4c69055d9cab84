import CurlyScript.Proofs.Grammar.Told
import CurlyScript.Proofs.Syntax.Within

/-
  The comments of a tree are the comments of its writings.

  No sign of the grammar is a comment, so a writing has the comments of the tree and no others, and
  in the order of the tree (`Program.comments_of_mem_writings`).
-/

namespace CurlyScript

/-- The token of a comment. -/
def Node.comment? : Node → Option Token
  | .comment s text => some ⟨.comment, text, s⟩
  | _ => none

/-- The comments of a program, as tokens, in the order of the text. -/
def Program.comments (p : Program) : List Token := p.nodes.filterMap Node.comment?

theorem echoes_comment? : Writing.Echoes (Option.guard Token.isComment) Node.comment? where
  quiet t ht _ := by
    rw [Option.guard_eq_none_iff, Token.isComment, beq_eq_false_iff_ne]
    exact ht
  still n hn := by
    cases n with
    | comment => exact Bool.noConfusion hn
    | _ => rfl
  decl t sp kind name init ht _ := by
    have hproper : t.isComment = false := by
      rw [Token.isComment, ht]
      rfl
    exact Option.guard_eq_none_iff.mpr hproper
  comment sp text := rfl

/-- **A writing has the comments of the program**, and in the order of the tree. -/
theorem Program.comments_of_mem_writings {p : Program} {ts : List Token} (h : ts ∈ p.writings) :
    ts.filter Token.isComment = p.comments := by
  rw [← List.filterMap_eq_filter]
  exact tells_of_mem_writings echoes_comment? h

end CurlyScript
