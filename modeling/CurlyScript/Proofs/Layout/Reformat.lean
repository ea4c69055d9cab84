import CurlyScript.Layout.Source
import CurlyScript.Proofs.Grammar.Writable
import CurlyScript.Proofs.Layout.ReadBack

/-
  Laying out a text that was laid out before.

  What was read from a text is printable once its infinite numbers are spelled as the NAMES that
  their text is read as (`Rewriting.named`), and no layout notices that.  So reading back applies to
  whatever was read, and of the layout before nothing is left.
-/

namespace CurlyScript

open Program Rewriting

/-- What was read is printable, but for the names of numbers too large for any. -/
theorem Program.printable_of_ofSource {source : String} {p : Program}
    (h : ofSource source true = .ok p) : (p.rewrite .named).Printable :=
  named_carries.program (everywhere_of_ofSource h)

/-- **Laying out twice is laying out once.**  A text that can be read is laid out in any style as a
    text that can be read, and laying that out in another style is laying out the first text. -/
theorem reformat_reformat {source : String} {p : Program} (h : ofSource source true = .ok p)
    (st st' : Style) : ∃ text q, reformat st source = .ok text ∧ ofSource text true = .ok q ∧
      reformat st' text = reformat st' source := by
  have hprintable := printable_of_ofSource h
  obtain ⟨q, hread, hq⟩ := hprintable.restores st
  rw [keeps_named.format] at hread
  refine ⟨p.format st, q, by rw [reformat, h]; rfl, hread, ?_⟩
  have hsame : q.format st' = p.format st' := by
    rw [hq.format, keeps_named.format]
  rw [reformat, reformat, hread, h]
  exact congrArg Except.ok hsame

/-- A text with braces that stay, comments of both kinds and no semicolons. -/
def untidy : String := "if(a){if(b)c++}else{d=(x,y)=>{return x-(y)}}//e\n/*f*/g"

theorem reformat_reformat_untidy : ∃ p, ofSource untidy true = .ok p ∧
    ∃ text q, reformat .flat untidy = .ok text ∧ ofSource text true = .ok q ∧
      reformat .standard text = reformat .standard untidy := by
  have hok : (ofSource untidy true).isOk = true := by decide +kernel
  cases h : ofSource untidy true with
  | error e =>
    rw [h] at hok
    exact Bool.noConfusion hok
  | ok p => exact ⟨p, rfl, reformat_reformat h .flat .standard⟩

end CurlyScript
