import CurlyScript.Proofs.Grammar.Program
import CurlyScript.Proofs.Layout.Flat
import CurlyScript.Proofs.Syntax.Erased

/-
  What is written can be read back.

  A printable program is written with parentheses and braces that it need not hold, so what is read
  back is not the program but the program with those WRITTEN DOWN, and in other places
  (`Program.Restores`).  Erasing cannot tell the two apart, and no layout can.

  * `Program.format_reads_back`    — formatted text, in every style;
  * `Program.generate_reads_back`  — flat text.
-/

namespace CurlyScript.Program

open Rewriting

variable {p q : Program}

/-- `q` is `p` with its parentheses and braces written down, wherever the nodes stand. -/
def Restores (p q : Program) : Prop :=
  q.rewrite .unspanned = (p.rewrite .explicit).rewrite .unspanned

namespace Restores

theorem erase (h : p.Restores q) : q.erase = p.erase := by
  calc q.erase = (q.rewrite .unspanned).erase := (bare_absorbs_unspanned.program q).symm
    _ = ((p.rewrite .explicit).rewrite .unspanned).erase := congrArg Program.erase h
    _ = (p.rewrite .explicit).erase := bare_absorbs_unspanned.program _
    _ = p.erase := bare_absorbs_explicit.program p

theorem format (h : p.Restores q) (st : Style) : q.format st = p.format st := by
  calc q.format st = Program.format st (q.rewrite .unspanned) := (keeps_unspanned.format st q).symm
    _ = Program.format st ((p.rewrite .explicit).rewrite .unspanned) := by rw [h]
    _ = Program.format st (p.rewrite .explicit) := keeps_unspanned.format st _
    _ = p.format st := keeps_explicit.format st p

theorem generate (h : p.Restores q) : q.generate = p.generate := by
  calc q.generate = (q.rewrite .unspanned).generate := (keeps_unspanned.generate q).symm
    _ = ((p.rewrite .explicit).rewrite .unspanned).generate := congrArg Program.generate h
    _ = (p.rewrite .explicit).generate := keeps_unspanned.generate _
    _ = p.generate := keeps_explicit.generate p

end Restores

/-! ## Formatted text -/

/-- Every laid out text of a program is spelled out by the terminals of the explicit one. -/
theorem Printable.scans_format (hp : p.Printable) (st : Style) :
    Scans (p.format st).toList (p.rewrite .explicit).terminals := by
  have hscans := Program.scans_format hp.explicit_plain st
  rw [keeps_explicit.format] at hscans
  exact hscans

/-- A formatted text is read as the program that it was made of. -/
theorem Printable.restores (hp : p.Printable) (st : Style) :
    ∃ q, ofSource (p.format st) true = .ok q ∧ p.Restores q :=
  ofSource_eq_ok (hp.scans_format st) (List.filter_eq_self.mpr fun _ _ => rfl) hp.explicit_plain

/-- **Formatted text reads back.**  What is read differs from the program by what erasing forgets
    and formatting it again changes nothing. -/
theorem format_reads_back (hp : p.Printable) (st : Style) :
    ∃ q, ofSource (p.format st) true = .ok q ∧ q.erase = p.erase ∧ q.format st = p.format st := by
  obtain ⟨q, hread, hq⟩ := hp.restores st
  exact ⟨q, hread, hq.erase, hq.format st⟩

/-- An `if` as the branch of another, whose `else` would go astray. -/
def branched : Program :=
  [.cond .none (.ident .none "a")
    (.cond .none (.ident .none "b") (.expr .none (.update .none .increment true (.ident .none "c")))
      none)
    (some (.expr .none (.binary .none .mul
      (.binary .none .add (.object .none []) (.literal .none (.number (.finite false .zero))))
      (.ident .none "c"))))]

/-- The braces that keep the `else` away are in the text alone. -/
theorem format_reads_back_branched : branched.Printable ∧
    ∃ q, ofSource (branched.format .standard) true = .ok q ∧ q.erase = branched.erase ∧
      q.format .standard = branched.format .standard :=
  have hp : branched.Printable := by decide
  ⟨hp, format_reads_back hp .standard⟩

/-! ## Flat text -/

/-- **Flat text reads back.**  A program of flat shapes has a flat text, and what is read from it,
    without comments, has the same one. -/
theorem generate_reads_back (hf : p.Flat) (hp : p.Printable) :
    ∃ code q, p.generate = .ok code ∧ ofSource code false = .ok q ∧ q.erase = p.erase ∧
      q.generate = .ok code := by
  obtain ⟨code, hcode⟩ := generate_eq_ok hf
  have hplain := hp.explicit_plain
  obtain ⟨hscans, hquiet⟩ := scans_generate hplain ((keeps_explicit.generate p).trans hcode)
  obtain ⟨q, hread, hsame⟩ := ofSource_eq_ok hscans (hquiet.filter_isKept false) hplain
  have hq : p.Restores q := hsame
  exact ⟨code, q, hcode, hread, hq.erase, hq.generate.trans hcode⟩

/-- A declaration and an object at the start of a statement. -/
def declared : Program :=
  [.decl (.mk .none .const ⟨"a", .none⟩ (some (.array .none [.literal .none (.string "b")]))),
    .expr .none (.binary .none .eq
      (.object .none [.mk ⟨"c", .none⟩ (.literal .none .null)]) (.ident .none "a"))]

/-- The parentheses that keep the object from being a block are in the text alone. -/
theorem generate_reads_back_declared : (declared.Flat ∧ declared.Printable) ∧
    ∃ code q, declared.generate = .ok code ∧ ofSource code false = .ok q ∧
      q.erase = declared.erase ∧ q.generate = .ok code :=
  have hf : declared.Flat := by decide
  have hp : declared.Printable := by decide
  ⟨⟨hf, hp⟩, generate_reads_back hf hp⟩

end CurlyScript.Program
