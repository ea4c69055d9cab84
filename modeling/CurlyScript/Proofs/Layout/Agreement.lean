import CurlyScript.Proofs.Layout.ReadBack

/-
  All texts of a program hold the same tokens.

  The flat text and a laid out one are written by different recursions: `Program.generate` joins
  strings, knows no style and gives up where a node has no flat text, `Program.format` makes pieces
  that are rendered with margins.  What they have in common is the TERMINALS of the program with its
  parentheses and braces written down (`Rewriting.explicit`): each of them spells out those and
  nothing else, and no style has a part in them.

  * `Program.format_agrees_format`    — laid out texts, in any two styles;
  * `Program.generate_agrees_format`  — the flat text and a laid out one.
-/

namespace CurlyScript

/-- Tokens that differ in their places alone are found in every text that spells out the same
    terminals. -/
theorem scan_eq_ok_of_scans {source : String} {ts : List Terminal} (h : Scans source.toList ts)
    (keep : Bool) : ∃ tokens, scan source keep = .ok tokens ∧
      tokens.map Token.terminal = ts.filter (Terminal.isKept keep) ++ [⟨.eof, ""⟩] := by
  obtain ⟨tokens, hscan, hterminals⟩ := scan_eq_ok h keep
  refine ⟨_, hscan, ?_⟩
  rw [List.map_append, hterminals]
  rfl

namespace Program

open Rewriting

variable {p : Program}

/-! ## Two styles -/

/-- **Styles change nothing but the blanks.**  Whatever the style, the tokens of a laid out text
    have the classes and the lexemes of the terminals of the explicit program, in which no style has
    a part. -/
theorem format_agrees_format (hp : p.Printable) (st st' : Style) (keep : Bool) :
    ∃ ts us, scan (p.format st) keep = .ok ts ∧ scan (p.format st') keep = .ok us ∧
      ts.map Token.terminal = us.map Token.terminal ∧
      ts.map Token.terminal =
        (p.rewrite .explicit).terminals.filter (Terminal.isKept keep) ++ [⟨.eof, ""⟩] := by
  obtain ⟨ts, hts, hterminals⟩ := scan_eq_ok_of_scans (hp.scans_format st) keep
  obtain ⟨us, hus, hterminals'⟩ := scan_eq_ok_of_scans (hp.scans_format st') keep
  exact ⟨ts, us, hts, hus, hterminals.trans hterminals'.symm, hterminals⟩

/-- Operators next to signs that they would run together with, and a comment of each kind. -/
def cramped : Program :=
  let a := Expr.ident .none "a"
  let b := Expr.ident .none "b"
  [.comment .none "// a",
    .expr .none (.binary .none .sub a
      (.binary .none .mul (.update .none .decrement true b) (.update .none .decrement false a))),
    .expr .none (.binary .none .add (.update .none .increment false a) b),
    .expr .none (.assign .none .assign a (.update .none .decrement true b)),
    .expr .none (.assign .none .subAssign a (.update .none .decrement true b)),
    .block .none [.expr .none (.binary .none .div a (.binary .none .div a b)),
      .comment .none "/* b */"]]

/-- The style that leaves out every blank that may be left out. -/
def cramping : Style := ⟨0, false, false, false, false⟩

theorem format_agrees_format_cramped : cramped.Printable ∧
    ∃ ts us, scan (cramped.format cramping) true = .ok ts ∧
      scan (cramped.format .standard) true = .ok us ∧
      ts.map Token.terminal = us.map Token.terminal ∧
      ts.map Token.terminal =
        (cramped.rewrite .explicit).terminals.filter (Terminal.isKept true) ++ [⟨.eof, ""⟩] :=
  have hp : cramped.Printable := by decide
  ⟨hp, format_agrees_format hp cramping .standard true⟩

/-! ## The flat text and a laid out one -/

/-- **The two texts of a program agree.**  A program of flat shapes has a flat text, and its tokens
    have the classes and the lexemes of those of its laid out text, whatever the style. -/
theorem generate_agrees_format (hf : p.Flat) (hp : p.Printable) (st : Style) (keep : Bool) :
    ∃ code ts us, p.generate = .ok code ∧ scan code keep = .ok ts ∧
      scan (p.format st) keep = .ok us ∧ ts.map Token.terminal = us.map Token.terminal := by
  obtain ⟨code, hcode⟩ := generate_eq_ok hf
  have hflat := (scans_generate hp.explicit_plain ((keeps_explicit.generate p).trans hcode)).1
  obtain ⟨ts, hts, hsame⟩ := scan_eq_ok_of_scans hflat keep
  obtain ⟨us, hus, hsame'⟩ := scan_eq_ok_of_scans (hp.scans_format st) keep
  exact ⟨code, ts, us, hcode, hts, hus, hsame.trans hsame'.symm⟩

/-- A dangling `else` in a function, and an object with nothing in front of it. -/
def bundled : Program :=
  [.function .none ⟨"f", .none⟩ [⟨"a", .none⟩, ⟨"b", .none⟩]
    [.cond .none (.ident .none "a")
      (.cond .none (.ident .none "b") (.ret .none none) none)
      (some (.expr .none (.binary .none .mul
        (.binary .none .add (.object .none [.mk ⟨"c", .none⟩ (.literal .none (.string "d"))])
          (.literal .none (.number (.finite false .zero))))
        (.array .none [.ident .none "b"]))))]]

/-- Its braces and parentheses are in neither tree but in both texts. -/
theorem generate_agrees_format_bundled : (bundled.Flat ∧ bundled.Printable) ∧
    ∃ code ts us, bundled.generate = .ok code ∧ scan code false = .ok ts ∧
      scan (bundled.format .standard) false = .ok us ∧
      ts.map Token.terminal = us.map Token.terminal :=
  have hf : bundled.Flat := by decide
  have hp : bundled.Printable := by decide
  ⟨⟨hf, hp⟩, generate_agrees_format hf hp .standard false⟩

end Program

end CurlyScript
