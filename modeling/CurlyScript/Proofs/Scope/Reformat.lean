import CurlyScript.Layout.Source
import CurlyScript.Proofs.Layout.ReadBack
import CurlyScript.Proofs.Scope.Relocated
import CurlyScript.Proofs.Scope.Uncommented

/-
  Laying out a text anew changes no findings.

  What was read needs no braces besides its own, so a layout adds none and the scopes stay.  The
  parentheses that it may add have no outline, comments have none either, and the rest is a matter
  of offsets (`resolve_reformat`).
-/

namespace CurlyScript

open Program

/-- Where branches need no braces, writing parentheses down leaves the outline as it is. -/
theorem Rewriting.outlines_explicit : explicit.Outlines Node.IsGrouped Eq where
  nil := rfl
  append := by rintro os _ qs _ rfl rfl; rfl
  declaration n kind := rfl
  use name s := rfl
  construct := by rintro kind os _ rfl; rfl
  expr := outline_withParens
  statement s h := outline_withBraces h
  cond sp test consequent alternate hgrouped ht hc ha := by
    cases alternate with
    | none =>
      show _ ++ _ ++ [] = _ ++ _ ++ []
      rw [ht, hc]
    | some a =>
      have hclosed : (consequent.rewrite explicit).endsWithOpenIf = false := by
        rw [endsWithOpenIf_explicit]
        exact Bool.not_eq_true' _ ▸ hgrouped
      show _ ++ (Statement.bracesIf _ _).outline ++ _ = _
      rw [hclosed, ht]
      exact congrArg₂ (fun os qs => _ ++ os ++ qs) hc ha

namespace Program

/-- What was read needs no braces and no parentheses besides its own. -/
theorem isGrouped_of_ofSource {source : String} {keep : Bool} {p : Program}
    (h : ofSource source keep = .ok p) : p.Everywhere Node.IsGrouped := by
  obtain ⟨tokens, -, hread⟩ := ofSource_eq_ok_iff.mp h
  exact isGrouped_of_ofTokens hread

/-- What was read is printable if its numbers are finite. -/
theorem printable_of_isFinite {source : String} {keep : Bool} {p : Program}
    (h : ofSource source keep = .ok p)
    (hfinite : ∀ w ∈ p.words, w.isFinite = true) : p.Printable := by
  intro n hn
  have hread := everywhere_of_ofSource h n hn
  cases n with
  | expr e =>
    cases e with
    | literal sp value =>
      cases value with
      | number x =>
        have hx : x.isFinite = true := hfinite _ (List.mem_filterMap.mpr ⟨_, hn, rfl⟩)
        cases x with
        | nan | infinite => exact Bool.noConfusion hx
        | finite negative size => exact hread
      | _ => rfl
    | _ => exact hread
  | decl d => cases d; exact hread
  | statement s => cases s <;> exact hread
  | _ => exact hread

/-- A tree that restores another has its names, but at other places, and its words. -/
theorem Restores.resolve {p q : Program} (h : p.Restores q) (hp : p.Everywhere Node.IsGrouped) :
    q.resolve.unplaced = p.resolve.unplaced ∧ q.words = p.words := by
  have houtline : Program.outline (p.rewrite .explicit) = p.outline :=
    Rewriting.outlines_explicit.program hp
  constructor
  · rw [← q.resolve_unspanned, h, resolve_unspanned, resolve_congr houtline]
  · rw [← Rewriting.speaks_unspanned.program q, h, Rewriting.speaks_unspanned.program,
      Rewriting.speaks_explicit.program]

theorem findings_congr {p q : Program} (hr : q.resolve.unplaced = p.resolve.unplaced)
    (hw : q.words = p.words) :
    q.findings.map Finding.unplaced = p.findings.map Finding.unplaced := by
  rw [findings_unplaced, findings_unplaced, hr, hw]

end Program

theorem Finding.filter_rule_unplaced (rule : Rule) (fs : List Finding) :
    (fs.filter (·.rule = rule)).map unplaced = (fs.map unplaced).filter (·.rule = rule) := by
  rw [List.filter_map]
  refine congrArg (List.map unplaced) (List.filter_congr fun f _ => ?_)
  cases f <;> rfl

/-- **Laying out a text does not change its findings.**  A text that can be read and whose numbers
    are finite is laid out in any style as a text that can be read; its scopes, its symbols with
    their uses, what is wrong with its names and the usages of every name are the same but for
    offsets, and it declares with `var` as often. -/
theorem resolve_reformat {source : String} {p : Program} (h : ofSource source false = .ok p)
    (hfinite : ∀ w ∈ p.words, w.isFinite = true) (st : Style) :
    ∃ text q, reformat st source = .ok text ∧ ofSource text false = .ok q ∧
      q.resolve.unplaced = p.resolve.unplaced ∧
      (∀ name, (q.resolve.usagesOf name).map Usage.unplaced =
        (p.resolve.usagesOf name).map Usage.unplaced) ∧
      q.findings.map Finding.unplaced = p.findings.map Finding.unplaced ∧
      (q.findings.filter (·.rule = .noVar)).length =
        (p.findings.filter (·.rule = .noVar)).length := by
  obtain ⟨kept, hkept, rfl⟩ := exists_uncommented_eq h
  rw [words_uncommented] at hfinite
  obtain ⟨back, hback, hrestores⟩ := (printable_of_isFinite hkept hfinite).restores st
  obtain ⟨hresolve, hwords⟩ := hrestores.resolve (isGrouped_of_ofSource hkept)
  -- comments stand in both texts, and in neither tree that is asked for
  have hr : back.uncommented.resolve.unplaced = kept.uncommented.resolve.unplaced := by
    rw [resolve_congr back.outline_uncommented, resolve_congr kept.outline_uncommented, hresolve]
  have hw : back.uncommented.words = kept.uncommented.words := by
    rw [words_uncommented, words_uncommented, hwords]
  have hfindings := findings_congr hr hw
  refine ⟨kept.format st, back.uncommented, ?_, ?_, hr, fun name => ?_, hfindings, ?_⟩
  · rw [reformat, hkept]
    rfl
  · rw [ofSource_false, hback]
    rfl
  · rw [Usage.unplaced, ← Resolution.usagesOf_relocate, ← Resolution.usagesOf_relocate]
    exact congrArg (·.usagesOf name) hr
  · rw [← List.length_map Finding.unplaced, Finding.filter_rule_unplaced, hfindings,
      ← Finding.filter_rule_unplaced, List.length_map]

/-- A text with a name that is not declared, one without a use, one declared twice, and a branch
    that stays in its braces. -/
def faulty : String := "var a=1;//b\nif(c){if(a)var a=2.5}else{let d=(x)=>{return x}}"

theorem resolve_reformat_faulty : ∃ p, (ofSource faulty false = .ok p ∧
    ∀ w ∈ p.words, w.isFinite = true) ∧
    ∃ text q, reformat .standard faulty = .ok text ∧ ofSource text false = .ok q ∧
      q.resolve.unplaced = p.resolve.unplaced ∧
      (∀ name, (q.resolve.usagesOf name).map Usage.unplaced =
        (p.resolve.usagesOf name).map Usage.unplaced) ∧
      q.findings.map Finding.unplaced = p.findings.map Finding.unplaced ∧
      (q.findings.filter (·.rule = .noVar)).length =
        (p.findings.filter (·.rule = .noVar)).length := by
  have hok : ((ofSource faulty false).toOption.map fun p => p.words.all Word.isFinite) =
      some true := by
    decide +kernel
  cases h : ofSource faulty false with
  | error e =>
    rw [h] at hok
    exact nomatch hok
  | ok p =>
    rw [h] at hok
    have hfinite : ∀ w ∈ p.words, w.isFinite = true := List.all_eq_true.mp (Option.some.inj hok)
    exact ⟨p, ⟨rfl, hfinite⟩, resolve_reformat h hfinite .standard⟩

end CurlyScript
