import CurlyScript.Grammar.Rules
import CurlyScript.Proofs.Grammar.Cursor
import CurlyScript.Proofs.Syntax.Terminals

/-
  Reading lists: items between commas, and the lines of a block.

  Both say the same of a list as of its items: if each item is read from its terminals, up to what
  `f` forgets of it, then so is the list.  What may follow an item is all that the item needs to
  know of the list.
-/

namespace CurlyScript

/-- A step that gives `v`, up to what `f` forgets, and leaves the terminals `more`. -/
def Step.Gives {n : Nat} {α β : Type} (f : α → β) (v : β) (more : List Terminal)
    (s : Step n α) : Prop := f s.value = v ∧ s.rest.terminals = more

open Terminal

theorem Terminal.separated_cons_cons (close : Punctuation) (x y : List Terminal)
    (zs : List (List Terminal)) :
    separated close (x :: y :: zs) = x ++ punctuation .comma :: separated close (y :: zs) := by
  rw [separated, List.intercalate_cons_cons, separated]
  simp

theorem Terminal.separated_singleton (close : Punctuation) (x : List Terminal) :
    separated close [x] = x ++ [punctuation close] := by
  rw [separated, List.intercalate_singleton]

namespace Grammar

variable {n : Nat} {α β γ : Type}

/-- A name is read from its terminal. -/
theorem name_eq {c : Cursor} {s : String} {more : List Terminal}
    (h : c.terminals = Terminal.name s :: more) : ∃ sp d hd,
    name c = .ok ⟨⟨s, sp⟩, d, hd⟩ ∧ d.terminals = more := by
  obtain ⟨sp, d, hd, he, hm⟩ := Cursor.expect_eq (k := .ident) h rfl nofun
  exact ⟨sp, d, hd, by rw [name, he]; rfl, hm⟩

/-- Items with commas between them are read if each item is. -/
theorem delimited_succeeds {item : (c : Cursor) → c.size < n → Read (Step c.size α)}
    {t : γ → List Terminal} {f : α → β} {g : γ → β} {close : Punctuation} (hclose : close ≠ .comma)
    {xs : List γ}
    (hitem : ∀ x ∈ xs, ∀ c (h : c.size < n) more, c.terminals = t x ++ more →
      nextKind more = .punctuation .comma ∨ nextKind more = .punctuation close →
      Succeeds (item c h) (Step.Gives f (g x) more))
    (hhead : ∀ x ∈ xs, ∀ more, nextKind (t x ++ more) ≠ .punctuation close) :
    ∀ (comma : Bool) (c : Cursor) (h : c.size < n) (more : List Terminal),
      c.terminals = separated close (xs.map t) ++ more →
      Succeeds (delimited close item comma c h)
        (Step.Gives (fun p => (p.1.map f, p.2)) (xs.map g, xs.isEmpty && comma) more) := by
  -- whatever stands before, so `comma` and the cursor stay general
  induction xs with
  | nil =>
    intro comma c h more hc
    obtain ⟨sp, d, hd, ha, hm⟩ := Cursor.accept?_eq (k := .punctuation close) hc rfl nofun
    rw [delimited, ha]
    exact ⟨_, rfl, rfl, hm⟩
  | cons x xs ih =>
    intro comma c h more hc
    have hx := hitem x List.mem_cons_self
    have hrest := ih (fun y hy => hitem y (List.mem_cons_of_mem x hy))
      (fun y hy => hhead y (List.mem_cons_of_mem x hy))
    cases xs with
    | nil =>
      rw [List.map_cons, List.map_nil, separated_singleton, List.append_assoc] at hc
      have hnone : c.accept? (.punctuation close) = none :=
        Cursor.accept?_eq_none (by rw [hc]; exact hhead x List.mem_cons_self _)
      rw [delimited, hnone]
      refine (hx c h _ hc (Or.inr rfl)).bind ?_
      rintro ⟨v, d, hd⟩ ⟨hv, hm⟩
      -- the last item: the closing sign follows and no comma
      have hcomma : d.accept? (.punctuation .comma) = none := by
        refine Cursor.accept?_eq_none ?_
        rw [hm]
        intro hk
        exact hclose (TokenKind.punctuation.inj hk)
      obtain ⟨sp, e, he, hex, hmore⟩ := Cursor.expect_eq (k := .punctuation close) hm rfl nofun
      simp only [hcomma, hex]
      exact ⟨_, rfl, Prod.ext (congrArg (fun z => [z]) hv) rfl, hmore⟩
    | cons y ys =>
      rw [List.map_cons, List.map_cons, separated_cons_cons, List.append_assoc] at hc
      have hnone : c.accept? (.punctuation close) = none :=
        Cursor.accept?_eq_none (by rw [hc]; exact hhead x List.mem_cons_self _)
      rw [delimited, hnone]
      refine (hx c h _ hc (Or.inl rfl)).bind ?_
      rintro ⟨v, d, hd⟩ ⟨hv, hm⟩
      obtain ⟨sp, e, he, hcomma, hm'⟩ :=
        Cursor.accept?_eq (k := .punctuation .comma) hm rfl nofun
      simp only [hcomma]
      have he' : e.size < d.size := he
      refine (hrest true e (by omega) more hm').bind ?_
      rintro ⟨⟨vs, last⟩, i, hi⟩ ⟨hvs, hmore⟩
      obtain ⟨hvs, hlast⟩ := Prod.mk.inj hvs
      refine ⟨_, rfl, Prod.ext ?_ hlast, hmore⟩
      exact congrArg₂ List.cons hv hvs

/-- The class that follows some statements and is not an `else`. -/
theorem nextKind_statements_ne_else {more : List Terminal}
    (hmore : nextKind more ≠ .keyword .else_) (ss : List Statement) :
    nextKind (statementsTerminals ss ++ more) ≠ .keyword .else_ := by
  induction ss with
  | nil => exact hmore
  | cons s ss ih =>
    obtain ⟨t, ts, hs, -, helse, hcomment⟩ := s.terminals_eq_cons
    rw [statementsTerminals, List.append_assoc]
    cases hk : s.isComment with
    | false =>
      rw [hs, List.cons_append, nextKind_cons (hcomment.trans hk)]
      exact helse
    -- the parser skips a comment to see the class, so what counts stands after it
    | true =>
      cases s with
      | comment sp text => exact ih
      | _ => exact Bool.noConfusion hk

/-- The lines of a block are read if each line is. -/
theorem untilBrace_succeeds {item : (c : Cursor) → c.size < n → Read (Step c.size Statement)}
    {f : Statement → β} {ss : List Statement}
    (hitem : ∀ s ∈ ss, ∀ c (h : c.size < n) more, c.terminals = s.terminals ++ more →
      nextKind more ≠ .keyword .else_ → Succeeds (item c h) (Step.Gives f (f s) more)) :
    ∀ (c : Cursor) (h : c.size < n) (more : List Terminal),
      c.terminals = statementsTerminals ss ++ punctuation .rBrace :: more →
      Succeeds (untilBrace item c h) (Step.Gives (List.map f) (ss.map f) more) := by
  induction ss with
  | nil =>
    intro c h more hc
    obtain ⟨sp, d, hd, he, hm⟩ := Cursor.expect_eq (k := .punctuation .rBrace) hc rfl (by decide)
    have hend : c.atBlockEnd = true := Cursor.atBlockEnd_eq hc
    rw [untilBrace, hend, if_pos rfl, he]
    exact ⟨_, rfl, rfl, hm⟩
  | cons s ss ih =>
    intro c h more hc
    obtain ⟨t, ts, hs, hbrace, -, -⟩ := s.terminals_eq_cons
    rw [statementsTerminals, List.append_assoc] at hc
    have hend : c.atBlockEnd = false := by
      rw [Cursor.atBlockEnd_eq (by rw [hc, hs]; rfl), beq_eq_false_iff_ne]
      exact hbrace
    rw [untilBrace, hend, if_neg Bool.false_ne_true]
    -- neither the next line nor the brace begins with an `else`, so an open `if` may end `s`
    have hother : nextKind (punctuation .rBrace :: more) ≠ .keyword .else_ := TokenKind.noConfusion
    have helse := @nextKind_statements_ne_else (punctuation .rBrace :: more) hother ss
    refine (hitem s List.mem_cons_self c h _ hc helse).bind ?_
    rintro ⟨v, d, hd⟩ ⟨hv, hm⟩
    refine (ih (fun x hx => hitem x (List.mem_cons_of_mem s hx)) d (by omega) more hm).bind ?_
    rintro ⟨vs, e, he⟩ ⟨hvs, hmore⟩
    exact ⟨_, rfl, congrArg₂ List.cons hv hvs, hmore⟩

end Grammar

end CurlyScript
