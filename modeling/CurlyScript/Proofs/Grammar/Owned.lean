import CurlyScript.Proofs.Grammar.Nested

/-
  Which node a token belongs to.

  A token that stands in a part of a program and in none of the parts of that part is the part's own
  (`Part.Owns`): a keyword, an operator, a sign.  Since spans are nested, no two parts of a program
  own the same token (`Program.owner_unique`).  So what is known of the owner of a token is known
  whichever way the token was come by.
-/

namespace CurlyScript

open Writing

/-! ## Parts of parts -/

namespace Part

/-- The second is the first itself, or one of its parts, or a part of one of those, and so on. -/
inductive Below : Part → Part → Prop where
  | refl (a : Part) : Below a a
  | step {a b c : Part} (hb : b ∈ a.children) (hc : Below b c) : Below a c

/-- What stands there stands in the part, and in none of the parts of the part. -/
structure Owns (a : Part) (s : Span) : Prop where
  start_le : a.span.start ≤ s.start
  le_stop : s.stop ≤ a.span.stop
  apart : ∀ b ∈ a.children, b.span.stop ≤ s.start ∨ s.stop ≤ b.span.start

variable {a b : Part} {s : Span}

/-- What is within a part is not in the part's own tokens. -/
theorem Owns.not_within (h : a.Owns s) (hs : s.start < s.stop) (hb : b ∈ a.children)
    (hstart : b.span.start ≤ s.start) (hstop : s.stop ≤ b.span.stop) : False := by
  rcases h.apart b hb with hbefore | hafter
  · omega
  · omega

/-- The token between the parts that stand before it and those that stand after it is the part's
    own. -/
theorem owns_of_stand {us vs : List Token} {t : Token} {as bs : List Part}
    (horder : InOrder (us ++ t :: vs)) (hcovers : a.span.Covers (us ++ t :: vs))
    (has : Stand as us) (hbs : Stand bs vs) (hchildren : a.children = as ++ bs) :
    a.Owns t.span := by
  have hwithin := horder.mem_within hcovers (List.mem_append_right us List.mem_cons_self)
  have hone : (Span.Covers t.span) [t] := ⟨rfl, rfl⟩
  refine ⟨hwithin.1, hwithin.2, fun b hb => ?_⟩
  rw [hchildren] at hb
  rcases List.mem_append.mp hb with hb | hb
  · left
    obtain ⟨front, us', back, rfl, hus'⟩ := has.exists_of_mem hb
    have hsub : (us' ++ [t]).Sublist (front ++ us' ++ back ++ t :: vs) := by
      refine List.Sublist.append ?_ (List.singleton_sublist.mpr List.mem_cons_self)
      exact (List.sublist_append_right front us').trans (List.sublist_append_left _ back)
    exact (horder.sublist hsub).stop_le_start (b.covers us' hus') hone
  · right
    obtain ⟨front, vs', back, rfl, hvs'⟩ := hbs.exists_of_mem hb
    have hsub : ([t] ++ vs').Sublist (us ++ t :: (front ++ vs' ++ back)) := by
      refine (List.Sublist.cons_cons t ?_).trans (List.sublist_append_right us _)
      exact (List.sublist_append_right front vs').trans (List.sublist_append_left _ back)
    exact (horder.sublist hsub).stop_le_start hone (b.covers vs' hvs')

end Part

/-! ## The owner of a token -/

/-- Of two members of a list neither of which stands before the other there is but one. -/
theorem eq_of_pairwise_not {α : Type} {r : α → α → Prop} {l : List α} (h : l.Pairwise r) {x y : α}
    (hx : x ∈ l) (hy : y ∈ l) (hxy : ¬r x y) (hyx : ¬r y x) : x = y := by
  induction h with
  | nil => exact absurd hx List.not_mem_nil
  | cons hz _ ih =>
    rcases List.mem_cons.mp hx with rfl | hx'
    · rcases List.mem_cons.mp hy with rfl | hy'
      · rfl
      · exact absurd (hz y hy') hxy
    · rcases List.mem_cons.mp hy with rfl | hy'
      · exact absurd (hz x hx') hyx
      · exact ih hx' hy'

namespace Program

variable {p : Program} {ts : List Token} {a b : Part} {s : Span}

/-- What is below a part of a program is a part of the program, and stands within. -/
theorem HasPart.of_below (hnested : ∀ a, p.HasPart a → a.IsNested ts) (ha : p.HasPart a)
    (h : a.Below b) :
    p.HasPart b ∧ a.span.start ≤ b.span.start ∧ b.span.stop ≤ a.span.stop := by
  induction h with
  | refl a => exact ⟨ha, Nat.le_refl _, Nat.le_refl _⟩
  | @step a c d hc _ ih =>
    obtain ⟨hd, hstart, hstop⟩ := ih (.child ha hc)
    have hinside := (hnested a ha).inside c hc
    exact ⟨hd, Nat.le_trans hinside.1 hstart, Nat.le_trans hstop hinside.2⟩

/-- Every part of a program is below a statement of it. -/
theorem HasPart.exists_below (ha : p.HasPart a) : ∃ st ∈ p, (Part.statement st).Below a := by
  have hstep : ∀ {x y z : Part}, x.Below y → z ∈ y.children → x.Below z := by
    intro x y z h hz
    induction h with
    | refl x => exact .step hz (.refl z)
    | step hb _ ih => exact .step hb (ih hz)
  induction ha with
  | statement hs => exact ⟨_, hs, .refl _⟩
  | child _ hb ih =>
    obtain ⟨st, hst, hbelow⟩ := ih
    exact ⟨st, hst, hstep hbelow hb⟩

/-- Every part in which a token stands is above the owner of the token. -/
theorem HasPart.below_owner (ha : p.HasPart a) (hnested : ∀ a, p.HasPart a → a.IsNested ts)
    (hroots : p.Pairwise fun x y => x.span.stop ≤ y.span.start) (hs : s.start < s.stop)
    (hb : p.HasPart b) (howns : b.Owns s) (hstart : a.span.start ≤ s.start)
    (hstop : s.stop ≤ a.span.stop) : a.Below b := by
  induction ha with
  | @statement st hst =>
    obtain ⟨st', hst', hbelow⟩ := hb.exists_below
    obtain ⟨-, hstart', hstop'⟩ := HasPart.of_below hnested (.statement hst') hbelow
    have hwithin := howns.start_le
    have hwithin' := howns.le_stop
    -- two statements of the program in both of which the token stands
    have heq : st = st' := by
      refine eq_of_pairwise_not hroots hst hst' ?_ ?_
      · show ¬(Part.statement st).span.stop ≤ (Part.statement st').span.start
        omega
      · show ¬(Part.statement st').span.stop ≤ (Part.statement st).span.start
        omega
    rw [heq]
    exact hbelow
  | @child a₀ a ha₀ hmem ih =>
    have hinside := (hnested a₀ ha₀).inside a hmem
    have habove : a₀.Below b := by
      refine ih ?_ ?_
      · omega
      · omega
    cases habove with
    | refl => exact (howns.not_within hs hmem hstart hstop).elim
    | @step _ c _ hc hbelow =>
      obtain ⟨-, hstart', hstop'⟩ := HasPart.of_below hnested (.child ha₀ hc) hbelow
      have hwithin := howns.start_le
      have hwithin' := howns.le_stop
      have heq : a = c := by
        refine eq_of_pairwise_not (hnested a₀ ha₀).apart hmem hc ?_ ?_
        · omega
        · omega
      rw [heq]
      exact hbelow

/-- **A token has one owner.** -/
theorem owner_unique (hnested : ∀ a, p.HasPart a → a.IsNested ts)
    (hroots : p.Pairwise fun x y => x.span.stop ≤ y.span.start) (hs : s.start < s.stop)
    (ha : p.HasPart a) (hb : p.HasPart b) (hat : a.Owns s) (hbt : b.Owns s) : a = b := by
  have habove := ha.below_owner hnested hroots hs hb hbt hat.start_le hat.le_stop
  cases habove with
  | refl => rfl
  | @step _ c _ hc hbelow =>
    obtain ⟨-, hstart, hstop⟩ := HasPart.of_below hnested (.child ha hc) hbelow
    have hwithin := hbt.start_le
    have hwithin' := hbt.le_stop
    refine (hat.not_within hs hc ?_ ?_).elim
    · omega
    · omega

end Program

end CurlyScript
