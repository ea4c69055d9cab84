import CurlyScript.Proofs.Grammar.Carried

/-
  Signs that the grammar leaves to the writer.

  A semicolon that ends a statement may be left out, unless the next token would then go on with the
  statement, and a comma may be put in after the last item of a list.  What is read is the same tree.

  Both are splices.  The semicolon is its statement's own, and the sign that closes a list is the
  list's own, and no other node owns them.  So every node can do with what stands there instead.
-/

namespace CurlyScript

open Writing

/-- What comes next where a statement may end makes no expression longer but in four ways. -/
theorem TokenKind.ends_of_trails {j : TokenKind} (h : j.trailsStatement = true ∨ j = .eof) :
    j.binary? = none ∧ j.assign? = none ∧ j ≠ .punctuation .fatArrow ∧
      j ≠ .punctuation .semicolon ∧ (j.isPostfix = true →
        j ∈ [.punctuation .lParen, .punctuation .lBracket, .operator .plusPlus,
          .operator .minusMinus]) := by
  rcases h with h | rfl
  · cases j with
    | punctuation p => cases p <;> first | exact Bool.noConfusion h | decide
    | operator o => cases o <;> first | exact Bool.noConfusion h | decide
    | keyword w => cases w <;> first | exact Bool.noConfusion h | decide
    | _ => first | exact Bool.noConfusion h | decide
  · decide

/-! ## The owner of a semicolon, and of the sign that closes a list -/

/-- A separator may stand after the last of the items, and then no other token does. -/
theorem Writing.exists_of_separated {ls : List (Language Token)} {l : Language Token} :
    ∀ ts ∈ separated (ls ++ [l]), ∃ front us back, ts = front ++ us ++ back ∧ us ∈ l ∧
      ∀ t ∈ back.head?, t.kind = .punctuation .comma := by
  have hlisted : ∀ (last : Bool), ∀ ts ∈ listed last (ls ++ [l]), ∃ front us back,
      ts = front ++ us ++ back ∧ us ∈ l ∧ ∀ t ∈ back.head?, t.kind = .punctuation .comma := by
    intro last
    induction ls with
    | nil =>
      intro ts hts
      cases last with
      | false => exact ⟨[], ts, [], (List.append_nil ts).symm, hts, by rintro _ ⟨⟩⟩
      | true =>
        obtain ⟨us, hus, _, ⟨t, ht, rfl⟩, rfl⟩ := Language.mem_mul.mp hts
        exact ⟨[], us, [t], rfl, hus, by rintro _ ⟨⟩; exact ht⟩
    | cons m ls ih =>
      intro ts hts
      have hcons : listed last (m :: ls ++ [l]) =
          m * punctuation .comma * listed last (ls ++ [l]) := by
        cases ls <;> rfl
      rw [hcons] at hts
      obtain ⟨as, -, bs, hbs, rfl⟩ := Language.mem_mul.mp hts
      obtain ⟨front, us, back, rfl, hus, hback⟩ := ih bs hbs
      exact ⟨as ++ front, us, back, by simp only [List.append_assoc], hus, hback⟩
  rintro ts (hts | hts)
  · exact hlisted false ts hts
  · exact hlisted true ts hts

/-- The last item of the list that a part has, and the sign that closes the list: the arguments of a
    call, the parameters of a function, the elements of an array or the entries of an object.  An
    entry ends with its value. -/
def Part.lastItem? : Part → Option (Part × Punctuation)
  | .expr (.call _ _ args) => args.getLast?.map fun e => (.expr e, .rParen)
  | .expr (.arrow _ params _) | .statement (.function _ _ params _) =>
    params.getLast?.map fun n => (.name n, .rParen)
  | .expr (.array _ elements) => elements.getLast?.map fun e => (.expr e, .rBracket)
  | .expr (.object _ properties) => properties.getLast?.map fun p => (.expr p.value, .rBrace)
  | _ => none

/-- A part is written with a list, the last item of which ends where `item` does, and with `close`
    after it. -/
inductive Part.Lists (a item : Part) (close : Punctuation) : Prop where
  | mk {l x m : Language Token} {ls : List (Language Token)} {as bs : List Part}
    (hwritings : ∀ ts ∈ a.writings, ts ∈ l * separated (ls ++ [x]) * punctuation close * m)
    (hbefore : Holds (l * separated (ls ++ [x])) as) (hafter : Holds m bs)
    (hchildren : a.children = as ++ bs)
    (hends : ∀ us ∈ x, ∃ front t, us = front ++ [t] ∧ t.span.stop = item.span.stop ∧
      t.kind.endsExpression = true) : a.Lists item close

namespace Part

/-- What ends as an expression does ends with a token that ends where it does. -/
theorem exists_last {a : Part} (h : EndsWith (·.endsExpression = true) a.writings) :
    ∀ us ∈ a.writings, ∃ front t, us = front ++ [t] ∧ t.span.stop = a.span.stop ∧
      t.kind.endsExpression = true := by
  intro us hus
  obtain ⟨front, t, rfl, ht⟩ := h us hus
  have hstop := (a.covers _ hus).2
  rw [List.getLast?_concat] at hstop
  exact ⟨front, t, rfl, Option.some.inj hstop, ht⟩

/-- Parameters, with what stands before them and after them. -/
theorem lists_of_params {a : Part} {l m : Language Token} {as bs : List Part} (init : List Name)
    {n : Name} (sp : Span) (hwritings : a.writings = spanning sp (l * params (init ++ [n]) * m))
    (hbefore : Holds l as) (hafter : Holds m bs)
    (hchildren : a.children = as ++ (init ++ [n]).map .name ++ bs) :
    a.Lists (.name n) .rParen := by
  have hnames := Holds.items (w := Writing.name) Part.name (fun _ => rfl) (init ++ [n])
  have hheld := (hbefore.after (punctuation .lParen)).mul hnames
  rw [List.map_append] at hheld
  refine .mk (fun ts hts => ?_) hheld hafter hchildren (exists_last (a := .name n) n.endsWith)
  rw [hwritings, params, ← mul_assoc, ← mul_assoc, List.map_append] at hts
  exact hts.1

theorem lists_of_lastItem? {a item : Part} {close : Punctuation}
    (h : a.lastItem? = some (item, close)) : a.Lists item close := by
  cases a with
  | expr e =>
    cases e with
    | call sp callee args =>
      obtain ⟨x, hx, heq⟩ := Option.map_eq_some_iff.mp h
      obtain ⟨rfl, rfl⟩ := Prod.mk.inj heq
      obtain ⟨init, rfl⟩ := List.getLast?_eq_some_iff.mp hx
      have hheld := ((Holds.part (.expr callee)).after (punctuation .lParen)).mul
        (.exprs (init ++ [x]))
      rw [exprsWritings_eq_map, List.map_append] at hheld
      refine .mk (m := 1) (fun ts hts => ?_) hheld (.nothing 1) (List.append_nil _).symm
        (exists_last (a := .expr x) x.endsWith)
      rw [Part.writings, Expr.writings, exprsWritings_eq_map, List.map_append] at hts
      rw [mul_one]
      exact hts.1
    | arrow sp params body =>
      obtain ⟨n, hn, heq⟩ := Option.map_eq_some_iff.mp h
      obtain ⟨rfl, rfl⟩ := Prod.mk.inj heq
      obtain ⟨init, rfl⟩ := List.getLast?_eq_some_iff.mp hn
      refine lists_of_params init sp (l := 1) ?_ (.nothing 1)
        (((Holds.statements body).before (punctuation .fatArrow * punctuation .lBrace)).after
          (punctuation .rBrace)) rfl
      rw [Part.writings, Expr.writings, one_mul]
      simp only [mul_assoc]
    | array sp elements =>
      obtain ⟨x, hx, heq⟩ := Option.map_eq_some_iff.mp h
      obtain ⟨rfl, rfl⟩ := Prod.mk.inj heq
      obtain ⟨init, rfl⟩ := List.getLast?_eq_some_iff.mp hx
      have hheld := (Holds.exprs (init ++ [x])).before (punctuation .lBracket)
      rw [exprsWritings_eq_map, List.map_append] at hheld
      refine .mk (m := 1) (fun ts hts => ?_) hheld (.nothing 1) (List.append_nil _).symm
        (exists_last (a := .expr x) x.endsWith)
      rw [Part.writings, Expr.writings, exprsWritings_eq_map, List.map_append] at hts
      rw [mul_one]
      exact hts.1
    | object sp properties =>
      obtain ⟨entry, hentry, heq⟩ := Option.map_eq_some_iff.mp h
      obtain ⟨rfl, rfl⟩ := Prod.mk.inj heq
      obtain ⟨init, rfl⟩ := List.getLast?_eq_some_iff.mp hentry
      have hheld := (Holds.separated Property.holds_parts (init ++ [entry])).before
        (punctuation .lBrace)
      rw [List.map_append] at hheld
      refine .mk (m := 1) (fun ts hts => ?_) hheld (.nothing 1) (List.append_nil _).symm
        fun us hus => ?_
      · rw [Part.writings, Expr.writings, propertiesWritings_eq_map, List.map_append] at hts
        rw [mul_one]
        exact hts.1
      · obtain ⟨key, value⟩ := entry
        obtain ⟨front, -, vs, hvs, rfl⟩ := Language.mem_mul.mp hus
        obtain ⟨front', t, rfl, ht⟩ := exists_last (a := .expr value) value.endsWith vs hvs
        exact ⟨front ++ front', t, (List.append_assoc front front' [t]).symm, ht⟩
    | _ => cases h
  | statement s =>
    cases s with
    | function sp name params body =>
      obtain ⟨n, hn, heq⟩ := Option.map_eq_some_iff.mp h
      obtain ⟨rfl, rfl⟩ := Prod.mk.inj heq
      obtain ⟨init, rfl⟩ := List.getLast?_eq_some_iff.mp hn
      refine lists_of_params init sp ?_ ((Holds.part (.name name)).before (keyword .function))
        (((Holds.statements body).before (punctuation .lBrace)).after (punctuation .rBrace)) ?_
      · show (Statement.function sp name (init ++ [n]) body).writings = _
        simp only [Statement.writings, Part.writings, mul_assoc]
      · show [Part.name name] ++ (_ ++ _) = _
        exact (List.append_assoc _ _ _).symm
    | _ => cases h
  | _ => cases h

end Part

namespace Program

variable {p : Program} {ts before after : List Token} {a : Part} {s : Statement} {sign : Token}

/-- A semicolon that ends a statement is its own, and what comes next may come after it. -/
theorem HasPart.owns_semicolon (hts : ts ∈ p.writings) (horder : InOrder ts)
    (hwide : ∀ t ∈ ts, t.span.start < t.span.stop) (hs : p.HasPart (.statement s))
    (htakes : s.takesSemicolon = true) (heq : ts = before ++ sign :: after)
    (hsign : sign.kind = .punctuation .semicolon) (hstop : sign.span.stop = s.span.stop) :
    (Part.statement s).Owns sign.span ∧ ∀ t ∈ after.head?, t.kind.trailsStatement = true := by
  obtain ⟨front, us, back, heq', hus, htrails⟩ := hs.exists_trailed hts
  have hcovers : s.span.Covers us := s.covers us hus
  obtain ⟨t, ht, hlast⟩ := Option.map_eq_some_iff.mp hcovers.2
  obtain ⟨vs, rfl⟩ := List.getLast?_eq_some_iff.mp ht
  subst heq
  have hsplit : before ++ sign :: after = (front ++ vs) ++ t :: back := by
    rw [heq']
    simp only [List.append_assoc, List.singleton_append]
  obtain ⟨-, rfl, rfl⟩ := horder.eq_of_stop_eq hwide hsplit (hstop.trans hlast.symm)
  refine ⟨?_, htrails ⟨s, rfl⟩⟩
  obtain ⟨l, hl, hheld, hends⟩ := Statement.exists_before_semicolon htakes
  rw [show (Part.statement s).writings = s.writings from rfl, hl] at hus
  obtain ⟨us, hus', ws, hws, hboth⟩ := Language.mem_mul.mp hus.1
  have hwithin : InOrder (vs ++ [sign]) := by
    refine horder.sublist ?_
    rw [heq', List.append_assoc front]
    exact (List.sublist_append_left _ after).trans (List.sublist_append_right front _)
  rcases hws with hnil | ⟨u, hu, rfl⟩
  · -- without a semicolon the statement would end with another token
    obtain rfl : ws = [] := hnil
    obtain ⟨xs, x, rfl, hx⟩ := hends us hus'
    have hsame : xs ++ [x] = vs ++ [sign] := (List.append_nil _).symm.trans hboth
    obtain ⟨-, hxs⟩ := List.append_inj' hsame rfl
    obtain rfl := List.singleton_inj.mp hxs
    exact absurd hsign hx
  · obtain ⟨rfl, -⟩ := List.append_inj' hboth rfl
    exact Part.owns_of_stand hwithin hcovers (hheld us hus') (.nil []) (List.append_nil _).symm

/-- The sign that closes a list is the own one of what has the list, if the last item comes right
    before it. -/
theorem HasPart.owns_close {item : Part} {close : Punctuation} {last : Token}
    (hts : ts ∈ p.writings) (horder : InOrder ts) (hwide : ∀ t ∈ ts, t.span.start < t.span.stop)
    (ha : p.HasPart a) (hlists : a.Lists item close) (hclose : close ≠ .comma)
    (heq : ts = before ++ last :: sign :: after) (hlast : last.span.stop = item.span.stop)
    (hsign : sign.kind = .punctuation close) :
    a.Owns sign.span ∧ last.kind.endsExpression = true := by
  obtain ⟨front, us, back, heq', hus⟩ := ha.exists_of_mem_writings hts
  obtain ⟨hwritings, hbefore, hafter, hchildren, hends⟩ := hlists
  have hcovers := a.covers us hus
  obtain ⟨_, hfront, vs, hvs, rfl⟩ := Language.mem_mul.mp (hwritings us hus)
  obtain ⟨xs, hxs, _, ⟨u, hu, rfl⟩, rfl⟩ := Language.mem_mul.mp hfront
  obtain ⟨as, has, ys, hys, rfl⟩ := Language.mem_mul.mp hxs
  obtain ⟨zs, ws, end_, rfl, hws, hcomma⟩ := exists_of_separated ys hys
  obtain ⟨qs, t, rfl, hstop, hkind⟩ := hends ws hws
  have hsplit : before ++ last :: sign :: after =
      (front ++ as ++ zs ++ qs) ++ t :: (end_ ++ u :: (vs ++ back)) := by
    rw [← heq, heq']
    simp only [List.append_assoc, List.cons_append, List.nil_append]
  subst heq
  obtain ⟨-, rfl, hrest⟩ := horder.eq_of_stop_eq hwide hsplit (hlast.trans hstop.symm)
  cases end_ with
  | cons v end_ =>
    -- a comma after the last item would be in the place of the sign
    obtain ⟨rfl, -⟩ := List.cons.inj hrest
    have hboth := (hcomma sign rfl).symm.trans hsign
    exact absurd (TokenKind.punctuation.inj hboth).symm hclose
  | nil =>
    obtain ⟨rfl, rfl⟩ := List.cons.inj hrest
    rw [List.append_assoc _ [sign] vs] at hcovers heq'
    refine ⟨Part.owns_of_stand (horder.sublist ?_) hcovers (hbefore _ hxs) (hafter vs hvs)
      hchildren, hkind⟩
    rw [heq', List.append_assoc front]
    exact (List.sublist_append_left _ back).trans (List.sublist_append_right front _)

/-- Every part of a program that is written with tokens in order stands on some of them. -/
theorem HasPart.isNested (hts : ts ∈ p.writings) (horder : InOrder ts)
    (hwide : ∀ t ∈ ts, t.span.start < t.span.stop) (ha : p.HasPart a) : a.IsNested ts := by
  obtain ⟨before, us, after, heq, hus⟩ := ha.exists_of_mem_writings hts
  exact Part.isNested_of_mem_writings horder hwide heq hus

/-- If the owner of the mark may own it, nothing else is in the way. -/
theorem clears_of_owns {k : Splice} (hts : k.tokens ∈ p.writings) (horder : InOrder k.tokens)
    (hwide : ∀ t ∈ k.tokens, t.span.start < t.span.stop) (ha : p.HasPart a)
    (howns : a.Owns k.mark.span) (hallows : k.Allows a) : ∀ s ∈ p, k.Clears (.statement s) := by
  intro s hs b hb hbowns
  have hnested : ∀ a, p.HasPart a → a.IsNested k.tokens := fun _ ha =>
    ha.isNested hts horder hwide
  have hroots : p.Pairwise fun x y => x.span.stop ≤ y.span.start :=
    List.pairwise_map.mp ((Holds.statements p _ hts).pairwise horder)
  have hmark : k.mark.span.start < k.mark.span.stop :=
    hwide k.mark (List.mem_append_right k.before List.mem_cons_self)
  obtain ⟨hpart, -⟩ := HasPart.of_below hnested (.statement hs) hb
  rw [owner_unique hnested hroots hmark hpart ha hbowns howns]
  exact hallows

end Program

/-! ## The two splices -/

namespace Splice

variable {before after : List Token} {sign : Token}

/-- What comes next where a semicolon was left out. -/
theorem next_dropped (before : List Token) (sign : Token) (hplain : ∀ t ∈ after, t.isComment = false)
    (hnext : ∀ t ∈ after.head?, t.kind.trailsStatement = true) :
    (Splice.mk before sign after after).next.trailsStatement = true ∨
      (Splice.mk before sign after after).next = .eof := by
  cases after with
  | nil => exact .inr rfl
  | cons t ts =>
    left
    rw [next_eq rfl (hplain t List.mem_cons_self)]
    exact hnext t rfl

/-- A semicolon left out before what may come after a statement. -/
theorem fits_dropped (hplain : ∀ t ∈ before ++ sign :: after, t.isComment = false)
    (horder : InOrder (before ++ sign :: after)) (hsign : sign.kind = .punctuation .semicolon)
    (hnext : ∀ t ∈ after.head?, t.kind.trailsStatement = true) :
    (Splice.mk before sign after after).Fits := by
  have hafter : ∀ t ∈ after, t.isComment = false := fun t ht =>
    hplain t (List.mem_append_right before (List.mem_cons_of_mem sign ht))
  obtain ⟨hbinary, hassign, harrow, hsemicolon, -⟩ :=
    TokenKind.ends_of_trails (next_dropped before sign hafter hnext)
  exact {
    plain := hplain
    plain_instead := hafter
    order := horder
    isEnd := by rw [hsign]; rfl
    binary := hbinary
    assign := hassign
    arrow := harrow
    semicolon := hsemicolon
    dropped := fun _ => rfl
    added := fun h => absurd hsign h
    previous := fun h => absurd hsign h }

/-- A comma put in after an expression or a name, before a sign that closes. -/
theorem fits_added {last comma : Token}
    (hplain : ∀ t ∈ before ++ [last] ++ sign :: after, t.isComment = false)
    (horder : InOrder (before ++ [last] ++ sign :: after)) (hsign : sign.kind.isEnd = true)
    (hclose : sign.kind ≠ .punctuation .semicolon) (hlast : last.kind.endsExpression = true)
    (hcomma : comma.kind = .punctuation .comma) :
    (Splice.mk (before ++ [last]) sign after (comma :: sign :: after)).Fits := by
  have hproper : comma.isComment = false := by
    rw [Token.isComment, hcomma]
    rfl
  have hnext : (Splice.mk (before ++ [last]) sign after (comma :: sign :: after)).next =
      .punctuation .comma := (next_eq rfl hproper).trans hcomma
  exact {
    plain := hplain
    plain_instead := List.forall_mem_cons.mpr
      ⟨hproper, fun t ht => hplain t (List.mem_append_right _ ht)⟩
    order := horder
    isEnd := hsign
    binary := by rw [hnext]; rfl
    assign := by rw [hnext]; rfl
    arrow := by rw [hnext]; rintro ⟨⟩
    semicolon := by rw [hnext]; rintro ⟨⟩
    dropped := fun h => absurd h hclose
    added := fun _ => ⟨comma, hcomma, rfl⟩
    previous := by
      intro _ t ht
      obtain rfl : last = t := by simpa using ht
      exact hlast }

end Splice

/-- A list may be closed with a comma before the sign. -/
theorem Part.allows_of_lastItem? {k : Splice} {a item : Part} {close : Punctuation}
    (h : a.lastItem? = some (item, close)) (hmark : k.mark.kind = .punctuation close) :
    k.Allows a ∧ k.mark.kind.isEnd = true ∧ close ≠ .comma ∧
      k.mark.kind ≠ .punctuation .semicolon := by
  rw [hmark]
  cases a with
  | expr e =>
    cases e with
    | call _ _ args | array _ args | object _ args =>
      obtain ⟨x, -, heq⟩ := Option.map_eq_some_iff.mp h
      obtain ⟨-, rfl⟩ := Prod.mk.inj heq
      exact ⟨trivial, rfl, by decide, by decide⟩
    | arrow _ params body =>
      obtain ⟨x, -, heq⟩ := Option.map_eq_some_iff.mp h
      obtain ⟨-, rfl⟩ := Prod.mk.inj heq
      exact ⟨by rw [Splice.Allows, hmark]; decide, rfl, by decide, by decide⟩
    | _ => cases h
  | statement s =>
    cases s with
    | function _ _ params body =>
      obtain ⟨x, -, heq⟩ := Option.map_eq_some_iff.mp h
      obtain ⟨-, rfl⟩ := Prod.mk.inj heq
      exact ⟨by rw [Splice.Allows, hmark]; decide, rfl, by decide, by decide⟩
    | _ => cases h
  | _ => cases h

/-! ## The same tree -/

/-- Whether a statement that may end with a semicolon ends with an expression before it. -/
def Statement.endsInExpression : Statement → Bool
  | .decl (.mk _ _ _ init) => init.isSome
  | .ret _ argument => argument.isSome
  | .expr _ _ => true
  | _ => false

namespace Program

/-- One separator of the tokens of a program left out or put in. -/
inductive SeparatorEdit (p : Program) : List Token → List Token → Prop where
  /-- A semicolon that ends a declaration, a `return` or an expression is left out.  What comes next
      makes no expression longer if the statement ends in one, and is no value of a `return` that
      has none. -/
  | semicolon {before after : List Token} {sign following : Token} {s : Statement}
    (hs : p.HasPart (.statement s)) (htakes : s.takesSemicolon = true)
    (hsign : sign.kind = .punctuation .semicolon) (hstop : sign.span.stop = s.span.stop)
    (hexpr : s.endsInExpression = true → following.kind ∉
      [.punctuation .lParen, .punctuation .lBracket, .operator .plusPlus, .operator .minusMinus])
    (hbare : ∀ sp, s = .ret sp none → following.kind.beginsExpression = false) :
    SeparatorEdit p (before ++ sign :: following :: after) (before ++ following :: after)
  /-- A comma is put in between the last item of a list and the sign that closes the list. -/
  | comma {before after : List Token} {last sign comma : Token} {a item : Part}
    {close : Punctuation} (ha : p.HasPart a) (hitem : a.lastItem? = some (item, close))
    (hlast : last.span.stop = item.span.stop) (hsign : sign.kind = .punctuation close)
    (hcomma : comma.kind = .punctuation .comma) :
    SeparatorEdit p (before ++ last :: sign :: after) (before ++ last :: comma :: sign :: after)

/-- What is left out may be, if what comes next is none of what the statement forbids. -/
theorem allows_semicolon {k : Splice} {s : Statement} (htakes : s.takesSemicolon = true)
    (hquiet : s.endsInExpression = true → k.Quiet)
    (hbare : ∀ sp, s = .ret sp none → k.next.beginsExpression = false) :
    k.Allows (.statement s) := by
  cases s with
  | decl d =>
    obtain ⟨sp, kind, n, init⟩ := d
    exact hquiet
  | ret sp argument =>
    cases argument with
    | none => exact hbare sp rfl
    | some e => exact hquiet rfl
  | expr sp e => exact hquiet rfl
  | _ => exact Bool.noConfusion htakes

/-- What stands before the last of a list, and is not the last itself. -/
theorem exists_rest_of_concat {α : Type} {before after us : List α} {x y : α}
    (h : before ++ x :: after = us ++ [y]) (hne : x ≠ y) :
    ∃ rest, us = before ++ x :: rest ∧ after = rest ++ [y] := by
  rcases List.eq_nil_or_concat' after with rfl | ⟨rest, z, rfl⟩
  · obtain ⟨-, hx⟩ := List.append_inj' h rfl
    exact absurd (List.singleton_inj.mp hx) hne
  · rw [← List.cons_append, ← List.append_assoc] at h
    obtain ⟨rfl, hz⟩ := List.append_inj' h rfl
    exact ⟨rest, rfl, by rw [hz]⟩

section edits

variable {p : Program} {ts before after : List Token} {sign : Token} {stop : Nat}
  (hts : ts ∈ p.writings) (hplain : ∀ t ∈ ts, t.isComment = false) (horder : InOrder ts)
  (hwide : ∀ t ∈ ts, t.span.start < t.span.stop) (hkind : ∀ t ∈ ts, t.kind ≠ .eof)
  (hread : ofTokens (ts ++ [Token.endAt stop]) = .ok p)

include hts hplain horder hwide hkind hread

/-- A semicolon is left out. -/
theorem ofTokens_dropped {following : Token} {s : Statement} (hs : p.HasPart (.statement s))
    (htakes : s.takesSemicolon = true) (heq : ts = before ++ sign :: after)
    (hsign : sign.kind = .punctuation .semicolon) (hstop : sign.span.stop = s.span.stop)
    (hfollowing : (after ++ [Token.endAt stop]).head? = some following)
    (hexpr : s.endsInExpression = true → following.kind ∉
      [.punctuation .lParen, .punctuation .lBracket, .operator .plusPlus, .operator .minusMinus])
    (hbare : ∀ sp, s = .ret sp none → following.kind.beginsExpression = false) :
    ∃ p', ofTokens (before ++ after ++ [Token.endAt stop]) = .ok p' ∧
      Program.rewrite .unspanned p' = Program.rewrite .unspanned p := by
  obtain ⟨howns, htrails⟩ := hs.owns_semicolon hts horder hwide htakes heq hsign hstop
  subst heq
  have hafter : ∀ t ∈ after, t.isComment = false := fun t ht =>
    hplain t (List.mem_append_right before (List.mem_cons_of_mem sign ht))
  have hnext : (Splice.mk before sign after after).next = following.kind := by
    cases after with
    | nil =>
      obtain rfl : Token.endAt stop = following := Option.some.inj hfollowing
      rfl
    | cons t ts =>
      obtain rfl : t = following := Option.some.inj hfollowing
      exact Splice.next_eq rfl (hafter t List.mem_cons_self)
  have hquiet : s.endsInExpression = true → (Splice.mk before sign after after).Quiet := by
    intro hends
    obtain ⟨-, -, -, -, hfour⟩ :=
      TokenKind.ends_of_trails (Splice.next_dropped before sign hafter htrails)
    refine Bool.eq_false_iff.mpr fun hpostfix => hexpr hends ?_
    rw [← hnext]
    exact hfour hpostfix
  have hallows := allows_semicolon (k := ⟨before, sign, after, after⟩) htakes hquiet
    fun sp hsp => hnext ▸ hbare sp hsp
  have hkind' : ∀ t ∈ before ++ after, t.kind ≠ .eof := fun t ht =>
    hkind t (((List.sublist_cons_self sign after).append_left before).subset ht)
  exact ofTokens_spliced (Splice.fits_dropped hplain horder hsign htrails) hkind hkind' hread
    (clears_of_owns hts horder hwide hs howns hallows)

/-- A comma is put in. -/
theorem ofTokens_added {last comma : Token} {a item : Part} {close : Punctuation}
    (ha : p.HasPart a) (hitem : a.lastItem? = some (item, close))
    (heq : ts = before ++ [last] ++ sign :: after) (hlast : last.span.stop = item.span.stop)
    (hsign : sign.kind = .punctuation close) (hcomma : comma.kind = .punctuation .comma) :
    ∃ p', ofTokens (before ++ [last] ++ comma :: sign :: after ++ [Token.endAt stop]) = .ok p' ∧
      Program.rewrite .unspanned p' = Program.rewrite .unspanned p := by
  subst heq
  obtain ⟨hallows, hisEnd, hclose, hsemicolon⟩ :=
    Part.allows_of_lastItem? (k := ⟨before ++ [last], sign, after, comma :: sign :: after⟩) hitem
      hsign
  have hsplit : before ++ [last] ++ sign :: after = before ++ last :: sign :: after :=
    (List.append_cons before last (sign :: after)).symm
  obtain ⟨howns, hends⟩ := ha.owns_close hts horder hwide (Part.lists_of_lastItem? hitem) hclose
    hsplit hlast hsign
  have hkind' : ∀ t ∈ before ++ [last] ++ comma :: sign :: after, t.kind ≠ .eof := by
    intro t ht
    rcases List.mem_append.mp ht with hm | hm
    · exact hkind t (List.mem_append_left _ hm)
    · rcases List.mem_cons.mp hm with rfl | hm'
      · rw [hcomma]
        rintro ⟨⟩
      · exact hkind t (List.mem_append_right _ hm')
  exact ofTokens_spliced (Splice.fits_added hplain horder hisEnd hsemicolon hends hcomma) hkind
    hkind' hread (clears_of_owns hts horder hwide ha howns hallows)

end edits

/-- **Optional separators do not matter.**  From tokens without comments that make up a program the
    same program is made up, but for spans, if a semicolon that ends a declaration, a `return` or an
    expression is left out where nothing that follows would be taken for more of it, and if a comma
    is put in after the last item of a list. -/
theorem ofTokens_of_separatorEdit {source : String} {keep : Bool} {tokens tokens' : List Token}
    {p : Program} (hscan : scan source keep = .ok tokens)
    (hplain : ∀ t ∈ tokens, t.isComment = false) (hread : ofTokens tokens = .ok p)
    (hedit : p.SeparatorEdit tokens tokens') :
    ∃ p', ofTokens tokens' = .ok p' ∧
      Program.rewrite .unspanned p' = Program.rewrite .unspanned p := by
  obtain ⟨ts, hend, hkind, -⟩ := scan_eq_append hscan
  rw [hend] at hscan hread hplain
  have hplain' : ∀ t ∈ ts, t.isComment = false := fun t ht => hplain t (List.mem_append_left _ ht)
  have horder : InOrder ts := (inOrder_of_scan hscan).sublist (List.sublist_append_left ts _)
  have hwide : ∀ t ∈ ts, t.span.start < t.span.stop := fun t ht =>
    start_lt_stop_of_scan hscan t (List.mem_append_left _ ht) (hkind t ht)
  obtain ⟨us, hts, hthin⟩ := thinned_of_ofTokens hscan hread
  obtain rfl : us = ts := hthin.eq hplain'
  have hne : ∀ {t : Token} {j : Punctuation}, t.kind = .punctuation j →
      t ≠ Token.endAt (byteLength source.toList) := by
    rintro t j hj rfl
    cases hj
  cases hedit with
  | @semicolon before after sign following s hs htakes hsign hstop hexpr hbare =>
    obtain ⟨rest, heq, hrest⟩ := exists_rest_of_concat hend (hne hsign)
    rw [hrest, ← List.append_assoc]
    exact ofTokens_dropped hts hplain' horder hwide hkind hread hs htakes heq hsign hstop
      (by rw [← hrest]; rfl) hexpr hbare
  | @comma before after last sign comma a item close ha hitem hlast hsign hcomma =>
    rw [List.append_cons] at hend
    obtain ⟨rest, heq, rfl⟩ := exists_rest_of_concat hend (hne hsign)
    have hjoined : ∀ u : Token, before ++ [last] ++ comma :: sign :: rest ++ [u] =
        before ++ [last] ++ comma :: sign :: (rest ++ [u]) :=
      fun u => List.append_assoc _ (comma :: sign :: rest) [u]
    rw [List.append_cons before last, ← hjoined]
    exact ofTokens_added hts hplain' horder hwide hkind hread ha hitem heq hlast hsign hcomma

/-- The tokens of `f(a);b`. -/
def twoLines : List Token :=
  [⟨.ident, "f", ⟨0, 1⟩⟩, ⟨.punctuation .lParen, "(", ⟨1, 2⟩⟩, ⟨.ident, "a", ⟨2, 3⟩⟩,
    ⟨.punctuation .rParen, ")", ⟨3, 4⟩⟩, ⟨.punctuation .semicolon, ";", ⟨4, 5⟩⟩,
    ⟨.ident, "b", ⟨5, 6⟩⟩, Token.endAt 6]

/-- The semicolon may be left out, and a comma put in before the parenthesis is closed. -/
theorem ofTokens_of_separatorEdit_twoLines : ∃ p, scan "f(a);b" false = .ok twoLines ∧
    (∀ t ∈ twoLines, t.isComment = false) ∧ ofTokens twoLines = .ok p ∧
    (p.SeparatorEdit twoLines (twoLines.eraseIdx 4) ∧ ∃ p', ofTokens (twoLines.eraseIdx 4) = .ok p' ∧
      Program.rewrite .unspanned p' = Program.rewrite .unspanned p) ∧
    ∀ comma : Token, comma.kind = .punctuation .comma →
      p.SeparatorEdit twoLines (twoLines.insertIdx 3 comma) ∧
        ∃ p', ofTokens (twoLines.insertIdx 3 comma) = .ok p' ∧
          Program.rewrite .unspanned p' = Program.rewrite .unspanned p := by
  have hscan : scan "f(a);b" false = .ok twoLines := by decide +kernel
  have hplain : ∀ t ∈ twoLines, t.isComment = false := by decide
  -- the first statement and its list, as far as the two signs depend on them
  have hfirst : ((ofTokens twoLines).toOption.bind (·.head?)).map (fun s =>
      (s.takesSemicolon, s.endsInExpression, s.span.stop,
        (s.parts.head?.bind Part.lastItem?).map fun x => (x.1.span.stop, x.2))) =
      some (true, true, 5, some (3, .rParen)) := by decide +kernel
  cases hread : ofTokens twoLines with
  | error e =>
    rw [hread] at hfirst
    cases hfirst
  | ok p =>
    rw [hread] at hfirst
    obtain ⟨s, hs, heq⟩ := Option.map_eq_some_iff.mp hfirst
    obtain ⟨htakes, hends, hstop, hlist⟩ := by simpa only [Prod.mk.injEq] using heq
    obtain ⟨⟨item, close⟩, hitem, hclose⟩ := Option.map_eq_some_iff.mp hlist
    obtain ⟨a, ha, hlast⟩ := Option.bind_eq_some_iff.mp hitem
    obtain ⟨hitemStop, rfl⟩ := Prod.mk.inj hclose
    have hpart : p.HasPart (.statement s) := .statement (List.mem_of_head? hs)
    have hdropped : p.SeparatorEdit twoLines (twoLines.eraseIdx 4) :=
      @SeparatorEdit.semicolon p (twoLines.take 4) _ _ _ s hpart htakes rfl hstop.symm
        (fun _ => by decide) (by rintro sp rfl; cases hends)
    have hadded : ∀ comma : Token, comma.kind = .punctuation .comma →
        p.SeparatorEdit twoLines (twoLines.insertIdx 3 comma) := fun comma hcomma =>
      @SeparatorEdit.comma p (twoLines.take 2) _ _ _ _ _ _ _ (.child hpart (List.mem_of_head? ha))
        hlast hitemStop.symm rfl hcomma
    exact ⟨p, hscan, hplain, rfl,
      ⟨hdropped, ofTokens_of_separatorEdit hscan hplain hread hdropped⟩, fun comma hcomma =>
        ⟨hadded comma hcomma, ofTokens_of_separatorEdit hscan hplain hread (hadded comma hcomma)⟩⟩

end Program

end CurlyScript
