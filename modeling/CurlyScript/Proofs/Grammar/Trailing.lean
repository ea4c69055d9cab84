import CurlyScript.Proofs.Grammar.Nested

/-
  With what nodes end, and what comes after a statement.

  An expression ends with a name, a literal, a closing sign or a step, whatever it is written with.
  After a statement of a program another one begins, or a block is closed, or an `else` comes, or
  nothing (`Program.HasPart.exists_trailed`): a statement stands last in the statement that it is a
  part of, unless what it is a part of goes on with one of these.
-/

namespace CurlyScript

open Writing

/-- Whether a class can be that of the last token of an expression. -/
def TokenKind.endsExpression : TokenKind → Bool
  | ident | number | string => true
  | keyword k => k.category = .literal
  | punctuation p => p = .rParen || p = .rBracket || p = .rBrace
  | operator o => o.update?.isSome
  | _ => false

/-- Whether a class can be that of the token after a statement. -/
def TokenKind.trailsStatement (k : TokenKind) : Bool :=
  k.beginsStatement || k == .punctuation .rBrace || k == .keyword .else_

/-! ## Where writings end -/

namespace Writing

/-- Every writing ends with a token of such a class. -/
def EndsWith (q : TokenKind → Prop) (l : Language Token) : Prop :=
  ∀ ts ∈ l, ∃ us t, ts = us ++ [t] ∧ q t.kind

namespace EndsWith

variable {l m : Language Token} {q r : TokenKind → Prop}

theorem mono (h : EndsWith q l) (hqr : ∀ k, q k → r k) : EndsWith r l := by
  intro ts hts
  obtain ⟨us, t, rfl, ht⟩ := h ts hts
  exact ⟨us, t, rfl, hqr t.kind ht⟩

theorem mul (h : EndsWith q m) (l : Language Token) : EndsWith q (l * m) := by
  intro ts hts
  obtain ⟨as, -, bs, hbs, rfl⟩ := Language.mem_mul.mp hts
  obtain ⟨us, t, rfl, ht⟩ := h bs hbs
  exact ⟨as ++ us, t, (List.append_assoc as us [t]).symm, ht⟩

theorem spanning (h : EndsWith q l) (s : Span) : EndsWith q (spanning s l) :=
  fun ts hts => h ts hts.1

theorem token {f : Token → Prop} (h : ∀ t, f t → q t.kind) : EndsWith q (token f) := by
  rintro ts ⟨t, ht, rfl⟩
  exact ⟨[], t, rfl, h t ht⟩

theorem one {k : TokenKind} (h : q k) : EndsWith q (one k) :=
  token fun t ht => by rw [show t.kind = k from ht]; exact h

end EndsWith

end Writing

theorem Name.endsWith (n : Name) : EndsWith (·.endsExpression = true) (Writing.name n) := by
  refine .token fun t ht => ?_
  rw [ht.1]
  rfl

theorem Literal.IsValueOf.endsExpression {t : Token} {value : Literal} (h : value.IsValueOf t) :
    t.kind.endsExpression = true := by
  cases value with
  | number x => rw [h.1]; rfl
  | string s => rw [h.1]; rfl
  | bool b => cases b <;> (rw [show t.kind = _ from h]; rfl)
  | null => rw [show t.kind = _ from h]; rfl
  | undefined => rw [show t.kind = _ from h]; rfl

/-- An expression is written with a token last with which one can end. -/
theorem Expr.endsWith (e : Expr) : EndsWith (·.endsExpression = true) e.writings := by
  cases e with
  | ident s n => exact Name.endsWith ⟨n, s⟩
  | literal _ _ => exact .token fun _ ht => ht.1.endsExpression
  | binary _ _ _ right => exact (right.endsWith.mul _).spanning _
  | assign _ _ _ value => exact (value.endsWith.mul _).spanning _
  | update _ op isPrefix argument =>
    cases isPrefix with
    | true => exact (argument.endsWith.mul _).spanning _
    | false =>
      refine ((EndsWith.one ?_).mul _).spanning _
      cases op <;> rfl
  | member _ _ property => exact (property.endsWith.mul _).spanning _
  | _ =>
    refine ((EndsWith.one ?_).mul _).spanning _
    rfl

/-- What a semicolon may end: a declaration, a `return` and an expression. -/
def Statement.takesSemicolon : Statement → Bool
  | .decl _ | .ret _ _ | .expr _ _ => true
  | _ => false

/-- What such a statement is written with before its semicolon ends with no semicolon. -/
theorem Statement.exists_before_semicolon {s : Statement} (hs : s.takesSemicolon = true) :
    ∃ l, s.writings = spanning s.span (l * semicolon) ∧ Holds l s.parts ∧
      EndsWith (· ≠ .punctuation .semicolon) l := by
  have hexpr : ∀ e : Expr, EndsWith (· ≠ .punctuation .semicolon) e.writings := fun e =>
    e.endsWith.mono (by rintro _ hk rfl; exact Bool.noConfusion hk)
  cases s with
  | decl d =>
    obtain ⟨sp, kind, n, init⟩ := d
    refine ⟨_, rfl, ((Holds.part (.name n)).before _).mul (.option _ init), ?_⟩
    cases init with
    | none =>
      rw [optionWritings, mul_one]
      exact (n.endsWith.mono (by rintro _ hk rfl; exact Bool.noConfusion hk)).mul _
    | some e => exact ((hexpr e).mul _).mul _
  | ret sp argument =>
    refine ⟨_, rfl, (Holds.option 1 argument).before _, ?_⟩
    cases argument with
    | none =>
      rw [optionWritings, mul_one]
      exact .one (by rintro ⟨⟩)
    | some e => exact ((hexpr e).mul _).mul _
  | expr sp e => exact ⟨_, rfl, .part (.expr e), hexpr e⟩
  | _ => exact Bool.noConfusion hs

/-! ## What comes after a statement -/

/-- After a statement among others the next one begins. -/
theorem exists_trailed_of_mem {ss : List Statement} {s : Statement} (hs : s ∈ ss) :
    ∀ ts ∈ statementsWritings ss, ∃ before us after, ts = before ++ us ++ after ∧
      us ∈ s.writings ∧ ∀ t ∈ after.head?, t.kind.beginsStatement = true := by
  induction ss with
  | nil => exact absurd hs List.not_mem_nil
  | cons s' ss ih =>
    intro ts hts
    obtain ⟨us, hus, vs, hvs, rfl⟩ := Language.mem_mul.mp hts
    rcases List.mem_cons.mp hs with rfl | hm
    · refine ⟨[], us, vs, rfl, hus, fun t ht => ?_⟩
      cases ss with
      | nil =>
        obtain rfl : vs = [] := hvs
        cases ht
      | cons next rest =>
        obtain ⟨more, rfl⟩ := List.head?_eq_some_iff.mp ht
        exact (next.beginsWith.mul _).head hvs
    · obtain ⟨before, us', after, rfl, hus', hafter⟩ := ih hm vs hvs
      refine ⟨us ++ before, us', after, ?_, hus', hafter⟩
      simp only [List.append_assoc]

/-- The lines of a block, with what opens it and the brace that closes it. -/
theorem exists_trailed_of_block {ss : List Statement} {s : Statement} (hs : s ∈ ss)
    {l : Language Token} : ∀ ts ∈ l * statementsWritings ss * punctuation .rBrace,
      ∃ before us after, ts = before ++ us ++ after ∧ us ∈ s.writings ∧ after ≠ [] ∧
        ∀ t ∈ after.head?, t.kind.trailsStatement = true := by
  intro ts hts
  obtain ⟨_, hfront, _, ⟨u, hu, rfl⟩, rfl⟩ := Language.mem_mul.mp hts
  obtain ⟨front, -, lines, hlines, rfl⟩ := Language.mem_mul.mp hfront
  obtain ⟨before, us, after, rfl, hus, hafter⟩ := exists_trailed_of_mem hs lines hlines
  refine ⟨front ++ before, us, after ++ [u], by simp only [List.append_assoc], hus,
    List.append_ne_nil_of_right_ne_nil after (List.cons_ne_nil u []), fun t ht => ?_⟩
  cases after with
  | nil =>
    obtain rfl : u = t := by simpa using ht
    rw [show u.kind = _ from hu]
    rfl
  | cons v vs =>
    have hbegins := hafter t ht
    rw [TokenKind.trailsStatement, hbegins]
    rfl

namespace Part

/-- After a statement that is a part comes what goes on so, or nothing; and only in a statement
    nothing. -/
theorem exists_trailed {a : Part} {s : Statement} (hs : .statement s ∈ a.children) :
    ∀ ts ∈ a.writings, ∃ before us after, ts = before ++ us ++ after ∧ us ∈ s.writings ∧
      (after = [] → ∃ s', a = .statement s') ∧
      ∀ t ∈ after.head?, t.kind.trailsStatement = true := by
  have hblock : ∀ (ss : List Statement) {l : Language Token} {sp : Span} {a : Part}, s ∈ ss →
      a.writings = spanning sp (l * statementsWritings ss * punctuation .rBrace) →
      ∀ ts ∈ a.writings, ∃ before us after, ts = before ++ us ++ after ∧ us ∈ s.writings ∧
        (after = [] → ∃ s', a = .statement s') ∧
        ∀ t ∈ after.head?, t.kind.trailsStatement = true := by
    intro ss l sp a hm ha ts hts
    rw [ha] at hts
    obtain ⟨before, us, after, heq, hus, hne, hafter⟩ := exists_trailed_of_block hm ts hts.1
    exact ⟨before, us, after, heq, hus, fun hnil => absurd hnil hne, hafter⟩
  cases a with
  | name n => exact absurd hs List.not_mem_nil
  | decl d =>
    obtain ⟨sp, kind, n, init⟩ := d
    simp [Part.children, Decl.parts] at hs
  | expr e =>
    cases e with
    | arrow sp params body =>
      refine hblock body ?_ rfl
      simpa [Part.children, Expr.parts] using hs
    | object sp properties =>
      obtain ⟨p, -, hp⟩ := List.mem_flatMap.mp hs
      obtain ⟨key, value⟩ := p
      simp [Property.parts] at hp
    | _ => simp [Part.children, Expr.parts] at hs
  | statement s₀ =>
    cases s₀ with
    | function sp n params body =>
      refine hblock body ?_ rfl
      simpa [Part.children, Statement.parts] using hs
    | block sp body =>
      refine hblock body ?_ rfl
      simpa [Part.children, Statement.parts] using hs
    | cond sp test consequent alternate =>
      intro ts hts
      obtain ⟨_, hfront, alts, halts, rfl⟩ := Language.mem_mul.mp hts.1
      obtain ⟨front, -, us, hus, rfl⟩ := Language.mem_mul.mp hfront
      have hchild : s = consequent ∨ alternate = some s := by
        simpa [Part.children, Statement.parts, eq_comm] using hs
      cases alternate with
      | none =>
        obtain rfl : alts = [] := halts
        obtain rfl : s = consequent := hchild.resolve_right (by rintro ⟨⟩)
        exact ⟨front, us, [], rfl, hus, fun _ => ⟨_, rfl⟩, by rintro _ ⟨⟩⟩
      | some s' =>
        obtain ⟨_, ⟨t, ht, rfl⟩, vs, hvs, rfl⟩ := Language.mem_mul.mp halts
        rcases hchild with rfl | hs'
        · refine ⟨front, us, [t] ++ vs, rfl, hus, fun _ => ⟨_, rfl⟩, fun u hu => ?_⟩
          obtain rfl : t = u := by simpa using hu
          rw [show t.kind = _ from ht]
          rfl
        · obtain rfl := Option.some.inj hs'
          refine ⟨front ++ us ++ [t], vs, [], ?_, hvs, fun _ => ⟨_, rfl⟩, by rintro _ ⟨⟩⟩
          simp only [List.append_assoc, List.append_nil]
    | loop sp init test update body =>
      intro ts hts
      obtain ⟨front, -, us, hus, rfl⟩ := Language.mem_mul.mp hts.1
      obtain rfl : s = body := by
        rcases init with _ | (d | e) <;>
          simpa [Part.children, Statement.parts, LoopInit.part] using hs
      exact ⟨front, us, [], (List.append_nil _).symm, hus, fun _ => ⟨_, rfl⟩, by rintro _ ⟨⟩⟩
    | decl d =>
      obtain ⟨sp, kind, n, init⟩ := d
      simp [Part.children, Statement.parts, Decl.parts] at hs
    | _ => simp [Part.children, Statement.parts] at hs

end Part

namespace Program

variable {p : Program}

/-- After a statement of a program comes one of the tokens that may come after it, or nothing. -/
theorem HasPart.exists_trailed {ts : List Token} (hts : ts ∈ p.writings) {a : Part}
    (h : p.HasPart a) : ∃ before us after, ts = before ++ us ++ after ∧ us ∈ a.writings ∧
      ((∃ s, a = .statement s) → ∀ t ∈ after.head?, t.kind.trailsStatement = true) := by
  induction h with
  | @statement s hs =>
    obtain ⟨before, us, after, heq, hus, hafter⟩ := exists_trailed_of_mem hs ts hts
    refine ⟨before, us, after, heq, hus, fun _ t ht => ?_⟩
    rw [TokenKind.trailsStatement, hafter t ht]
    rfl
  | @child a b _ hb ih =>
    obtain ⟨before, us, after, rfl, hus, hafter⟩ := ih
    by_cases hstatement : ∃ s, b = .statement s
    · obtain ⟨s, rfl⟩ := hstatement
      obtain ⟨before', us', after', rfl, hus', hnil, htrails⟩ := Part.exists_trailed hb us hus
      refine ⟨before ++ before', us', after' ++ after, by simp only [List.append_assoc], hus',
        fun _ t ht => ?_⟩
      cases after' with
      | nil => exact hafter (hnil rfl) t ht
      | cons u vs => exact htrails t ht
    · obtain ⟨before', us', after', rfl, hus'⟩ := (a.holds_children us hus).exists_of_mem hb
      exact ⟨before ++ before', us', after' ++ after, by simp only [List.append_assoc], hus',
        fun hs => absurd hs hstatement⟩

end Program

end CurlyScript
