import CurlyScript.Grammar.Program
import CurlyScript.Proofs.Grammar.Grouped
import CurlyScript.Proofs.Grammar.Writable

/-
  Whatever is read is written with the tokens that were taken.

  Each rule is shown to pass a writing of what it gives if the rules for fewer tokens do
  (`Rules.Derives`), and the knot is tied by induction on the number of tokens.

  A tree has writings whether or not its operands would need parentheses; that they need none is
  another matter (`Grammar.rules_clear`).
-/

namespace CurlyScript

/-- Rules that give what is written with the tokens that they take. -/
structure Rules.Derives {n : Nat} (r : Rules n) : Prop where
  expression : ∀ c h, c.Tidy → Gives (fun e d => c.Passes e.writings d) (r.expression c h)
  binary : ∀ least c h, c.Tidy → Gives (fun e d => c.Passes e.writings d) (r.binary least c h)
  unary : ∀ c h, c.Tidy → Gives (fun e d => c.Passes e.writings d) (r.unary c h)
  statement : ∀ c h, c.Tidy → Gives (fun s d => c.Passes s.writings d) (r.statement c h)

theorem Rules.Derives.restrict {m n : Nat} {r : Rules n} (hr : r.Derives) (h : m ≤ n) :
    (r.restrict h).Derives where
  expression c hc := hr.expression c (Nat.lt_of_lt_of_le hc h)
  binary least c hc := hr.binary least c (Nat.lt_of_lt_of_le hc h)
  unary c hc := hr.unary c (Nat.lt_of_lt_of_le hc h)
  statement c hc := hr.statement c (Nat.lt_of_lt_of_le hc h)

open Writing

/-! ## Writings of lists -/

theorem exprsWritings_eq_map (es : List Expr) : exprsWritings es = es.map Expr.writings := by
  induction es with
  | nil => rfl
  | cons e es ih => rw [exprsWritings, ih, List.map_cons]

/-- The writings of one entry of an object. -/
def Property.writings : Property → Language Token
  | .mk key value => Writing.name key * punctuation .colon * value.writings

theorem propertiesWritings_eq_map (ps : List Property) :
    propertiesWritings ps = ps.map Property.writings := by
  induction ps with
  | nil => rfl
  | cons p ps ih =>
    cases p
    rw [propertiesWritings, ih, List.map_cons, Property.writings]

/-- An operator token is of the class of its operator. -/
theorem TokenKind.eq_of_binary? {k : TokenKind} {op : BinaryOp} (h : k.binary? = some op) :
    k = .operator op.operator := by
  cases k with
  | operator o => rw [Operator.binary?_eq_some_iff.mp h]
  | _ => exact nomatch h

theorem TokenKind.eq_of_assign? {k : TokenKind} {op : AssignOp} (h : k.assign? = some op) :
    k = .operator op.operator := by
  cases k with
  | operator o => rw [Operator.assign?_eq_some_iff.mp h]
  | _ => exact nomatch h

theorem TokenKind.eq_of_update? {k : TokenKind} {op : UpdateOp} (h : k.update? = some op) :
    k = .operator op.operator := by
  cases k with
  | operator o => rw [Operator.update?_eq_some_iff.mp h]
  | _ => exact nomatch h

theorem TokenKind.eq_of_decl? {k : TokenKind} {kind : DeclKind} (h : k.decl? = some kind) :
    k = .keyword kind.keyword := by
  cases k with
  | keyword w =>
    have hw := List.find?_some (p := fun d : DeclKind => decide (d.keyword = w)) h
    rw [of_decide_eq_true hw]
  | _ => exact nomatch h

theorem Literal.isValueOf_of_literal? {t : Token} {value : Literal}
    (h : Grammar.literal? t = some value) : value.IsValueOf t := by
  unfold Grammar.literal? at h
  split at h
  · rename_i hk
    obtain ⟨x, hx, rfl⟩ := Option.map_eq_some_iff.mp h
    exact ⟨hk, hx⟩
  · rename_i hk
    rw [← Option.some.inj h]
    exact ⟨hk, rfl⟩
  all_goals first
    | (rw [← Option.some.inj h]; assumption)
    | exact nomatch h

namespace Grammar

variable {n : Nat} {r : Rules n}

/-! ## Operands -/

theorem gives_property (hr : r.Derives) (c : Cursor) (h : c.size < n) (hc : c.Tidy) :
    Gives (fun p d => c.Passes p.writings d) (property r c h) := by
  refine (gives_name c).bind fun key d hd hkey => ?_
  refine (d.gives_expect (.punctuation .colon)).bind fun _ e he hcolon => ?_
  have hopened := hkey.trans hcolon
  refine (hr.expression e _ (hopened.tidy hc)).bind fun value f hf hvalue => ?_
  refine .ok ?_ _
  exact hopened.trans hvalue

theorem gives_element (hr : r.Derives) (c : Cursor) (h : c.size < n) (hc : c.Tidy) :
    Gives (fun p d => c.Passes p.2.writings d) (element r c h) :=
  (hr.expression c h hc).map fun _ _ he => he

/-- Elements that are taken for parameters are written like them. -/
theorem map_writings_of_mapM_parameter {ps : List (TokenKind × Expr)} {ss : List Name}
    (h : ps.mapM parameter = .ok ss) : ps.map (·.2.writings) = ss.map Writing.name := by
  rw [← Function.comp_def Expr.writings, ← List.map_map, map_snd_of_mapM_parameter h, List.map_map]
  rfl

theorem gives_arrowStatement (hr : r.Derives) (c : Cursor) (h : c.size < n) (hc : c.Tidy) :
    Gives (fun s d => c.Passes s.writings d) (arrowStatement r c h) := by
  rw [arrowStatement]
  split
  · exact hr.statement c h hc
  · refine (hr.expression c h hc).bind fun e d hd he => ?_
    refine .ok ?_ _
    exact ((he.opens hc e.begins).trans (.past d _)).spanning

theorem gives_groupOrArrow (hr : r.Derives) {c₀ : Cursor} (c : Cursor) (h : c.size < n)
    (h₀ : c₀.Opens (punctuation .lParen) c) :
    Gives (fun e d => c₀.Passes e.writings d) (groupOrArrow r c₀.start c h) := by
  refine (gives_delimited .rParen (gives_element hr) false c h h₀.tidy).bind ?_
  rintro ⟨elements, comma⟩ d hd ⟨hlisted, -⟩
  dsimp only
  split
  · rename_i t e he harrow
    refine .check fun params hparams => ?_
    refine (e.gives_expect (.punctuation .lBrace)).bind fun _ f hf hbrace => ?_
    -- the list was one of parameters, since each element is written like one
    have hopened : c₀.Opens (Writing.params params * punctuation .fatArrow * punctuation .lBrace)
        f := by
      rw [Writing.params, ← map_writings_of_mapM_parameter hparams]
      exact ((opens_separated h₀ hlisted).trans (.accept? harrow)).trans hbrace
    refine (gives_untilBrace (gives_arrowStatement hr) f _ hopened.tidy).bind ?_
    refine fun body g hg hbody => .ok ?_ _
    exact (hopened.trans_mul hbody).spanning
  · split
    · refine .ok ?_ _
      exact (h₀.trans_mul hlisted).spanning
    · exact .error _

theorem gives_primary (c : Cursor) {r : Rules c.size} (hr : r.Derives) (hc : c.Tidy) :
    Gives (fun e d => c.Passes e.writings d) (primary c r) := by
  rw [primary]
  split
  · exact .error _
  · rename_i t d hd hnext
    have hstart : t.span.start = c.start :=
      congrArg (·.span.start) (Cursor.token_of_next? hnext)
    have hsign : ∀ {k : TokenKind}, t.kind = k → c.Opens (one k) d := fun hk => .next? hnext hc hk
    split
    · rename_i hk
      refine .ok ?_ _
      exact .next? hnext ⟨hk, rfl, rfl⟩
    · rename_i hk
      rw [hstart]
      exact gives_groupOrArrow hr d hd (hsign hk)
    · rename_i hk
      rw [hstart]
      have hopened := hsign hk
      refine (gives_delimited .rBracket hr.expression false d hd hopened.tidy).bind ?_
      rintro ⟨elements, last⟩ e he ⟨hlisted, -⟩
      refine .ok ?_ _
      rw [Expr.writings, exprsWritings_eq_map]
      exact (opens_separated hopened hlisted).spanning
    · rename_i hk
      rw [hstart]
      have hopened := hsign hk
      refine (gives_delimited .rBrace (gives_property hr) false d hd hopened.tidy).bind ?_
      rintro ⟨properties, last⟩ e he ⟨hlisted, -⟩
      refine .ok ?_ _
      rw [Expr.writings, propertiesWritings_eq_map]
      exact (opens_separated hopened hlisted).spanning
    · split
      · rename_i value hvalue
        refine .ok ?_ _
        exact .next? hnext ⟨Literal.isValueOf_of_literal? hvalue, rfl⟩
      · exact .error _

/-! ## Signs after an operand and before it -/

theorem gives_postfixes (hr : r.Derives) (first : TokenKind) {c₀ : Cursor} (hc₀ : c₀.Tidy)
    (e : Expr) (c : Cursor) (h : c.size < n) (he : c₀.Passes e.writings c) :
    Gives (fun e d => c₀.Passes e.writings d) (postfixes r first c₀.start e c h) := by
  -- on the tokens left, for whatever was read so far
  induction hk : c.size using Nat.strongRecOn generalizing c e with
  | ind k ih =>
    have hopened := he.opens hc₀ e.begins
    rw [postfixes]
    split
    · refine .ok ?_ _
      exact he
    · rename_i t d hd hnext
      have hsign : ∀ {k : TokenKind}, t.kind = k → c₀.Opens (e.writings * one k) d :=
        fun hk => hopened.trans (.next? hnext hk)
      split
      · rename_i hk
        have hcall := hsign hk
        refine (gives_delimited .rParen (hr.restrict (Nat.le_of_lt h)).expression false d hd
          hcall.tidy).bind ?_
        rintro ⟨args, last⟩ f hf ⟨hlisted, -⟩
        refine ih f.size (by omega) _ f _ ?_ rfl
        rw [Expr.writings, exprsWritings_eq_map]
        exact (opens_separated hcall hlisted).spanning
      · rename_i hk
        refine (gives_name d).bind fun property f hf hname => ?_
        exact ih f.size (by omega) _ f _ ((hsign hk).trans hname).spanning rfl
      · rename_i hk
        have hstep := hsign hk
        refine (hr.expression d _ hstep.tidy).bind fun key f hf hkey => ?_
        refine (f.gives_expect (.punctuation .rBracket)).bind fun _ g hg hclose => ?_
        exact ih g.size (by omega) _ g _ ((hstep.trans hkey).trans hclose).spanning rfl
      · split
        · rename_i op hop
          refine .check fun _ _ => ?_
          exact ih d.size (by omega) _ d _ (hsign (TokenKind.eq_of_update? hop)).spanning rfl
        · refine .ok ?_ _
          exact he

theorem gives_unary (c : Cursor) {r : Rules c.size} (hr : r.Derives) (hc : c.Tidy) :
    Gives (fun e d => c.Passes e.writings d) (unary c r) := by
  rw [unary]
  split
  · rename_i op d hd hop
    have hpassed : c.Passes (operator op.operator) d :=
      .take? hop fun _ => TokenKind.eq_of_update?
    have hopened := hpassed.opens hc (begins_operator _)
    refine (hr.unary d _ hopened.tidy).bind fun argument e he hargument => ?_
    refine .check fun _ _ => ?_
    refine .ok ?_ _
    exact hopened.before hargument
  · refine (gives_primary c hr hc).bind fun e d hd he => ?_
    show Gives _ (postfixes r c.kind e.span.start e d hd)
    rw [he.start_eq hc]
    exact gives_postfixes hr c.kind hc e d hd he

/-! ## Operators between operands -/

theorem gives_operands (hr : r.Derives) {least : Nat} {c₀ : Cursor} (hc₀ : c₀.Tidy)
    (left : Expr) (c : Cursor) (h : c.size < n) (hl : c₀.Passes left.writings c) :
    Gives (fun e d => c₀.Passes e.writings d) (operands r least left c h) := by
  -- on the tokens left, for whatever was read on the left
  induction hk : c.size using Nat.strongRecOn generalizing c left with
  | ind k ih =>
    rw [operands]
    split
    · refine .ok ?_ _
      exact hl
    · rename_i op d hd hop
      have hpassed : c.Passes (operator op.operator) d :=
        .take? hop fun _ hk => TokenKind.eq_of_binary? (binaryFrom?_eq_some hk).1
      have hopened := hl.trans hpassed
      refine (hr.binary _ d _ (hopened.tidy hc₀)).bind fun right e he hright => ?_
      exact ih e.size (by omega) _ e _ ((hopened.trans hright).merge hc₀) rfl

theorem gives_binary {least : Nat} (c : Cursor) {r : Rules c.size} (hr : r.Derives)
    (hc : c.Tidy) : Gives (fun e d => c.Passes e.writings d) (binary least c r) := by
  refine (gives_unary c hr hc).bind fun left d hd hl => ?_
  exact gives_operands hr hc left d hd hl

theorem gives_expression (c : Cursor) {r : Rules c.size} (hr : r.Derives) (hc : c.Tidy) :
    Gives (fun e d => c.Passes e.writings d) (expression c r) := by
  refine (gives_binary c hr hc).bind fun target d hd ht => ?_
  dsimp only
  split
  · refine .ok ?_ _
    exact ht
  · rename_i op e he hop
    have hpassed : d.Passes (operator op.operator) e := .take? hop fun _ => TokenKind.eq_of_assign?
    have hopened := ht.trans hpassed
    refine .check fun _ _ => ?_
    refine (hr.expression e _ (hopened.tidy hc)).bind fun value f hf hvalue => ?_
    refine .ok ?_ _
    exact (hopened.trans hvalue).merge hc

/-! ## Statements -/

theorem gives_nested (hr : r.Derives) (c : Cursor) (h : c.size < n) (hc : c.Tidy) :
    Gives (fun s d => c.Passes s.writings d) (nested r c h) := by
  have hskip := Cursor.Passes.skipComments c
  refine (hr.statement c.skipComments _ (hskip.tidy hc)).bind fun s d hd hs => ?_
  have hpassed := hskip.trans hs
  rw [one_mul] at hpassed
  refine .ok ?_ _
  exact hpassed

theorem gives_declared (hr : r.Derives) (c : Cursor) (h : c.size < n) (hc : c.Tidy) :
    Gives (fun p d => c.Passes (Writing.name p.1 * optionWritings (operator .eq) p.2) d)
      (declared r c h) := by
  refine (gives_name c).bind fun s d hd hs => ?_
  dsimp only
  split
  · refine .ok ?_ _
    exact hs.trans (.refl d)
  · rename_i t e he heq
    have hsign : d.Passes (operator .eq) e := .accept? heq
    refine (hr.expression e _ ((hs.trans hsign).tidy hc)).bind fun init f hf hinit => ?_
    refine .ok ?_ _
    exact hs.trans (hsign.trans hinit)

theorem gives_clause (stop : Punctuation) (hr : r.Derives) (c : Cursor) (h : c.size < n)
    (hc : c.Tidy) :
    Gives (fun o d => c.Passes (optionWritings 1 o) d) (clause stop r c h) := by
  rw [clause]
  split
  · refine .ok ?_ _
    exact .refl c
  · refine (hr.expression c h hc).bind fun e d hd he => ?_
    refine .ok ?_ _
    exact (Cursor.Passes.refl c).trans he

/-- A declaration is written with its keyword and what was declared, and with what ends it. -/
theorem derived_decl {c₀ c d : Cursor} {kind : DeclKind} {s : Name} {init : Option Expr}
    {after : Language Token} (h₀ : c₀.Opens (keyword kind.keyword) c)
    (h : c.Passes (Writing.name s * optionWritings (operator .eq) init) d) {e : Cursor}
    (hafter : d.Passes after e) :
    c₀.Passes ((Decl.mk (e.spanFrom c₀.start) kind s init).writings after) e :=
  ((h₀.trans_mul h).trans hafter).spanning

theorem gives_loopInit (hr : r.Derives) (c : Cursor) (h : c.size < n) (hc : c.Tidy) :
    Gives (fun i d => c.Passes (loopInitWritings i) d) (loopInit r c h) := by
  rw [loopInit]
  split
  · rename_i kind d hd hkind
    have hpassed : c.Passes (keyword kind.keyword) d := .take? hkind fun _ => TokenKind.eq_of_decl?
    have hopened := hpassed.opens hc (begins_keyword _)
    refine (gives_declared hr d _ hopened.tidy).bind ?_
    rintro ⟨s, init⟩ e he hpassed
    refine .ok ?_ _
    exact derived_decl hopened hpassed (.refl e)
  · refine (gives_clause .semicolon hr c h hc).map fun o d ho => ?_
    cases o with
    | none => exact ho
    | some x =>
      rw [optionWritings, one_mul] at ho
      exact ho

theorem gives_function (hr : r.Derives) {c₀ : Cursor} (c : Cursor) (h : c.size < n)
    (h₀ : c₀.Opens (keyword .function) c) :
    Gives (fun s d => c₀.Passes s.writings d) (function r c₀.start c h) := by
  refine (gives_name c).bind fun s d hd hs => ?_
  refine (d.gives_expect (.punctuation .lParen)).bind fun _ e he hopen => ?_
  have hopened := h₀.trans hs
  refine (gives_delimited .rParen (n := n) (fun c _ _ => gives_name c) false e _
    (hopened.trans hopen).tidy).bind ?_
  rintro ⟨params, last⟩ f hf ⟨hlisted, -⟩
  refine (f.gives_expect (.punctuation .lBrace)).bind fun _ g hg hbrace => ?_
  have hhead : c₀.Opens (keyword .function * Writing.name s * Writing.params params *
      punctuation .lBrace) g := by
    rw [Writing.params, ← mul_assoc, ← mul_assoc]
    exact (opens_separated (hopened.trans hopen) hlisted).trans hbrace
  refine (gives_untilBrace hr.statement g _ hhead.tidy).bind fun body i hi hbody => ?_
  refine .ok ?_ _
  exact (hhead.trans_mul hbody).spanning

theorem gives_conditional (hr : r.Derives) {c₀ : Cursor} (c : Cursor) (h : c.size < n)
    (h₀ : c₀.Opens (keyword .if_) c) :
    Gives (fun s d => c₀.Passes s.writings d) (conditional r c₀.start c h) := by
  refine (c.gives_expect (.punctuation .lParen)).bind fun _ d hd hopen => ?_
  have hopened := h₀.trans hopen
  refine (hr.expression d _ hopened.tidy).bind fun test e he htest => ?_
  refine (e.gives_expect (.punctuation .rParen)).bind fun _ f hf hclose => ?_
  have hhead := (hopened.trans htest).trans hclose
  refine (gives_nested hr f _ hhead.tidy).bind fun consequent g hg hconsequent => ?_
  have hfirst := hhead.trans hconsequent
  dsimp only
  split
  · refine .ok ?_ _
    exact (hfirst.trans (.refl g)).spanning
  · rename_i t i hi helse
    have hsecond : g.Passes (keyword .else_) i := .accept? helse
    refine (gives_nested hr i _ (hfirst.trans hsecond).tidy).bind fun alternate j hj ha => ?_
    refine .ok ?_ _
    exact (hfirst.trans (hsecond.trans ha)).spanning

theorem gives_loop (hr : r.Derives) {c₀ : Cursor} (c : Cursor) (h : c.size < n)
    (h₀ : c₀.Opens (keyword .for_) c) : Gives (fun s d => c₀.Passes s.writings d) (loop r c₀.start c h) := by
  refine (c.gives_expect (.punctuation .lParen)).bind fun _ d hd hopen => ?_
  have hopened := h₀.trans hopen
  refine (gives_loopInit hr d _ hopened.tidy).bind fun init e he hinit => ?_
  refine (e.gives_expect (.punctuation .semicolon)).bind fun _ f hf hsign => ?_
  have hfirst := (hopened.trans hinit).trans hsign
  refine (gives_clause .semicolon hr f _ hfirst.tidy).bind fun test g hg htest => ?_
  refine (g.gives_expect (.punctuation .semicolon)).bind fun _ i hi hsign' => ?_
  have hsecond := (hfirst.trans htest).trans hsign'
  refine (gives_clause .rParen hr i _ hsecond.tidy).bind fun update j hj hupdate => ?_
  refine (j.gives_expect (.punctuation .rParen)).bind fun _ k hk hclose => ?_
  have hhead := (hsecond.trans hupdate).trans hclose
  refine (gives_nested hr k _ hhead.tidy).bind fun body l hl hbody => ?_
  refine .ok ?_ _
  exact (hhead.trans hbody).spanning

theorem gives_returning (hr : r.Derives) {c₀ : Cursor} (c : Cursor) (h : c.size < n)
    (h₀ : c₀.Opens (keyword .return_) c) :
    Gives (fun s d => c₀.Passes s.writings d) (returning r c₀.start c h) := by
  -- the value stands in one branch only, so what follows it is shown once for both
  have hend : ∀ {argument : Option Expr} {d : Cursor}
      (hd : (d.past (.punctuation .semicolon)).1.size < n),
      c.Passes (optionWritings 1 argument) d →
      Gives (n := n) (fun (s : Statement) d => c₀.Passes s.writings d)
        (.ok ⟨.ret ((d.past (.punctuation .semicolon)).1.spanFrom c₀.start) argument, _, hd⟩) := by
    intro argument d hd ha
    refine .ok ?_ hd
    exact ((h₀.trans ha).trans (.past d _)).spanning
  rw [returning]
  split
  · have hargument : Gives (n := n) (fun o d => c.Passes (optionWritings 1 o) d)
        ((r.expression c h).map fun s => ⟨some s.value, s.rest, Nat.lt_trans s.lt h⟩) :=
      (hr.expression c h h₀.tidy).map_step fun s hs => (Cursor.Passes.refl c).trans hs
    exact hargument.bind fun argument d hd ha => hend _ ha
  · exact hend _ (.refl c)

theorem gives_declaration (hr : r.Derives) (kind : DeclKind) {c₀ : Cursor} (c : Cursor)
    (h : c.size < n) (h₀ : c₀.Opens (keyword kind.keyword) c) :
    Gives (fun s d => c₀.Passes s.writings d) (declaration r c₀.start kind c h) := by
  refine (gives_declared hr c h h₀.tidy).bind ?_
  rintro ⟨s, init⟩ d hd hpassed
  refine .ok ?_ _
  exact derived_decl h₀ hpassed (.past d _)

theorem gives_expressionStatement (c : Cursor) {r : Rules c.size} (hr : r.Derives)
    (hc : c.Tidy) : Gives (fun s d => c.Passes s.writings d) (expressionStatement c r) := by
  refine (gives_expression c hr hc).bind fun x d hd hx => ?_
  refine .ok ?_ _
  exact ((hx.opens hc x.begins).trans (.past d _)).spanning

/-- A statement is written with the tokens that reading it takes. -/
theorem gives_statement (c : Cursor) {r : Rules c.size} (hr : r.Derives) (hc : c.Tidy) :
    Gives (fun s d => c.Passes s.writings d) (statement c r) := by
  rw [statement]
  split
  · rename_i t d hd hcomment
    refine .ok ?_ _
    rw [Cursor.comment?, Option.filter_eq_some_iff] at hcomment
    exact ⟨[t], ⟨t, ⟨beq_iff_eq.mp hcomment.2, rfl, rfl⟩, rfl⟩, .nextRaw? hcomment.1⟩
  · split
    · exact .error _
    · rename_i t d hd hnext
      have hstart : t.span.start = c.start :=
        congrArg (·.span.start) (Cursor.token_of_next? hnext)
      have hsign : ∀ {k : TokenKind}, t.kind = k → c.Opens (one k) d :=
        fun hk => .next? hnext hc hk
      rw [hstart]
      split
      · rename_i hk
        exact gives_declaration hr .const d hd (hsign hk)
      · rename_i hk
        exact gives_declaration hr .let_ d hd (hsign hk)
      · rename_i hk
        exact gives_declaration hr .var d hd (hsign hk)
      · rename_i hk
        exact gives_function hr d hd (hsign hk)
      · rename_i hk
        exact gives_returning hr d hd (hsign hk)
      · rename_i hk
        exact gives_conditional hr d hd (hsign hk)
      · rename_i hk
        exact gives_loop hr d hd (hsign hk)
      · rename_i hk
        have hopened := hsign hk
        refine (gives_untilBrace hr.statement d hd hopened.tidy).bind fun body e he hbody => ?_
        refine .ok ?_ _
        exact (hopened.trans_mul hbody).spanning
      · split
        · exact gives_expressionStatement c hr hc
        · exact .error _

/-! ## All rules -/

/-- All rules give what is written with the tokens that they take. -/
theorem rules_derive : ∀ n, (rules n).Derives
  | 0 => {
      expression := fun _ h => absurd h (Nat.not_lt_zero _)
      binary := fun _ _ h => absurd h (Nat.not_lt_zero _)
      unary := fun _ h => absurd h (Nat.not_lt_zero _)
      statement := fun _ h => absurd h (Nat.not_lt_zero _) }
  | n + 1 => {
      expression := fun c h =>
        gives_expression c ((rules_derive n).restrict (Nat.le_of_lt_succ h))
      binary := fun _ c h =>
        gives_binary c ((rules_derive n).restrict (Nat.le_of_lt_succ h))
      unary := fun c h => gives_unary c ((rules_derive n).restrict (Nat.le_of_lt_succ h))
      statement := fun c h =>
        gives_statement c ((rules_derive n).restrict (Nat.le_of_lt_succ h)) }

end Grammar

end CurlyScript
