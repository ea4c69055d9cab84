import CurlyScript.Grammar.Program
import CurlyScript.Proofs.Grammar.Yields
import CurlyScript.Proofs.Syntax.Printable

/-
  Whatever is read is writable.

  A tree that was read from a text has names, targets, numbers and comments such as a text can
  have, since each comes from a token (`Program.everywhere_of_ofSource`).  Only its numbers may be
  too large for any: a numeral of many digits denotes infinity.

  Each rule is shown to yield such trees if the rules for fewer tokens do (`Rules.Sound`), and the
  knot is tied by induction on the number of tokens.
-/

namespace CurlyScript

/-- A node that was read. -/
def Node.IsRead (n : Node) : Prop := n.isWritable Number.isCount = true

/-- A statement that was read at the cursor.  It is a comment only if one really comes next. -/
structure Statement.ReadAt (c : Cursor) (s : Statement) : Prop where
  everywhere : s.Everywhere Node.IsRead
  notComment : c.comment? = none → s.isComment = false
  arrowLine : c.comment?.isSome = true ∨ c.kind = .keyword .return_ → s.isArrowLine = true

/-- Rules that yield writable trees. -/
structure Rules.Sound {n : Nat} (r : Rules n) : Prop where
  expression : ∀ c h, c.Spelled → Yields (Expr.Everywhere Node.IsRead) (r.expression c h)
  binary : ∀ k c h, c.Spelled → Yields (Expr.Everywhere Node.IsRead) (r.binary k c h)
  unary : ∀ c h, c.Spelled → Yields (Expr.Everywhere Node.IsRead) (r.unary c h)
  statement : ∀ c h, c.Spelled → Yields (Statement.ReadAt c) (r.statement c h)

theorem Rules.Sound.line {n : Nat} {r : Rules n} (hr : r.Sound) (c : Cursor) (h : c.size < n)
    (hc : c.Spelled) : Yields (Statement.Everywhere Node.IsRead) (r.statement c h) :=
  (hr.statement c h hc).mono fun _ hs => hs.everywhere

theorem Rules.Sound.restrict {m n : Nat} {r : Rules n} (hr : r.Sound) (h : m ≤ n) :
    (r.restrict h).Sound where
  expression c hc := hr.expression c (Nat.lt_of_lt_of_le hc h)
  binary k c hc := hr.binary k c (Nat.lt_of_lt_of_le hc h)
  unary c hc := hr.unary c (Nat.lt_of_lt_of_le hc h)
  statement c hc := hr.statement c (Nat.lt_of_lt_of_le hc h)

namespace Grammar

variable {n : Nat} {r : Rules n}

/-! ## Operands -/

theorem isTarget_of_checkTarget {e : Expr} {first : TokenKind} {u : Unit}
    (h : checkTarget e first = .ok u) : e.isTarget = true := by
  cases e with
  | ident | member | index => rfl
  | _ => exact nomatch h

theorem yields_property (hr : r.Sound) (c : Cursor) (h : c.size < n) (hc : c.Spelled) :
    Yields (fun p => isName p.key.text = true ∧
      ∀ key value, p = .mk key value → value.Everywhere Node.IsRead) (property r c h) := by
  refine (yields_name hc).bind fun key d hd hkey hds => ?_
  refine (hds.expect (.punctuation .colon)).bind fun _ e he _ hes => ?_
  refine (hr.expression e _ hes).bind fun value f hf hvalue hfs => ?_
  refine .ok ⟨hkey, ?_⟩ hfs _
  rintro _ _ ⟨⟩
  exact hvalue

theorem yields_element (hr : r.Sound) (c : Cursor) (h : c.size < n) (hc : c.Spelled) :
    Yields (fun p => p.2.Everywhere Node.IsRead) (element r c h) :=
  (hr.expression c h hc).map fun _ he => he

/-- Elements that are taken for parameters are names, each an expression by itself. -/
theorem map_snd_of_mapM_parameter {ps : List (TokenKind × Expr)} {ss : List Name}
    (h : ps.mapM parameter = .ok ss) : ps.map Prod.snd = ss.map fun s => .ident s.span s.text := by
  induction ps generalizing ss with
  | nil =>
    rw [← Except.ok.inj h]
    rfl
  | cons p ps ih =>
    obtain ⟨first, e⟩ := p
    rw [List.mapM_cons] at h
    -- the check stops at the first element that is no name, so it has passed them all
    cases e with
    | ident sp name =>
      cases hrest : ps.mapM parameter with
      | error e => rw [hrest] at h; exact nomatch h
      | ok rest =>
        rw [hrest] at h
        rw [← Except.ok.inj h, List.map_cons, ih hrest]
        rfl
    | _ => exact nomatch h

theorem isName_of_mapM_parameter {ps : List (TokenKind × Expr)}
    (hp : ∀ p ∈ ps, p.2.Everywhere Node.IsRead) {ss : List Name}
    (h : ps.mapM parameter = .ok ss) : ∀ s ∈ ss, isName s.text = true := by
  intro s hs
  have hmem : Expr.ident s.span s.text ∈ ps.map Prod.snd := by
    rw [map_snd_of_mapM_parameter h]
    exact List.mem_map_of_mem hs
  obtain ⟨p, hmem, heq⟩ := List.mem_map.mp hmem
  have hread := hp p hmem
  rw [heq, Expr.everywhere_ident] at hread
  exact hread.2

/-- A line of an arrow function is of a shape that may stand there. -/
theorem yields_arrowStatement (hr : r.Sound) (c : Cursor) (h : c.size < n) (hc : c.Spelled) :
    Yields (fun s => s.Everywhere Node.IsRead ∧ s.isArrowLine = true) (arrowStatement r c h) := by
  rw [arrowStatement]
  split
  · rename_i hline
    intro s hs
    obtain ⟨hread, hrest⟩ := hr.statement c h hc s hs
    refine ⟨⟨hread.everywhere, hread.arrowLine ?_⟩, hrest⟩
    simpa using hline
  · refine (hr.expression c h hc).bind fun e d hd he hds => ?_
    have hfs := hds.past (.punctuation .semicolon)
    refine .ok ?_ hfs _
    exact ⟨Statement.everywhere_expr.mpr ⟨rfl, he⟩, rfl⟩

theorem yields_groupOrArrow (hr : r.Sound) (start : Nat) (c : Cursor) (h : c.size < n)
    (hc : c.Spelled) : Yields (Expr.Everywhere Node.IsRead) (groupOrArrow r start c h) := by
  refine (yields_delimited .rParen (yields_element hr) false c h hc).bind ?_
  rintro ⟨elements, comma⟩ d hd helements hds
  dsimp only
  split
  · rename_i t e he harrow
    have hes := (hds.accept? harrow).2
    -- only after the arrow are the elements checked for being names
    refine .check fun params hparams => ?_
    have hnames := isName_of_mapM_parameter helements hparams
    refine (hes.expect (.punctuation .lBrace)).bind fun _ f hf _ hfs => ?_
    refine (yields_untilBrace (yields_arrowStatement hr) f _ hfs).bind fun body g hg hbody hgs => ?_
    refine .ok ?_ hgs _
    refine Expr.everywhere_arrow.mpr ⟨rfl, ?_, fun s hs => (hbody s hs).1⟩
    show (params.all (fun p => isName p.text) && body.all Statement.isArrowLine) = true
    rw [Bool.and_eq_true, List.all_eq_true, List.all_eq_true]
    exact ⟨hnames, fun s hs => (hbody s hs).2⟩
  · split
    · refine .ok ?_ hds _
      exact Expr.everywhere_paren.mpr ⟨rfl, helements _ List.mem_cons_self⟩
    · exact .error _

theorem everywhere_literal_of_literal? {t : Token} (ht : t.terminal.isSpelled = true)
    {value : Literal} (h : literal? t = some value) :
    (Expr.literal t.span value).Everywhere Node.IsRead := by
  rw [Expr.everywhere_literal]
  obtain ⟨kind, lexeme, span⟩ := t
  unfold literal? at h
  split at h
  · rename_i hk
    obtain rfl : kind = .number := hk
    have hn : isNumeral lexeme.toList = true := ht
    obtain ⟨x, hx, hcount⟩ := Number.ofText?_isCount hn
    rw [String.ofList_toList] at hx
    rw [hx] at h
    rw [← Option.some.inj h]
    exact hcount
  all_goals first
    | (rw [← Option.some.inj h]; rfl)
    | exact nomatch h

theorem yields_primary (c : Cursor) {r : Rules c.size} (hr : r.Sound) (hc : c.Spelled) :
    Yields (Expr.Everywhere Node.IsRead) (primary c r) := by
  rw [primary]
  split
  · exact .error _
  · rename_i t d hd hnext
    obtain ⟨ht, hds⟩ := hc.next? hnext
    split
    · rename_i hk
      refine .ok ?_ hds _
      refine Expr.everywhere_ident.mpr ⟨rfl, ?_⟩
      obtain ⟨kind, lexeme, span⟩ := t
      obtain rfl : kind = .ident := hk
      exact ht
    · exact yields_groupOrArrow hr _ d hd hds
    · refine (yields_delimited .rBracket hr.expression false d hd hds).bind ?_
      rintro ⟨elements, last⟩ e he helements hes
      refine .ok ?_ hes _
      exact Expr.everywhere_array.mpr ⟨rfl, helements⟩
    · refine (yields_delimited .rBrace (yields_property hr) false d hd hds).bind ?_
      rintro ⟨properties, last⟩ e he hproperties hes
      refine .ok ?_ hes _
      refine Expr.everywhere_object.mpr ⟨?_, ?_⟩
      · exact List.all_eq_true.mpr fun p hp => (hproperties p hp).1
      · exact fun key value hm => (hproperties _ hm).2 key value rfl
    · split
      · rename_i value hvalue
        exact .ok (everywhere_literal_of_literal? ht hvalue) hds _
      · exact .error _

/-! ## Signs -/

theorem yields_postfixes (hr : r.Sound) (first : TokenKind) (start : Nat) (e : Expr) (c : Cursor)
    (h : c.size < n) (he : e.Everywhere Node.IsRead) (hc : c.Spelled) :
    Yields (Expr.Everywhere Node.IsRead) (postfixes r first start e c h) := by
  -- on the tokens left: every sign takes one, and the operand so far changes with it
  induction hk : c.size using Nat.strongRecOn generalizing c e with
  | ind k ih =>
    rw [postfixes]
    split
    · exact .ok he hc _
    · rename_i t d hd hnext
      obtain ⟨ht, hds⟩ := hc.next? hnext
      split
      · have hargs := (hr.restrict (Nat.le_of_lt h)).expression
        refine (yields_delimited .rParen hargs false d hd hds).bind ?_
        rintro ⟨args, last⟩ f hf hargs hfs
        exact ih f.size (by omega) _ f _ (Expr.everywhere_call.mpr ⟨rfl, he, hargs⟩) hfs rfl
      · refine (yields_name hds).bind fun property f hf hproperty hfs => ?_
        have hlt : f.size < d.size := hf
        exact ih f.size (by omega) _ f _ (Expr.everywhere_member.mpr ⟨hproperty, he⟩) hfs rfl
      · refine (hr.expression d _ hds).bind fun key f hf hkey hfs => ?_
        refine (hfs.expect (.punctuation .rBracket)).bind fun _ g hg _ hgs => ?_
        exact ih g.size (by omega) _ g _ (Expr.everywhere_index.mpr ⟨rfl, he, hkey⟩) hgs rfl
      · split
        · refine .check fun _ hcheck => ?_
          have htarget := isTarget_of_checkTarget hcheck
          exact ih d.size (by omega) _ d _ (Expr.everywhere_update.mpr ⟨htarget, he⟩) hds rfl
        · exact .ok he hc _

theorem yields_unary (c : Cursor) {r : Rules c.size} (hr : r.Sound) (hc : c.Spelled) :
    Yields (Expr.Everywhere Node.IsRead) (unary c r) := by
  rw [unary]
  split
  · rename_i op d hd hop
    refine (hr.unary d _ (hc.take? hop)).bind fun argument e he hargument hes => ?_
    refine .check fun _ hcheck => ?_
    refine .ok ?_ hes _
    exact Expr.everywhere_update.mpr ⟨isTarget_of_checkTarget hcheck, hargument⟩
  · refine (yields_primary c hr hc).bind fun e d hd he hds => ?_
    exact yields_postfixes hr _ _ e d hd he hds

/-! ## Operators -/

theorem yields_operands (hr : r.Sound) (least : Nat) (left : Expr) (c : Cursor) (h : c.size < n)
    (hl : left.Everywhere Node.IsRead) (hc : c.Spelled) :
    Yields (Expr.Everywhere Node.IsRead) (operands r least left c h) := by
  -- on the tokens left again, for whatever was read on the left
  induction hk : c.size using Nat.strongRecOn generalizing c left with
  | ind k ih =>
    rw [operands]
    split
    · exact .ok hl hc _
    · rename_i op d hd hop
      refine (hr.binary _ d _ (hc.take? hop)).bind fun right e he hright hes => ?_
      exact ih e.size (by omega) _ e _ (Expr.everywhere_binary.mpr ⟨rfl, hl, hright⟩) hes rfl

theorem yields_binary (least : Nat) (c : Cursor) {r : Rules c.size} (hr : r.Sound)
    (hc : c.Spelled) : Yields (Expr.Everywhere Node.IsRead) (binary least c r) := by
  refine (yields_unary c hr hc).bind fun left d hd hl hds => ?_
  exact yields_operands hr least left d hd hl hds

theorem yields_expression (c : Cursor) {r : Rules c.size} (hr : r.Sound) (hc : c.Spelled) :
    Yields (Expr.Everywhere Node.IsRead) (expression c r) := by
  refine (yields_binary 0 c hr hc).bind fun target d hd ht hds => ?_
  dsimp only
  split
  · exact .ok ht hds _
  · rename_i op e he hop
    refine .check fun _ hcheck => ?_
    refine (hr.expression e _ (hds.take? hop)).bind fun value f hf hv hfs => ?_
    refine .ok ?_ hfs _
    exact Expr.everywhere_assign.mpr ⟨isTarget_of_checkTarget hcheck, ht, hv⟩

/-! ## Statements -/

/-- The body of an `if` or a loop is no comment, since comments before it are skipped. -/
theorem yields_nested (hr : r.Sound) (c : Cursor) (h : c.size < n) (hc : c.Spelled) :
    Yields (fun s => s.Everywhere Node.IsRead ∧ s.isComment = false) (nested r c h) := by
  refine (hr.statement c.skipComments _ hc.skipComments).bind fun s d hd hs hds => ?_
  exact .ok ⟨hs.everywhere, hs.notComment c.comment?_skipComments⟩ hds _

theorem yields_declared (hr : r.Sound) (c : Cursor) (h : c.size < n) (hc : c.Spelled) :
    Yields (fun p => isName p.1.text = true ∧ ∀ e ∈ p.2, e.Everywhere Node.IsRead)
      (declared r c h) := by
  refine (yields_name hc).bind fun s d hd hs hds => ?_
  dsimp only
  split
  · exact .ok ⟨hs, by rintro _ ⟨⟩⟩ hds _
  · rename_i t e he heq
    refine (hr.expression e _ (hds.accept? heq).2).bind fun init f hf hinit hfs => ?_
    exact .ok ⟨hs, fun x hx => Option.some.inj hx ▸ hinit⟩ hfs _

theorem yields_clause (stop : Punctuation) (hr : r.Sound) (c : Cursor) (h : c.size < n)
    (hc : c.Spelled) :
    Yields (fun o => ∀ e ∈ o, e.Everywhere Node.IsRead) (clause stop r c h) := by
  rw [clause]
  split
  · exact .ok nofun hc _
  · refine (hr.expression c h hc).bind fun e d hd he hds => ?_
    exact .ok (fun x hx => Option.some.inj hx ▸ he) hds _

/-- What is read at the head of a loop. -/
def LoopInitRead (i : Option LoopInit) : Prop :=
  (∀ d, i = some (.decl d) → d.Everywhere Node.IsRead) ∧
    ∀ e, i = some (.expr e) → e.Everywhere Node.IsRead

theorem everywhere_decl {sp : Span} {kind : DeclKind} {s : Name} {init : Option Expr}
    (hs : isName s.text = true) (hi : ∀ e ∈ init, e.Everywhere Node.IsRead) :
    (Decl.mk sp kind s init).Everywhere Node.IsRead :=
  Decl.everywhere_mk.mpr ⟨hs, hi⟩

theorem yields_loopInit (hr : r.Sound) (c : Cursor) (h : c.size < n) (hc : c.Spelled) :
    Yields LoopInitRead (loopInit r c h) := by
  rw [loopInit]
  split
  · rename_i kind d hd hkind
    refine (yields_declared hr d _ (hc.take? hkind)).bind ?_
    rintro ⟨s, init⟩ e he ⟨hs, hinit⟩ hes
    refine .ok ⟨?_, nofun⟩ hes _
    rintro _ ⟨⟩
    exact everywhere_decl hs hinit
  · refine (yields_clause .semicolon hr c h hc).map fun o ho => ?_
    refine ⟨fun d hd => ?_, fun e he => ?_⟩
    · cases o <;> exact nomatch hd
    · cases o with
      | none => exact nomatch he
      | some x =>
        obtain rfl : x = e := LoopInit.expr.inj (Option.some.inj he)
        exact ho x rfl

theorem yields_function (hr : r.Sound) (start : Nat) (c : Cursor) (h : c.size < n)
    (hc : c.Spelled) :
    Yields (fun s => s.Everywhere Node.IsRead ∧ s.isComment = false) (function r start c h) := by
  refine (yields_name hc).bind fun s d hd hs hds => ?_
  refine (hds.expect (.punctuation .lParen)).bind fun _ e he _ hes => ?_
  have hname : ∀ (c : Cursor) (_ : c.size < n), c.Spelled →
      Yields (fun s => isName s.text = true) (name c) := fun _ _ hc => yields_name hc
  refine (yields_delimited .rParen hname false e _ hes).bind ?_
  rintro ⟨params, last⟩ f hf hparams hfs
  refine (hfs.expect (.punctuation .lBrace)).bind fun _ g hg _ hgs => ?_
  refine (yields_untilBrace hr.line g _ hgs).bind fun body i hi hbody his => ?_
  refine .ok ?_ his _
  refine ⟨Statement.everywhere_function.mpr ⟨rfl, ?_, hbody⟩, rfl⟩
  show (isName s.text && params.all fun p => isName p.text) = true
  rw [Bool.and_eq_true, List.all_eq_true]
  exact ⟨hs, hparams⟩

theorem yields_conditional (hr : r.Sound) (start : Nat) (c : Cursor) (h : c.size < n)
    (hc : c.Spelled) :
    Yields (fun s => s.Everywhere Node.IsRead ∧ s.isComment = false) (conditional r start c h) := by
  refine (hc.expect (.punctuation .lParen)).bind fun _ d hd _ hds => ?_
  refine (hr.expression d _ hds).bind fun test e he htest hes => ?_
  refine (hes.expect (.punctuation .rParen)).bind fun _ f hf _ hfs => ?_
  refine (yields_nested hr f _ hfs).bind fun consequent g hg hconsequent hgs => ?_
  dsimp only
  split
  · refine .ok ?_ hgs _
    refine ⟨Statement.everywhere_cond.mpr ⟨?_, htest, hconsequent.1, by rintro _ ⟨⟩⟩, rfl⟩
    show (!consequent.isComment && true) = true
    rw [hconsequent.2]
    rfl
  · rename_i t i hi helse
    refine (yields_nested hr i _ (hgs.accept? helse).2).bind fun alternate j hj ha hjs => ?_
    refine .ok ?_ hjs _
    refine ⟨Statement.everywhere_cond.mpr ⟨?_, htest, hconsequent.1, ?_⟩, rfl⟩
    · show (!consequent.isComment && !alternate.isComment) = true
      rw [hconsequent.2, ha.2]
      rfl
    · exact fun x hx => Option.some.inj hx ▸ ha.1

theorem yields_loop (hr : r.Sound) (start : Nat) (c : Cursor) (h : c.size < n) (hc : c.Spelled) :
    Yields (fun s => s.Everywhere Node.IsRead ∧ s.isComment = false) (loop r start c h) := by
  refine (hc.expect (.punctuation .lParen)).bind fun _ d hd _ hds => ?_
  refine (yields_loopInit hr d _ hds).bind fun init e he hinit hes => ?_
  refine (hes.expect (.punctuation .semicolon)).bind fun _ f hf _ hfs => ?_
  refine (yields_clause .semicolon hr f _ hfs).bind fun test g hg htest hgs => ?_
  refine (hgs.expect (.punctuation .semicolon)).bind fun _ i hi _ his => ?_
  refine (yields_clause .rParen hr i _ his).bind fun update j hj hupdate hjs => ?_
  refine (hjs.expect (.punctuation .rParen)).bind fun _ k hk _ hks => ?_
  refine (yields_nested hr k _ hks).bind fun body l hl hbody hls => ?_
  refine .ok ?_ hls _
  refine ⟨Statement.everywhere_loop.mpr ⟨?_, hinit, htest, hupdate, hbody.1⟩, rfl⟩
  show (!body.isComment) = true
  rw [hbody.2]
  rfl

theorem yields_returning (hr : r.Sound) (start : Nat) (c : Cursor) (h : c.size < n)
    (hc : c.Spelled) :
    Yields (fun s => s.Everywhere Node.IsRead ∧ s.shape = .returnStatement)
      (returning r start c h) := by
  -- the value stands in one branch only, so what follows it is shown once for both
  have hend : ∀ {argument : Option Expr} {d : Cursor}
      (hd : (d.past (.punctuation .semicolon)).1.size < n),
      (∀ e ∈ argument, e.Everywhere Node.IsRead) → d.Spelled →
      Yields (n := n) (fun s : Statement => s.Everywhere Node.IsRead ∧ s.shape = .returnStatement)
        (.ok ⟨.ret ((d.past (.punctuation .semicolon)).1.spanFrom start) argument, _, hd⟩) := by
    intro argument d hd ha hds
    exact .ok ⟨Statement.everywhere_ret.mpr ⟨rfl, ha⟩, rfl⟩ (hds.past _) hd
  rw [returning]
  split
  · have hargument : Yields (n := n) (fun o => ∀ e ∈ o, e.Everywhere Node.IsRead)
        ((r.expression c h).map fun s => ⟨some s.value, s.rest, Nat.lt_trans s.lt h⟩) := by
      intro s hs
      cases hx : r.expression c h with
      | error e => rw [hx] at hs; exact nomatch hs
      | ok a =>
        rw [hx] at hs
        rw [← Except.ok.inj hs]
        obtain ⟨he, hd⟩ := hr.expression c h hc a hx
        exact ⟨fun x hx => Option.some.inj hx ▸ he, hd⟩
    exact hargument.bind fun argument d hd ha hds => hend _ ha hds
  · exact hend _ nofun hc

theorem yields_declaration (hr : r.Sound) (start : Nat) (kind : DeclKind) (c : Cursor)
    (h : c.size < n) (hc : c.Spelled) :
    Yields (fun s => s.Everywhere Node.IsRead ∧ s.isComment = false)
      (declaration r start kind c h) := by
  refine (yields_declared hr c h hc).bind ?_
  rintro ⟨s, init⟩ d hd ⟨hs, hinit⟩ hds
  have hes := hds.past (.punctuation .semicolon)
  refine .ok ?_ hes _
  exact ⟨Statement.everywhere_decl.mpr ⟨rfl, everywhere_decl hs hinit⟩, rfl⟩

theorem yields_expressionStatement (c : Cursor) {r : Rules c.size} (hr : r.Sound)
    (hc : c.Spelled) :
    Yields (fun s => s.Everywhere Node.IsRead ∧ s.isComment = false) (expressionStatement c r) := by
  refine (yields_expression c hr hc).bind fun x d hd hx hds => ?_
  have hes := hds.past (.punctuation .semicolon)
  refine .ok ?_ hes _
  exact ⟨Statement.everywhere_expr.mpr ⟨rfl, hx⟩, rfl⟩

/-- Every statement is read at its cursor: where a comment comes next it is that comment, and a
    `return` where that word does. -/
theorem yields_statement (c : Cursor) {r : Rules c.size} (hr : r.Sound) (hc : c.Spelled) :
    Yields (Statement.ReadAt c) (statement c r) := by
  rw [statement]
  split
  · rename_i t d hd hcomment
    obtain ⟨ht, hds⟩ := hc.comment? hcomment
    refine .ok ⟨Statement.everywhere_comment.mpr ⟨rfl, ht⟩, ?_, fun _ => rfl⟩ hds _
    intro hnone
    rw [hcomment] at hnone
    cases hnone
  · rename_i hnone
    split
    · exact .error _
    · rename_i t d hd hnext
      obtain ⟨-, hds⟩ := hc.next? hnext
      have hkind : c.kind = t.kind := by rw [c.kind_eq, ← Cursor.kind_of_next? hnext]
      -- no comment comes next, so only the word `return` asks for the shape of a line
      have hread : ∀ {s : Statement}, t.kind ≠ .keyword .return_ →
          s.Everywhere Node.IsRead ∧ s.isComment = false → s.ReadAt c := by
        intro s hne hs
        refine ⟨hs.1, fun _ => hs.2, fun hline => ?_⟩
        rcases hline with hsome | hret
        · rw [hnone] at hsome
          exact Bool.noConfusion hsome
        · exact absurd (hkind.symm.trans hret) hne
      have hother : ∀ {k : TokenKind}, t.kind = k → k ≠ .keyword .return_ →
          t.kind ≠ .keyword .return_ := fun hk hne => hk ▸ hne
      split
      · rename_i hk
        exact (yields_declaration hr _ _ d hd hds).mono fun s => hread (hother hk (by decide))
      · rename_i hk
        exact (yields_declaration hr _ _ d hd hds).mono fun s => hread (hother hk (by decide))
      · rename_i hk
        exact (yields_declaration hr _ _ d hd hds).mono fun s => hread (hother hk (by decide))
      · rename_i hk
        exact (yields_function hr _ d hd hds).mono fun s => hread (hother hk (by decide))
      · refine (yields_returning hr _ d hd hds).mono fun s hs => ?_
        obtain ⟨hall, hshape⟩ := hs
        refine ⟨hall, fun _ => ?_, fun _ => ?_⟩
        · rw [Statement.isComment, hshape]
          rfl
        · rw [Statement.isArrowLine, hshape]
          rfl
      · rename_i hk
        exact (yields_conditional hr _ d hd hds).mono fun s => hread (hother hk (by decide))
      · rename_i hk
        exact (yields_loop hr _ d hd hds).mono fun s => hread (hother hk (by decide))
      · rename_i hk
        refine (yields_untilBrace hr.line d hd hds).bind fun body e he hbody hes => ?_
        refine .ok (hread (hother hk (by decide)) ?_) hes _
        exact ⟨Statement.everywhere_block.mpr ⟨rfl, rfl, hbody⟩, rfl⟩
      · rename_i hret _ _ _
        split
        · exact (yields_expressionStatement c hr hc).mono fun s => hread hret
        · exact .error _

/-! ## All rules -/

/-- All rules yield writable trees. -/
theorem rules_sound : ∀ n, (rules n).Sound
  | 0 => {
      expression := fun _ h => absurd h (Nat.not_lt_zero _)
      binary := fun _ _ h => absurd h (Nat.not_lt_zero _)
      unary := fun _ h => absurd h (Nat.not_lt_zero _)
      statement := fun _ h => absurd h (Nat.not_lt_zero _) }
  | n + 1 => {
      expression := fun c h => yields_expression c ((rules_sound n).restrict (Nat.le_of_lt_succ h))
      binary := fun k c h => yields_binary k c ((rules_sound n).restrict (Nat.le_of_lt_succ h))
      unary := fun c h => yields_unary c ((rules_sound n).restrict (Nat.le_of_lt_succ h))
      statement := fun c h => yields_statement c ((rules_sound n).restrict (Nat.le_of_lt_succ h)) }

end Grammar

namespace Program

theorem Unrolls.everywhere {c : Cursor} {p : Program} (h : Unrolls c p) (hc : c.Spelled) :
    p.Everywhere Node.IsRead := by
  rw [Program.everywhere_iff]
  induction h with
  | ended _ => exact fun _ hs => absurd hs List.not_mem_nil
  | more hx _ ih =>
    obtain ⟨hs, hd⟩ := Grammar.yields_statement _ (Grammar.rules_sound _) hc _ hx
    exact List.forall_mem_cons.mpr ⟨hs.everywhere, ih hd⟩

/-- The tokens of a text are spelled, but for its end. -/
theorem spelled_ofTokens {source : String} {keep : Bool} {tokens : List Token}
    (h : scan source keep = .ok tokens) : (Cursor.ofTokens tokens).Spelled := by
  obtain ⟨ts, before, hscans, rfl, hmap⟩ := scans_of_scan h
  intro t ht
  have ht' : t ∈ (before ++ [Token.endAt (byteLength source.toList)]).takeWhile
    fun t => decide (t.kind ≠ .eof) := ht
  have hmem := (List.takeWhile_prefix _).subset ht'
  have hkind : t.kind ≠ .eof := by
    have hp := List.mem_takeWhile_imp (p := fun t : Token => decide (t.kind ≠ .eof)) ht'
    exact of_decide_eq_true hp
  -- the end of the text has no spelling, but the cursor stops before it
  rcases List.mem_append.mp hmem with hbefore | hend
  · have hin : t.terminal ∈ ts.filter (Terminal.isKept keep) := by
      rw [← hmap]
      exact List.mem_map_of_mem hbefore
    exact hscans.isSpelled _ (List.mem_filter.mp hin).1
  · rw [List.mem_singleton.mp hend] at hkind
    exact absurd rfl hkind

/-- **Whatever is read is writable**, but for numbers too large for any. -/
theorem everywhere_of_ofSource {source : String} {keep : Bool} {p : Program}
    (h : ofSource source keep = .ok p) : p.Everywhere Node.IsRead := by
  obtain ⟨tokens, hscan, hread⟩ := ofSource_eq_ok_iff.mp h
  exact (unrolls_of_ofTokens hread).everywhere (spelled_ofTokens hscan)

end Program

end CurlyScript
