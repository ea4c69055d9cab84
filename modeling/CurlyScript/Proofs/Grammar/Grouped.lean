import CurlyScript.Grammar.Program
import CurlyScript.Proofs.Grammar.Derives
import CurlyScript.Proofs.Syntax.Placed
import CurlyScript.Proofs.Syntax.Printable

/-
  Whatever is read needs no parentheses and no braces.

  Where a layout puts parentheses or braces is said by conditions on TREES; that a reading never
  gives a tree that meets one rests on where each rule STOPS.  The operators of one level stop
  before a looser one, a statement that ends in an open `if` stops before no `else`, and a statement
  that begins with a brace is a block.

  The only rule that reads an expression where a statement could begin with a brace is that of the
  lines of an arrow function; so these, and no other statements, may begin with an object.

  None of this asks anything of the tokens: they may stand anywhere, in any order.
-/

namespace CurlyScript

/-- Whether a statement is an expression that begins with an object. -/
def Statement.beginsWithObject : Statement → Bool
  | .expr _ e => e.startsWithObject
  | _ => false

/-- Whether a node needs no parentheses and no braces besides its own, but for an object at the
    start of a statement.  In the body of an arrow function one may stand there. -/
def Node.isGrouped : Node → Bool
  | .statement (.expr _ _) => true
  | n => n.isExplicit

/-- A node that needs no parentheses and no braces. -/
def Node.IsGrouped (n : Node) : Prop := n.isGrouped = true

/-- A node that needs no parentheses and no braces, and whose lines do not begin with an object. -/
structure Node.IsClear (n : Node) : Prop where
  grouped : n.IsGrouped
  lines : ∀ s ∈ n.lines, s.beginsWithObject = false

/-- A node without lines is clear if it needs no parentheses. -/
theorem Node.IsClear.of_lines {n : Node} (h : n.isGrouped = true) (hn : n.lines = []) :
    n.IsClear := by
  refine ⟨h, ?_⟩
  rw [hn]
  exact fun _ hs => absurd hs List.not_mem_nil

/-- An expression that was read where a token of class `first` comes next. -/
structure Expr.ClearAt (first : TokenKind) (e : Expr) : Prop where
  everywhere : e.Everywhere Node.IsClear
  begins : e.startsWithObject = true → first = .punctuation .lBrace

/-- A statement that was read and may be a line of a block. -/
structure Statement.ClearLine (s : Statement) : Prop where
  everywhere : s.Everywhere Node.IsClear
  noObject : s.beginsWithObject = false

/-- A statement that was read up to a cursor, and takes an `else` if one comes next. -/
structure Statement.ClearTo (s : Statement) (d : Cursor) : Prop extends s.ClearLine where
  noElse : s.endsWithOpenIf = true → d.kind ≠ .keyword .else_

/-- A line that takes no `else` may be read up to any cursor. -/
theorem Statement.ClearLine.closed {s : Statement} (h : s.ClearLine)
    (hclosed : s.endsWithOpenIf = false) {d : Cursor} : s.ClearTo d :=
  ⟨h, fun hopen => absurd (hclosed.symm.trans hopen) Bool.false_ne_true⟩

/-- Rules that give what needs no parentheses and no braces. -/
structure Rules.Clear {n : Nat} (r : Rules n) : Prop where
  expression : ∀ c h, Gives (fun e _ => e.ClearAt c.kind) (r.expression c h)
  binary : ∀ least c h, least < tightest →
    Gives (fun e d => e.ClearAt c.kind ∧ least < e.precedence ∧
      Grammar.binaryFrom? least d.kind = none) (r.binary least c h)
  unary : ∀ c h, Gives (fun e _ => e.ClearAt c.kind ∧ e.precedence = tightest) (r.unary c h)
  statement : ∀ c h, Gives Statement.ClearTo (r.statement c h)

theorem Rules.Clear.restrict {m n : Nat} {r : Rules n} (hr : r.Clear) (h : m ≤ n) :
    (r.restrict h).Clear where
  expression c hc := hr.expression c (Nat.lt_of_lt_of_le hc h)
  binary least c hc := hr.binary least c (Nat.lt_of_lt_of_le hc h)
  unary c hc := hr.unary c (Nat.lt_of_lt_of_le hc h)
  statement c hc := hr.statement c (Nat.lt_of_lt_of_le hc h)

/-- Expressions as items of a list. -/
theorem Rules.Clear.item {n : Nat} {r : Rules n} (hr : r.Clear) (c : Cursor) (h : c.size < n) :
    Gives (fun e _ => e.Everywhere Node.IsClear) (r.expression c h) :=
  (hr.expression c h).mono fun _ _ he => he.everywhere

/-- Statements as lines of a block. -/
theorem Rules.Clear.line {n : Nat} {r : Rules n} (hr : r.Clear) (c : Cursor) (h : c.size < n) :
    Gives (fun s _ => s.ClearLine) (r.statement c h) :=
  (hr.statement c h).mono fun _ _ hs => hs.toClearLine

namespace Grammar

variable {n : Nat} {r : Rules n}

/-! ## Operands -/

theorem clear_property (hr : r.Clear) (c : Cursor) (h : c.size < n) :
    Gives (fun p _ => ∀ key value, p = .mk key value → value.Everywhere Node.IsClear)
      (property r c h) := by
  refine (Gives.any (name c)).bind fun key d hd _ => ?_
  refine (Gives.any (d.expect (.punctuation .colon))).bind fun _ e he _ => ?_
  refine (hr.item e _).bind fun value f hf hvalue => ?_
  refine .ok ?_ _
  rintro _ _ ⟨⟩
  exact hvalue

theorem clear_element (hr : r.Clear) (c : Cursor) (h : c.size < n) :
    Gives (fun p _ => p.2.Everywhere Node.IsClear) (element r c h) :=
  (hr.item c h).map fun _ _ he => he

/-- Lines of an arrow function may begin with an object. -/
theorem clear_arrowStatement (hr : r.Clear) (c : Cursor) (h : c.size < n) :
    Gives (fun s _ => s.Everywhere Node.IsClear) (arrowStatement r c h) := by
  rw [arrowStatement]
  split
  · exact (hr.line c h).mono fun _ _ hs => hs.everywhere
  · refine (hr.item c h).bind fun e d hd he => ?_
    exact .ok (Statement.everywhere_expr.mpr ⟨.of_lines rfl rfl, he⟩) _

/-- What is read in parentheses: it needs none in front of signs, and is no object. -/
theorem clear_groupOrArrow (hr : r.Clear) (start : Nat) (c : Cursor) (h : c.size < n) :
    Gives (fun e _ => e.Everywhere Node.IsClear ∧ e.precedence = tightest ∧
      e.groupsBeforePostfix = false ∧ e.startsWithObject = false) (groupOrArrow r start c h) := by
  refine (gives_items .rParen (clear_element hr) false c h).bind ?_
  rintro ⟨elements, comma⟩ d hd helements
  dsimp only
  split
  · refine .check fun params _ => ?_
    refine (Gives.any _).bind fun _ f hf _ => ?_
    refine (gives_lines (clear_arrowStatement hr) f _).bind fun body g hg hbody => ?_
    refine .ok ⟨Expr.everywhere_arrow.mpr ⟨?_, ?_, hbody⟩, rfl, rfl, rfl⟩ _
    · exact .of_lines rfl rfl
    · exact .of_lines rfl rfl
  · split
    · have hinner := helements _ List.mem_cons_self
      exact .ok ⟨Expr.everywhere_paren.mpr ⟨.of_lines rfl rfl, hinner⟩, rfl, rfl, rfl⟩ _
    · exact .error _

theorem clear_primary (c : Cursor) {r : Rules c.size} (hr : r.Clear) :
    Gives (fun e _ => e.ClearAt c.kind ∧ e.precedence = tightest ∧ e.groupsBeforePostfix = false)
      (primary c r) := by
  rw [primary]
  split
  · exact .error _
  · rename_i t d hd hnext
    split
    · refine .ok ⟨⟨Expr.everywhere_ident.mpr ⟨?_, ?_⟩, Bool.noConfusion⟩, rfl, rfl⟩ _
      · exact .of_lines rfl rfl
      · exact .of_lines rfl rfl
    · refine (clear_groupOrArrow hr _ d hd).mono fun e _ he => ?_
      obtain ⟨hall, hp, hg, hobject⟩ := he
      refine ⟨⟨hall, fun h => ?_⟩, hp, hg⟩
      rw [hobject] at h
      exact Bool.noConfusion h
    · refine (gives_items .rBracket hr.item false d hd).bind ?_
      rintro ⟨elements, last⟩ e he helements
      refine .ok ⟨⟨Expr.everywhere_array.mpr ⟨?_, helements⟩, Bool.noConfusion⟩, rfl, rfl⟩ _
      exact .of_lines rfl rfl
    · -- the only operand that begins with an object
      rename_i hk
      have hbrace : c.kind = .punctuation .lBrace := by
        rw [Cursor.kind, ← Cursor.token_of_next? hnext]
        exact hk
      refine (gives_items .rBrace (clear_property hr) false d hd).bind ?_
      rintro ⟨properties, last⟩ e he hproperties
      refine .ok ⟨⟨Expr.everywhere_object.mpr ⟨?_, ?_⟩, fun _ => hbrace⟩, rfl, rfl⟩ _
      · exact .of_lines rfl rfl
      · exact fun key value hm => hproperties _ hm key value rfl
    · split
      · refine .ok ⟨⟨Expr.everywhere_literal.mpr ?_, Bool.noConfusion⟩, rfl, rfl⟩ _
        exact .of_lines rfl rfl
      · exact .error _

/-! ## Signs after an operand and before it -/

theorem clear_postfixes (hr : r.Clear) (first : TokenKind) (start : Nat) (e : Expr) (c : Cursor)
    (h : c.size < n) (he : e.ClearAt first) (hp : e.precedence = tightest)
    (hg : e.groupsBeforePostfix = false) :
    Gives (fun e _ => e.ClearAt first ∧ e.precedence = tightest)
      (postfixes r first start e c h) := by
  -- on the tokens left; what was read so far needs no parentheses before another sign
  induction hk : c.size using Nat.strongRecOn generalizing c e with
  | ind k ih =>
    have hexplicit : (!e.groupsBeforePostfix) = true := by rw [hg]; rfl
    have hbegins : (!e.groupsBeforePostfix && e.startsWithObject) = true →
        first = .punctuation .lBrace :=
      fun h => he.begins (Bool.and_eq_true_iff.mp h).2
    rw [postfixes]
    split
    · exact .ok ⟨he, hp⟩ _
    · rename_i t d hd hnext
      split
      · refine (gives_items .rParen (hr.restrict (Nat.le_of_lt h)).item false d hd).bind ?_
        rintro ⟨args, last⟩ f hf hargs
        refine ih f.size (by omega) _ f _ ⟨?_, hbegins⟩ rfl rfl rfl
        exact Expr.everywhere_call.mpr ⟨.of_lines hexplicit rfl, he.everywhere, hargs⟩
      · refine (Gives.any (name d)).bind fun property f hf _ => ?_
        refine ih f.size (by omega) _ f _ ⟨?_, hbegins⟩ rfl rfl rfl
        exact Expr.everywhere_member.mpr ⟨.of_lines hexplicit rfl, he.everywhere⟩
      · refine (hr.item d _).bind fun key f hf hkey => ?_
        refine (Gives.any (f.expect (.punctuation .rBracket))).bind fun _ g hg _ => ?_
        refine ih g.size (by omega) _ g _ ⟨?_, hbegins⟩ rfl rfl rfl
        exact Expr.everywhere_index.mpr ⟨.of_lines hexplicit rfl, he.everywhere, hkey⟩
      · split
        · refine .check fun _ _ => ?_
          refine ih d.size (by omega) _ d _ ⟨?_, he.begins⟩ rfl rfl rfl
          exact Expr.everywhere_update.mpr ⟨.of_lines rfl rfl, he.everywhere⟩
        · exact .ok ⟨he, hp⟩ _

theorem clear_unary (c : Cursor) {r : Rules c.size} (hr : r.Clear) :
    Gives (fun e _ => e.ClearAt c.kind ∧ e.precedence = tightest) (unary c r) := by
  rw [unary]
  split
  · refine (hr.unary _ _).bind fun argument e he hargument => ?_
    refine .check fun _ _ => ?_
    refine .ok ⟨⟨?_, Bool.noConfusion⟩, rfl⟩ _
    exact Expr.everywhere_update.mpr ⟨.of_lines rfl rfl, hargument.1.everywhere⟩
  · refine (clear_primary c hr).bind fun e d hd he => ?_
    exact clear_postfixes hr c.kind e.span.start e d hd he.1 he.2.1 he.2.2

/-! ## Operators between operands -/

theorem binaryFrom?_eq_some {least : Nat} {k : TokenKind} {op : BinaryOp}
    (h : binaryFrom? least k = some op) : k.binary? = some op ∧ least ≤ op.precedence := by
  rw [binaryFrom?_eq, Option.filter_eq_some_iff] at h
  exact ⟨h.1, of_decide_eq_true h.2⟩

theorem clear_operands (hr : r.Clear) {least : Nat} {first : TokenKind} (left : Expr) (c : Cursor)
    (h : c.size < n) (hl : left.ClearAt first) (hleast : least < left.precedence)
    (hnext : ∀ op : BinaryOp, c.kind.binary? = some op → op.precedence < left.precedence) :
    Gives (fun e d => e.ClearAt first ∧ least < e.precedence ∧ binaryFrom? least d.kind = none)
      (operands r least left c h) := by
  -- on the tokens left; no operator that follows binds tighter than what was read so far
  induction hk : c.size using Nat.strongRecOn generalizing c left with
  | ind k ih =>
    rw [operands]
    split
    · rename_i htake
      exact .ok ⟨hl, hleast, Cursor.eq_none_of_take?_eq_none htake rfl⟩ _
    · rename_i op d hd hop
      obtain ⟨hkind, hge⟩ : c.kind.binary? = some op ∧ least ≤ op.precedence :=
        binaryFrom?_eq_some (Cursor.eq_some_of_take? hop)
      have hbound : op.precedence + 1 < tightest := by
        have := op.precedence_le
        rw [tightest]
        omega
      refine (hr.binary _ d _ hbound).bind ?_
      rintro right e he ⟨hright, hrightPrecedence, hstop⟩
      have hleft : op.groupsLeft left = false :=
        decide_eq_false (Nat.not_le.mpr (hnext op hkind))
      have hrightGroups : op.groupsRight right = false :=
        decide_eq_false (Nat.not_le.mpr hrightPrecedence)
      refine ih e.size (by omega) _ e _ ⟨?_, ?_⟩ ?_ ?_ rfl
      · refine Expr.everywhere_binary.mpr ⟨.of_lines ?_ rfl, hl.everywhere, hright.everywhere⟩
        show (!op.groupsLeft left && !op.groupsRight right) = true
        rw [hleft, hrightGroups]
        rfl
      · exact fun h => hl.begins (Bool.and_eq_true_iff.mp h).2
      · show least < op.precedence + 1
        omega
      · intro op' hop'
        show op'.precedence < op.precedence + 1
        rw [binaryFrom?_eq, Option.filter_eq_none_iff] at hstop
        have hloose := hstop op' hop'
        rw [decide_eq_true_eq] at hloose
        omega

theorem clear_binary {least : Nat} (c : Cursor) {r : Rules c.size} (hr : r.Clear)
    (hleast : least < tightest) :
    Gives (fun e d => e.ClearAt c.kind ∧ least < e.precedence ∧ binaryFrom? least d.kind = none)
      (binary least c r) := by
  refine (clear_unary c hr).bind fun left d hd hl => ?_
  refine clear_operands hr left d hd hl.1 (by rw [hl.2]; exact hleast) fun op _ => ?_
  have := op.precedence_le
  rw [hl.2, tightest]
  omega

theorem clear_expression (c : Cursor) {r : Rules c.size} (hr : r.Clear) :
    Gives (fun e _ => e.ClearAt c.kind) (expression c r) := by
  refine (clear_binary c hr (by decide)).bind fun target d hd ht => ?_
  dsimp only
  split
  · exact .ok ht.1 _
  · refine .check fun _ _ => ?_
    refine (hr.item _ _).bind fun value f hf hvalue => ?_
    refine .ok ⟨?_, ht.1.begins⟩ _
    exact Expr.everywhere_assign.mpr ⟨.of_lines rfl rfl, ht.1.everywhere, hvalue⟩

/-! ## Statements -/

theorem clear_nested (hr : r.Clear) (c : Cursor) (h : c.size < n) :
    Gives Statement.ClearTo (nested r c h) :=
  (hr.statement c.skipComments _).bind fun _ _ _ hs => .ok hs _

theorem clear_declared (hr : r.Clear) (c : Cursor) (h : c.size < n) :
    Gives (fun p _ => ∀ e ∈ p.2, e.Everywhere Node.IsClear) (declared r c h) := by
  refine (Gives.any (name c)).bind fun s d hd _ => ?_
  dsimp only
  split
  · exact .ok (by rintro _ ⟨⟩) _
  · refine (hr.item _ _).bind fun init f hf hinit => ?_
    exact .ok (fun x hx => Option.some.inj hx ▸ hinit) _

theorem clear_clause (stop : Punctuation) (hr : r.Clear) (c : Cursor) (h : c.size < n) :
    Gives (fun o _ => ∀ e ∈ o, e.Everywhere Node.IsClear) (clause stop r c h) := by
  rw [clause]
  split
  · exact .ok (by rintro _ ⟨⟩) _
  · exact (hr.item c h).bind fun e d hd he => .ok (fun x hx => Option.some.inj hx ▸ he) _

theorem everywhere_clear_decl {sp : Span} {kind : DeclKind} {s : Name} {init : Option Expr}
    (hi : ∀ e ∈ init, e.Everywhere Node.IsClear) :
    (Decl.mk sp kind s init).Everywhere Node.IsClear :=
  Decl.everywhere_mk.mpr ⟨.of_lines rfl rfl, hi⟩

theorem clear_loopInit (hr : r.Clear) (c : Cursor) (h : c.size < n) :
    Gives (fun i _ => (∀ x, i = some (.decl x) → x.Everywhere Node.IsClear) ∧
      ∀ e, i = some (.expr e) → e.Everywhere Node.IsClear) (loopInit r c h) := by
  rw [loopInit]
  split
  · refine (clear_declared hr _ _).bind fun p e he hinit => ?_
    refine .ok ⟨?_, by rintro _ ⟨⟩⟩ _
    rintro _ ⟨⟩
    exact everywhere_clear_decl hinit
  · refine (clear_clause .semicolon hr c h).map fun o d ho => ?_
    cases o with
    | none => exact ⟨by rintro _ ⟨⟩, by rintro _ ⟨⟩⟩
    | some x =>
      refine ⟨by rintro _ ⟨⟩, ?_⟩
      rintro _ ⟨⟩
      exact ho x rfl

theorem clear_function (hr : r.Clear) (start : Nat) (c : Cursor) (h : c.size < n) :
    Gives Statement.ClearTo (function r start c h) := by
  refine (Gives.any (name c)).bind fun s d hd _ => ?_
  refine (Gives.any (d.expect (.punctuation .lParen))).bind fun _ e he _ => ?_
  refine (Gives.any _).bind fun params f hf _ => ?_
  refine (Gives.any (f.expect (.punctuation .lBrace))).bind fun _ g hg _ => ?_
  refine (gives_lines hr.line g _).bind fun body i hi hbody => ?_
  have hfunction : (Statement.function (i.spanFrom start) s params.1 body).ClearLine := by
    refine ⟨Statement.everywhere_function.mpr ⟨.of_lines rfl rfl, ⟨rfl, ?_⟩, ?_⟩, rfl⟩
    · exact fun s hs => (hbody s hs).noObject
    · exact fun s hs => (hbody s hs).everywhere
  exact .ok (hfunction.closed rfl) _

theorem clear_conditional (hr : r.Clear) (start : Nat) (c : Cursor) (h : c.size < n) :
    Gives Statement.ClearTo (conditional r start c h) := by
  refine (Gives.any (c.expect (.punctuation .lParen))).bind fun _ d hd _ => ?_
  refine (hr.item d _).bind fun test e he htest => ?_
  refine (Gives.any (e.expect (.punctuation .rParen))).bind fun _ f hf _ => ?_
  refine (clear_nested hr f _).bind fun consequent g hg hconsequent => ?_
  dsimp only
  split
  · rename_i hnone
    refine .ok ⟨⟨Statement.everywhere_cond.mpr ⟨⟨rfl, ?_⟩, htest, hconsequent.everywhere, ?_⟩,
      rfl⟩, fun _ => Cursor.kind_ne_of_accept?_eq_none hnone (by decide)⟩ _
    · exact List.forall_mem_singleton.mpr hconsequent.noObject
    · rintro _ ⟨⟩
  · rename_i t i hi helse
    refine (clear_nested hr i _).bind fun alternate j hj ha => ?_
    -- the consequent stopped before this `else`, so it would have taken it if it could
    have hclosed : consequent.endsWithOpenIf = false :=
      Bool.eq_false_iff.mpr fun hx => hconsequent.noElse hx (Cursor.kind_of_accept? helse)
    refine .ok ⟨⟨Statement.everywhere_cond.mpr ⟨⟨?_, ?_⟩, htest, hconsequent.everywhere, ?_⟩,
      rfl⟩, ha.noElse⟩ _
    · show (!consequent.endsWithOpenIf) = true
      rw [hclosed]
      rfl
    · exact List.forall_mem_cons.mpr
        ⟨hconsequent.noObject, List.forall_mem_singleton.mpr ha.noObject⟩
    · exact fun x hx => Option.some.inj hx ▸ ha.everywhere

theorem clear_loop (hr : r.Clear) (start : Nat) (c : Cursor) (h : c.size < n) :
    Gives Statement.ClearTo (loop r start c h) := by
  refine (Gives.any (c.expect (.punctuation .lParen))).bind fun _ d hd _ => ?_
  refine (clear_loopInit hr d _).bind fun init e he hinit => ?_
  refine (Gives.any (e.expect (.punctuation .semicolon))).bind fun _ f hf _ => ?_
  refine (clear_clause .semicolon hr f _).bind fun test g hg htest => ?_
  refine (Gives.any (g.expect (.punctuation .semicolon))).bind fun _ i hi _ => ?_
  refine (clear_clause .rParen hr i _).bind fun update j hj hupdate => ?_
  refine (Gives.any (j.expect (.punctuation .rParen))).bind fun _ k hk _ => ?_
  refine (clear_nested hr k _).bind fun body l hl hbody => ?_
  refine .ok ⟨⟨Statement.everywhere_loop.mpr ⟨⟨rfl, ?_⟩, hinit, htest, hupdate,
    hbody.everywhere⟩, rfl⟩, hbody.noElse⟩ _
  exact List.forall_mem_singleton.mpr hbody.noObject

theorem clear_returning (hr : r.Clear) (start : Nat) (c : Cursor) (h : c.size < n) :
    Gives Statement.ClearTo (returning r start c h) := by
  -- the value stands in one branch only, so what follows it is shown once for both
  have hend : ∀ {argument : Option Expr} {d : Cursor} (hd : d.size < n) {sp : Span},
      (∀ e ∈ argument, e.Everywhere Node.IsClear) →
      Gives (n := n) Statement.ClearTo (.ok ⟨.ret sp argument, d, hd⟩) :=
    fun hd _ ha => .ok (Statement.ClearLine.closed
      ⟨Statement.everywhere_ret.mpr ⟨.of_lines rfl rfl, ha⟩, rfl⟩ rfl) hd
  rw [returning]
  split
  · have hargument : Gives (n := n) (fun o _ => ∀ e ∈ o, e.Everywhere Node.IsClear)
        ((r.expression c h).map fun s => ⟨some s.value, s.rest, Nat.lt_trans s.lt h⟩) :=
      (hr.item c h).map_step fun s hs x hx => Option.some.inj hx ▸ hs
    exact hargument.bind fun argument d hd ha => hend _ ha
  · exact hend _ (by rintro _ ⟨⟩)

theorem clear_declaration (hr : r.Clear) (start : Nat) (kind : DeclKind) (c : Cursor)
    (h : c.size < n) : Gives Statement.ClearTo (declaration r start kind c h) := by
  refine (clear_declared hr c h).bind fun p d hd hinit => ?_
  exact .ok (Statement.ClearLine.closed
    ⟨Statement.everywhere_decl.mpr ⟨.of_lines rfl rfl, everywhere_clear_decl hinit⟩, rfl⟩ rfl) _

/-- Where no brace comes next, an expression that is a statement begins with no object. -/
theorem clear_expressionStatement (c : Cursor) {r : Rules c.size} (hr : r.Clear)
    (hbrace : c.kind ≠ .punctuation .lBrace) :
    Gives Statement.ClearTo (expressionStatement c r) := by
  refine (clear_expression c hr).bind fun x d hd hx => ?_
  have hobject : x.startsWithObject = false := Bool.eq_false_iff.mpr fun h => hbrace (hx.begins h)
  exact .ok (Statement.ClearLine.closed
    ⟨Statement.everywhere_expr.mpr ⟨.of_lines rfl rfl, hx.everywhere⟩, hobject⟩ rfl) _

theorem clear_statement (c : Cursor) {r : Rules c.size} (hr : r.Clear) :
    Gives Statement.ClearTo (statement c r) := by
  rw [statement]
  split
  · exact .ok (Statement.ClearLine.closed
      ⟨Statement.everywhere_comment.mpr ⟨.of_lines rfl rfl, .of_lines rfl rfl⟩, rfl⟩ rfl) _
  · split
    · exact .error _
    · rename_i t d hd hnext
      have hkind : t.kind = c.kind := congrArg Token.kind (Cursor.token_of_next? hnext)
      dsimp only
      split
      · exact clear_declaration hr _ .const d hd
      · exact clear_declaration hr _ .let_ d hd
      · exact clear_declaration hr _ .var d hd
      · exact clear_function hr _ d hd
      · exact clear_returning hr _ d hd
      · exact clear_conditional hr _ d hd
      · exact clear_loop hr _ d hd
      · refine (gives_lines hr.line d hd).bind fun body e he hbody => ?_
        have hblock : (Statement.block (e.spanFrom t.span.start) body).ClearLine := by
          refine ⟨Statement.everywhere_block.mpr ⟨.of_lines rfl rfl, ⟨rfl, ?_⟩, ?_⟩, rfl⟩
          · exact fun s hs => (hbody s hs).noObject
          · exact fun s hs => (hbody s hs).everywhere
        exact .ok (hblock.closed rfl) _
      · rename_i hbrace
        split
        · exact clear_expressionStatement c hr fun h => hbrace (hkind.trans h)
        · exact .error _

/-! ## All rules -/

/-- No rule gives anything that needs parentheses or braces. -/
theorem rules_clear : ∀ n, (rules n).Clear
  | 0 => {
      expression := fun _ h => absurd h (Nat.not_lt_zero _)
      binary := fun _ _ h => absurd h (Nat.not_lt_zero _)
      unary := fun _ h => absurd h (Nat.not_lt_zero _)
      statement := fun _ h => absurd h (Nat.not_lt_zero _) }
  | n + 1 => {
      expression := fun c h => clear_expression c ((rules_clear n).restrict (Nat.le_of_lt_succ h))
      binary := fun _ c h => clear_binary c ((rules_clear n).restrict (Nat.le_of_lt_succ h))
      unary := fun c h => clear_unary c ((rules_clear n).restrict (Nat.le_of_lt_succ h))
      statement := fun c h => clear_statement c ((rules_clear n).restrict (Nat.le_of_lt_succ h)) }

end Grammar

namespace Program

/-- The statements of a program are clear, and begin with no object. -/
theorem Unrolls.clear {c : Cursor} {p : Program} (h : Unrolls c p) : ∀ s ∈ p, s.ClearLine := by
  induction h with
  | ended _ => exact fun _ hs => absurd hs List.not_mem_nil
  | more hx _ ih =>
    have hs := Grammar.clear_statement _ (Grammar.rules_clear _) _ hx
    exact List.forall_mem_cons.mpr ⟨hs.toClearLine, ih⟩

theorem isGrouped_of_ofTokens {ts : List Token} {p : Program} (h : ofTokens ts = .ok p) :
    p.Everywhere Node.IsGrouped := by
  refine Program.everywhere_iff.mpr fun s hs n hn => ?_
  exact (((unrolls_of_ofTokens h).clear s hs).everywhere n hn).grouped

end Program

end CurlyScript
