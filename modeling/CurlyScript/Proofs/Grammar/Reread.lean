import CurlyScript.Proofs.Grammar.Derivation
import CurlyScript.Proofs.Grammar.Levels
import CurlyScript.Proofs.Grammar.Readings
import CurlyScript.Proofs.Syntax.Placed

/-
  Expressions read again from their own tokens.

  `Rereads tokens y v` says that somewhere in the tokens a value `v` begins and ends, and that it is
  read from there wherever the tokens are cut at its end.  What the rules read is of this kind, and
  so is every node in it (`Settled`).  For the first part of a longer expression that is more than
  can be said of the reading that it came from, which did not stop there: so the readings of a chain
  of signs or operators carry along how the chain is begun (`Hangs`, `Leads`), and each part is what
  the chain comes to if the tokens are cut after it.
-/

namespace CurlyScript

/-- Whether a class makes an operand before it longer. -/
def TokenKind.isPostfix : TokenKind → Bool
  | punctuation p => p = .lParen || p = .dot || p = .lBracket
  | k => k.update?.isSome

theorem TokenKind.isPostfix_eq_false {k : TokenKind} (hparen : k ≠ .punctuation .lParen)
    (hdot : k ≠ .punctuation .dot) (hbracket : k ≠ .punctuation .lBracket)
    (hupdate : k.update? = none) : k.isPostfix = false := by
  cases k with
  | punctuation p =>
    rw [ne_eq, TokenKind.punctuation.injEq] at hparen hdot hbracket
    simp [isPostfix, hparen, hdot, hbracket]
  | operator o =>
    rw [isPostfix, hupdate]
    · rfl
    · rintro p ⟨⟩
  | _ => rfl

/-- A value is read again from its own tokens, which stand somewhere in `tokens`. -/
def Rereads {α : Type} (tokens : List Token) (y : Cursor → α → Cursor → Prop) (v : α) : Prop :=
  ∃ c d : Cursor, c.rest <:+ tokens ∧ d.rest <:+ c.rest ∧
    ∀ k : Cut, k.after = d.rest → y (k.cursor c) v (k.cursor d)

/-- What is read from a node's own tokens is the node, and likewise for the statements that stand
    directly in it. -/
def Node.Rereads (tokens : List Token) : Node → Prop
  | .expr e => CurlyScript.Rereads tokens Grammar.ReadsExpression e
  | n => ∀ s ∈ n.lines, CurlyScript.Rereads tokens Grammar.ReadsStatement s

/-- A value that is read again wherever the tokens are cut after it. -/
theorem Cursor.Again.rereads {α : Type} {tokens : List Token} {y : Cursor → α → Cursor → Prop}
    {v : α} {c d : Cursor} (h : c.Again y v d) (hc : c.On tokens) : Rereads tokens y v :=
  ⟨c, d, hc.2, h.1.rest, fun k hk => h.2 k ⟨[], hk⟩⟩

namespace Grammar

open Cursor

/-- An expression between two cursors is read again, and so is each node in it. -/
structure Settles (tokens : List Token) (y : Cursor → Expr → Cursor → Prop) (c : Cursor) (e : Expr)
    (d : Cursor) : Prop where
  again : c.Again y e d
  nodes : e.Everywhere (Node.Rereads tokens)

/-- A statement between two cursors is read again, and so is each node in it. -/
structure SettlesLine (tokens : List Token) (y : Cursor → Statement → Cursor → Prop) (c : Cursor)
    (s : Statement) (d : Cursor) : Prop where
  again : c.Again y s d
  nodes : s.Everywhere (Node.Rereads tokens)

/-- The rules for fewer than `n` tokens read nothing that would not be read again. -/
structure Settled (tokens : List Token) (n : Nat) : Prop where
  expression : ∀ c, c.size < n → c.On tokens →
    Gives (Settles tokens ReadsExpression c) (expression c (rules c.size))
  binary : ∀ least c, c.size < n → c.On tokens →
    Gives (Settles tokens (ReadsBinary least) c) (binary least c (rules c.size))
  unary : ∀ c, c.size < n → c.On tokens →
    Gives (Settles tokens ReadsUnary c) (unary c (rules c.size))
  statement : ∀ c, c.size < n → c.On tokens →
    Gives (SettlesLine tokens ReadsStatement c) (statement c (rules c.size))

variable {tokens : List Token} {n : Nat}

theorem Settled.mono (hn : Settled tokens n) {m : Nat} (h : m ≤ n) : Settled tokens m where
  expression c hc := hn.expression c (Nat.lt_of_lt_of_le hc h)
  binary least c hc := hn.binary least c (Nat.lt_of_lt_of_le hc h)
  unary c hc := hn.unary c (Nat.lt_of_lt_of_le hc h)
  statement c hc := hn.statement c (Nat.lt_of_lt_of_le hc h)

/-! ## Operands -/

/-- An expression as an item of a list. -/
theorem Settled.item (hn : Settled tokens n) (c : Cursor) (h : c.size < n) (hc : c.On tokens) :
    Gives (fun e d => c.Repeats (fun n => (rules n).expression) e d ∧
        e.Everywhere (Node.Rereads tokens)) ((rules n).expression c h) := by
  rw [rules_expression]
  exact (hn.expression c h hc).mono fun _ _ he =>
    ⟨⟨he.again.1, fun k hk => (he.again.2 k hk).arrives⟩, he.nodes⟩

/-- A statement as a line of a block. -/
theorem Settled.line (hn : Settled tokens n) (c : Cursor) (h : c.size < n) (hc : c.On tokens) :
    Gives (fun s d => c.Repeats (fun n => (rules n).statement) s d ∧
        Rereads tokens ReadsStatement s ∧ s.Everywhere (Node.Rereads tokens))
      ((rules n).statement c h) := by
  rw [rules_statement]
  exact (hn.statement c h hc).mono fun _ _ hs =>
    ⟨⟨hs.again.1, fun k hk => (hs.again.2 k hk).arrives⟩, hs.again.rereads hc, hs.nodes⟩

theorem settles_property (hn : Settled tokens n) (c : Cursor) (h : c.size < n) (hc : c.On tokens) :
    Gives (fun p d => c.Repeats (fun n => property (rules n)) p d ∧
        p.value.Everywhere (Node.Rereads tokens)) (property (rules n) c h) := by
  refine (gives_name_again hc.plain).bind fun key d hd hkey => ?_
  have hd' := hc.of_reaches hkey.1
  refine (gives_expect_again hd'.plain (.punctuation .colon)).bind fun t e he hcolon => ?_
  refine (hn.item e _ (hd'.of_reaches hcolon.1)).bind fun value f hf hvalue => ?_
  refine .ok ⟨⟨(hkey.1.trans hcolon.1).trans hvalue.1.1, fun k hk n h => ?_⟩, hvalue.2⟩ _
  have hke := hk.mono hvalue.1.1
  refine (hkey.2 k (hke.mono hcolon.1)).bind fun _ => ?_
  refine (hcolon.2 k hke).bind fun _ => ?_
  exact (hvalue.1.2 k hk n _).bind fun _ => .ok _

theorem settles_element (hn : Settled tokens n) (c : Cursor) (h : c.size < n) (hc : c.On tokens) :
    Gives (fun p d => c.Repeats (fun n => element (rules n)) p d ∧
        p.2.Everywhere (Node.Rereads tokens)) (element (rules n) c h) := by
  refine (hn.item c h hc).lt.map fun e d he => ⟨⟨he.1.1.1, fun k hk n h => ?_⟩, he.1.2⟩
  rw [element, kind_cut hc.plain (hk.before he.1.1.1 he.2)]
  exact (he.1.1.2 k hk n h).map

/-- In the body of an arrow function a line is no node of its own. -/
theorem settles_arrowStatement (hn : Settled tokens n) (c : Cursor) (h : c.size < n)
    (hc : c.On tokens) :
    Gives (fun s d => c.Repeats (fun n => arrowStatement (rules n)) s d ∧
        s.Everywhere (Node.Rereads tokens)) (arrowStatement (rules n) c h) := by
  have hsame : ∀ {k : Cut}, k.Before c →
      ((k.cursor c).comment?.isSome || (k.cursor c).kind = .keyword .return_) =
        (c.comment?.isSome || c.kind = .keyword .return_) := by
    intro k hk
    rw [kind_cut hc.plain hk, comment?_cut hc.plain hk, hc.plain.comment?_eq_none]
    rfl
  rw [arrowStatement]
  split
  · rename_i hreturn
    intro s hs
    have hstep := hn.line c h hc s hs
    refine ⟨⟨hstep.1.1, fun k hk n h => ?_⟩, hstep.2.2⟩
    rw [arrowStatement, hsame (hk.before hstep.1.1 s.lt), if_pos hreturn]
    exact hstep.1.2 k hk n h
  · rename_i hexpression
    refine (hn.item c h hc).bind fun e d hd he => ?_
    have hd' := hc.of_reaches he.1.1
    have hreach := Reaches.past d (.punctuation .semicolon)
    refine Gives.ok ⟨⟨he.1.1.trans hreach, fun k hk n h => ?_⟩,
      Statement.everywhere_expr.mpr ⟨fun _ hs => absurd hs List.not_mem_nil, he.2⟩⟩ _
    have hkd := hk.mono hreach
    have hbefore := hkd.before he.1.1 hd
    rw [arrowStatement, hsame hbefore, if_neg hexpression]
    refine (he.1.2 k hkd n h).bind fun _ => ?_
    dsimp only
    rw [start_cut hc.plain hbefore]
    exact arrives_ended hd'.plain hk (Statement.expr · e) c.start _

theorem settles_groupOrArrow (hn : Settled tokens n) (start : Nat) (c : Cursor) (h : c.size < n)
    (hc : c.On tokens) :
    Gives (fun e d => c.Repeats (fun n => groupOrArrow (rules n) start) e d ∧
        ∀ m ∈ e.nodes.tail, m.Rereads tokens) (groupOrArrow (rules n) start c h) := by
  refine (gives_delimited_again .rParen (settles_element hn) false c h hc).bind ?_
  rintro ⟨elements, comma⟩ d hd ⟨hlist, hlt, hnodes⟩
  have hd' := hc.of_reaches hlist.1
  dsimp only
  split
  · rename_i t e he harrow
    have haccept := again_accept? hd'.plain harrow
    have he' := hd'.of_reaches haccept.1
    refine .check fun params hparams => ?_
    refine (gives_expect_again he'.plain (.punctuation .lBrace)).bind fun _ f hf hbrace => ?_
    refine (gives_untilBrace_again (settles_arrowStatement hn) f _
      (he'.of_reaches hbrace.1)).bind fun body g hg hbody => ?_
    refine .ok ⟨⟨((hlist.1.trans haccept.1).trans hbrace.1).trans hbody.1.1,
      fun k hk n h => ?_⟩, ?_⟩ _
    · have hkf := hk.mono hbody.1.1
      have hke := hkf.mono hbrace.1
      refine (hlist.2 k (hke.mono haccept.1) n h).bind fun _ => ?_
      obtain ⟨hlt', heq⟩ := haccept.2 k hke
      dsimp only
      rw [heq]
      dsimp only
      rw [hparams]
      refine (hbrace.2 k hkf).bind fun _ => ?_
      exact (hbody.1.2 k hk n _).bind fun _ => .ok _
    · refine List.forall_mem_cons.mpr ⟨fun _ hs => absurd hs List.not_mem_nil, ?_⟩
      exact forall_mem_statementsNodes.mpr hbody.2.2
  · rename_i hnone
    split
    · rename_i first inner
      refine .ok ⟨⟨hlist.1, fun k hk n h => ?_⟩,
        hnodes (first, inner) List.mem_cons_self⟩ _
      refine (hlist.2 k hk n h).bind fun _ => ?_
      dsimp only
      rw [accept?_cut_eq_none hd'.plain hk hnone (by decide) (by decide)]
      exact .ok _
    · exact .error _

theorem settles_primary (c : Cursor) (hn : Settled tokens c.size) (hc : c.On tokens) :
    Gives (fun e d => c.Again (fun c e d => Arrives e d (primary c (rules c.size))) e d ∧
        ∀ m ∈ e.nodes.tail, m.Rereads tokens) (primary c (rules c.size)) := by
  rw [primary]
  split
  · exact .error _
  · rename_i t d hd hnext
    have hfirst := again_next? hc.plain hnext
    have hd' := hc.of_reaches hfirst.1
    split
    · rename_i hkind
      refine .ok ⟨⟨hfirst.1, fun k hk => ?_⟩,
        List.forall_mem_singleton.mpr fun _ hs => absurd hs List.not_mem_nil⟩ _
      obtain ⟨hlt, heq⟩ := hfirst.2 k hk
      rw [primary, heq]
      dsimp only
      rw [hkind]
      exact .ok _
    · rename_i hkind
      refine (settles_groupOrArrow hn t.span.start d hd hd').mono fun e f he =>
        ⟨⟨hfirst.1.trans he.1.1, fun k hk => ?_⟩, he.2⟩
      obtain ⟨hlt, heq⟩ := hfirst.2 k (hk.mono he.1.1)
      rw [primary, heq]
      dsimp only
      rw [hkind]
      exact he.1.2 k hk _ _
    · rename_i hkind
      refine (gives_delimited_again .rBracket hn.item false d hd hd').bind ?_
      rintro ⟨elements, comma⟩ e he ⟨hlist, hlt, hnodes⟩
      refine .ok ⟨⟨hfirst.1.trans hlist.1, fun k hk => ?_⟩, forall_mem_exprsNodes.mpr hnodes⟩ _
      obtain ⟨hlt, heq⟩ := hfirst.2 k (hk.mono hlist.1)
      rw [primary, heq]
      dsimp only
      rw [hkind]
      exact (hlist.2 k hk _ _).bind fun _ => .ok _
    · rename_i hkind
      refine (gives_delimited_again .rBrace (settles_property hn) false d hd hd').bind ?_
      rintro ⟨properties, comma⟩ e he ⟨hlist, hlt, hnodes⟩
      refine .ok ⟨⟨hfirst.1.trans hlist.1, fun k hk => ?_⟩, ?_⟩ _
      · obtain ⟨hlt, heq⟩ := hfirst.2 k (hk.mono hlist.1)
        rw [primary, heq]
        dsimp only
        rw [hkind]
        exact (hlist.2 k hk _ _).bind fun _ => .ok _
      · exact forall_mem_propertiesNodes.mpr fun key value hm => hnodes _ hm
    · split
      · rename_i value hvalue
        refine .ok ⟨⟨hfirst.1, fun k hk => ?_⟩, fun m hm => absurd hm List.not_mem_nil⟩ _
        obtain ⟨hlt, heq⟩ := hfirst.2 k hk
        rw [primary, heq]
        dsimp only
        split
        · contradiction
        · contradiction
        · contradiction
        · contradiction
        · rw [hvalue]
          exact .ok _
      · exact .error _

/-! ## Signs after an operand -/

/-- Without a sign after it an operand ends. -/
theorem postfixes_stop {r : Rules n} {first : TokenKind} {start : Nat} {e : Expr} {c : Cursor}
    (h : c.size < n) (hk : c.kind.isPostfix = false) :
    postfixes r first start e c h = .ok ⟨e, c, h⟩ := by
  rw [postfixes]
  split
  · rfl
  · rename_i t d hd hnext
    rw [kind, ← token_of_next? hnext] at hk
    split
    · rename_i hkind; rw [hkind] at hk; exact Bool.noConfusion hk
    · rename_i hkind; rw [hkind] at hk; exact Bool.noConfusion hk
    · rename_i hkind; rw [hkind] at hk; exact Bool.noConfusion hk
    · split
      · rename_i op hop
        obtain ⟨o, ho⟩ : ∃ o, t.kind = .operator o := ⟨_, TokenKind.eq_of_update? hop⟩
        rw [ho] at hk hop
        rw [TokenKind.isPostfix, hop] at hk
        · exact Bool.noConfusion hk
        · rintro p ⟨⟩
      · rfl

theorem isPostfix_of_closes {c : Cursor} (h : Closes c.rest) : c.kind.isPostfix = false := by
  rcases kind_of_closes h with hkind | hkind
  · rw [hkind]
    rfl
  · rw [hkind]
    rfl

/-- Wherever the tokens are cut at `c` or after it, reading one operand at `c₀` is going on with
    the signs after `e`. -/
def Hangs (c₀ : Cursor) (first : TokenKind) (start : Nat) (e : Expr) (c : Cursor) : Prop :=
  ∀ k : Cut, k.Within c → ∃ h, unary (k.cursor c₀) (rules (k.cursor c₀).size) =
    postfixes (rules (k.cursor c₀).size) first start e (k.cursor c) h

variable {c₀ c : Cursor} {first : TokenKind} {start : Nat} {e : Expr}

/-- Wherever the tokens are cut at `f` or after it, going on after `e` at `c` is going on after `e'`
    at `f`. -/
def Resumes (first : TokenKind) (start : Nat) (e : Expr) (c : Cursor) (e' : Expr) (f : Cursor) :
    Prop :=
  ∀ k : Cut, k.Within f → ∀ n (h : (k.cursor c).size < n), ∃ h',
    postfixes (rules n) first start e (k.cursor c) h =
      postfixes (rules n) first start e' (k.cursor f) h'

theorem Hangs.resumes {e' : Expr} {f : Cursor} (h : Hangs c₀ first start e c)
    (hreach : c.Reaches f) (he : Resumes first start e c e' f) :
    Hangs c₀ first start e' f := by
  intro k hk
  obtain ⟨hlt, hunary⟩ := h k (hk.mono hreach)
  obtain ⟨hlt', hgo⟩ := he k hk _ hlt
  exact ⟨hlt', hunary.trans hgo⟩

/-! One sign at a time: each is found again where the tokens are cut, and so is what belongs to it. -/

section signs

variable {t : Token} {d f g : Cursor} (hsign : c.Again (fun c t d => Finds t d c.next?) t d)

include hsign

theorem resumes_call {args : List Expr} {comma : Bool} (hkind : t.kind = .punctuation .lParen)
    (hlist : d.Repeats (fun n => delimited .rParen (rules n).expression false) (args, comma) f) :
    Resumes first start e c (.call (f.spanFrom start) e args) f := by
  intro k hk n h
  obtain ⟨hltd, hnext⟩ := hsign.2 k (hk.mono hlist.1)
  obtain ⟨hltf, hlist'⟩ := hlist.2 k hk _ hltd
  refine ⟨Nat.lt_trans hltf h, ?_⟩
  rw [postfixes, hnext]
  dsimp only
  rw [hkind, restrict_rules]
  dsimp only
  rw [hlist']
  rfl

theorem resumes_member {property : Name} (hkind : t.kind = .punctuation .dot)
    (hname : d.Again (fun c s d => Arrives s d (name c)) property f) :
    Resumes first start e c (.member (f.spanFrom start) e property) f := by
  intro k hk n h
  obtain ⟨hltd, hnext⟩ := hsign.2 k (hk.mono hname.1)
  obtain ⟨hltf, hname'⟩ := hname.2 k hk
  refine ⟨Cursor.size_lt₃ hltf hltd h, ?_⟩
  rw [postfixes, hnext]
  dsimp only
  rw [hkind]
  dsimp only
  rw [hname']
  rfl

theorem resumes_index {key : Expr} {u : Token} (hkind : t.kind = .punctuation .lBracket)
    (hkey : d.Repeats (fun n => (rules n).expression) key f)
    (hclose : f.Again (fun c u d => Arrives u d (c.expect (.punctuation .rBracket))) u g) :
    Resumes first start e c (.index (g.spanFrom start) e key) g := by
  intro k hk n h
  have hkf := hk.mono hclose.1
  obtain ⟨hltd, hnext⟩ := hsign.2 k (hkf.mono hkey.1)
  obtain ⟨hltf, hkey'⟩ := hkey.2 k hkf _ (Nat.lt_trans hltd h)
  obtain ⟨hltg, hclose'⟩ := hclose.2 k hk
  refine ⟨Cursor.size_lt₄ hltg hltf hltd h, ?_⟩
  rw [postfixes, hnext]
  dsimp only
  rw [hkind]
  dsimp only
  rw [hkey']
  simp only [ok_bind]
  rw [hclose']
  rfl

theorem resumes_update {op : UpdateOp} {u : Unit} (hop : t.kind.update? = some op)
    (htarget : checkTarget e first = .ok u) :
    Resumes first start e c (.update (d.spanFrom start) op false e) d := by
  intro k hk n h
  obtain ⟨hltd, hnext⟩ := hsign.2 k hk
  refine ⟨Nat.lt_trans hltd h, ?_⟩
  obtain ⟨o, ho⟩ : ∃ o, t.kind = .operator o := ⟨_, TokenKind.eq_of_update? hop⟩
  rw [postfixes, hnext]
  simp only [ho] at hop ⊢
  simp only [hop, htarget]
  rfl

end signs

/-- What was read so far is a whole expression if the tokens are cut right here. -/
theorem Hangs.rereads (h : Hangs c₀ first start e c) (hc₀ : c₀.On tokens)
    (hreach : c₀.Reaches c) : Rereads tokens ReadsExpression e := by
  refine ⟨c₀, c, hc₀.2, hreach.rest, fun k hk => ?_⟩
  have hcloses := closes_cut (k := k) hk.symm
  have hunary : ReadsUnary (k.cursor c₀) e (k.cursor c) := by
    obtain ⟨hlt, heq⟩ := h k ⟨[], hk⟩
    rw [ReadsUnary, heq, postfixes_stop _ (isPostfix_of_closes hcloses)]
    exact .ok _
  exact hunary.whole hcloses

/-- Where no sign comes next the operand is read again. -/
theorem Hangs.stops (h : Hangs c₀ first start e c) (hc₀ : c₀.On tokens)
    (hreach : c₀.Reaches c) (hkind : c.kind.isPostfix = false)
    (hnodes : e.Everywhere (Node.Rereads tokens)) : Settles tokens ReadsUnary c₀ e c := by
  refine ⟨⟨hreach, fun k hk => ?_⟩, hnodes⟩
  have hstop : (k.cursor c).kind.isPostfix = false := by
    rcases hk.cases with hr | hbefore
    · exact isPostfix_of_closes (closes_cut hr)
    · rw [kind_cut (hc₀.of_reaches hreach).plain hbefore]
      exact hkind
  obtain ⟨hlt, heq⟩ := h k hk
  rw [ReadsUnary, heq, postfixes_stop _ hstop]
  exact .ok _

/-- The signs after an operand make it longer, and each part up to one of them is read again. -/
theorem settles_postfixes (hn : Settled tokens n) (hc₀ : c₀.On tokens) (h : c.size < n)
    (hhangs : Hangs c₀ first start e c) (hreach : c₀.Reaches c)
    (hnodes : ∀ m ∈ e.nodes.tail, m.Rereads tokens) :
    Gives (Settles tokens ReadsUnary c₀) (postfixes (rules n) first start e c h) := by
  induction hk : c.size using Nat.strongRecOn generalizing c e with
  | ind k ih =>
    subst hk
    have hc := hc₀.of_reaches hreach
    have hall : e.Everywhere (Node.Rereads tokens) :=
      Expr.everywhere_iff_tail.mpr ⟨hhangs.rereads hc₀ hreach, hnodes⟩
    rw [postfixes]
    split
    · rename_i hnone
      refine .ok (hhangs.stops hc₀ hreach ?_ hall) _
      rw [kind_of_next?_eq_none hnone]
      rfl
    · rename_i t d hd hnext
      have hsign := again_next? hc.plain hnext
      have hd' := hc.of_reaches hsign.1
      split
      · rename_i hkind
        rw [restrict_rules]
        refine (gives_delimited_again .rParen (hn.mono (Nat.le_of_lt h)).item false d hd
          hd').bind ?_
        rintro ⟨args, comma⟩ f hf ⟨hlist, hlt, hargs⟩
        have hstep := hsign.1.trans hlist.1
        exact ih f.size hf _ (hhangs.resumes hstep (resumes_call hsign hkind hlist))
          (hreach.trans hstep)
          (List.forall_mem_append.mpr ⟨hall, forall_mem_exprsNodes.mpr hargs⟩) rfl
      · rename_i hkind
        refine (gives_name_again hd'.plain).bind fun property f hf hname => ?_
        have hstep := hsign.1.trans hname.1
        exact ih f.size (Nat.lt_trans hf hd) _
          (hhangs.resumes hstep (resumes_member hsign hkind hname)) (hreach.trans hstep) hall rfl
      · rename_i hkind
        refine (hn.item d _ hd').bind fun key f hf hkey => ?_
        have hf' := hd'.of_reaches hkey.1.1
        refine (gives_expect_again hf'.plain (.punctuation .rBracket)).bind fun _ g hg hclose => ?_
        have hstep := (hsign.1.trans hkey.1.1).trans hclose.1
        exact ih g.size (Cursor.size_lt₃ hg hf hd) _
          (hhangs.resumes hstep (resumes_index hsign hkind hkey.1 hclose)) (hreach.trans hstep)
          (List.forall_mem_append.mpr ⟨hall, hkey.2⟩) rfl
      · rename_i hparen hdot hbracket
        split
        · rename_i op hop
          refine .check fun _ htarget => ?_
          exact ih d.size hd _ (hhangs.resumes hsign.1 (resumes_update hsign hop htarget))
            (hreach.trans hsign.1) hall rfl
        · rename_i hnone
          refine .ok (hhangs.stops hc₀ hreach ?_ hall) _
          rw [kind, ← token_of_next? hnext]
          exact TokenKind.isPostfix_eq_false hparen hdot hbracket hnone

theorem checkTarget_first {e : Expr} {first : TokenKind} {u : Unit} (first' : TokenKind)
    (h : checkTarget e first = .ok u) : checkTarget e first' = .ok u := by
  cases e with
  | ident | member | index => exact h
  | _ => cases h

theorem settles_unary (c : Cursor) (hn : Settled tokens c.size) (hc : c.On tokens) :
    Gives (Settles tokens ReadsUnary c) (unary c (rules c.size)) := by
  rw [unary]
  split
  · rename_i op d hd hop
    have hsign := again_take? hc.plain hop
    have hd' := hc.of_reaches hsign.1
    rw [rules_unary]
    refine (hn.unary d hd hd').bind fun argument e he hargument => ?_
    refine .check fun _ htarget => ?_
    have hreach := hsign.1.trans hargument.again.1
    have hagain : c.Again ReadsUnary
        (.update ⟨c.start, argument.span.stop⟩ op true argument) e := by
      refine ⟨hreach, fun k hk => ?_⟩
      have hkd := hk.mono hargument.again.1
      obtain ⟨hltd, hop'⟩ := hsign.2 k hkd
      rw [ReadsUnary, unary, hop']
      refine ((hargument.again.2 k hk).arrives _ hltd).bind fun _ => ?_
      dsimp only
      rw [checkTarget_first _ htarget, start_cut hc.plain ((hkd.before hsign.1 hd))]
      exact .ok _
    have hroot : Rereads tokens ReadsExpression
        (.update ⟨c.start, argument.span.stop⟩ op true argument) :=
      ⟨c, e, hc.2, hreach.rest, fun k hk => (hagain.2 k ⟨[], hk⟩).whole (closes_cut hk.symm)⟩
    exact .ok ⟨hagain, Expr.everywhere_update.mpr ⟨hroot, hargument.nodes⟩⟩ _
  · rename_i hnone
    refine (settles_primary c hn hc).bind fun e d hd he => ?_
    refine settles_postfixes hn hc hd (fun k hk => ?_) he.1.1 he.2
    obtain ⟨hltd, hprimary⟩ := he.1.2 k hk
    have hkc := hk.before he.1.1 hd
    refine ⟨hltd, ?_⟩
    rw [unary, take?_cut_eq_none hc.plain hkc.within hnone rfl rfl, hprimary, kind_cut hc.plain hkc]
    rfl

/-! ## Operators between operands -/

/-- Wherever the tokens are cut at `c` or after it, reading operands at `c₀` is going on with the
    operators after `left`. -/
def Leads (least : Nat) (c₀ : Cursor) (left : Expr) (c : Cursor) : Prop :=
  ∀ k : Cut, k.Within c → ∃ h, binary least (k.cursor c₀) (rules (k.cursor c₀).size) =
    operands (rules (k.cursor c₀).size) least left (k.cursor c) h

variable {least : Nat} {c₀ c : Cursor} {left : Expr}

theorem settles_operands (hn : Settled tokens n) (hc₀ : c₀.On tokens) (h : c.size < n)
    (hleads : Leads least c₀ left c) (hreach : c₀.Reaches c)
    (hnodes : left.Everywhere (Node.Rereads tokens)) :
    Gives (Settles tokens (ReadsBinary least) c₀) (operands (rules n) least left c h) := by
  induction hk : c.size using Nat.strongRecOn generalizing c left with
  | ind k ih =>
    subst hk
    have hc := hc₀.of_reaches hreach
    rw [operands]
    split
    · rename_i hnone
      refine .ok ⟨⟨hreach, fun k hk => ?_⟩, hnodes⟩ _
      obtain ⟨hlt, heq⟩ := hleads k hk
      rw [ReadsBinary, heq, operands, take?_cut_eq_none hc.plain hk hnone rfl rfl]
      exact .ok _
    · rename_i op d hd hop
      have hsign := again_take? hc.plain hop
      have hd' := hc.of_reaches hsign.1
      rw [rules_binary]
      refine (hn.binary _ d (Nat.lt_trans hd h) hd').bind fun right e he hright => ?_
      have hreach' := (hreach.trans hsign.1).trans hright.again.1
      have hleads' : Leads least c₀ (.binary (left.span.merge right.span) op left right) e := by
        intro k hk
        have hkd := hk.mono hright.again.1
        obtain ⟨hltc, heq⟩ := hleads k (hkd.mono hsign.1)
        obtain ⟨hltd, hop'⟩ := hsign.2 k hkd
        obtain ⟨hlte, hright'⟩ := (hright.again.2 k hk).arrives _ (Nat.lt_trans hltd hltc)
        refine ⟨Cursor.size_lt₃ hlte hltd hltc, ?_⟩
        rw [heq, operands, hop']
        dsimp only
        rw [hright']
        rfl
      refine ih e.size (Nat.lt_trans he hd) _ hleads' hreach' ?_ rfl
      refine Expr.everywhere_binary.mpr ⟨⟨c₀, e, hc₀.2, hreach'.rest, fun k hk => ?_⟩, hnodes,
        hright.nodes⟩
      have hcloses := closes_cut (k := k) hk.symm
      obtain ⟨hlt, heq⟩ := hleads' k ⟨[], hk⟩
      have hbinary : ReadsBinary least (k.cursor c₀)
          (.binary (left.span.merge right.span) op left right) (k.cursor e) := by
        rw [ReadsBinary, heq, operands, take?_eq_none_of_closes hcloses rfl rfl]
        exact .ok _
      exact hbinary.whole hcloses

theorem settles_binary (least : Nat) (c : Cursor) (hn : Settled tokens c.size) (hc : c.On tokens) :
    Gives (Settles tokens (ReadsBinary least) c) (binary least c (rules c.size)) := by
  refine (settles_unary c hn hc).bind fun left d hd hleft => ?_
  refine settles_operands hn hc hd (fun k hk => ?_) hleft.again.1 hleft.nodes
  obtain ⟨hlt, heq⟩ := hleft.again.2 k hk
  refine ⟨hlt, ?_⟩
  rw [binary, heq]
  rfl

theorem settles_expression (c : Cursor) (hn : Settled tokens c.size) (hc : c.On tokens) :
    Gives (Settles tokens ReadsExpression c) (expression c (rules c.size)) := by
  refine (settles_binary 0 c hn hc).bind fun target d hd ht => ?_
  have hd' := hc.of_reaches ht.again.1
  dsimp only
  split
  · rename_i hnone
    refine .ok ⟨⟨ht.again.1, fun k hk => ?_⟩, ht.nodes⟩ _
    refine Arrives.bind (ht.again.2 k hk) fun _ => ?_
    dsimp only
    rw [take?_cut_eq_none hd'.plain hk hnone rfl rfl]
    exact .ok _
  · rename_i op e he hop
    have hsign := again_take? hd'.plain hop
    have he' := hd'.of_reaches hsign.1
    refine .check fun _ htarget => ?_
    refine (hn.item e _ he').bind fun value f hf hvalue => ?_
    have hagain : c.Again ReadsExpression
        (.assign (target.span.merge value.span) op target value) f := by
      refine ⟨(ht.again.1.trans hsign.1).trans hvalue.1.1, fun k hk => ?_⟩
      have hke := hk.mono hvalue.1.1
      obtain ⟨hlte, hop'⟩ := hsign.2 k hke
      refine Arrives.bind (ht.again.2 k (hke.mono hsign.1)) fun _ => ?_
      dsimp only
      rw [hop']
      dsimp only
      rw [checkTarget_first _ htarget]
      exact (hvalue.1.2 k hk _ _).bind fun _ => .ok _
    exact .ok ⟨hagain, Expr.everywhere_assign.mpr ⟨hagain.rereads hc, ht.nodes, hvalue.2⟩⟩ _

end Grammar

end CurlyScript
