import CurlyScript.Proofs.Grammar.Reread
import CurlyScript.Proofs.Grammar.Statement

/-
  Statements read again from their own tokens.

  A statement may end with a semicolon or not, and one that ends without does so because of the next
  token.  Neither the end of the text nor a closing parenthesis there makes it longer.  A part of a
  loop's head may be missing altogether, so it is only read again before the sign that follows it.
-/

namespace CurlyScript

namespace Grammar

open Cursor

variable {tokens : List Token} {n : Nat}

/-! ## Statements -/

theorem settles_nested (hn : Settled tokens n) (c : Cursor) (h : c.size < n) (hc : c.On tokens) :
    Gives (fun s d => (c.Repeats (fun n => nested (rules n)) s d ∧ Rereads tokens ReadsStatement s ∧
          s.Everywhere (Node.Rereads tokens)) ∧ d.size < c.size) (nested (rules n) c h) := by
  have hskip : c.skipComments = c := hc.plain.skipComments_eq
  have hon : c.skipComments.On tokens := hskip.symm ▸ hc
  refine (hn.line c.skipComments _ hon).bind fun s d hd hs => ?_
  rw [hskip] at hs hd
  refine .ok ⟨⟨⟨hs.1.1, fun k hk n h => ?_⟩, hs.2⟩, hd⟩ _
  have hskip' : (k.cursor c).skipComments = k.cursor c :=
    skipComments_cut hc.plain (hk.before hs.1.1 hd)
  have hline : ∀ {c' : Cursor} (_ : c' = k.cursor c) (h' : c'.size < n),
      Arrives s (k.cursor d) ((rules n).statement c' h') := by
    rintro _ rfl h'
    exact hs.1.2 k hk n h'
  exact (hline hskip' _).bind fun _ => .ok _

/-- What a declaration goes on with. -/
theorem settles_declared (hn : Settled tokens n) (c : Cursor) (h : c.size < n) (hc : c.On tokens) :
    Gives (fun p d => c.Repeats (fun n => declared (rules n)) p d ∧ d.size < c.size ∧
          ∀ e ∈ p.2, e.Everywhere (Node.Rereads tokens)) (declared (rules n) c h) := by
  refine (gives_name_again hc.plain).bind fun name d hd hname => ?_
  have hd' := hc.of_reaches hname.1
  dsimp only
  split
  · rename_i hnone
    refine .ok ⟨⟨hname.1, fun k hk n h => ?_⟩, hd, by rintro _ ⟨⟩⟩ _
    refine (hname.2 k hk).bind fun _ => ?_
    dsimp only
    rw [accept?_cut_eq_none hd'.plain hk hnone (by decide) (by decide)]
    exact .ok _
  · rename_i t e he heq
    have hsign := again_accept? hd'.plain heq
    refine (hn.item e _ (hd'.of_reaches hsign.1)).bind fun init f hf hinit => ?_
    refine .ok ⟨⟨(hname.1.trans hsign.1).trans hinit.1.1, fun k hk n h => ?_⟩,
      Cursor.size_lt₃ hf he hd, fun x hx => Option.some.inj hx ▸ hinit.2⟩ _
    have hke := hk.mono hinit.1.1
    obtain ⟨hlte, hsign'⟩ := hsign.2 k hke
    refine (hname.2 k (hke.mono hsign.1)).bind fun _ => ?_
    dsimp only
    rw [hsign']
    exact (hinit.1.2 k hk n _).bind fun _ => .ok _

/-- A part of a loop's head may be left out, so it is read again only before the sign after it. -/
theorem settles_clause (stop : Punctuation) (hn : Settled tokens n) (c : Cursor) (h : c.size < n)
    (hc : c.On tokens) :
    Gives (fun o d => c.Reaches d ∧ d.size ≤ c.size ∧
        (∀ k : Cut, k.Before d → ∀ n (h : (k.cursor c).size < n),
          Arrives o (k.cursor d) (clause stop (rules n) (k.cursor c) h)) ∧
        ∀ e ∈ o, e.Everywhere (Node.Rereads tokens)) (clause stop (rules n) c h) := by
  rw [clause]
  split
  · rename_i hstop
    refine .ok ⟨.refl c, Nat.le_refl _, fun k hk n h => ?_, by rintro _ ⟨⟩⟩ _
    rw [clause, kind_cut hc.plain hk, if_pos hstop]
    exact .ok _
  · rename_i hstop
    refine (hn.item c h hc).bind fun e d hd he => ?_
    refine .ok ⟨he.1.1, Nat.le_of_lt hd, fun k hk n h => ?_,
      fun x hx => Option.some.inj hx ▸ he.2⟩ _
    rw [clause, kind_cut hc.plain (hk.within.before he.1.1 hd), if_neg hstop]
    exact (he.1.2 k hk.within n h).bind fun _ => .ok _

theorem settles_loopInit (hn : Settled tokens n) (c : Cursor) (h : c.size < n) (hc : c.On tokens) :
    Gives (fun i d => c.Reaches d ∧ d.size ≤ c.size ∧
        (∀ k : Cut, k.Before d → ∀ n (h : (k.cursor c).size < n),
          Arrives i (k.cursor d) (loopInit (rules n) (k.cursor c) h)) ∧
        (∀ x, i = some (.decl x) → x.Everywhere (Node.Rereads tokens)) ∧
          ∀ e, i = some (.expr e) → e.Everywhere (Node.Rereads tokens))
      (loopInit (rules n) c h) := by
  rw [loopInit]
  split
  · rename_i kind d hd hkind
    have hsign := again_take? hc.plain hkind
    have hd' := hc.of_reaches hsign.1
    refine (settles_declared hn d _ hd').bind ?_
    rintro ⟨name, init⟩ e he ⟨hdeclared, hlt, hinit⟩
    refine .ok ⟨hsign.1.trans hdeclared.1, Nat.le_of_lt (Nat.lt_trans hlt hd),
      fun k hk n h => ?_, ?_, by rintro _ ⟨⟩⟩ _
    · have hke := hk.within
      have hkd := hke.mono hdeclared.1
      obtain ⟨hltd, hkind'⟩ := hsign.2 k hkd
      rw [loopInit, hkind']
      refine (hdeclared.2 k hke n _).bind fun _ => ?_
      dsimp only
      rw [start_cut hc.plain (hkd.before hsign.1 hd)]
      exact .ok _
    · rintro _ ⟨⟩
      exact Decl.everywhere_mk.mpr ⟨fun _ hs => absurd hs List.not_mem_nil, hinit⟩
  · rename_i hnone
    refine (settles_clause .semicolon hn c h hc).map fun o d ho => ?_
    refine ⟨ho.1, ho.2.1, fun k hk n h => ?_, ?_, ?_⟩
    · rw [loopInit, take?_cut_eq_none hc.plain (hk.within.mono ho.1) hnone rfl rfl]
      exact (ho.2.2.1 k hk n h).map
    · rintro x hx
      cases o <;> cases hx
    · rintro e hx
      cases o with
      | none => cases hx
      | some e' =>
        obtain rfl : e' = e := by simpa using hx
        exact ho.2.2.2 e' rfl

theorem settles_function (hn : Settled tokens n) (start : Nat) (c : Cursor) (h : c.size < n)
    (hc : c.On tokens) :
    Gives (fun s d => c.Repeats (fun n => function (rules n) start) s d ∧
        s.Everywhere (Node.Rereads tokens)) (function (rules n) start c h) := by
  refine (gives_name_again hc.plain).bind fun name d hd hname => ?_
  have hd' := hc.of_reaches hname.1
  refine (gives_expect_again hd'.plain (.punctuation .lParen)).bind fun _ e he hopen => ?_
  have he' := hd'.of_reaches hopen.1
  have hparam : ∀ c (_ : c.size < n), c.On tokens →
      Gives (fun s d => c.Repeats (fun _ c _ => Grammar.name c) s d ∧ True) (Grammar.name c) :=
    fun c _ hc => (gives_name_again hc.plain).mono
      fun _ _ hs => ⟨⟨hs.1, fun k hk _ _ => hs.2 k hk⟩, trivial⟩
  refine (gives_delimited_again .rParen hparam false e _ he').bind ?_
  rintro ⟨params, comma⟩ f hf ⟨hparams, hlt, -⟩
  have hf' := he'.of_reaches hparams.1
  refine (gives_expect_again hf'.plain (.punctuation .lBrace)).bind fun _ g hg hbrace => ?_
  have hg' := hf'.of_reaches hbrace.1
  refine (gives_untilBrace_again hn.line g _ hg').bind fun body i hi hbody => ?_
  have hreach := (((hname.1.trans hopen.1).trans hparams.1).trans hbrace.1).trans hbody.1.1
  refine .ok ⟨⟨hreach, fun k hk n h => ?_⟩, ?_⟩ _
  · have hkg := hk.mono hbody.1.1
    have hkf := hkg.mono hbrace.1
    have hke := hkf.mono hparams.1
    refine (hname.2 k (hke.mono hopen.1)).bind fun _ => ?_
    refine (hopen.2 k hke).bind fun _ => ?_
    refine (hparams.2 k hkf n _).bind fun _ => ?_
    refine (hbrace.2 k hkg).bind fun _ => ?_
    exact (hbody.1.2 k hk n _).bind fun _ => .ok _
  · refine Statement.everywhere_function.mpr ⟨fun _ hs => absurd hs List.not_mem_nil,
      fun s hs => (hbody.2.2 s hs).1, fun s hs => (hbody.2.2 s hs).2⟩

theorem settles_conditional (hn : Settled tokens n) (start : Nat) (c : Cursor) (h : c.size < n)
    (hc : c.On tokens) :
    Gives (fun s d => c.Repeats (fun n => conditional (rules n) start) s d ∧
        s.Everywhere (Node.Rereads tokens)) (conditional (rules n) start c h) := by
  refine (gives_expect_again hc.plain (.punctuation .lParen)).bind fun _ d hd hopen => ?_
  have hd' := hc.of_reaches hopen.1
  refine (hn.item d _ hd').bind fun test e he htest => ?_
  have he' := hd'.of_reaches htest.1.1
  refine (gives_expect_again he'.plain (.punctuation .rParen)).bind fun _ f hf hclose => ?_
  have hf' := he'.of_reaches hclose.1
  refine (settles_nested hn f _ hf').bind fun consequent g hg hconsequent => ?_
  have hg' := hf'.of_reaches hconsequent.1.1.1
  have hreach := ((hopen.1.trans htest.1.1).trans hclose.1).trans hconsequent.1.1.1
  dsimp only
  split
  · rename_i hnone
    refine .ok ⟨⟨hreach, fun k hk n h => ?_⟩, ?_⟩ _
    · have hkf := hk.mono hconsequent.1.1.1
      have hke := hkf.mono hclose.1
      refine (hopen.2 k (hke.mono htest.1.1)).bind fun _ => ?_
      refine (htest.1.2 k hke n _).bind fun _ => ?_
      refine (hclose.2 k hkf).bind fun _ => ?_
      refine (hconsequent.1.1.2 k hk n _).bind fun _ => ?_
      dsimp only
      rw [accept?_cut_eq_none hg'.plain hk hnone (by decide) (by decide)]
      exact .ok _
    · refine Statement.everywhere_cond.mpr ⟨?_, htest.2, hconsequent.1.2.2, by rintro _ ⟨⟩⟩
      exact List.forall_mem_singleton.mpr hconsequent.1.2.1
  · rename_i t i hi helse
    have hsign := again_accept? hg'.plain helse
    refine (settles_nested hn i _ (hg'.of_reaches hsign.1)).bind fun alternate j hj ha => ?_
    refine .ok ⟨⟨(hreach.trans hsign.1).trans ha.1.1.1, fun k hk n h => ?_⟩, ?_⟩ _
    · have hki := hk.mono ha.1.1.1
      have hkg := hki.mono hsign.1
      have hkf := hkg.mono hconsequent.1.1.1
      have hke := hkf.mono hclose.1
      obtain ⟨hlti, hsign'⟩ := hsign.2 k hki
      refine (hopen.2 k (hke.mono htest.1.1)).bind fun _ => ?_
      refine (htest.1.2 k hke n _).bind fun _ => ?_
      refine (hclose.2 k hkf).bind fun _ => ?_
      refine (hconsequent.1.1.2 k hkg n _).bind fun _ => ?_
      dsimp only
      rw [hsign']
      exact (ha.1.1.2 k hk n _).bind fun _ => .ok _
    · refine Statement.everywhere_cond.mpr ⟨?_, htest.2, hconsequent.1.2.2,
        fun x hx => Option.some.inj hx ▸ ha.1.2.2⟩
      exact List.forall_mem_cons.mpr ⟨hconsequent.1.2.1, List.forall_mem_singleton.mpr ha.1.2.1⟩

theorem settles_loop (hn : Settled tokens n) (start : Nat) (c : Cursor) (h : c.size < n)
    (hc : c.On tokens) :
    Gives (fun s d => c.Repeats (fun n => loop (rules n) start) s d ∧
        s.Everywhere (Node.Rereads tokens)) (loop (rules n) start c h) := by
  refine (gives_expect_again hc.plain (.punctuation .lParen)).bind fun _ d hd hopen => ?_
  have hd' := hc.of_reaches hopen.1
  refine (settles_loopInit hn d _ hd').bind fun init e he hinit => ?_
  have he' := hd'.of_reaches hinit.1
  refine (gives_expect_again he'.plain (.punctuation .semicolon)).bind fun _ f hf hsign => ?_
  have hf' := he'.of_reaches hsign.1
  refine (settles_clause .semicolon hn f _ hf').bind fun test g hg htest => ?_
  have hg' := hf'.of_reaches htest.1
  refine (gives_expect_again hg'.plain (.punctuation .semicolon)).bind fun _ i hi hsign' => ?_
  have hi' := hg'.of_reaches hsign'.1
  refine (settles_clause .rParen hn i _ hi').bind fun update j hj hupdate => ?_
  have hj' := hi'.of_reaches hupdate.1
  refine (gives_expect_again hj'.plain (.punctuation .rParen)).bind fun _ k hk hclose => ?_
  refine (settles_nested hn k _ (hj'.of_reaches hclose.1)).bind fun body l hl hbody => ?_
  refine .ok ⟨⟨?_, fun cut hcut n h => ?_⟩, ?_⟩ _
  · exact (((((((hopen.1.trans hinit.1).trans hsign.1).trans htest.1).trans hsign'.1).trans
      hupdate.1).trans hclose.1).trans hbody.1.1.1)
  · have hk := hcut.mono hbody.1.1.1
    have hkj := hk.before hclose.1 ‹k.size < j.size›
    have hki := hkj.within.mono hupdate.1
    have hkg := hki.before hsign'.1 hi
    have hkf := hkg.within.mono htest.1
    have hke := hkf.before hsign.1 hf
    refine (hopen.2 cut (hke.within.mono hinit.1)).bind fun _ => ?_
    refine (hinit.2.2.1 cut hke n _).bind fun _ => ?_
    refine (hsign.2 cut hkf).bind fun _ => ?_
    refine (htest.2.2.1 cut hkg n _).bind fun _ => ?_
    refine (hsign'.2 cut hki).bind fun _ => ?_
    refine (hupdate.2.2.1 cut hkj n _).bind fun _ => ?_
    refine (hclose.2 cut hk).bind fun _ => ?_
    exact (hbody.1.1.2 cut hcut n _).bind fun _ => .ok _
  · exact Statement.everywhere_loop.mpr ⟨List.forall_mem_singleton.mpr hbody.1.2.1, hinit.2.2.2,
      htest.2.2.2, hupdate.2.2.2, hbody.1.2.2⟩

theorem settles_returning (hn : Settled tokens n) (start : Nat) (c : Cursor) (h : c.size < n)
    (hc : c.On tokens) :
    Gives (fun s d => c.Repeats (fun n => returning (rules n) start) s d ∧
        s.Everywhere (Node.Rereads tokens)) (returning (rules n) start c h) := by
  rw [returning]
  split
  · rename_i hbegins
    have hargument : Gives (n := n) (fun o d => c.Repeats (fun n c h =>
          ((rules n).expression c h).map fun s =>
            (⟨some s.value, s.rest, Nat.lt_trans s.lt h⟩ : Step n _)) o d ∧
          d.size < c.size ∧ ∀ e ∈ o, e.Everywhere (Node.Rereads tokens))
        (((rules n).expression c h).map fun s =>
          (⟨some s.value, s.rest, Nat.lt_trans s.lt h⟩ : Step n _)) :=
      (hn.item c h hc).lt.map_step fun s hs => ⟨⟨hs.1.1.1, fun k hk n h =>
        (hs.1.1.2 k hk n h).map_step fun _ => ⟨rfl, rfl⟩⟩, hs.2,
          fun x hx => Option.some.inj hx ▸ hs.1.2⟩
    refine hargument.bind fun argument d hd ha => ?_
    have hd' := hc.of_reaches ha.1.1
    have hreach := Reaches.past d (.punctuation .semicolon)
    refine Gives.ok ⟨⟨ha.1.1.trans hreach, fun k hk n h => ?_⟩,
      Statement.everywhere_ret.mpr ⟨fun _ hs => absurd hs List.not_mem_nil, ha.2.2⟩⟩ _
    have hkd := hk.mono hreach
    rw [returning, kind_cut hc.plain (hkd.before ha.1.1 ha.2.1), if_pos hbegins]
    refine (ha.1.2 k hkd n h).bind fun _ => ?_
    exact arrives_ended hd'.plain hk (Statement.ret · argument) start _
  · rename_i hbegins
    have hreach := Reaches.past c (.punctuation .semicolon)
    refine Gives.ok ⟨⟨hreach, fun k hk n h => ?_⟩,
      Statement.everywhere_ret.mpr ⟨fun _ hs => absurd hs List.not_mem_nil, by rintro _ ⟨⟩⟩⟩ _
    have hnot : (k.cursor c).kind.beginsExpression = false := by
      rcases (hk.mono hreach).cases with hr | hbefore
      · rcases kind_of_closes (closes_cut hr) with hkind | hkind <;> rw [hkind] <;> rfl
      · rw [kind_cut hc.plain hbefore]
        exact Bool.eq_false_iff.mpr hbegins
    rw [returning, if_neg (by rw [hnot]; exact Bool.noConfusion)]
    exact arrives_ended hc.plain hk (Statement.ret · none) start _

theorem settles_declaration (hn : Settled tokens n) (start : Nat) (kind : DeclKind) (c : Cursor)
    (h : c.size < n) (hc : c.On tokens) :
    Gives (fun s d => c.Repeats (fun n => declaration (rules n) start kind) s d ∧
        s.Everywhere (Node.Rereads tokens)) (declaration (rules n) start kind c h) := by
  refine (settles_declared hn c h hc).bind ?_
  rintro ⟨name, init⟩ d hd ⟨hdeclared, hlt, hinit⟩
  have hd' := hc.of_reaches hdeclared.1
  have hreach := Reaches.past d (.punctuation .semicolon)
  refine Gives.ok ⟨⟨hdeclared.1.trans hreach, fun k hk n h => ?_⟩, ?_⟩ _
  · refine (hdeclared.2 k (hk.mono hreach) n h).bind fun _ => ?_
    exact arrives_ended hd'.plain hk (fun sp => Statement.decl (.mk sp kind name init)) start _
  · exact Statement.everywhere_decl.mpr ⟨fun _ hs => absurd hs List.not_mem_nil,
      Decl.everywhere_mk.mpr ⟨fun _ hs => absurd hs List.not_mem_nil, hinit⟩⟩

theorem settles_expressionStatement (c : Cursor) (hn : Settled tokens c.size) (hc : c.On tokens) :
    Gives (fun s d => c.Again
        (fun c s d => Arrives s d (expressionStatement c (rules c.size))) s d ∧
          s.Everywhere (Node.Rereads tokens)) (expressionStatement c (rules c.size)) := by
  refine (settles_expression c hn hc).bind fun x d hd hx => ?_
  have hd' := hc.of_reaches hx.again.1
  have hreach := Reaches.past d (.punctuation .semicolon)
  refine Gives.ok ⟨⟨hx.again.1.trans hreach, fun k hk => ?_⟩,
    Statement.everywhere_expr.mpr ⟨fun _ hs => absurd hs List.not_mem_nil, hx.nodes⟩⟩ _
  have hkd := hk.mono hreach
  refine Arrives.bind (hx.again.2 k hkd) fun _ => ?_
  dsimp only
  rw [start_cut hc.plain (hkd.before hx.again.1 hd)]
  exact arrives_ended hd'.plain hk (Statement.expr · x) c.start _

theorem settles_block (hn : Settled tokens n) (start : Nat) (c : Cursor) (h : c.size < n)
    (hc : c.On tokens) :
    Gives (fun s d => c.Repeats (fun n c h => do
        let ⟨body, e, he⟩ ← untilBrace (rules n).statement c h
        .ok (⟨.block (e.spanFrom start) body, e, he⟩ : Step n Statement)) s d ∧
          s.Everywhere (Node.Rereads tokens)) (do
      let ⟨body, e, he⟩ ← untilBrace (rules n).statement c h
      .ok (⟨.block (e.spanFrom start) body, e, he⟩ : Step n Statement)) := by
  refine (gives_untilBrace_again hn.line c h hc).bind fun body e he hbody => ?_
  refine .ok ⟨⟨hbody.1.1, fun k hk n h => (hbody.1.2 k hk n h).bind fun _ => .ok _⟩, ?_⟩ _
  exact Statement.everywhere_block.mpr ⟨fun _ hs => absurd hs List.not_mem_nil,
    fun s hs => (hbody.2.2 s hs).1, fun s hs => (hbody.2.2 s hs).2⟩

theorem settles_statement (c : Cursor) (hn : Settled tokens c.size) (hc : c.On tokens) :
    Gives (SettlesLine tokens ReadsStatement c) (statement c (rules c.size)) := by
  have hnone := hc.plain.comment?_eq_none
  rw [statement, hnone]
  dsimp only
  split
  · exact .error _
  · rename_i t d hd hnext
    have hfirst := again_next? hc.plain hnext
    have hd' := hc.of_reaches hfirst.1
    -- a statement that its keyword or brace tells goes on after that, here and in the cut tokens
    have hgo : ∀ {x : Read (Step c.size Statement)}
        (y : (n : Nat) → (c : Cursor) → c.size < n → Read (Step n Statement)),
        (∀ {c' d'} {hlt : d'.size < c'.size}, c'.comment? = none →
          c'.next? = some ⟨t, d', hlt⟩ → statement c' (rules c'.size) = y _ d' hlt) →
        Gives (fun s e => d.Repeats y s e ∧ s.Everywhere (Node.Rereads tokens)) x →
        Gives (SettlesLine tokens ReadsStatement c) x := by
      intro x y hy hx
      refine hx.mono fun s e hs => ⟨⟨hfirst.1.trans hs.1.1, fun k hk => ?_⟩, hs.2⟩
      have hkd := hk.mono hs.1.1
      obtain ⟨hlt, hnext'⟩ := hfirst.2 k hkd
      rw [ReadsStatement, hy (comment?_cut hc.plain (hkd.before hfirst.1 hd)) hnext']
      exact hs.1.2 k hk _ hlt
    split
    · rename_i hk
      exact hgo (fun n => declaration (rules n) t.span.start .const)
        (fun hc hn => by simp only [statement, hc, hn, hk])
        (settles_declaration hn _ .const d hd hd')
    · rename_i hk
      exact hgo (fun n => declaration (rules n) t.span.start .let_)
        (fun hc hn => by simp only [statement, hc, hn, hk])
        (settles_declaration hn _ .let_ d hd hd')
    · rename_i hk
      exact hgo (fun n => declaration (rules n) t.span.start .var)
        (fun hc hn => by simp only [statement, hc, hn, hk])
        (settles_declaration hn _ .var d hd hd')
    · rename_i hk
      exact hgo (fun n => function (rules n) t.span.start)
        (fun hc hn => by simp only [statement, hc, hn, hk]) (settles_function hn _ d hd hd')
    · rename_i hk
      exact hgo (fun n => returning (rules n) t.span.start)
        (fun hc hn => by simp only [statement, hc, hn, hk]) (settles_returning hn _ d hd hd')
    · rename_i hk
      exact hgo (fun n => conditional (rules n) t.span.start)
        (fun hc hn => by simp only [statement, hc, hn, hk]) (settles_conditional hn _ d hd hd')
    · rename_i hk
      exact hgo (fun n => loop (rules n) t.span.start)
        (fun hc hn => by simp only [statement, hc, hn, hk]) (settles_loop hn _ d hd hd')
    · rename_i hk
      exact hgo _ (fun hc hn => by simp only [statement, hc, hn, hk])
        (settles_block hn t.span.start d hd hd')
    · rename_i hbrace
      split
      · rename_i hbegins
        refine (settles_expressionStatement c hn hc).lt.mono fun s e hs =>
          ⟨⟨hs.1.1.1, fun k hk => ?_⟩, hs.1.2⟩
        have hkc := hk.before hs.1.1.1 hs.2
        have hkd : k.Within d := by
          obtain ⟨u, us, hr⟩ := hkc
          rw [(hc.plain.eq_of_next? hnext).1] at hr
          exact ⟨us, (List.cons.inj hr).2.symm⟩
        obtain ⟨hlt, hnext'⟩ := hfirst.2 k hkd
        rw [ReadsStatement, Statement.statement_eq_expression (comment?_cut hc.plain hkc) hnext'
          hbegins hbrace]
        exact hs.1.1.2 k hk
      · exact .error _

/-! ## All rules -/

/-- Nothing is read that would not be read again from its own tokens. -/
theorem settled (tokens : List Token) : ∀ n, Settled tokens n
  | 0 => {
      expression := fun _ h => absurd h (Nat.not_lt_zero _)
      binary := fun _ _ h => absurd h (Nat.not_lt_zero _)
      unary := fun _ h => absurd h (Nat.not_lt_zero _)
      statement := fun _ h => absurd h (Nat.not_lt_zero _) }
  | n + 1 => {
      expression := fun c h => settles_expression c ((settled tokens n).mono (Nat.le_of_lt_succ h))
      binary := fun least c h =>
        settles_binary least c ((settled tokens n).mono (Nat.le_of_lt_succ h))
      unary := fun c h => settles_unary c ((settled tokens n).mono (Nat.le_of_lt_succ h))
      statement := fun c h =>
        settles_statement c ((settled tokens n).mono (Nat.le_of_lt_succ h)) }

end Grammar

end CurlyScript
