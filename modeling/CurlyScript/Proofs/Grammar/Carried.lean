import CurlyScript.Proofs.Grammar.Barrier
import CurlyScript.Proofs.Grammar.Spliced
import CurlyScript.Proofs.Grammar.Statement

/-
  Statements and programs are carried over splices.

  A statement that may end with a semicolon ends with the mark, or does without it.  Where a
  statement ends the mark does not come next, so what goes on with `else` or not goes on so in the
  spliced tokens.  The heads of `if` and of loops need every sign that they have.
-/

namespace CurlyScript

open Writing

namespace Grammar

open Cursor Splice

variable {k : Splice} {n : Nat}

/-! ## Parts of statements -/

theorem carries_line (hk : k.Fits) (hn : Carried k n) (c : Cursor) (h : c.size < n)
    (hc : c.On k.tokens) :
    Gives (fun s d => (d.On k.tokens ∧ ¬k.At c) ∧
        k.Carries (¬k.At d ∧ k.Clears (.statement s)) s.Moved
          (fun c s d => ∀ n h, Arrives s d ((rules n).statement c h)) c d)
      ((rules n).statement c h) :=
  (hn.line hk c h hc).mono fun _ _ hs => ⟨hs.1.2, hs.2⟩

theorem carries_param (hk : k.Fits) (c : Cursor) (_ : c.size < n) (hc : c.On k.tokens) :
    Gives (fun s d => (d.On k.tokens ∧ ¬k.At c) ∧
        k.Carries ((k.At d → k.Quiet) ∧ True)
          (fun s' => s'.rewrite .unspanned = s.rewrite .unspanned)
          (fun c s d => ∀ n (_ : c.size < n), Arrives s d (name c)) c d) (name c) := by
  refine (gives_name_carried hk hc).mono fun s d hs => ⟨hs.1.2, fun _ c' hm => ?_⟩
  obtain ⟨d', hmd, hread⟩ := hs.2 c' hm
  exact ⟨s, d', rfl, hmd, fun _ _ => hread⟩

theorem carries_nested (hk : k.Fits) (hn : Carried k n) (c : Cursor) (h : c.size < n)
    (hc : c.On k.tokens) :
    Gives (fun s d => (c.Passes s.writings d ∧ d.On k.tokens ∧ ¬k.At c) ∧
        k.CarriesLine (fun c s d => ∀ n h, Arrives s d (nested (rules n) c h)) c s d)
      (nested (rules n) c h) := by
  have hskip : c.skipComments = c := hc.plain.skipComments_eq
  have hon : c.skipComments.On k.tokens := hskip.symm ▸ hc
  refine (hn.line hk c.skipComments _ hon).bind fun s d hd hs => ?_
  rw [hskip] at hs
  refine .ok ⟨hs.1, fun hgiven c' hm => ?_⟩ _
  obtain ⟨s', d', hmoved, hmd, hread⟩ := hs.2 hgiven c' hm
  have hskip' : c'.skipComments = c' := hm.skipComments_eq hc.plain hs.1.2.2
  have hline : ∀ {e : Cursor} (_ : e = c') (n : Nat) (h : e.size < n),
      Arrives s' d' ((rules n).statement e h) := by
    rintro _ rfl n h
    exact hread n h
  exact ⟨s', d', hmoved, hmd, fun n h => (hline hskip' n _).bind fun _ => .ok _⟩

theorem carries_declared (hk : k.Fits) (hn : Carried k n) (c : Cursor) (h : c.size < n)
    (hc : c.On k.tokens) :
    Gives (fun p d => (c.Passes (Writing.name p.1 * optionWritings (operator .eq) p.2) d ∧
          d.On k.tokens) ∧
        k.Carries ((k.At d → p.2.isSome = true → k.Quiet) ∧ ∀ e ∈ p.2, k.Clears (.expr e))
          (fun p' => p'.1 = p.1 ∧
            p'.2.map (Expr.rewrite .unspanned) = p.2.map (Expr.rewrite .unspanned))
          (fun c p d => ∀ n h, Arrives p d (declared (rules n) c h)) c d)
      (declared (rules n) c h) := by
  refine (gives_declared (rules_derive n) c h (hk.tidy hc)).given ?_
  refine (gives_name_carried hk hc).bind fun name d hd hname => ?_
  obtain ⟨⟨-, hd', -⟩, hname⟩ := hname
  dsimp only
  split
  · rename_i hnone
    refine .ok (fun hpasses => ⟨⟨hpasses, hd'⟩, fun _ c' hm => ?_⟩) _
    obtain ⟨d', hmd, hname'⟩ := hname c' hm
    refine ⟨(name, none), d', ⟨rfl, rfl⟩, hmd, fun n h => hname'.bind fun _ => ?_⟩
    have hnext : k.next ≠ .operator .eq := by
      intro hkind
      have hassign := hk.assign
      rw [hkind] at hassign
      cases hassign
    dsimp only
    rw [hmd.accept?_eq_none_of_next hd'.plain hnext hnone (by rintro ⟨⟩)]
    exact .ok _
  · rename_i t e he heq
    have hsign : k.Taken d (.operator .eq) t e := taken_of_accept? hd' heq
    refine (hn.item hk e _ hsign.on).bind fun init f hf hinit => ?_
    refine .ok (fun hpasses => ⟨⟨hpasses, hinit.1.2.1⟩, fun hgiven c' hm => ?_⟩) _
    obtain ⟨d', hmd, hname'⟩ := hname c' hm
    obtain ⟨e', hme, hlt, hsign'⟩ := hsign.again (hsign.not_at hk rfl) d' hmd
    obtain ⟨init', f', hmoved, hmf, hread⟩ :=
      hinit.2 ⟨fun hat => hgiven.1 hat rfl, hgiven.2 init rfl⟩ e' hme
    refine ⟨(name, some init'), f', ⟨rfl, congrArg some hmoved⟩, hmf, fun n h => ?_⟩
    refine hname'.bind fun _ => ?_
    dsimp only
    rw [hsign']
    exact (hread n _).bind fun _ => .ok _

/-- A part of a loop's head, which a sign follows that is not the mark. -/
theorem carries_clause (hk : k.Fits) (stop : Punctuation) (hn : Carried k n) (c : Cursor)
    (h : c.size < n) (hc : c.On k.tokens) :
    Gives (fun o d => (c.Passes (optionWritings 1 o) d ∧ d.On k.tokens ∧ (k.At c → k.At d)) ∧
        k.Carries (¬k.At d ∧ ∀ e ∈ o, k.Clears (.expr e))
          (fun o' => o'.map (Expr.rewrite .unspanned) = o.map (Expr.rewrite .unspanned))
          (fun c o d => ∀ n h, Arrives o d (clause stop (rules n) c h)) c d)
      (clause stop (rules n) c h) := by
  refine (gives_clause stop (rules_derive n) c h (hk.tidy hc)).given ?_
  rw [clause]
  split
  · rename_i hstop
    refine .ok (fun hpasses => ⟨⟨hpasses, hc, id⟩, fun hgiven c' hm => ?_⟩) _
    refine ⟨none, c', rfl, hm, fun n h => ?_⟩
    rw [clause, hm.kind_eq hc.plain hgiven.1, if_pos hstop]
    exact .ok _
  · rename_i hstop
    refine (hn.item hk c h hc).bind fun e d hd he => ?_
    refine .ok (fun hpasses => ⟨⟨hpasses, he.1.2.1, fun hat => absurd hat he.1.2.2⟩,
      fun hgiven c' hm => ?_⟩) _
    obtain ⟨e', d', hmoved, hmd, hread⟩ :=
      he.2 ⟨fun hat => absurd hat hgiven.1, hgiven.2 e rfl⟩ c' hm
    refine ⟨some e', d', congrArg some hmoved, hmd, fun n h => ?_⟩
    rw [clause, hm.kind_eq hc.plain he.1.2.2, if_neg hstop]
    exact (hread n h).bind fun _ => .ok _

theorem carries_loopInit (hk : k.Fits) (hn : Carried k n) (c : Cursor) (h : c.size < n)
    (hc : c.On k.tokens) :
    Gives (fun i d => (c.Passes (loopInitWritings i) d ∧ d.On k.tokens) ∧
        k.Carries (¬k.At d ∧ ∀ x ∈ i, k.Clears x.part)
          (fun i' => rewriteLoopInit .unspanned i' = rewriteLoopInit .unspanned i)
          (fun c i d => ∀ n h, Arrives i d (loopInit (rules n) c h)) c d)
      (loopInit (rules n) c h) := by
  refine (gives_loopInit (rules_derive n) c h (hk.tidy hc)).given ?_
  rw [loopInit]
  split
  · rename_i kind d hd hkind
    have hkeyword := TokenKind.eq_of_decl? (eq_some_of_take? hkind)
    have hpassed : c.Passes (keyword kind.keyword) d := .take? hkind fun _ => TokenKind.eq_of_decl?
    refine (carries_declared hk hn d _ (hpassed.on hc)).bind ?_
    rintro ⟨name, init⟩ e he ⟨⟨-, he'⟩, hdeclared⟩
    refine .ok (fun hpasses => ⟨⟨hpasses, he'⟩, fun hgiven c' hm => ?_⟩) _
    have hgood := hgiven.2 _ rfl
    obtain ⟨d', hmd, hlt, hkind'⟩ :=
      hm.take? hc.plain (not_at_of_kind hk (by rw [hkeyword]; rfl)) hkind
    obtain ⟨⟨name', init'⟩, e', ⟨hname, hinit⟩, hme, hread⟩ := hdeclared
      ⟨fun hat => absurd hat hgiven.1, fun x hx => hgood.child
        (List.mem_cons_of_mem _ (List.mem_map_of_mem (Option.mem_toList.mpr hx)))⟩ d' hmd
    obtain rfl : name' = name := hname
    refine ⟨some (.decl (.mk (e'.spanFrom c'.start) kind name' init')), e', ?_, hme, fun n h => ?_⟩
    · simp only [rewriteLoopInit, Decl.rewrite, rewriteOption_eq_map, hinit]
      rfl
    · rw [loopInit, hkind']
      exact (hread n _).bind fun _ => .ok _
  · rename_i hnone
    refine (carries_clause hk .semicolon hn c h hc).map fun o d ho hpasses => ?_
    refine ⟨⟨hpasses, ho.1.2.1⟩, fun hgiven c' hm => ?_⟩
    have hgood : ∀ e ∈ o, k.Clears (.expr e) := fun e he =>
      hgiven.2 (.expr e) (Option.mem_map_of_mem _ he)
    obtain ⟨o', d', hsame, hmd, hread⟩ := ho.2 ⟨hgiven.1, hgood⟩ c' hm
    have hnone' : c'.take? TokenKind.decl? = none :=
      hm.take?_eq_none hc.plain (fun hat => hgiven.1 (ho.1.2.2 hat)) hnone rfl
    refine ⟨o'.map .expr, d', ?_, hmd, fun n h => ?_⟩
    · have hinit : ∀ o : Option Expr, rewriteLoopInit .unspanned (o.map .expr) =
          (o.map (Expr.rewrite .unspanned)).map .expr := by rintro (_ | e) <;> rfl
      show rewriteLoopInit .unspanned _ = rewriteLoopInit .unspanned _
      rw [hinit, hsame, hinit]
    · rw [loopInit, hnone']
      exact (hread n h).map

/-! ## Statements -/

theorem carries_function (hk : k.Fits) (hn : Carried k n) {c₀ : Cursor} (hc₀ : c₀.On k.tokens)
    (c : Cursor) (h : c.size < n) (hc : c.On k.tokens) (h₀ : c₀.Opens (keyword .function) c) :
    Gives (k.CarriesLine (fun c s d => ∀ n h, Arrives s d (function (rules n) c₀.start c h)) c)
      (function (rules n) c₀.start c h) := by
  refine (gives_function (rules_derive n) c h h₀).given ?_
  refine (gives_name_carried hk hc).bind fun name d hd hname => ?_
  obtain ⟨⟨-, hd', -⟩, hname⟩ := hname
  refine (gives_expect_taken hd' (.punctuation .lParen)).bind fun _ e he hopen => ?_
  have hstart : k.mark.kind ≠ .punctuation .semicolon → ¬k.At e :=
    hk.not_at_after hd' hopen.rest (by rw [hopen.kind]; rfl)
  refine (gives_delimited_carried hk .rParen (by decide) (carries_param hk) false e _ hopen.on
    hstart).bind ?_
  rintro ⟨params, comma⟩ f hf ⟨hf', hlist⟩
  refine (gives_expect_taken hf' (.punctuation .lBrace)).bind fun _ g hg hbrace => ?_
  refine (gives_untilBrace_carried (carries_line hk hn) g _ hbrace.on).bind fun body i hi hbody => ?_
  refine .ok (fun hpasses hgiven c' hm => ?_) _
  have hkeeps : i.rest ≠ k.after := hk.rest_ne hc₀ hgiven.2 hpasses
    ((((((Holds.part (.name name)).before _).mul (.params params)).after _).mul
      (.statements body)).congr (List.append_assoc _ _ _)) fun h hne => hne h
  have hlines : ∀ s ∈ body, k.Clears (.statement s) := fun s hs => hgiven.2.child
    (List.mem_cons_of_mem _ (List.mem_append_right _ (List.mem_map_of_mem hs)))
  obtain ⟨d', hmd, hname'⟩ := hname c' hm
  obtain ⟨e', hme, hopen'⟩ := hopen.expect (hopen.not_at hk rfl) hmd
  obtain ⟨⟨params', comma'⟩, f', hparams, hmf, hlist'⟩ := hlist (fun _ _ => trivial) e' hme
  obtain ⟨g', hmg, hbrace'⟩ := hbrace.expect (hbrace.not_at hk rfl) hmf
  obtain ⟨body', i', hmoved, hmi, hbody'⟩ := hbody.2 ⟨hkeeps, hlines⟩ g' hmg
  refine ⟨.function (i'.spanFrom c₀.start) name params' body', i', ?_, hmi, fun n h => ?_⟩
  · rw [Statement.Moved, Statement.rewrite, Statement.rewrite, rewriteStatements_eq_map,
      rewriteStatements_eq_map, map_eq_of_forall₂ hparams.1, map_eq_of_forall₂ hmoved]
    rfl
  · refine hname'.bind fun _ => ?_
    refine hopen'.bind fun _ => ?_
    refine (hlist' n _).bind fun _ => ?_
    refine hbrace'.bind fun _ => ?_
    exact (hbody' n _).bind fun _ => .ok _

theorem carries_conditional (hk : k.Fits) (hn : Carried k n) {c₀ : Cursor} (hc₀ : c₀.On k.tokens)
    (c : Cursor) (h : c.size < n) (hc : c.On k.tokens) (h₀ : c₀.Opens (keyword .if_) c) :
    Gives (k.CarriesLine (fun c s d => ∀ n h, Arrives s d (conditional (rules n) c₀.start c h)) c)
      (conditional (rules n) c₀.start c h) := by
  refine (gives_conditional (rules_derive n) c h h₀).given ?_
  refine (gives_expect_taken hc (.punctuation .lParen)).bind fun _ d hd hopen => ?_
  refine (hn.item hk d _ hopen.on).bind fun test e he htest => ?_
  refine (gives_expect_taken htest.1.2.1 (.punctuation .rParen)).bind fun _ f hf hclose => ?_
  refine (carries_nested hk hn f _ hclose.on).bind fun consequent g hg hconsequent => ?_
  have hhead : c₀.Passes (keyword .if_ * punctuation .lParen * test.writings) e :=
    ((h₀.trans hopen.passes).trans htest.1.1).passes
  -- the mark is not the sign that closes the head: it would be the own one of the conditional
  have hkeeps : ∀ {alternate i}, c₀.Passes (Statement.cond (i.spanFrom c₀.start) test consequent
        alternate).writings i → g.Passes (alternateWritings alternate) i →
      k.Clears (.statement (.cond (i.spanFrom c₀.start) test consequent alternate)) →
      ¬k.At e := by
    intro alternate i hpasses ha hgood hat
    have hrest := hconsequent.1.1.trans ha
    exact hgood.allows (hk.owns (a := .statement (.cond _ test consequent alternate)) hc₀ hpasses
      hhead ((Holds.part (.expr test)).before _) hat (hclose.of_at hat).1 hrest
      ((Holds.part (.statement consequent)).mul (.alternate alternate)) rfl)
  dsimp only
  split
  · rename_i hnone
    refine .ok (fun hpasses hgiven c' hm => ?_) _
    have hat : ¬k.At e := hkeeps hpasses (.refl g) hgiven.2
    obtain ⟨d', hmd, hopen'⟩ := hopen.expect (hopen.not_at hk rfl) hm
    obtain ⟨test', e', hsame, hme, htest'⟩ := htest.2
      ⟨fun hat' => absurd hat' hat, hgiven.2.child List.mem_cons_self⟩ d' hmd
    obtain ⟨f', hmf, hclose'⟩ := hclose.expect hat hme
    obtain ⟨consequent', g', hmoved, hmg, hread⟩ := hconsequent.2
      ⟨hgiven.1, hgiven.2.child (List.mem_cons_of_mem _ List.mem_cons_self)⟩ f' hmf
    refine ⟨.cond (g'.spanFrom c₀.start) test' consequent' none, g', ?_, hmg, fun n h => ?_⟩
    · rw [Statement.Moved, Statement.rewrite, Statement.rewrite, hsame, hmoved]
      rfl
    · refine hopen'.bind fun _ => ?_
      refine (htest' n _).bind fun _ => ?_
      refine hclose'.bind fun _ => ?_
      refine (hread n _).bind fun _ => ?_
      dsimp only
      rw [hmg.accept?_eq_none hconsequent.1.2.1.plain hgiven.1 hnone (by rintro ⟨⟩)]
      exact .ok _
  · rename_i t i hi helse
    have hsign : k.Taken g (.keyword .else_) t i := taken_of_accept? hconsequent.1.2.1 helse
    refine (carries_nested hk hn i _ hsign.on).bind fun alternate j hj ha => ?_
    refine .ok (fun hpasses hgiven c' hm => ?_) _
    have hat : ¬k.At e := hkeeps hpasses (hsign.passes.trans ha.1.1) hgiven.2
    have hatg : ¬k.At g := hsign.not_at hk rfl
    obtain ⟨d', hmd, hopen'⟩ := hopen.expect (hopen.not_at hk rfl) hm
    obtain ⟨test', e', hsame, hme, htest'⟩ := htest.2
      ⟨fun hat' => absurd hat' hat, hgiven.2.child List.mem_cons_self⟩ d' hmd
    obtain ⟨f', hmf, hclose'⟩ := hclose.expect hat hme
    obtain ⟨consequent', g', hmoved, hmg, hread⟩ := hconsequent.2
      ⟨hatg, hgiven.2.child (List.mem_cons_of_mem _ List.mem_cons_self)⟩ f' hmf
    obtain ⟨i', hmi, hlt, helse'⟩ := hsign.again hatg g' hmg
    obtain ⟨alternate', j', hmoved', hmj, hread'⟩ := ha.2 ⟨hgiven.1, hgiven.2.child
      (List.mem_cons_of_mem _ (List.mem_cons_of_mem _ (List.mem_singleton_self _)))⟩ i' hmi
    refine ⟨.cond (j'.spanFrom c₀.start) test' consequent' (some alternate'), j', ?_, hmj,
      fun n h => ?_⟩
    · rw [Statement.Moved, Statement.rewrite, Statement.rewrite, hsame, hmoved, rewriteBranch,
        rewriteBranch, hmoved']
      rfl
    · refine hopen'.bind fun _ => ?_
      refine (htest' n _).bind fun _ => ?_
      refine hclose'.bind fun _ => ?_
      refine (hread n _).bind fun _ => ?_
      dsimp only
      rw [helse']
      exact (hread' n _).bind fun _ => .ok _

theorem carries_loop (hk : k.Fits) (hn : Carried k n) {c₀ : Cursor} (hc₀ : c₀.On k.tokens)
    (c : Cursor) (h : c.size < n) (hc : c.On k.tokens) (h₀ : c₀.Opens (keyword .for_) c) :
    Gives (k.CarriesLine (fun c s d => ∀ n h, Arrives s d (loop (rules n) c₀.start c h)) c)
      (loop (rules n) c₀.start c h) := by
  refine (gives_loop (rules_derive n) c h h₀).given ?_
  refine (gives_expect_taken hc (.punctuation .lParen)).bind fun _ d hd hopen => ?_
  refine (carries_loopInit hk hn d _ hopen.on).bind fun init e he hinit => ?_
  refine (gives_expect_taken hinit.1.2 (.punctuation .semicolon)).bind fun _ f hf hsign => ?_
  refine (carries_clause hk .semicolon hn f _ hsign.on).bind fun test g hg htest => ?_
  refine (gives_expect_taken htest.1.2.1 (.punctuation .semicolon)).bind fun _ i hi hsign' => ?_
  refine (carries_clause hk .rParen hn i _ hsign'.on).bind fun update j hj hupdate => ?_
  refine (gives_expect_taken hupdate.1.2.1 (.punctuation .rParen)).bind fun _ m hm' hclose => ?_
  refine (carries_nested hk hn m _ hclose.on).bind fun body l hl hbody => ?_
  refine .ok (fun hpasses hgiven c' hm => ?_) _
  have hnot : ¬(Part.statement (.loop (l.spanFrom c₀.start) init test update body)).Owns
      k.mark.span := fun howns => hgiven.2.allows howns
  -- the three signs in the head are the loop's own, so none of them is the mark
  have hhead := (h₀.trans hopen.passes).trans hinit.1.1
  have hheld := (Holds.loopInit init).before (keyword .for_ * punctuation .lParen)
  have hhead' := (hhead.trans hsign.passes).trans htest.1.1
  have hheld' := (hheld.after (punctuation .semicolon)).mul (.option 1 test)
  have hhead'' := (hhead'.trans hsign'.passes).trans hupdate.1.1
  have hheld'' := (hheld'.after (punctuation .semicolon)).mul (.option 1 update)
  have hrest := (hupdate.1.1.trans hclose.passes).trans hbody.1.1
  have hrest_held := ((Holds.option 1 update).after (punctuation .rParen)).mul
    (.part (.statement body))
  have hat : ¬k.At e := by
    intro hat
    have hall := (htest.1.1.trans hsign'.passes).trans hrest
    refine hnot (hk.owns hc₀ hpasses hhead.passes hheld hat (hsign.of_at hat).1 hall
      (((Holds.option 1 test).after _).mul hrest_held) ?_)
    simp only [Part.children, Statement.parts, List.append_assoc]
  have hat' : ¬k.At g := by
    intro hat
    refine hnot (hk.owns hc₀ hpasses hhead'.passes hheld' hat (hsign'.of_at hat).1 hrest
      hrest_held ?_)
    simp only [Part.children, Statement.parts, List.append_assoc]
  have hat'' : ¬k.At j := fun hat =>
    hnot (hk.owns hc₀ hpasses hhead''.passes hheld'' hat (hclose.of_at hat).1 hbody.1.1
      (.part (.statement body)) rfl)
  have hgood : ∀ {a : Part}, a ∈ init.toList.map LoopInit.part ++ test.toList.map .expr ++
      update.toList.map .expr ++ [.statement body] → k.Clears a := fun ha => hgiven.2.child ha
  obtain ⟨hgood_head, hgood_body⟩ := List.forall_mem_append.mp fun a => hgood (a := a)
  obtain ⟨hgood_front, hgood_update⟩ := List.forall_mem_append.mp hgood_head
  obtain ⟨hgood_init, hgood_test⟩ := List.forall_mem_append.mp hgood_front
  obtain ⟨d', hmd, hopen'⟩ := hopen.expect (hopen.not_at hk rfl) hm
  obtain ⟨init', e', hsame, hme, hinit'⟩ := hinit.2 ⟨hat, fun x hx =>
    hgood_init _ (List.mem_map_of_mem (Option.mem_toList.mpr hx))⟩ d' hmd
  obtain ⟨f', hmf, hsign₁⟩ := hsign.expect hat hme
  obtain ⟨test', g', hsame', hmg, htest'⟩ := htest.2 ⟨hat', fun x hx =>
    hgood_test _ (List.mem_map_of_mem (Option.mem_toList.mpr hx))⟩ f' hmf
  obtain ⟨i', hmi, hsign₂⟩ := hsign'.expect hat' hmg
  obtain ⟨update', j', hsame'', hmj, hupdate'⟩ := hupdate.2 ⟨hat'', fun x hx =>
    hgood_update _ (List.mem_map_of_mem (Option.mem_toList.mpr hx))⟩ i' hmi
  obtain ⟨m', hmm, hclose'⟩ := hclose.expect hat'' hmj
  obtain ⟨body', l', hmoved, hml, hbody'⟩ := hbody.2
    ⟨hgiven.1, hgood_body _ (List.mem_singleton_self _)⟩ m' hmm
  refine ⟨.loop (l'.spanFrom c₀.start) init' test' update' body', l', ?_, hml, fun n h => ?_⟩
  · rw [Statement.Moved, Statement.rewrite, Statement.rewrite, hsame, hmoved]
    simp only [rewriteOption_eq_map, hsame', hsame'']
    rfl
  · refine hopen'.bind fun _ => ?_
    refine (hinit' n _).bind fun _ => ?_
    refine hsign₁.bind fun _ => ?_
    refine (htest' n _).bind fun _ => ?_
    refine hsign₂.bind fun _ => ?_
    refine (hupdate' n _).bind fun _ => ?_
    refine hclose'.bind fun _ => ?_
    exact (hbody' n _).bind fun _ => .ok _

theorem carries_returning (hk : k.Fits) (hn : Carried k n) {c₀ : Cursor} (hc₀ : c₀.On k.tokens)
    (c : Cursor) (h : c.size < n) (hc : c.On k.tokens) (h₀ : c₀.Opens (keyword .return_) c) :
    Gives (k.CarriesLine (fun c s d => ∀ n h, Arrives s d (returning (rules n) c₀.start c h)) c)
      (returning (rules n) c₀.start c h) := by
  refine (gives_returning (rules_derive n) c h h₀).given ?_
  rw [returning]
  split
  · rename_i hbegins
    have hvalue : Gives (n := n) (fun o d => ∃ e, o = some e ∧
          (c.Passes e.writings d ∧ d.On k.tokens ∧ ¬k.At c) ∧
          k.CarriesExpr (fun c e d => ∀ n h, Arrives e d ((rules n).expression c h)) c e d)
        (((rules n).expression c h).map fun s =>
          (⟨some s.value, s.rest, Nat.lt_trans s.lt h⟩ : Step n _)) :=
      (hn.item hk c h hc).map_step fun s hs => ⟨s.value, rfl, hs⟩
    refine hvalue.bind ?_
    rintro _ d hd ⟨e, rfl, ⟨hpassed, hd', hat⟩, he⟩
    refine .ok (fun hpasses hgiven c' hm => ?_) _
    have hvalued : c₀.Passes (keyword .return_ * optionWritings 1 (some e)) d :=
      h₀.passes.trans ((Cursor.Passes.refl c).trans hpassed)
    have hquiet : k.At d → k.Quiet := fun hatd =>
      hgiven.2.allows (hk.owns_of_ends (a := .statement (.ret _ (some e))) hc₀ hpasses hvalued
        ((Holds.option 1 (some e)).before _) hatd hgiven.1)
    obtain ⟨e', d', hmoved, hmd, hread⟩ :=
      he ⟨hquiet, hgiven.2.child (List.mem_singleton_self _)⟩ c' hm
    refine ⟨.ret ((d'.past (.punctuation .semicolon)).1.spanFrom c₀.start) (some e'), _, ?_,
      hmd.past_semicolon hk hd' hgiven.1, fun n h => ?_⟩
    · rw [Statement.Moved, Statement.rewrite, Statement.rewrite, rewriteOption, rewriteOption,
        hmoved]
      rfl
    · have hread' : Arrives (some e') d' (((rules n).expression c' h).map fun s =>
          (⟨some s.value, s.rest, Nat.lt_trans s.lt h⟩ : Step n _)) :=
        (hread n h).map_step fun _ => ⟨rfl, rfl⟩
      rw [returning, hm.kind_eq hc.plain hat, if_pos hbegins]
      exact hread'.bind fun _ => .ok _
  · rename_i hbegins
    refine .ok (fun hpasses hgiven c' hm => ?_) _
    have hnot : c'.kind.beginsExpression = false := by
      by_cases hat : k.At c
      · rw [hm.kind_eq_next hat]
        have hbare : c₀.Passes (keyword .return_ * optionWritings 1 none) c :=
          h₀.passes.trans (.refl c)
        exact hgiven.2.allows (hk.owns_of_ends (a := .statement (.ret _ none)) hc₀ hpasses hbare
          ((Holds.option 1 none).before _) hat hgiven.1)
      · rw [hm.kind_eq hc.plain hat]
        exact Bool.eq_false_iff.mpr hbegins
    refine ⟨.ret ((c'.past (.punctuation .semicolon)).1.spanFrom c₀.start) none, _, rfl,
      hm.past_semicolon hk hc hgiven.1, fun n h => ?_⟩
    rw [returning, if_neg (by rw [hnot]; exact Bool.noConfusion)]
    exact .ok _

theorem carries_declaration (hk : k.Fits) (hn : Carried k n) (kind : DeclKind) {c₀ : Cursor}
    (hc₀ : c₀.On k.tokens) (c : Cursor) (h : c.size < n) (hc : c.On k.tokens)
    (h₀ : c₀.Opens (keyword kind.keyword) c) :
    Gives (k.CarriesLine
        (fun c s d => ∀ n h, Arrives s d (declaration (rules n) c₀.start kind c h)) c)
      (declaration (rules n) c₀.start kind c h) := by
  refine (gives_declaration (rules_derive n) kind c h h₀).given ?_
  refine (carries_declared hk hn c h hc).bind ?_
  rintro ⟨name, init⟩ d hd ⟨⟨hpassed, hd'⟩, hdeclared⟩
  refine .ok (fun hpasses hgiven c' hm => ?_) _
  have hheld := ((Holds.part (.name name)).before (keyword kind.keyword)).mul
    (.option (operator .eq) init)
  have hquiet : k.At d → init.isSome = true → k.Quiet := fun hatd =>
    hgiven.2.allows (hk.owns_of_ends (a := .statement (.decl (.mk _ kind name init))) hc₀ hpasses
      (h₀.trans_mul hpassed).passes hheld hatd hgiven.1)
  obtain ⟨⟨name', init'⟩, d', ⟨hname, hinit⟩, hmd, hread⟩ := hdeclared ⟨hquiet, fun x hx =>
    hgiven.2.child (List.mem_cons_of_mem _ (List.mem_map_of_mem (Option.mem_toList.mpr hx)))⟩ c' hm
  obtain rfl : name' = name := hname
  refine ⟨.decl (.mk ((d'.past (.punctuation .semicolon)).1.spanFrom c₀.start) kind name' init'), _,
    ?_, hmd.past_semicolon hk hd' hgiven.1, fun n h => ?_⟩
  · rw [Statement.Moved]
    simp only [Statement.rewrite, Decl.rewrite, rewriteOption_eq_map, hinit]
    rfl
  · exact (hread n h).bind fun _ => .ok _

theorem carries_expressionStatement (hk : k.Fits) (c : Cursor) (hn : Carried k c.size)
    (hc : c.On k.tokens) :
    Gives (k.CarriesLine (fun c s d => Arrives s d (expressionStatement c (rules c.size))) c)
      (expressionStatement c (rules c.size)) := by
  refine (gives_expressionStatement c (rules_derive c.size) (hk.tidy hc)).given ?_
  refine ((gives_expression c (rules_derive c.size) (hk.tidy hc)).and
    (carries_expression hk c hn hc)).bind fun x d hd hboth => ?_
  obtain ⟨hpassed, hx⟩ := hboth
  refine .ok (fun hpasses hgiven c' hm => ?_) _
  have hquiet : k.At d → k.Quiet := fun hatd =>
    hgiven.2.allows (hk.owns_of_ends hc hpasses hpassed (.part (.expr x)) hatd hgiven.1)
  obtain ⟨x', d', hmoved, hmd, hread⟩ :=
    hx ⟨hquiet, hgiven.2.child (List.mem_singleton_self _)⟩ c' hm
  refine ⟨.expr ((d'.past (.punctuation .semicolon)).1.spanFrom c'.start) x', _, ?_,
    hmd.past_semicolon hk (hpassed.on hc) hgiven.1, Arrives.bind hread fun _ => .ok _⟩
  rw [Statement.Moved, Statement.rewrite, Statement.rewrite, hmoved]
  rfl

theorem carries_block (hk : k.Fits) (hn : Carried k n) {c₀ : Cursor} (hc₀ : c₀.On k.tokens)
    (c : Cursor) (h : c.size < n) (hc : c.On k.tokens)
    (h₀ : c₀.Opens (punctuation .lBrace) c) :
    Gives (k.CarriesLine (fun c s d => ∀ n h, Arrives s d (do
        let ⟨body, e, he⟩ ← untilBrace (rules n).statement c h
        .ok (⟨.block (e.spanFrom c₀.start) body, e, he⟩ : Step n Statement))) c) (do
      let ⟨body, e, he⟩ ← untilBrace (rules n).statement c h
      .ok (⟨.block (e.spanFrom c₀.start) body, e, he⟩ : Step n Statement)) := by
  refine ((gives_untilBrace (rules_derive n).statement c h h₀.tidy).and
    (gives_untilBrace_carried (carries_line hk hn) c h hc)).bind fun body e he hbody => ?_
  refine .ok (fun hgiven c' hm => ?_) _
  have hpasses : c₀.Passes (Statement.block (e.spanFrom c₀.start) body).writings e :=
    (h₀.trans_mul hbody.1).spanning
  have hkeeps : e.rest ≠ k.after :=
    hk.rest_ne hc₀ hgiven.2 hpasses ((Holds.statements body).before _) fun _ => id
  obtain ⟨body', e', hmoved, hme, hread⟩ := hbody.2.2 ⟨hkeeps, fun s hs =>
    hgiven.2.child (List.mem_map_of_mem hs)⟩ c' hm
  refine ⟨.block (e'.spanFrom c₀.start) body', e', ?_, hme, fun n h => ?_⟩
  · rw [Statement.Moved, Statement.rewrite, Statement.rewrite, rewriteStatements_eq_map,
      rewriteStatements_eq_map, map_eq_of_forall₂ hmoved]
    rfl
  · exact (hread n h).bind fun _ => .ok _

theorem carries_statement (hk : k.Fits) (c : Cursor) (hn : Carried k c.size)
    (hc : c.On k.tokens) :
    Gives (k.CarriesLine ReadsStatement c) (statement c (rules c.size)) := by
  rw [statement, hc.plain.comment?_eq_none]
  dsimp only
  split
  · exact .error _
  · rename_i t d hd hnext
    have hr := (hc.plain.eq_of_next? hnext).1
    have hd' : d.On k.tokens := hc.of_suffix (hr ▸ List.suffix_cons t d.rest)
    have hkind : c.kind = t.kind := by rw [kind, ← token_of_next? hnext]
    have hstart : t.span.start = c.start := congrArg (·.span.start) (token_of_next? hnext)
    have hopens : ∀ {j : TokenKind}, t.kind = j → c.Opens (one j) d :=
      fun hj => .next? hnext (hk.tidy hc) hj
    -- a statement that its keyword or brace tells goes on after that, in the spliced tokens too
    have hgo : ∀ {x : Read (Step c.size Statement)}
        (y : (n : Nat) → (c : Cursor) → c.size < n → Read (Step n Statement)),
        (∀ {c' d'} {hlt : d'.size < c'.size}, c'.comment? = none →
          c'.next? = some ⟨t, d', hlt⟩ → statement c' (rules c'.size) = y _ d' hlt) →
        t.kind.isEnd = false →
        Gives (k.CarriesLine (fun c s d => ∀ n h, Arrives s d (y n c h)) d) x →
        Gives (k.CarriesLine ReadsStatement c) x :=
      fun y hy hend hx => carries_of_next hk hc.plain hnext hend y hy hx
    rw [hstart]
    split
    · rename_i hj
      exact hgo (fun n => declaration (rules n) c.start .const)
        (fun hc hn => by simp only [statement, hc, hn, hj, hstart]) (by rw [hj]; rfl)
        (carries_declaration hk hn .const hc d hd hd' (hopens hj))
    · rename_i hj
      exact hgo (fun n => declaration (rules n) c.start .let_)
        (fun hc hn => by simp only [statement, hc, hn, hj, hstart]) (by rw [hj]; rfl)
        (carries_declaration hk hn .let_ hc d hd hd' (hopens hj))
    · rename_i hj
      exact hgo (fun n => declaration (rules n) c.start .var)
        (fun hc hn => by simp only [statement, hc, hn, hj, hstart]) (by rw [hj]; rfl)
        (carries_declaration hk hn .var hc d hd hd' (hopens hj))
    · rename_i hj
      exact hgo (fun n => function (rules n) c.start)
        (fun hc hn => by simp only [statement, hc, hn, hj, hstart]) (by rw [hj]; rfl)
        (carries_function hk hn hc d hd hd' (hopens hj))
    · rename_i hj
      exact hgo (fun n => returning (rules n) c.start)
        (fun hc hn => by simp only [statement, hc, hn, hj, hstart]) (by rw [hj]; rfl)
        (carries_returning hk hn hc d hd hd' (hopens hj))
    · rename_i hj
      exact hgo (fun n => conditional (rules n) c.start)
        (fun hc hn => by simp only [statement, hc, hn, hj, hstart]) (by rw [hj]; rfl)
        (carries_conditional hk hn hc d hd hd' (hopens hj))
    · rename_i hj
      exact hgo (fun n => loop (rules n) c.start)
        (fun hc hn => by simp only [statement, hc, hn, hj, hstart]) (by rw [hj]; rfl)
        (carries_loop hk hn hc d hd hd' (hopens hj))
    · rename_i hj
      exact hgo _ (fun hc hn => by simp only [statement, hc, hn, hj, hstart]) (by rw [hj]; rfl)
        (carries_block hk hn hc d hd hd' (hopens hj))
    · rename_i hbrace
      split
      · rename_i hbegins
        refine (carries_expressionStatement hk c hn hc).mono fun s e hs hgiven c' hm => ?_
        have hat : ¬k.At c := by
          refine not_at_of_kind hk (TokenKind.isEnd_eq_false ?_)
          rw [hkind]
          exact TokenKind.beginsStatement_of_expression hbegins
        obtain ⟨s', e', hmoved, hme, hread⟩ := hs hgiven c' hm
        obtain ⟨d', -, hlt, hnext'⟩ := hm.next? hc.plain hat hnext
        refine ⟨s', e', hmoved, hme, ?_⟩
        rw [ReadsStatement, Statement.statement_eq_expression (hm.comment?_eq_none hc.plain hat)
          hnext' hbegins hbrace]
        exact hread
      · exact .error _

/-! ## All rules -/

/-- **All rules go the same way in the spliced tokens.** -/
theorem carried (hk : k.Fits) : ∀ n, Carried k n
  | 0 => {
      expression := fun _ h => absurd h (Nat.not_lt_zero _)
      binary := fun _ _ h => absurd h (Nat.not_lt_zero _)
      unary := fun _ h => absurd h (Nat.not_lt_zero _)
      statement := fun _ h => absurd h (Nat.not_lt_zero _) }
  | n + 1 => {
      expression := fun c h => carries_expression hk c ((carried hk n).mono (Nat.le_of_lt_succ h))
      binary := fun least c h =>
        carries_binary hk least c ((carried hk n).mono (Nat.le_of_lt_succ h))
      unary := fun c h => carries_unary hk c ((carried hk n).mono (Nat.le_of_lt_succ h))
      statement := fun c h =>
        carries_statement hk c ((carried hk n).mono (Nat.le_of_lt_succ h)) }

end Grammar

/-! ## Programs -/

namespace Program

variable {k : Splice} {c c' : Cursor} {p : Program}

/-- No more is read than the statements that are unrolled. -/
theorem readFrom_of_unrolls (h : Unrolls c p) (done : List Statement) :
    readFrom done c = .ok (done.reverse ++ p) := by
  induction h generalizing done with
  | ended hend => rw [readFrom, if_pos hend, List.append_nil]
  | @more c a p hx _ ih =>
    rw [readFrom, Grammar.atEnd_of_statement hx, if_neg Bool.false_ne_true, hx]
    show readFrom (a.value :: done) a.rest = _
    rw [ih, List.reverse_cons, List.append_assoc]
    rfl

/-- The statements of a program that can do without the mark are read from the spliced tokens. -/
theorem Unrolls.carried (hk : k.Fits) (h : Unrolls c p) (hc : c.On k.tokens) :
    ¬k.At c ∧ ((∀ s ∈ p, k.Clears (.statement s)) → ∀ c', k.Meets c c' →
      ∃ p', Unrolls c' p' ∧ Program.rewrite .unspanned p' = Program.rewrite .unspanned p) := by
  induction h with
  | @ended c hend =>
    have hr := Cursor.atEnd_iff.mp hend
    refine ⟨fun hat => ?_, fun _ c' hm =>
      ⟨[], .ended (Cursor.atEnd_iff.mpr (hm.rest_eq_nil hr)), rfl⟩⟩
    rw [Splice.At, hr] at hat
    cases hat
  | @more c a p hx _ ih =>
    have hpasses := Grammar.gives_statement c (Grammar.rules_derive c.size) (hk.tidy hc) a hx
    obtain ⟨hat, hrest⟩ := ih (hpasses.on hc)
    refine ⟨hk.not_at_statement hc hpasses, fun hclears c' hm => ?_⟩
    obtain ⟨hgood, hgoods⟩ := List.forall_mem_cons.mp hclears
    obtain ⟨s', d', hmoved, hmd, hlt, hread⟩ := Grammar.carries_statement hk c
      (Grammar.carried hk c.size) hc a hx ⟨hat, hgood⟩ c' hm
    obtain ⟨p', hp', hsame⟩ := hrest hgoods d' hmd
    exact ⟨s' :: p', .more hread hp', List.cons_eq_cons.mpr ⟨hmoved, hsame⟩⟩

/-- The spliced tokens are read if the tokens are, and give the same tree. -/
theorem ofTokens_spliced (hk : k.Fits) (hproper : ∀ t ∈ k.tokens, t.kind ≠ .eof)
    (hproper' : ∀ t ∈ k.before ++ k.instead, t.kind ≠ .eof) {stop : Nat}
    (hread : ofTokens (k.tokens ++ [Token.endAt stop]) = .ok p)
    (hclears : ∀ s ∈ p, k.Clears (.statement s)) :
    ∃ p', ofTokens (k.before ++ k.instead ++ [Token.endAt stop]) = .ok p' ∧
      Program.rewrite .unspanned p' = Program.rewrite .unspanned p := by
  have hrest : (Cursor.ofTokens (k.tokens ++ [Token.endAt stop])).rest = k.tokens :=
    Cursor.rest_ofTokens hproper rfl []
  have hc : (Cursor.ofTokens (k.tokens ++ [Token.endAt stop])).On k.tokens :=
    ⟨hk.plain, by rw [hrest]⟩
  have hmeets : k.Meets (.ofTokens (k.tokens ++ [Token.endAt stop]))
      (.ofTokens (k.before ++ k.instead ++ [Token.endAt stop])) :=
    .ahead k.before hrest (Cursor.rest_ofTokens hproper' rfl [])
  obtain ⟨p', hp', hsame⟩ := ((unrolls_of_ofTokens hread).carried hk hc).2 hclears _ hmeets
  exact ⟨p', readFrom_of_unrolls hp' [], hsame⟩

end Program

end CurlyScript
