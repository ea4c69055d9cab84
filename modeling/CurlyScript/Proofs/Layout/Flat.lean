import CurlyScript.Proofs.Layout.Refused
import CurlyScript.Proofs.Layout.Spelled

/-
  Flat texts.

  A program of flat shapes ALONE has a flat text (`Program.generate_eq_ok`): nothing else is asked
  of it.  No comment is of a flat shape, so no terminal of a flat text is one (`quiet_tree`), and
  reading the text without comments leaves out nothing.
-/

namespace CurlyScript

open Terminal

/-! ## Flat shapes -/

/-- A program of flat shapes alone. -/
def Program.Flat (p : Program) : Prop := p.Everywhere fun n => n.isFlat = true

instance (p : Program) : Decidable p.Flat :=
  inferInstanceAs (Decidable (∀ n ∈ p.nodes, n.isFlat = true))

/-! ## No comments -/

/-- Terminals none of which is a comment. -/
def Quiet (ts : List Terminal) : Prop := ∀ t ∈ ts, t.isComment = false

theorem Quiet.nil : Quiet [] := fun _ ht => absurd ht List.not_mem_nil

theorem Quiet.cons {t : Terminal} {ts : List Terminal} (ht : t.isComment = false) (h : Quiet ts) :
    Quiet (t :: ts) :=
  List.forall_mem_cons.mpr ⟨ht, h⟩

theorem Quiet.append {ts us : List Terminal} (ht : Quiet ts) (hu : Quiet us) : Quiet (ts ++ us) :=
  List.forall_mem_append.mpr ⟨ht, hu⟩

theorem Quiet.separated (close : Punctuation) {items : List (List Terminal)}
    (h : ∀ ts ∈ items, Quiet ts) : Quiet (separated close items) := by
  refine Quiet.append ?_ (.cons rfl .nil)
  -- as `intercalate` is defined, by two items at a time
  induction items with
  | nil => exact .nil
  | cons ts items ih =>
    have hts := h ts List.mem_cons_self
    have hrest := ih fun us hus => h us (List.mem_cons_of_mem ts hus)
    cases items with
    | nil =>
      rw [List.intercalate_singleton]
      exact hts
    | cons us items =>
      rw [List.intercalate_cons_cons]
      exact (hts.append (.cons rfl .nil)).append hrest

/-- Nothing is left out of such terminals when comments are. -/
theorem Quiet.filter_isKept {ts : List Terminal} (h : Quiet ts) (keep : Bool) :
    ts.filter (Terminal.isKept keep) = ts := by
  refine List.filter_eq_self.mpr fun t ht => ?_
  rw [Terminal.isKept, h t ht]
  exact Bool.or_true keep

theorem quiet_params (ps : List Name) : Quiet (params ps) := by
  refine .cons rfl (.separated .rParen fun ts hts => ?_)
  obtain ⟨p, -, rfl⟩ := List.mem_map.mp hts
  exact .cons rfl .nil

theorem quiet_option {before : List Terminal} {o : Option Expr} (hb : Quiet before)
    (ho : ∀ e ∈ o, Quiet e.terminals) : Quiet (optionTerminals before o) := by
  cases o with
  | none => exact .nil
  | some e => exact hb.append (ho e rfl)

theorem quiet_statements {ss : List Statement} (h : ∀ s ∈ ss, Quiet s.terminals) :
    Quiet (statementsTerminals ss) := by
  rw [statementsTerminals_eq_flatMap]
  intro t ht
  obtain ⟨s, hs, hts⟩ := List.mem_flatMap.mp ht
  exact h s hs t hts

/-- No node of a flat shape is a comment. -/
theorem quiet_tree : Syntax.Cases
    (fun e => e.Everywhere (fun n => n.isFlat = true) → Quiet e.terminals)
    (fun d => d.Everywhere (fun n => n.isFlat = true) → Quiet d.terminals)
    (fun s => s.Everywhere (fun n => n.isFlat = true) → Quiet s.terminals) where
  ident _ _ _ := .cons rfl .nil
  literal sp value _ := by
    refine .cons ?_ .nil
    cases value with
    | bool b => cases b <;> rfl
    | _ => rfl
  binary sp op left right ihl ihr h := by
    obtain ⟨-, hl, hr⟩ := Expr.everywhere_binary.mp h
    exact (ihl hl).append (.cons rfl (ihr hr))
  assign sp op target value _ _ h := nomatch (Expr.everywhere_assign.mp h).1
  update sp op isPrefix argument _ h := nomatch (Expr.everywhere_update.mp h).1
  call sp callee args _ _ h := nomatch (Expr.everywhere_call.mp h).1
  member sp owner property _ h := nomatch (Expr.everywhere_member.mp h).1
  index sp owner key _ _ h := nomatch (Expr.everywhere_index.mp h).1
  arrow sp params body _ h := nomatch (Expr.everywhere_arrow.mp h).1
  object sp properties ihp h := by
    have hall := (Expr.everywhere_object.mp h).2
    rw [Expr.terminals, propertiesTerminals_eq_map]
    refine .cons rfl (.separated .rBrace fun ts hts => ?_)
    obtain ⟨⟨key, value⟩, hm, rfl⟩ := List.mem_map.mp hts
    exact .cons rfl (.cons rfl (ihp key value hm (hall key value hm)))
  array sp elements ihe h := by
    have hall := (Expr.everywhere_array.mp h).2
    rw [Expr.terminals, exprsTerminals_eq_map]
    refine .cons rfl (.separated .rBracket fun ts hts => ?_)
    obtain ⟨e, hm, rfl⟩ := List.mem_map.mp hts
    exact ihe e hm (hall e hm)
  paren sp inner ihi h :=
    .append (.cons rfl (ihi (Expr.everywhere_paren.mp h).2)) (.cons rfl .nil)
  declaration sp kind s init ihi h := by
    have hall := (Decl.everywhere_mk.mp h).2
    exact .cons rfl (.cons rfl (quiet_option (.cons rfl .nil) fun e he => ihi e he (hall e he)))
  decl d ihd h := (ihd (Statement.everywhere_decl.mp h).2).append (.cons rfl .nil)
  function sp s params body ihb h := by
    have hall := (Statement.everywhere_function.mp h).2.2
    have hbody := quiet_statements fun s hs => ihb s hs (hall s hs)
    exact .cons rfl (.cons rfl (((quiet_params params).append (.cons rfl hbody)).append
      (.cons rfl .nil)))
  block sp body ihb h := by
    have hall := (Statement.everywhere_block.mp h).2.2
    have hbody := quiet_statements fun s hs => ihb s hs (hall s hs)
    exact .append (.cons rfl hbody) (.cons rfl .nil)
  ret sp argument iha h := by
    have hall := (Statement.everywhere_ret.mp h).2
    exact .append (.cons rfl (quiet_option .nil fun e he => iha e he (hall e he))) (.cons rfl .nil)
  cond sp test consequent alternate iht ihc iha h := by
    obtain ⟨-, ht, hc, ha⟩ := Statement.everywhere_cond.mp h
    have halternate : Quiet (alternateTerminals alternate) := by
      cases alternate with
      | none => exact .nil
      | some a => exact .cons rfl (iha a rfl (ha a rfl))
    rw [Statement.terminals]
    simp only [List.append_assoc, List.cons_append]
    exact .cons rfl (.cons rfl ((iht ht).append (.cons rfl ((ihc hc).append halternate))))
  loop sp init test update body _ _ _ _ _ h := nomatch (Statement.everywhere_loop.mp h).1
  expr sp e ihe h := (ihe (Statement.everywhere_expr.mp h).2).append (.cons rfl .nil)
  comment sp text h := nomatch (Statement.everywhere_comment.mp h).1

theorem Program.Flat.quiet_terminals {p : Program} (hf : p.Flat) : Quiet p.terminals :=
  quiet_statements fun s hs => quiet_tree.all.2.2 s (Program.everywhere_iff.mp hf s hs)

/-! ## The text -/

/-- Lines that are spelled out, without the end of the last. -/
theorem lays_flat {body : List Statement}
    (hb : ∀ s ∈ body, s.IsLaid 0 .flat ∧ s.isComment = false) :
    Lays 0 (List.intercalate [.newline] (body.map (Statement.layout .flat)))
      (statementsTerminals body) := by
  -- as above: no line end comes after the last statement, so that case is its own
  induction body with
  | nil => exact .nil
  | cons s body ih =>
    obtain ⟨hs, hcomment⟩ := hb s List.mem_cons_self
    have hrest := ih fun x hx => hb x (List.mem_cons_of_mem s hx)
    cases body with
    | nil =>
      have hlast := hs.before hcomment .nil
      rw [List.append_nil] at hlast
      rw [List.map_singleton, List.intercalate_singleton]
      exact hlast
    | cons t body =>
      rw [List.map_cons, List.map_cons, List.intercalate_cons_cons]
      simp only [List.append_assoc, List.cons_append, List.nil_append]
      exact hs.before hcomment hrest.newline

/-- A flat text is spelled out. -/
theorem Program.scans_generate {p : Program} (hp : p.Everywhere Node.IsPlain) {code : String}
    (h : p.generate = .ok code) : Scans code.toList p.terminals ∧ Quiet p.terminals := by
  have hf : p.Flat := fun n hn =>
    Node.refused?_eq_none.mp (exists_generate_eq_ok.mp ⟨code, h⟩ n hn)
  have hall := Program.everywhere_iff.mp hp
  have hlines : ∀ s ∈ p, s.IsLaid 0 .flat ∧ s.isComment = false := by
    intro s hs
    refine ⟨(laid_tree 0 .flat).all.2.2 s (hall s hs), ?_⟩
    -- a comment has no flat text, so there is none among the lines
    cases s with
    | comment sp text =>
      cases (Statement.everywhere_comment.mp (Program.everywhere_iff.mp hf _ hs)).1
    | _ => rfl
  rw [generate_eq, outcome] at h
  split at h
  · cases h
  · rw [← Except.ok.inj h, render_toList]
    exact ⟨lays_flat hlines 0 true, hf.quiet_terminals⟩

/-- **What has a flat text.**  A program of flat shapes alone has one. -/
theorem Program.generate_eq_ok {p : Program} (hf : p.Flat) : ∃ code, p.generate = .ok code :=
  exists_generate_eq_ok.mpr fun n hn => Node.refused?_eq_none.mpr (hf n hn)

end CurlyScript
