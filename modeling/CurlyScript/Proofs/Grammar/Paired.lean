import CurlyScript.Proofs.Grammar.Linear

/-
  Parentheses are paired in every writing.

  The DEPTH of some tokens is how many more parentheses they open than they close.  In a writing of
  a tree it is zero over all and negative nowhere (`TokenKind.Paired`), for each rule of the grammar
  that opens a parenthesis closes it, and what stands between is a writing again.

  So where a writing of an expression is an expression in parentheses, the two at its ends belong
  together: nothing that begins at the first ends before the last (`TokenKind.Paired.depth_pos`).
  That tells an operator in parentheses from one that stands outside.
-/

namespace CurlyScript

namespace TokenKind

/-- How much deeper in parentheses what comes next is. -/
def rise : TokenKind → Int
  | .punctuation .lParen => 1
  | .punctuation .rParen => -1
  | _ => 0

/-- How many more parentheses are opened than closed. -/
def depth : List TokenKind → Int
  | [] => 0
  | k :: ks => k.rise + depth ks

/-- Every parenthesis is closed after it was opened, and none is left open. -/
structure Paired (ks : List TokenKind) : Prop where
  whole : depth ks = 0
  part : ∀ js, js <+: ks → 0 ≤ depth js

variable {ks ls js : List TokenKind} {k : TokenKind}

@[simp] theorem depth_nil : depth [] = 0 := rfl

@[simp] theorem depth_cons (k : TokenKind) (ks : List TokenKind) :
    depth (k :: ks) = k.rise + depth ks := rfl

@[simp] theorem depth_append (ks ls : List TokenKind) :
    depth (ks ++ ls) = depth ks + depth ls := by
  induction ks with
  | nil => exact (Int.zero_add _).symm
  | cons k ks ih => rw [List.cons_append, depth_cons, ih, depth_cons, Int.add_assoc]

namespace Paired

theorem nil : Paired [] := ⟨rfl, fun js hjs => by rw [List.prefix_nil.mp hjs, depth_nil]⟩

theorem append (h : Paired ks) (h' : Paired ls) : Paired (ks ++ ls) := by
  refine ⟨by rw [depth_append, h.whole, h'.whole, Int.add_zero], fun js hjs => ?_⟩
  -- a part of both ends in the first or goes on into the second
  rcases List.prefix_or_prefix_of_prefix hjs (List.prefix_append ks ls) with hin | ⟨ms, rfl⟩
  · exact h.part js hin
  · rw [depth_append, h.whole, Int.zero_add]
    exact h'.part ms ((List.prefix_append_right_inj ks).mp hjs)

/-- Any other class stands for itself. -/
theorem single (h : k.rise = 0) : Paired [k] := by
  refine ⟨by rw [depth_cons, h, depth_nil, Int.add_zero], fun js hjs => ?_⟩
  rcases List.prefix_cons_iff.mp hjs with rfl | ⟨ms, rfl, hms⟩
  · exact Int.le_refl 0
  · rw [List.prefix_nil.mp hms, depth_cons, h, depth_nil, Int.add_zero]

/-- **The parentheses around what is paired belong together**: between them the depth is
    positive. -/
theorem depth_pos (h : Paired ks) (hjs : js <+: .punctuation .lParen :: ks) (hne : js ≠ []) :
    0 < depth js := by
  rcases List.prefix_cons_iff.mp hjs with rfl | ⟨ms, rfl, hms⟩
  · exact absurd rfl hne
  · have hpart := h.part ms hms
    rw [depth_cons]
    show 0 < 1 + depth ms
    omega

theorem parens (h : Paired ks) :
    Paired (.punctuation .lParen :: (ks ++ [.punctuation .rParen])) := by
  have hwhole : depth (.punctuation .lParen :: (ks ++ [.punctuation .rParen])) = 0 := by
    simp [h.whole, rise]
  refine ⟨hwhole, fun js hjs => ?_⟩
  rw [← List.cons_append] at hjs
  rcases List.prefix_concat_iff.mp hjs with rfl | hin
  · exact hwhole.ge
  · by_cases hne : js = []
    · rw [hne, depth_nil]
    · exact (h.depth_pos hin hne).le

/-- What is paired and goes on outside is not all in one pair of parentheses. -/
theorem ne_parens (h : Paired ks) (hls : Paired ls) (hne : ls ≠ []) (k : TokenKind)
    (ms : List TokenKind) :
    ls ++ k :: ms ≠ .punctuation .lParen :: ks ++ [.punctuation .rParen] := by
  intro heq
  have hprefix : ls <+: .punctuation .lParen :: ks ++ [.punctuation .rParen] :=
    heq ▸ List.prefix_append ls (k :: ms)
  rcases List.prefix_concat_iff.mp hprefix with rfl | hin
  · -- then nothing is left for what goes on
    exact absurd (List.append_right_eq_self.mp heq) (List.cons_ne_nil k ms)
  · exact absurd hls.whole (h.depth_pos hin hne).ne'

end Paired

end TokenKind

/-! ## The classes of tokens -/

/-- The classes of tokens, but for comments. -/
def Token.kinds (ts : List Token) : List TokenKind := (ts.map Token.kind).filter (· != .comment)

/-- The classes of terminals, but for comments. -/
def Terminal.kinds (ts : List Terminal) : List TokenKind :=
  (ts.map Terminal.kind).filter (· != .comment)

@[simp] theorem Token.kinds_append (ts us : List Token) :
    kinds (ts ++ us) = kinds ts ++ kinds us := by
  rw [kinds, List.map_append, List.filter_append, kinds, kinds]

@[simp] theorem Terminal.kinds_append (ts us : List Terminal) :
    kinds (ts ++ us) = kinds ts ++ kinds us := by
  rw [kinds, List.map_append, List.filter_append, kinds, kinds]

theorem Terminal.kinds_terminal (ts : List Token) :
    kinds (ts.map Token.terminal) = Token.kinds ts := by
  rw [kinds, List.map_map, Token.kinds]
  rfl

/-- They stay as they are if comments are left out. -/
theorem Thinned.kinds_eq {raw ts : List Token} (h : Thinned raw ts) :
    Token.kinds ts = Token.kinds raw := by
  rw [Token.kinds, Token.kinds, List.filter_map, List.filter_map]
  exact congrArg (List.map Token.kind) h.2

namespace Writing

variable {ts : List Token} {k : TokenKind}

theorem kinds_one (h : ts ∈ one k) (hk : k ≠ .comment) : Token.kinds ts = [k] := by
  obtain ⟨t, ht, rfl⟩ := h
  rw [Token.kinds, List.map_singleton, show t.kind = k from ht]
  exact List.filter_cons_of_pos (by simpa using hk)

theorem kinds_operator {o : Operator} (h : ts ∈ operator o) : Token.kinds ts = [.operator o] :=
  kinds_one h TokenKind.noConfusion

theorem kinds_punctuation {p : Punctuation} (h : ts ∈ punctuation p) :
    Token.kinds ts = [.punctuation p] := kinds_one h TokenKind.noConfusion

theorem kinds_name {n : Name} (h : ts ∈ name n) : Token.kinds ts = [.ident] := by
  obtain ⟨t, ht, rfl⟩ := h
  exact kinds_one ⟨t, ht.1, rfl⟩ TokenKind.noConfusion

/-! ## Writings with paired parentheses -/

/-- Parentheses are paired in every writing. -/
def Paired (l : Language Token) : Prop := ∀ ts ∈ l, TokenKind.Paired (Token.kinds ts)

namespace Paired

variable {l m : Language Token}

theorem one : Paired 1 := by
  rintro _ rfl
  exact .nil

theorem mul (h : Paired l) (h' : Paired m) : Paired (l * m) := by
  intro ts hts
  obtain ⟨as, ha, bs, hb, rfl⟩ := Language.mem_mul.mp hts
  rw [Token.kinds_append]
  exact (h as ha).append (h' bs hb)

theorem add (h : Paired l) (h' : Paired m) : Paired (l + m) := by
  rintro ts (hts | hts)
  · exact h ts hts
  · exact h' ts hts

theorem spanning (h : Paired l) (s : Span) : Paired (spanning s l) := fun ts hts => h ts hts.1

theorem token {p : Token → Prop} (h : ∀ t, p t → t.kind.rise = 0) : Paired (token p) := by
  rintro _ ⟨t, ht, rfl⟩
  rw [Token.kinds, List.map_singleton, List.filter_cons]
  split
  · exact .single (h t ht)
  · exact .nil

theorem keyword (k : Keyword) : Paired (keyword k) :=
  token fun t ht => by rw [show t.kind = .keyword k from ht]; rfl

theorem operator (o : Operator) : Paired (operator o) :=
  token fun t ht => by rw [show t.kind = .operator o from ht]; rfl

theorem punctuation {p : Punctuation} (hp : (TokenKind.punctuation p).rise = 0) :
    Paired (punctuation p) :=
  token fun t ht => by rw [show t.kind = .punctuation p from ht]; exact hp

theorem name (n : Name) : Paired (name n) := token fun t ht => by rw [ht.1]; rfl

theorem literal (value : Literal) (s : Span) :
    Paired (Writing.token fun t => value.IsValueOf t ∧ t.span = s) := by
  refine token fun t ht => ?_
  cases value with
  | number x => rw [ht.1.1]; rfl
  | string s => rw [ht.1.1]; rfl
  | bool b => cases b <;> (rw [show t.kind = _ from ht.1]; rfl)
  | null => rw [show t.kind = _ from ht.1]; rfl
  | undefined => rw [show t.kind = _ from ht.1]; rfl

theorem semicolon : Paired semicolon := one.add (punctuation rfl)

/-- What is paired is paired in parentheses as well. -/
theorem parens (h : Paired l) :
    Paired (Writing.punctuation .lParen * (l * Writing.punctuation .rParen)) := by
  intro ts hts
  obtain ⟨opening, hopening, _, hrest, rfl⟩ := Language.mem_mul.mp hts
  obtain ⟨us, hus, close, hclose, rfl⟩ := Language.mem_mul.mp hrest
  rw [Token.kinds_append, Token.kinds_append, kinds_punctuation hopening, kinds_punctuation hclose]
  exact (h us hus).parens

variable {α : Type} {w : α → Language Token}

theorem listed {as : List α} (h : ∀ a ∈ as, Paired (w a)) (last : Bool) :
    Paired (listed last (as.map w)) := by
  induction as with
  | nil => exact one
  | cons a as ih =>
    have ha := h a List.mem_cons_self
    have has := ih fun b hb => h b (List.mem_cons_of_mem a hb)
    cases as with
    | nil =>
      cases last
      · exact ha
      · exact ha.mul (punctuation rfl)
    | cons b bs => exact (ha.mul (punctuation rfl)).mul has

theorem separated {as : List α} (h : ∀ a ∈ as, Paired (w a)) : Paired (separated (as.map w)) :=
  (listed h false).add (listed h true)

theorem params (ps : List Name) : Paired (params ps) := by
  have hnames := (separated (w := Writing.name) fun p (_ : p ∈ ps) => name p).parens
  rwa [← mul_assoc] at hnames

theorem statements {ss : List Statement} (h : ∀ s ∈ ss, Paired s.writings) :
    Paired (statementsWritings ss) := by
  induction ss with
  | nil => exact one
  | cons s ss ih =>
    exact (h s List.mem_cons_self).mul (ih fun t ht => h t (List.mem_cons_of_mem s ht))

theorem option {before : Language Token} (hb : Paired before) {o : Option Expr}
    (h : ∀ e ∈ o, Paired e.writings) : Paired (optionWritings before o) := by
  cases o with
  | none => exact one
  | some e => exact hb.mul (h e rfl)

theorem properties {ps : List Property}
    (h : ∀ key value, .mk key value ∈ ps → Paired value.writings) :
    ∀ p ∈ ps, Paired p.writings := by
  rintro ⟨key, value⟩ hp
  exact ((name key).mul (punctuation rfl)).mul (h key value hp)

end Paired

/-- Parentheses are paired in the writings of a tree. -/
theorem paired_writings : Syntax.Cases (fun e => Paired e.writings)
    (fun d => ∀ after, Paired after → Paired (d.writings after)) (fun s => Paired s.writings) where
  ident sp n := .name ⟨n, sp⟩
  literal sp value := .literal value sp
  binary sp op left right hl hr := ((hl.mul (.operator _)).mul hr).spanning sp
  assign sp op target value ht hv := ((ht.mul (.operator _)).mul hv).spanning sp
  update sp op isPrefix argument ha := by
    refine Paired.spanning ?_ sp
    cases isPrefix with
    | true => exact (Paired.operator _).mul ha
    | false => exact ha.mul (.operator _)
  call sp callee args hc ha := by
    have hargs := hc.mul (Paired.separated ha).parens
    rw [Expr.writings, exprsWritings_eq_map]
    rw [← mul_assoc, ← mul_assoc] at hargs
    exact hargs.spanning sp
  member sp owner property ho := ((ho.mul (.punctuation rfl)).mul (.name property)).spanning sp
  index sp owner key ho hk :=
    (((ho.mul (.punctuation rfl)).mul hk).mul (.punctuation rfl)).spanning sp
  arrow sp params body hb :=
    (((((Paired.params params).mul (.punctuation rfl)).mul (.punctuation rfl)).mul
      (.statements hb)).mul (.punctuation rfl)).spanning sp
  object sp properties hp := by
    rw [Expr.writings, propertiesWritings_eq_map]
    exact (((Paired.punctuation rfl).mul (.separated (.properties hp))).mul
      (.punctuation rfl)).spanning sp
  array sp elements he := by
    rw [Expr.writings, exprsWritings_eq_map]
    exact (((Paired.punctuation rfl).mul (.separated he)).mul (.punctuation rfl)).spanning sp
  paren sp inner hi := by
    have hinner := hi.parens
    rw [← mul_assoc] at hinner
    exact hinner.spanning sp
  declaration sp kind n init hi after hafter :=
    ((((Paired.keyword _).mul (.name n)).mul (.option (.operator _) hi)).mul hafter).spanning sp
  decl d hd := hd _ .semicolon
  function sp n params body hb :=
    ((((((Paired.keyword _).mul (.name n)).mul (.params params)).mul (.punctuation rfl)).mul
      (.statements hb)).mul (.punctuation rfl)).spanning sp
  block sp body hb :=
    (((Paired.punctuation rfl).mul (.statements hb)).mul (.punctuation rfl)).spanning sp
  ret sp argument ha := (((Paired.keyword _).mul (.option .one ha)).mul .semicolon).spanning sp
  cond sp test consequent alternate ht hc ha := by
    have halternate : Paired (alternateWritings alternate) := by
      cases alternate with
      | none => exact .one
      | some s => exact (Paired.keyword _).mul (ha s rfl)
    have hall := (((Paired.keyword .if_).mul ht.parens).mul hc).mul halternate
    rw [← mul_assoc, ← mul_assoc] at hall
    exact hall.spanning sp
  loop sp init test update body hd he ht hu hb := by
    have hinit : Paired (loopInitWritings init) := by
      rcases init with _ | d | e
      · exact .one
      · exact hd d rfl 1 .one
      · exact he e rfl
    have hsemicolon : Paired (punctuation .semicolon) := .punctuation rfl
    have hhead := (((hinit.mul hsemicolon).mul (.option .one ht)).mul hsemicolon).mul
      (.option .one hu)
    have hall := ((Paired.keyword .for_).mul hhead.parens).mul hb
    simp only [← mul_assoc] at hall
    exact hall.spanning sp
  expr sp e he := (he.mul .semicolon).spanning sp
  comment sp text := .token fun t ht => by rw [ht.1]; rfl

end Writing

/-! ## What was read from a text -/

namespace Program

open Writing

variable {source : String} {ts : List Terminal} {p : Program} {e : Expr}

/-- A program has a writing with the classes of the text that it was read from. -/
theorem exists_mem_writings (hs : Scans source.toList ts) (hread : ofSource source true = .ok p) :
    ∃ us ∈ p.writings, Token.kinds us = Terminal.kinds ts := by
  obtain ⟨tokens, hscan, hmap⟩ := scan_eq_ok hs true
  obtain ⟨tokens', hscan', htokens⟩ := ofSource_eq_ok_iff.mp hread
  rw [hscan] at hscan'
  rw [← Except.ok.inj hscan'] at htokens
  obtain ⟨us, hus, hthin⟩ := thinned_of_ofTokens hscan htokens
  refine ⟨us, hus, ?_⟩
  have hall : ts.filter (Terminal.isKept true) = ts := List.filter_eq_self.mpr fun _ _ => rfl
  rw [hthin.kinds_eq, ← hall, ← hmap, Terminal.kinds_terminal]

/-- An expression that was read in parentheses has one with the classes of what stands between. -/
theorem exists_mem_writings_of_parens {s t : Span}
    (hs : Scans source.toList
      (Terminal.punctuation .lParen :: ts ++ [Terminal.punctuation .rParen]))
    (hread : ofSource source true = .ok [.expr s (.paren t e)]) :
    ∃ us ∈ e.writings, Token.kinds us = Terminal.kinds ts := by
  obtain ⟨ws, hws, hkinds⟩ := exists_mem_writings hs hread
  obtain ⟨as, ⟨ha, -⟩, _, rfl, rfl⟩ := Language.mem_mul.mp hws
  obtain ⟨bs, ⟨hb, -⟩, ends, hends, rfl⟩ := Language.mem_mul.mp ha
  obtain ⟨cs, hc, close, hclose, rfl⟩ := Language.mem_mul.mp hb
  obtain ⟨opening, hopening, us, hus, rfl⟩ := Language.mem_mul.mp hc
  refine ⟨us, hus, ?_⟩
  simp only [Token.kinds_append, Terminal.kinds_append, kinds_punctuation hopening,
    kinds_punctuation hclose, List.append_nil] at hkinds
  have hsame : [TokenKind.punctuation .lParen] ++ Token.kinds us ++
      [.punctuation .rParen] ++ Token.kinds ends =
        [.punctuation .lParen] ++ Terminal.kinds ts ++ [.punctuation .rParen] := hkinds
  rcases hends with hone | hsemicolon
  · obtain rfl : ends = [] := hone
    rw [show Token.kinds [] = [] from rfl, List.append_nil] at hsame
    exact List.append_cancel_left (List.append_cancel_right hsame)
  · -- the text ends with a parenthesis and not with a semicolon
    rw [kinds_punctuation hsemicolon] at hsame
    have hlast := (List.append_inj' hsame rfl).2
    exact absurd (List.cons.inj hlast).1 (by decide)

end Program

end CurlyScript
