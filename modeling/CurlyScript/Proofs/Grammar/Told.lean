import CurlyScript.Proofs.Grammar.Derivation
import CurlyScript.Proofs.Syntax.Everywhere

/-
  What the tokens of a writing tell, in order.

  Something may be looked for in tokens one by one: comments, say, or the places of a word.  A walk
  over the tree finds the same in its nodes and in the same order, if two things hold
  (`Writing.Echoes`): it is found only in comments and in the words that begin declarations, and
  the node that such a token begins gives what the token gives.  That is all that is asked, so it
  is proved ONCE for whatever is looked for (`Program.tells_of_mem_writings`).
-/

namespace CurlyScript

/-- Whether a token of a node itself may tell something. -/
def Node.isTelling : Node → Bool
  | .decl _ | .comment _ _ => true
  | _ => false

namespace Writing

variable {α : Type} {f : Token → Option α}

/-- Every writing tells `xs`, if `f` is looked for in its tokens. -/
def Tells (f : Token → Option α) (l : Language Token) (xs : List α) : Prop :=
  ∀ ts ∈ l, ts.filterMap f = xs

/-- What `f` finds in tokens, `g` finds in nodes. -/
structure Echoes (f : Token → Option α) (g : Node → Option α) : Prop where
  /-- Most tokens tell nothing. -/
  quiet : ∀ t : Token, t.kind ≠ .comment → t.kind.decl? = none → f t = none
  /-- And so do most nodes. -/
  still : ∀ n : Node, n.isTelling = false → g n = none
  /-- A declaration tells what the word tells with which it begins. -/
  decl : ∀ (t : Token) (sp : Span) (kind : DeclKind) (name : Name) (init : Option Expr),
    t.kind = .keyword kind.keyword → t.span.start = sp.start →
      f t = g (.decl (.mk sp kind name init))
  /-- A comment tells what its token tells. -/
  comment : ∀ (sp : Span) (text : String), f ⟨.comment, text, sp⟩ = g (.comment sp text)

namespace Tells

variable {l m : Language Token} {xs ys : List α}

theorem one : Tells f 1 [] := by
  rintro _ rfl
  rfl

theorem mul (h : Tells f l xs) (h' : Tells f m ys) : Tells f (l * m) (xs ++ ys) := by
  intro ts hts
  obtain ⟨as, ha, bs, hb, rfl⟩ := Language.mem_mul.mp hts
  rw [List.filterMap_append, h as ha, h' bs hb]

theorem add (h : Tells f l xs) (h' : Tells f m xs) : Tells f (l + m) xs := by
  rintro ts (hts | hts)
  · exact h ts hts
  · exact h' ts hts

theorem spanning (h : Tells f l xs) (s : Span) : Tells f (spanning s l) xs :=
  fun ts hts => h ts hts.1

theorem congr (h : Tells f l xs) (hxs : xs = ys) : Tells f l ys := hxs ▸ h

theorem token {p : Token → Prop} (h : ∀ t, p t → f t = none) : Tells f (token p) [] := by
  rintro _ ⟨t, ht, rfl⟩
  rw [List.filterMap_cons_none (h t ht), List.filterMap_nil]

end Tells

/-! ## Tokens that tell nothing -/

namespace Echoes

variable {g : Node → Option α} (h : Echoes f g)

include h

theorem kind {k : TokenKind} (hk : k ≠ .comment) (hd : k.decl? = none) : Tells f (one k) [] := by
  refine .token fun t ht => ?_
  obtain rfl : t.kind = k := ht
  exact h.quiet t hk hd

theorem keyword {k : Keyword} (hk : k.decl? = none) : Tells f (keyword k) [] := h.kind nofun hk

theorem operator (o : Operator) : Tells f (operator o) [] := h.kind nofun rfl

theorem punctuation (p : Punctuation) : Tells f (punctuation p) [] := h.kind nofun rfl

theorem semicolon : Tells f semicolon [] := .add .one (h.punctuation _)

theorem name (n : Name) : Tells f (name n) [] :=
  .token fun t ht => h.quiet t (by rw [ht.1]; nofun) (by rw [ht.1]; rfl)

theorem literal (value : Literal) (sp : Span) :
    Tells f (token fun t => value.IsValueOf t ∧ t.span = sp) [] := by
  refine .token fun t ht => h.quiet t ht.1.kind_ne ?_
  have hvalue := ht.1
  cases value with
  | number x => rw [hvalue.1]; rfl
  | string s => rw [hvalue.1]; rfl
  | bool b => cases b <;> (rw [show t.kind = _ from hvalue]; rfl)
  | null => rw [show t.kind = _ from hvalue]; rfl
  | undefined => rw [show t.kind = _ from hvalue]; rfl

/-! ## Lists -/

section

variable {β : Type} {w : β → Language Token} {v : β → List α}

theorem listed {as : List β} (has : ∀ a ∈ as, Tells f (w a) (v a)) (last : Bool) :
    Tells f (listed last (as.map w)) (as.flatMap v) := by
  induction as with
  | nil => exact .one
  | cons a as ih =>
    have ha := has a List.mem_cons_self
    have hrest := ih fun b hb => has b (List.mem_cons_of_mem a hb)
    cases as with
    | nil =>
      rw [List.flatMap_cons, List.flatMap_nil]
      cases last with
      | false => exact ha.congr (List.append_nil _).symm
      | true => exact ha.mul (h.punctuation _)
    | cons b bs =>
      refine ((ha.mul (h.punctuation .comma)).mul hrest).congr ?_
      rw [List.append_nil]
      rfl

theorem separated {as : List β} (has : ∀ a ∈ as, Tells f (w a) (v a)) :
    Tells f (separated (as.map w)) (as.flatMap v) :=
  (h.listed has false).add (h.listed has true)

end

theorem params (ps : List Name) : Tells f (params ps) [] := by
  have hnames := h.separated (w := Writing.name) (v := fun _ => []) fun p (_ : p ∈ ps) => h.name p
  refine (((h.punctuation _).mul hnames).mul (h.punctuation _)).congr ?_
  simp

theorem exprs {es : List Expr} (hes : ∀ e ∈ es, Tells f e.writings (e.nodes.filterMap g)) :
    Tells f (Writing.separated (exprsWritings es)) ((exprsNodes es).filterMap g) := by
  rw [exprsWritings_eq_map, exprsNodes_eq_flatMap, List.filterMap_flatMap]
  exact h.separated hes

theorem properties {ps : List Property}
    (hps : ∀ key value, .mk key value ∈ ps → Tells f value.writings (value.nodes.filterMap g)) :
    Tells f (Writing.separated (propertiesWritings ps)) ((propertiesNodes ps).filterMap g) := by
  rw [propertiesWritings_eq_map, propertiesNodes_eq_flatMap, List.filterMap_flatMap]
  refine h.separated ?_
  rintro ⟨key, value⟩ hp
  exact ((h.name key).mul (h.punctuation _)).mul (hps key value hp)

omit h in
theorem statements {ss : List Statement}
    (hss : ∀ s ∈ ss, Tells f s.writings (s.nodes.filterMap g)) :
    Tells f (statementsWritings ss) ((statementsNodes ss).filterMap g) := by
  induction ss with
  | nil => exact .one
  | cons s ss ih =>
    rw [statementsNodes, List.filterMap_append]
    exact (hss s List.mem_cons_self).mul (ih fun t ht => hss t (List.mem_cons_of_mem s ht))

omit h in
theorem option {before : Language Token} (hb : Tells f before []) {o : Option Expr}
    (ho : ∀ e ∈ o, Tells f e.writings (e.nodes.filterMap g)) :
    Tells f (optionWritings before o) ((optionNodes o).filterMap g) := by
  cases o with
  | none => exact .one
  | some e => exact hb.mul (ho e rfl)

/-! ## Trees -/

/-- A node without a token that tells something is passed over. -/
theorem skip {n : Node} (hn : n.isTelling = false) (ns : List Node) :
    (n :: ns).filterMap g = ns.filterMap g :=
  List.filterMap_cons_none (h.still n hn)

/-- The word of a declaration tells what the declaration does. -/
theorem declaration {sp : Span} {kind : DeclKind} {name : Name} {init : Option Expr}
    {l : Language Token} (hl : Tells f l ((optionNodes init).filterMap g)) :
    Tells f (Writing.spanning sp (Writing.keyword kind.keyword * l))
      ((Decl.mk sp kind name init).nodes.filterMap g) := by
  rintro _ ⟨hts, hcovers⟩
  obtain ⟨_, ⟨t, ht, rfl⟩, us, hus, rfl⟩ := Language.mem_mul.mp hts
  have hstart : t.span.start = sp.start := Option.some.inj hcovers.1
  show List.filterMap f (t :: us) = List.filterMap g (_ :: _)
  rw [List.filterMap_cons, List.filterMap_cons, h.decl t sp kind name init ht hstart, hl us hus]

/-- The writings of a tree tell what its nodes do. -/
theorem tree : Syntax.Cases (fun e => Tells f e.writings (e.nodes.filterMap g))
    (fun d => ∀ after, Tells f after [] → Tells f (d.writings after) (d.nodes.filterMap g))
    (fun s => Tells f s.writings (s.nodes.filterMap g)) where
  ident sp name := by
    refine (h.name ⟨name, sp⟩).congr ?_
    rw [Expr.nodes, h.skip rfl, h.skip rfl]
    rfl
  literal sp value := by
    refine (h.literal value sp).congr ?_
    rw [Expr.nodes, h.skip rfl, List.filterMap_nil]
  binary sp op left right hl hr := by
    refine (((hl.mul (h.operator _)).mul hr).spanning sp).congr ?_
    rw [Expr.nodes, h.skip rfl]
    simp
  assign sp op target value ht hv := by
    refine (((ht.mul (h.operator _)).mul hv).spanning sp).congr ?_
    rw [Expr.nodes, h.skip rfl]
    simp
  update sp op isPrefix argument ha := by
    rw [Expr.nodes, h.skip rfl]
    refine Tells.spanning ?_ sp
    cases isPrefix with
    | true => exact (h.operator _).mul ha
    | false => exact (ha.mul (h.operator _)).congr (List.append_nil _)
  call sp callee args hc ha := by
    refine ((((hc.mul (h.punctuation _)).mul (h.exprs ha)).mul (h.punctuation _)).spanning
      sp).congr ?_
    rw [Expr.nodes, h.skip rfl]
    simp
  member sp owner property ho := by
    refine (((ho.mul (h.punctuation _)).mul (h.name property)).spanning sp).congr ?_
    rw [Expr.nodes, h.skip rfl]
    simp
  index sp owner key ho hk := by
    refine ((((ho.mul (h.punctuation _)).mul hk).mul (h.punctuation _)).spanning sp).congr ?_
    rw [Expr.nodes, h.skip rfl]
    simp
  arrow sp params body hb := by
    refine ((((((h.params params).mul (h.punctuation _)).mul (h.punctuation _)).mul
      (statements hb)).mul (h.punctuation _)).spanning sp).congr ?_
    rw [Expr.nodes, h.skip rfl, h.skip rfl]
    simp
  object sp properties hp := by
    refine ((((h.punctuation _).mul (h.properties hp)).mul (h.punctuation _)).spanning sp).congr ?_
    rw [Expr.nodes, h.skip rfl]
    simp
  array sp elements he := by
    refine ((((h.punctuation _).mul (h.exprs he)).mul (h.punctuation _)).spanning sp).congr ?_
    rw [Expr.nodes, h.skip rfl]
    simp
  paren sp inner hi := by
    refine ((((h.punctuation _).mul hi).mul (h.punctuation _)).spanning sp).congr ?_
    rw [Expr.nodes, h.skip rfl]
    simp
  declaration sp kind name init hi after hafter := by
    have hrest := ((h.name name).mul (option (h.operator .eq) hi)).mul hafter
    rw [Decl.writings, mul_assoc, mul_assoc]
    refine h.declaration ?_
    rw [← mul_assoc]
    refine hrest.congr ?_
    rw [List.append_nil, List.nil_append]
  decl d hd := by
    rw [Statement.nodes, h.skip rfl]
    exact hd _ h.semicolon
  function sp name params body hb := by
    refine (((((((h.keyword rfl).mul (h.name name)).mul (h.params params)).mul
      (h.punctuation _)).mul (statements hb)).mul (h.punctuation _)).spanning sp).congr ?_
    rw [Statement.nodes, h.skip rfl, h.skip rfl]
    simp
  block sp body hb := by
    refine ((((h.punctuation _).mul (statements hb)).mul (h.punctuation _)).spanning sp).congr ?_
    rw [Statement.nodes, h.skip rfl, h.skip rfl]
    simp
  ret sp argument ha := by
    refine ((((h.keyword rfl).mul (option .one ha)).mul h.semicolon).spanning sp).congr ?_
    rw [Statement.nodes, h.skip rfl]
    simp
  cond sp test consequent alternate ht hc ha := by
    have halternate : Tells f (alternateWritings alternate)
        ((alternateNodes alternate).filterMap g) := by
      cases alternate with
      | none => exact .one
      | some s => exact (h.keyword rfl).mul (ha s rfl)
    refine (((((((h.keyword rfl).mul (h.punctuation _)).mul ht).mul (h.punctuation _)).mul hc).mul
      halternate).spanning sp).congr ?_
    rw [Statement.nodes, h.skip rfl]
    simp
  loop sp init test update body hd he ht hu hb := by
    have hinit : Tells f (loopInitWritings init) ((loopInitNodes init).filterMap g) := by
      cases init with
      | none => exact .one
      | some i =>
        cases i with
        | decl d => exact hd d rfl 1 .one
        | expr e => exact he e rfl
    refine ((((((((((h.keyword rfl).mul (h.punctuation _)).mul hinit).mul (h.punctuation _)).mul
      (option .one ht)).mul (h.punctuation _)).mul (option .one hu)).mul (h.punctuation _)).mul
      hb).spanning sp).congr ?_
    rw [Statement.nodes, h.skip rfl]
    simp
  expr sp e he := by
    refine ((he.mul h.semicolon).spanning sp).congr ?_
    rw [Statement.nodes, h.skip rfl]
    simp
  comment sp text := by
    rintro _ ⟨⟨kind, lexeme, span⟩, ⟨hk, ht, hs⟩, rfl⟩
    obtain rfl : kind = .comment := hk
    obtain rfl : lexeme = text := ht
    obtain rfl : span = sp := hs
    rw [Statement.nodes, h.skip rfl, List.filterMap_cons, List.filterMap_cons, h.comment]
    rfl

end Echoes

end Writing

/-- **A writing tells what the nodes of the program do**, in the order of the walk. -/
theorem Program.tells_of_mem_writings {α : Type} {f : Token → Option α} {g : Node → Option α}
    (h : Writing.Echoes f g) {p : Program} {ts : List Token} (hts : ts ∈ p.writings) :
    ts.filterMap f = p.nodes.filterMap g :=
  Writing.Echoes.statements (fun s _ => h.tree.all.2.2 s) ts hts

end CurlyScript
