import CurlyScript.Proofs.Grammar.Derivation
import CurlyScript.Proofs.Syntax.Everywhere
import CurlyScript.Scope.Action
import Mathlib.Data.List.Perm.Basic
import Mathlib.Data.List.Perm.Lattice

/-
  The identifiers of a writing are the names that the tree mentions.

  A tree mentions a name as a VARIABLE, which it declares or uses, or as a LABEL, which is the key
  of an object's entry or the name of a member.  In the tokens the two are mixed.  A walk over the
  actions sees the variables in the order of the text (`Writing.HasMentions`), and beside them the
  labels are all that is left.
-/

namespace CurlyScript

/-- A name at a place of a text. -/
structure Mention where
  /-- The name. -/
  name : String
  /-- Where it stands. -/
  offset : Nat
deriving DecidableEq, Repr

/-- A name where it stands. -/
def Name.mention (n : Name) : Mention := ⟨n.text, n.span.start⟩

/-- The name that an identifier mentions. -/
def Token.mention? (t : Token) : Option Mention :=
  if t.kind = .ident then some ⟨t.lexeme, t.span.start⟩ else none

/-- The names that tokens mention. -/
def Token.mentions (ts : List Token) : List Mention := ts.filterMap Token.mention?

/-- The variable that an action mentions. -/
def Action.mention? : Action → Option Mention
  | .declare name _ => some name.mention
  | .use name offset => some ⟨name, offset⟩
  | .enter _ | .leave => none

/-- The variables that actions mention. -/
def Action.mentions (actions : List Action) : List Mention := actions.filterMap Action.mention?

/-- The label of an entry. -/
def Property.label : Property → Mention
  | .mk key _ => key.mention

/-- The labels that stand in a node itself. -/
def Node.labels : Node → List Mention
  | .expr (.member _ _ property) => [property.mention]
  | .expr (.object _ properties) => properties.map Property.label
  | _ => []

/-- The labels in nodes. -/
def labels (nodes : List Node) : List Mention := nodes.flatMap Node.labels

/-- The names that a program mentions but neither declares nor uses. -/
def Program.labels (p : Program) : List Mention := CurlyScript.labels p.nodes

@[simp] theorem Token.mentions_append (ts us : List Token) :
    mentions (ts ++ us) = mentions ts ++ mentions us := List.filterMap_append

namespace Action

@[simp] theorem mentions_append (as bs : List Action) :
    mentions (as ++ bs) = mentions as ++ mentions bs := List.filterMap_append

@[simp] theorem mentions_declare (name : Name) (kind : SymbolKind) (as : List Action) :
    mentions (declare name kind :: as) = name.mention :: mentions as := rfl

@[simp] theorem mentions_within (kind : ScopeKind) (as : List Action) :
    mentions (within kind as) = mentions as := by
  simp [within, mentions, mention?, List.filterMap_cons]

@[simp] theorem mentions_params (ps : List Name) : mentions (params ps) = ps.map Name.mention := by
  rw [mentions, params, List.filterMap_map]
  exact congrFun List.filterMap_eq_map ps

end Action

@[simp] theorem labels_append (ms ns : List Node) : labels (ms ++ ns) = labels ms ++ labels ns :=
  List.flatMap_append

/-- A node has its own labels and those of the nodes in it. -/
@[simp] theorem labels_cons (n : Node) (ns : List Node) : labels (n :: ns) = n.labels ++ labels ns :=
  List.flatMap_cons

namespace Writing

/-- In every writing the variables `as` are mentioned in this order, and beside them the labels `ls`
    in any. -/
def HasMentions (l : Language Token) (as ls : List Mention) : Prop :=
  ∀ ts ∈ l, as.Sublist (Token.mentions ts) ∧ (Token.mentions ts).Perm (as ++ ls)

namespace HasMentions

variable {l m : Language Token} {as bs ks ls : List Mention}

theorem one : HasMentions 1 [] [] := by
  rintro _ rfl
  exact ⟨.slnil, .refl _⟩

theorem mul (h : HasMentions l as ks) (h' : HasMentions m bs ls) :
    HasMentions (l * m) (as ++ bs) (ks ++ ls) := by
  intro ts hts
  obtain ⟨us, hu, vs, hv, rfl⟩ := Language.mem_mul.mp hts
  obtain ⟨hsub, hperm⟩ := h us hu
  obtain ⟨hsub', hperm'⟩ := h' vs hv
  rw [Token.mentions_append]
  refine ⟨hsub.append hsub', (hperm.append hperm').trans ?_⟩
  -- the variables of the second writing go before the labels of the first
  rw [List.append_assoc, List.append_assoc]
  refine List.Perm.append_left as ?_
  rw [← List.append_assoc, ← List.append_assoc]
  exact List.Perm.append_right ls List.perm_append_comm

theorem add (h : HasMentions l as ks) (h' : HasMentions m as ks) : HasMentions (l + m) as ks := by
  rintro ts (hts | hts)
  · exact h ts hts
  · exact h' ts hts

theorem spanning (h : HasMentions l as ks) (s : Span) : HasMentions (spanning s l) as ks :=
  fun ts hts => h ts hts.1

theorem congr (h : HasMentions l as ks) (has : as = bs) (hks : ks.Perm ls) :
    HasMentions l bs ls := by
  subst has
  intro ts hts
  obtain ⟨hsub, hperm⟩ := h ts hts
  exact ⟨hsub, hperm.trans (hks.append_left as)⟩

theorem token {p : Token → Prop} (h : ∀ t, p t → t.kind ≠ .ident) :
    HasMentions (token p) [] [] := by
  rintro _ ⟨t, ht, rfl⟩
  have hnone : t.mention? = none := if_neg (h t ht)
  rw [Token.mentions, List.filterMap_cons, hnone]
  exact ⟨.slnil, .refl _⟩

theorem keyword (k : Keyword) : HasMentions (keyword k) [] [] :=
  token fun t ht => by rw [show t.kind = .keyword k from ht]; nofun

theorem operator (o : Operator) : HasMentions (operator o) [] [] :=
  token fun t ht => by rw [show t.kind = .operator o from ht]; nofun

theorem punctuation (p : Punctuation) : HasMentions (punctuation p) [] [] :=
  token fun t ht => by rw [show t.kind = .punctuation p from ht]; nofun

theorem semicolon : HasMentions semicolon [] [] := one.add (punctuation _)

theorem mentions_name {n : Name} {ts : List Token} (h : ts ∈ name n) : Token.mentions ts = [n.mention] := by
  obtain ⟨t, ⟨hkind, hlexeme, hspan⟩, rfl⟩ := h
  have hsome : t.mention? = some n.mention := by
    rw [Token.mention?, if_pos hkind, hlexeme, hspan]
    rfl
  rw [Token.mentions, List.filterMap_cons, hsome]
  rfl

/-- The name of a variable. -/
theorem varName (n : Name) : HasMentions (name n) [n.mention] [] := by
  intro ts hts
  rw [mentions_name hts]
  exact ⟨List.Sublist.refl _, .refl _⟩

/-- A label. -/
theorem label (n : Name) : HasMentions (name n) [] [n.mention] := by
  intro ts hts
  rw [mentions_name hts]
  exact ⟨List.nil_sublist _, .refl _⟩

variable {α : Type} {w : α → Language Token} {f g : α → List Mention}

theorem listed {xs : List α} (h : ∀ x ∈ xs, HasMentions (w x) (f x) (g x)) (last : Bool) :
    HasMentions (listed last (xs.map w)) (xs.flatMap f) (xs.flatMap g) := by
  induction xs with
  | nil => exact one
  | cons x xs ih =>
    have hx := h x List.mem_cons_self
    have hxs := ih fun y hy => h y (List.mem_cons_of_mem x hy)
    cases xs with
    | nil =>
      cases last
      · refine hx.congr ?_ (.of_eq ?_) <;> simp
      · refine (hx.mul (punctuation _)).congr ?_ (.of_eq ?_) <;> simp
    | cons y ys =>
      refine ((hx.mul (punctuation .comma)).mul hxs).congr ?_ (.of_eq ?_) <;> simp

theorem separated {xs : List α} (h : ∀ x ∈ xs, HasMentions (w x) (f x) (g x)) :
    HasMentions (separated (xs.map w)) (xs.flatMap f) (xs.flatMap g) :=
  (listed h false).add (listed h true)

theorem params (ps : List Name) : HasMentions (params ps) (ps.map Name.mention) [] := by
  have hnames := separated (f := fun p : Name => [p.mention]) (g := fun _ => [])
    fun p (_ : p ∈ ps) => varName p
  refine (((punctuation _).mul hnames).mul (punctuation _)).congr ?_ (.of_eq ?_)
  · rw [List.nil_append, List.append_nil, ← List.map_eq_flatMap]
  · simp

end HasMentions

end Writing

open Writing

/-! ## Lists -/

theorem mentions_exprsActions (es : List Expr) :
    Action.mentions (exprsActions es) = es.flatMap fun e => Action.mentions e.actions := by
  induction es with
  | nil => rfl
  | cons e es ih => rw [exprsActions, Action.mentions_append, ih, List.flatMap_cons]

theorem mentions_propertiesActions (ps : List Property) :
    Action.mentions (propertiesActions ps) = ps.flatMap fun p => Action.mentions p.value.actions := by
  induction ps with
  | nil => rfl
  | cons p ps ih =>
    obtain ⟨key, value⟩ := p
    rw [propertiesActions, Action.mentions_append, ih, List.flatMap_cons, Property.value]

theorem labels_exprsNodes (es : List Expr) :
    labels (exprsNodes es) = es.flatMap fun e => labels e.nodes := by
  rw [exprsNodes_eq_flatMap, labels, List.flatMap_assoc]
  rfl

theorem labels_propertiesNodes (ps : List Property) :
    labels (propertiesNodes ps) = ps.flatMap fun p => labels p.value.nodes := by
  rw [propertiesNodes_eq_flatMap, labels, List.flatMap_assoc]
  rfl

/-! ## Trees -/

/-- The writings of an expression have its mentions. -/
def Expr.IsMentioned (e : Expr) : Prop :=
  HasMentions e.writings (Action.mentions e.actions) (labels e.nodes)

/-- The writings of a declaration have its mentions, whatever sign follows it. -/
def Decl.IsMentioned (d : Decl) : Prop :=
  ∀ after, HasMentions after [] [] →
    HasMentions (d.writings after) (Action.mentions d.actions) (labels d.nodes)

/-- The writings of a statement have its mentions. -/
def Statement.IsMentioned (s : Statement) : Prop :=
  HasMentions s.writings (Action.mentions s.actions) (labels s.nodes)

theorem hasMentions_exprs {es : List Expr} (h : ∀ e ∈ es, e.IsMentioned) :
    HasMentions (separated (exprsWritings es)) (Action.mentions (exprsActions es))
      (labels (exprsNodes es)) := by
  rw [exprsWritings_eq_map, mentions_exprsActions, labels_exprsNodes]
  exact .separated h

theorem hasMentions_statements {ss : List Statement} (h : ∀ s ∈ ss, s.IsMentioned) :
    HasMentions (statementsWritings ss) (Action.mentions (statementsActions ss))
      (labels (statementsNodes ss)) := by
  induction ss with
  | nil => exact .one
  | cons s ss ih =>
    have hs := h s List.mem_cons_self
    have hss := ih fun t ht => h t (List.mem_cons_of_mem s ht)
    rw [statementsActions, statementsNodes, Action.mentions_append, labels_append]
    exact hs.mul hss

/-- The keys of an object stand between the labels in its values. -/
theorem hasMentions_properties {ps : List Property}
    (h : ∀ key value, .mk key value ∈ ps → value.IsMentioned) :
    HasMentions (separated (propertiesWritings ps)) (Action.mentions (propertiesActions ps))
      (ps.map Property.label ++ labels (propertiesNodes ps)) := by
  have hentry : ∀ p ∈ ps, HasMentions p.writings (Action.mentions p.value.actions)
      ([p.label] ++ labels p.value.nodes) := by
    rintro ⟨key, value⟩ hp
    exact ((HasMentions.label key).mul (.punctuation _)).mul (h key value hp)
  rw [propertiesWritings_eq_map, mentions_propertiesActions, labels_propertiesNodes]
  refine (HasMentions.separated hentry).congr rfl ?_
  rw [List.map_eq_flatMap]
  exact (List.flatMap_append_perm ps _ _).symm

theorem hasMentions_option {before : Language Token} (hb : HasMentions before [] [])
    {o : Option Expr} (h : ∀ e ∈ o, e.IsMentioned) :
    HasMentions (optionWritings before o) (Action.mentions (optionActions o))
      (labels (optionNodes o)) := by
  cases o with
  | none => exact .one
  | some e => exact hb.mul (h e rfl)

theorem Literal.IsValueOf.ne_ident {t : Token} {value : Literal} (h : value.IsValueOf t) :
    t.kind ≠ .ident := by
  cases value with
  | number x => rw [h.1]; nofun
  | string s => rw [h.1]; nofun
  | bool b => cases b <;> (rw [show t.kind = _ from h]; nofun)
  | null => rw [show t.kind = _ from h]; nofun
  | undefined => rw [show t.kind = _ from h]; nofun

/-- The writings of a tree have the mentions of the tree. -/
theorem isMentioned : Syntax.Cases Expr.IsMentioned Decl.IsMentioned Statement.IsMentioned where
  ident sp name := .varName ⟨name, sp⟩
  literal sp value := .token fun t ht => ht.1.ne_ident
  binary sp op left right hl hr := by
    refine (((hl.mul (.operator _)).mul hr).spanning sp).congr ?_ (.of_eq ?_)
    · simp [Expr.actions]
    · simp [Expr.nodes, Node.labels]
  assign sp op target value ht hv := by
    refine (((ht.mul (.operator _)).mul hv).spanning sp).congr ?_ (.of_eq ?_)
    · simp [Expr.actions]
    · simp [Expr.nodes, Node.labels]
  update sp op isPrefix argument ha := by
    refine HasMentions.spanning ?_ sp
    cases isPrefix with
    | true => exact (HasMentions.operator _).mul ha
    | false =>
      refine (ha.mul (.operator _)).congr ?_ (.of_eq ?_)
      · simp [Expr.actions]
      · simp [Expr.nodes, Node.labels]
  call sp callee args hc ha := by
    refine ((((hc.mul (.punctuation _)).mul (hasMentions_exprs ha)).mul
      (.punctuation _)).spanning sp).congr ?_ (.of_eq ?_)
    · simp [Expr.actions]
    · simp [Expr.nodes, Node.labels]
  member sp owner property ho := by
    refine (((ho.mul (.punctuation _)).mul (.label property)).spanning sp).congr ?_ ?_
    · simp [Expr.actions]
    · -- the label of the node itself comes last in the text
      simp only [Expr.nodes, labels_cons, Node.labels, List.append_nil]
      exact List.perm_append_comm
  index sp owner key ho hk := by
    refine ((((ho.mul (.punctuation _)).mul hk).mul (.punctuation _)).spanning sp).congr ?_
      (.of_eq ?_)
    · simp [Expr.actions]
    · simp [Expr.nodes, Node.labels]
  arrow sp params body hb := by
    refine ((((((HasMentions.params params).mul (.punctuation _)).mul (.punctuation _)).mul
      (hasMentions_statements hb)).mul (.punctuation _)).spanning sp).congr ?_ (.of_eq ?_)
    · simp [Expr.actions]
    · simp [Expr.nodes, Node.labels]
  object sp properties hp := by
    refine ((((HasMentions.punctuation _).mul (hasMentions_properties hp)).mul
      (.punctuation _)).spanning sp).congr ?_ (.of_eq ?_)
    · simp [Expr.actions]
    · simp [Expr.nodes, Node.labels]
  array sp elements he := by
    refine ((((HasMentions.punctuation _).mul (hasMentions_exprs he)).mul
      (.punctuation _)).spanning sp).congr ?_ (.of_eq ?_)
    · simp [Expr.actions]
    · simp [Expr.nodes, Node.labels]
  paren sp inner hi := by
    refine ((((HasMentions.punctuation _).mul hi).mul (.punctuation _)).spanning sp).congr ?_
      (.of_eq ?_)
    · simp [Expr.actions]
    · simp [Expr.nodes, Node.labels]
  declaration sp kind name init hi after hafter := by
    refine (((((HasMentions.keyword _).mul (.varName name)).mul
      (hasMentions_option (.operator _) hi)).mul hafter).spanning sp).congr ?_ (.of_eq ?_)
    · simp [Decl.actions]
    · simp [Decl.nodes, Node.labels]
  decl d hd := hd _ .semicolon
  function sp name params body hb := by
    refine (((((((HasMentions.keyword _).mul (.varName name)).mul (.params params)).mul
      (.punctuation _)).mul (hasMentions_statements hb)).mul (.punctuation _)).spanning
      sp).congr ?_ (.of_eq ?_)
    · simp [Statement.actions]
    · simp [Statement.nodes, Node.labels]
  block sp body hb := by
    refine ((((HasMentions.punctuation _).mul (hasMentions_statements hb)).mul
      (.punctuation _)).spanning sp).congr ?_ (.of_eq ?_)
    · simp [Statement.actions]
    · simp [Statement.nodes, Node.labels]
  ret sp argument ha := by
    refine ((((HasMentions.keyword _).mul (hasMentions_option .one ha)).mul
      .semicolon).spanning sp).congr ?_ (.of_eq ?_)
    · simp [Statement.actions]
    · simp [Statement.nodes, Node.labels]
  cond sp test consequent alternate ht hc ha := by
    have halternate : HasMentions (alternateWritings alternate)
        (Action.mentions (alternateActions alternate)) (labels (alternateNodes alternate)) := by
      cases alternate with
      | none => exact .one
      | some s => exact (HasMentions.keyword _).mul (ha s rfl)
    refine (((((((HasMentions.keyword _).mul (.punctuation _)).mul ht).mul
      (.punctuation _)).mul hc).mul halternate).spanning sp).congr ?_ (.of_eq ?_)
    · simp [Statement.actions]
    · simp [Statement.nodes, Node.labels]
  loop sp init test update body hd he ht hu hb := by
    have hinit : HasMentions (loopInitWritings init) (Action.mentions (loopInitActions init))
        (labels (loopInitNodes init)) := by
      cases init with
      | none => exact .one
      | some i =>
        cases i with
        | decl d => exact hd d rfl 1 .one
        | expr e => exact he e rfl
    refine ((((((((((HasMentions.keyword _).mul (.punctuation _)).mul hinit).mul
      (.punctuation _)).mul (hasMentions_option .one ht)).mul (.punctuation _)).mul
      (hasMentions_option .one hu)).mul (.punctuation _)).mul hb).spanning sp).congr ?_ (.of_eq ?_)
    · simp [Statement.actions]
    · simp [Statement.nodes, Node.labels]
  expr sp e he := by
    refine ((he.mul .semicolon).spanning sp).congr ?_ (.of_eq ?_)
    · simp [Statement.actions]
    · simp [Statement.nodes, Node.labels]
  comment sp text := .token fun t ht => by rw [ht.1]; decide

/-- **The identifiers of a writing are the mentions of the program.**  The variables come in the
    order of the actions, and the labels are all the others. -/
theorem Program.mentions_of_mem_writings {p : Program} {ts : List Token} (h : ts ∈ p.writings) :
    (Action.mentions p.actions).Sublist (Token.mentions ts) ∧
      (Token.mentions ts).Perm (Action.mentions p.actions ++ p.labels) := by
  have hall := @hasMentions_statements p fun s _ => isMentioned.all.2.2 s
  have hactions : Action.mentions p.actions = Action.mentions (statementsActions p) := by
    simp [Program.actions, Action.mentions, Action.mention?]
  rw [hactions]
  exact hall ts h

end CurlyScript
