import CurlyScript.Proofs.Grammar.Linear

/-
  Where the nodes of a program stand.

  Every node and every name of a program that was read stands on tokens of its own, from the first
  of them to the last.  The parts of a node stand on tokens of the node, one after the other, so
  their spans lie within its span and do not overlap (`Program.nested_of_ofSource`).
-/

namespace CurlyScript

open Writing

/-! ## The parts of a tree -/

/-- What has a span: a name, an expression, the declaration in the head of a loop, a statement. -/
inductive Part where
  | name (n : Name)
  | expr (e : Expr)
  | decl (d : Decl)
  | statement (s : Statement)

/-- The parts of an entry of an object. -/
def Property.parts : Property → List Part
  | .mk key value => [.name key, .expr value]

/-- The parts of an expression: the nearest things within it that have a span, in the order of the
    text. -/
def Expr.parts : Expr → List Part
  | .ident _ _ | .literal _ _ => []
  | .binary _ _ left right => [.expr left, .expr right]
  | .assign _ _ target value => [.expr target, .expr value]
  | .update _ _ _ argument => [.expr argument]
  | .call _ callee args => .expr callee :: args.map .expr
  | .member _ owner property => [.expr owner, .name property]
  | .index _ owner key => [.expr owner, .expr key]
  | .arrow _ params body => params.map .name ++ body.map .statement
  | .object _ properties => properties.flatMap Property.parts
  | .array _ elements => elements.map .expr
  | .paren _ inner => [.expr inner]

/-- The parts of a declaration. -/
def Decl.parts : Decl → List Part
  | .mk _ _ name init => .name name :: init.toList.map .expr

/-- The first part of the head of a loop. -/
def LoopInit.part : LoopInit → Part
  | .decl d => .decl d
  | .expr e => .expr e

/-- The parts of a statement. -/
def Statement.parts : Statement → List Part
  | .decl d => d.parts
  | .function _ name params body => .name name :: (params.map .name ++ body.map .statement)
  | .block _ body => body.map .statement
  | .ret _ argument => argument.toList.map .expr
  | .cond _ test consequent alternate =>
    .expr test :: .statement consequent :: alternate.toList.map .statement
  | .loop _ init test update body =>
    init.toList.map LoopInit.part ++ test.toList.map .expr ++ update.toList.map .expr ++
      [.statement body]
  | .expr _ e => [.expr e]
  | .comment _ _ => []

namespace Part

/-- Where a part stands. -/
def span : Part → Span
  | name n => n.span
  | expr e => e.span
  | decl d => d.span
  | statement s => s.span

/-- The parts of a part. -/
def children : Part → List Part
  | name _ => []
  | expr e => e.parts
  | decl d => d.parts
  | statement s => s.parts

/-- The writings of a part.  A semicolon ends the declaration that is a statement, but the one after
    the declaration in the head of a loop is a sign of the loop. -/
def writings : Part → Language Token
  | name n => Writing.name n
  | expr e => e.writings
  | decl d => d.writings 1
  | statement s => s.writings

/-- A part stands where its tokens do. -/
theorem covers (a : Part) : ∀ ts ∈ a.writings, a.span.Covers ts := by
  cases a with
  | name n => exact covers_token fun _ ht => ht.2.2
  | expr e => exact e.covers
  | decl d =>
    cases d with
    | mk sp kind n init => exact fun _ hts => hts.2
  | statement s => exact s.covers

end Part

/-! ## Parts in a list of tokens -/

/-- The parts stand in the tokens one after the other, each on a writing of its own; other tokens
    may stand between. -/
inductive Stand : List Part → List Token → Prop where
  | nil (ts : List Token) : Stand [] ts
  | cons {a : Part} {as : List Part} {us ts : List Token} (before : List Token)
      (hus : us ∈ a.writings) (hts : Stand as ts) : Stand (a :: as) (before ++ us ++ ts)

namespace Stand

variable {as bs : List Part} {ts us : List Token}

theorem append_left (h : Stand as ts) (us : List Token) : Stand as (us ++ ts) := by
  cases h with
  | nil => exact nil _
  | cons before hus hts =>
    rw [← List.append_assoc, ← List.append_assoc]
    exact cons (us ++ before) hus hts

theorem append (h : Stand as ts) (h' : Stand bs us) : Stand (as ++ bs) (ts ++ us) := by
  induction h with
  | nil ts => exact h'.append_left ts
  | cons before hus _ ih =>
    rw [List.append_assoc]
    exact cons before hus ih

/-- Each of the parts stands on some of the tokens. -/
theorem exists_of_mem (h : Stand as ts) {a : Part} (ha : a ∈ as) :
    ∃ before us after, ts = before ++ us ++ after ∧ us ∈ a.writings := by
  induction h with
  | nil => exact absurd ha List.not_mem_nil
  | @cons b bs us ts before hus _ ih =>
    rcases List.mem_cons.mp ha with rfl | hm
    · exact ⟨before, us, ts, rfl, hus⟩
    · obtain ⟨before', us', after', rfl, hus'⟩ := ih hm
      refine ⟨before ++ us ++ before', us', after', ?_, hus'⟩
      simp only [List.append_assoc]

/-- No part begins before those in front of it end. -/
theorem pairwise (h : Stand as ts) (hts : InOrder ts) :
    as.Pairwise fun a b => a.span.stop ≤ b.span.start := by
  induction h with
  | nil => exact List.Pairwise.nil
  | @cons a as us ts before hus hstand ih =>
    rw [List.append_assoc] at hts
    have htail : InOrder (us ++ ts) := hts.sublist (List.sublist_append_right before _)
    refine List.Pairwise.cons (fun b hb => ?_) (ih (htail.sublist (List.sublist_append_right us _)))
    obtain ⟨between, us', after, rfl, hus'⟩ := hstand.exists_of_mem hb
    -- only the tokens of the two parts matter, not those between
    have hboth : InOrder (us ++ us') := by
      refine htail.sublist ((List.Sublist.refl us).append ?_)
      exact (List.sublist_append_right between us').trans (List.sublist_append_left _ after)
    exact hboth.stop_le_start (a.covers us hus) (b.covers us' hus')

end Stand

/-! ## Parts in a writing -/

namespace Writing

/-- In every writing the parts stand one after the other. -/
def Holds (l : Language Token) (as : List Part) : Prop := ∀ ts ∈ l, Stand as ts

namespace Holds

variable {l m : Language Token} {as bs : List Part}

theorem nothing (l : Language Token) : Holds l [] := fun ts _ => .nil ts

theorem part (a : Part) : Holds a.writings [a] := by
  intro ts hts
  have hstand := Stand.cons [] hts (.nil [])
  rwa [List.nil_append, List.append_nil] at hstand

theorem mul (h : Holds l as) (h' : Holds m bs) : Holds (l * m) (as ++ bs) := by
  intro ts hts
  obtain ⟨us, hus, vs, hvs, rfl⟩ := Language.mem_mul.mp hts
  exact (h us hus).append (h' vs hvs)

theorem before (h : Holds m as) (l : Language Token) : Holds (l * m) as := (nothing l).mul h

theorem after (h : Holds l as) (m : Language Token) : Holds (l * m) as := by
  have hmul := h.mul (nothing m)
  rwa [List.append_nil] at hmul

theorem add (h : Holds l as) (h' : Holds m as) : Holds (l + m) as := by
  rintro ts (hts | hts)
  · exact h ts hts
  · exact h' ts hts

theorem spanning (h : Holds l as) (s : Span) : Holds (spanning s l) as := fun ts hts => h ts hts.1

theorem congr (h : Holds l as) (has : as = bs) : Holds l bs := has ▸ h

variable {α : Type} {w : α → Language Token} {f : α → List Part}

theorem listed (h : ∀ x, Holds (w x) (f x)) (last : Bool) (xs : List α) :
    Holds (listed last (xs.map w)) (xs.flatMap f) := by
  induction xs with
  | nil => exact nothing 1
  | cons x xs ih =>
    cases xs with
    | nil =>
      rw [List.flatMap_cons, List.flatMap_nil, List.append_nil]
      cases last
      · exact h x
      · exact (h x).after _
    | cons y ys => exact ((h x).after _).mul ih

theorem separated (h : ∀ x, Holds (w x) (f x)) (xs : List α) :
    Holds (separated (xs.map w)) (xs.flatMap f) :=
  (listed h false xs).add (listed h true xs)

/-- Items that are parts themselves. -/
theorem items (g : α → Part) (h : ∀ x, w x = (g x).writings) (xs : List α) :
    Holds (Writing.separated (xs.map w)) (xs.map g) := by
  have hitems := separated (w := w) (f := fun x => [g x]) (fun x => h x ▸ part (g x)) xs
  rwa [← List.map_eq_flatMap] at hitems

theorem params (ps : List Name) : Holds (params ps) (ps.map .name) := by
  have hnames := items (w := Writing.name) Part.name (fun _ => rfl) ps
  exact (hnames.before _).after _

theorem exprs (es : List Expr) : Holds (Writing.separated (exprsWritings es)) (es.map .expr) := by
  rw [exprsWritings_eq_map]
  exact items Part.expr (fun _ => rfl) es

theorem statements (ss : List Statement) : Holds (statementsWritings ss) (ss.map .statement) := by
  induction ss with
  | nil => exact nothing 1
  | cons s ss ih => exact (part (.statement s)).mul ih

theorem option (before : Language Token) (o : Option Expr) :
    Holds (optionWritings before o) (o.toList.map .expr) := by
  cases o with
  | none => exact nothing 1
  | some e => exact (part (.expr e)).before before

theorem alternate (o : Option Statement) :
    Holds (alternateWritings o) (o.toList.map .statement) := by
  cases o with
  | none => exact nothing 1
  | some s => exact (part (.statement s)).before _

theorem loopInit (o : Option LoopInit) :
    Holds (loopInitWritings o) (o.toList.map LoopInit.part) := by
  cases o with
  | none => exact nothing 1
  | some i =>
    cases i with
    | decl d => exact part (.decl d)
    | expr e => exact part (.expr e)

end Holds

end Writing

theorem Property.holds_parts (p : Property) : Holds p.writings p.parts := by
  cases p with
  | mk key value => exact ((Holds.part (.name key)).after _).mul (.part (.expr value))

theorem Expr.holds_parts (e : Expr) : Holds e.writings e.parts := by
  cases e with
  | ident | literal => exact .nothing _
  | binary sp op left right =>
    exact (((Holds.part (.expr left)).after _).mul (.part (.expr right))).spanning sp
  | assign sp op target value =>
    exact (((Holds.part (.expr target)).after _).mul (.part (.expr value))).spanning sp
  | update sp op isPrefix argument =>
    refine Holds.spanning ?_ sp
    cases isPrefix with
    | true => exact (Holds.part (.expr argument)).before _
    | false => exact (Holds.part (.expr argument)).after _
  | call sp callee args =>
    exact ((((Holds.part (.expr callee)).after _).mul (.exprs args)).after _).spanning sp
  | member sp owner property =>
    exact (((Holds.part (.expr owner)).after _).mul (.part (.name property))).spanning sp
  | index sp owner key =>
    exact ((((Holds.part (.expr owner)).after _).mul (.part (.expr key))).after _).spanning sp
  | arrow sp params body =>
    exact (((((Holds.params params).after _).after _).mul (.statements body)).after _).spanning sp
  | object sp properties =>
    rw [Expr.writings, propertiesWritings_eq_map]
    exact (((Holds.separated Property.holds_parts properties).before _).after _).spanning sp
  | array sp elements => exact (((Holds.exprs elements).before _).after _).spanning sp
  | paren sp inner => exact (((Holds.part (.expr inner)).before _).after _).spanning sp

theorem Decl.holds_parts (d : Decl) (after : Language Token) : Holds (d.writings after) d.parts := by
  cases d with
  | mk sp kind n init =>
    exact ((((Holds.part (.name n)).before _).mul (.option _ init)).after after).spanning sp

theorem Statement.holds_parts (s : Statement) : Holds s.writings s.parts := by
  cases s with
  | decl d => exact d.holds_parts semicolon
  | function sp n params body =>
    have hhead := ((Holds.part (.name n)).before (keyword .function)).mul (.params params)
    refine ((((hhead.after _).mul (.statements body)).after _).spanning sp).congr ?_
    exact List.append_assoc _ _ _
  | block sp body => exact (((Holds.statements body).before _).after _).spanning sp
  | ret sp argument => exact (((Holds.option 1 argument).before _).after _).spanning sp
  | cond sp test consequent alternate =>
    have htest := ((Holds.part (.expr test)).before (keyword .if_ * punctuation .lParen)).after
      (punctuation .rParen)
    exact ((htest.mul (.part (.statement consequent))).mul (.alternate alternate)).spanning sp
  | loop sp init test update body =>
    have hinit := ((Holds.loopInit init).before (keyword .for_ * punctuation .lParen)).after
      (punctuation .semicolon)
    have htest := (hinit.mul (.option 1 test)).after (punctuation .semicolon)
    have hupdate := (htest.mul (.option 1 update)).after (punctuation .rParen)
    exact (hupdate.mul (.part (.statement body))).spanning sp
  | expr sp e => exact ((Holds.part (.expr e)).after _).spanning sp
  | comment => exact .nothing _

/-- The parts of a part stand in each of its writings. -/
theorem Part.holds_children (a : Part) : Holds a.writings a.children := by
  cases a with
  | name n => exact .nothing _
  | expr e => exact e.holds_parts
  | decl d => exact d.holds_parts 1
  | statement s => exact s.holds_parts

/-! ## Spans in a list of tokens -/

namespace Part

/-- A part stands on some of the tokens, and its own parts within it and one after the other. -/
structure IsNested (ts : List Token) (a : Part) : Prop where
  nonempty : a.span.start < a.span.stop
  tokens : ∃ before us after, ts = before ++ us ++ after ∧ us ∈ a.writings ∧ a.span.Covers us
  inside : ∀ b ∈ a.children, a.span.start ≤ b.span.start ∧ b.span.stop ≤ a.span.stop
  apart : a.children.Pairwise fun b c => b.span.stop ≤ c.span.start

/-- A part that is written with some of the tokens of a text stands there, and its own parts
    within. -/
theorem isNested_of_mem_writings {ts before us after : List Token} {a : Part} (hts : InOrder ts)
    (hwide : ∀ t ∈ ts, t.span.start < t.span.stop) (heq : ts = before ++ us ++ after)
    (hus : us ∈ a.writings) : a.IsNested ts := by
  have hsub : us.Sublist ts := by
    rw [heq]
    exact (List.sublist_append_right before us).trans (List.sublist_append_left _ after)
  have horder : InOrder us := hts.sublist hsub
  have hcovers : a.span.Covers us := a.covers us hus
  have hstand : Stand a.children us := a.holds_children us hus
  refine ⟨?_, ⟨before, us, after, heq, hus, hcovers⟩, fun b hb => ?_, hstand.pairwise horder⟩
  · obtain ⟨t, ht, hstart, hstop⟩ := horder.exists_within hcovers
    have hlt := hwide t (hsub.subset ht)
    omega
  · obtain ⟨before', us', after', rfl, hus'⟩ := hstand.exists_of_mem hb
    exact horder.covers_within hcovers (b.covers us' hus')

end Part

namespace Program

/-- The parts of a program: its statements, and the parts of its parts. -/
inductive HasPart (p : Program) : Part → Prop where
  | statement {s : Statement} (hs : s ∈ p) : HasPart p (.statement s)
  | child {a b : Part} (ha : HasPart p a) (hb : b ∈ a.children) : HasPart p b

variable {p : Program}

/-- Every part of a program stands on some of the tokens of a writing of the program. -/
theorem HasPart.exists_of_mem_writings {ts : List Token} (hts : ts ∈ p.writings) {a : Part}
    (h : p.HasPart a) : ∃ before us after, ts = before ++ us ++ after ∧ us ∈ a.writings := by
  induction h with
  | statement hs => exact (Holds.statements p ts hts).exists_of_mem (List.mem_map_of_mem hs)
  | @child a b _ hb ih =>
    obtain ⟨before, us, after, rfl, hus⟩ := ih
    obtain ⟨before', us', after', rfl, hus'⟩ := (a.holds_children us hus).exists_of_mem hb
    refine ⟨before ++ before', us', after' ++ after, ?_, hus'⟩
    simp only [List.append_assoc]

/-- **Spans are nested.**  Every node and every name of a program stands on tokens of its text, from
    the start of the first to the end of the last; they are all the tokens but for comments that
    were passed over.  The parts of a node lie within it, one after the other, and so do the
    statements of the program. -/
theorem nested_of_ofSource {source : String} {keep : Bool} (h : ofSource source keep = .ok p) :
    ∃ raw ts, scan source keep = .ok (raw ++ [Token.endAt (byteLength source.toList)]) ∧
      Thinned raw ts ∧ (keep = false → ts = raw) ∧
      (∀ a, p.HasPart a → a.IsNested ts) ∧
      p.Pairwise fun s s' => s.span.stop ≤ s'.span.start := by
  obtain ⟨tokens, hscan, hread⟩ := ofSource_eq_ok_iff.mp h
  obtain ⟨raw, rfl, hkind, hproper⟩ := scan_eq_append hscan
  obtain ⟨ts, hts, hthin⟩ := thinned_of_ofTokens hscan hread
  have hsub : ts.Sublist (raw ++ [Token.endAt (byteLength source.toList)]) :=
    hthin.1.trans (List.sublist_append_left raw _)
  have horder : InOrder ts := (inOrder_of_scan hscan).sublist hsub
  have hwide : ∀ t ∈ ts, t.span.start < t.span.stop := fun t ht =>
    start_lt_stop_of_scan hscan t (hsub.subset ht) (hkind t (hthin.1.subset ht))
  refine ⟨raw, ts, hscan, hthin, fun hkeep => hthin.eq (hproper hkeep), fun a ha => ?_, ?_⟩
  · obtain ⟨before, us, after, heq, hus⟩ := ha.exists_of_mem_writings hts
    exact Part.isNested_of_mem_writings horder hwide heq hus
  · exact List.pairwise_map.mp ((Holds.statements p ts hts).pairwise horder)

/-- A text with a declaration in the head of a loop and one that a semicolon ends, and with comments
    that are kept and comments that are passed over. -/
def annotatedLoop : String :=
  "for(let i=0;i<n/*-*/;i++)// é\n\x7bvar f=(a,)=>\x7breturn\x7d; o=\x7bk:[f(i),]\x7d /*-*/;\x7d"

theorem nested_of_ofSource_annotatedLoop : ∃ p, ofSource annotatedLoop true = .ok p ∧
    ∃ raw ts, scan annotatedLoop true =
        .ok (raw ++ [Token.endAt (byteLength annotatedLoop.toList)]) ∧
      Thinned raw ts ∧ (true = false → ts = raw) ∧
      (∀ a, p.HasPart a → a.IsNested ts) ∧
      p.Pairwise fun s s' => s.span.stop ≤ s'.span.start := by
  have hok : (ofSource annotatedLoop true).isOk = true := by decide +kernel
  cases hread : ofSource annotatedLoop true with
  | error e =>
    rw [hread] at hok
    exact Bool.noConfusion hok
  | ok p => exact ⟨p, rfl, nested_of_ofSource hread⟩

end Program

end CurlyScript
