import CurlyScript.Proofs.Syntax.Rewriting

/-
  Trees that no layout tells apart.

  A printer asks a subtree for its text and for a few facts about its outermost part, the FACE.
  Two trees that agree on both are `Alike`, and every constructor respects that relation.  So a
  rewriting whose single steps give alike trees leaves the text of the whole tree as it is.
-/

namespace CurlyScript

/-- What the text around an expression depends on. -/
structure Face where
  /-- How tightly the text holds together. -/
  precedence : Nat
  /-- Whether it needs parentheses before a call or a member. -/
  groupsBeforePostfix : Bool
  /-- Whether it begins with the brace of an object. -/
  startsWithObject : Bool
  /-- The update operator with which it begins. -/
  leadingUpdate? : Option UpdateOp

/-- The face of an expression. -/
def Expr.face (e : Expr) : Face :=
  ⟨e.precedence, e.groupsBeforePostfix, e.startsWithObject, e.leadingUpdate?⟩

/-! ## The companions of a layout as maps -/

section companions

variable (st : Style)

theorem exprsLayout_eq_map (es : List Expr) : exprsLayout st es = es.map (Expr.layout st) := by
  induction es with
  | nil => rfl
  | cons e es ih => rw [exprsLayout, ih, List.map_cons]

/-- The layout of one entry of an object. -/
def Property.layout (st : Style) : Property → List Piece
  | .mk key value => .text (key.text ++ ": ") :: value.layout st

theorem propertiesLayout_eq_map (ps : List Property) :
    propertiesLayout st ps = ps.map (Property.layout st) := by
  induction ps with
  | nil => rfl
  | cons p ps ih =>
    cases p
    rw [propertiesLayout, ih, List.map_cons, Property.layout]

theorem linesLayout_eq_flatMap (ss : List Statement) :
    linesLayout st ss = ss.flatMap fun s => s.layout st ++ [.newline] := by
  induction ss with
  | nil => rfl
  | cons s ss ih => rw [linesLayout, ih, List.flatMap_cons]; simp

end companions

/-! ## The companions of a flat text as maps -/

theorem exprsGenerate_eq_mapM (es : List Expr) : exprsGenerate es = es.mapM Expr.generate := by
  induction es with
  | nil => rfl
  | cons e es ih => rw [exprsGenerate, ih, List.mapM_cons]

/-- The flat text of one entry of an object. -/
def Property.generate : Property → Except Unsupported String
  | .mk key value => return key.text ++ ": " ++ (← value.generate)

theorem propertiesGenerate_eq_mapM (ps : List Property) :
    propertiesGenerate ps = ps.mapM Property.generate := by
  induction ps with
  | nil => rfl
  | cons p ps ih =>
    obtain ⟨key, value⟩ := p
    rw [propertiesGenerate, ih, List.mapM_cons, Property.generate, bind_assoc]
    simp only [pure_bind]

theorem statementsGenerate_eq_mapM (ss : List Statement) :
    statementsGenerate ss = ss.mapM Statement.generate := by
  induction ss with
  | nil => rfl
  | cons s ss ih => rw [statementsGenerate, ih, List.mapM_cons]

/-! ## Likeness -/

/-- Two expressions that no layout tells apart. -/
structure Expr.Alike (a b : Expr) : Prop where
  face : a.face = b.face
  layout : ∀ st, a.layout st = b.layout st
  generate : a.generate = b.generate

/-- Two declarations that no layout tells apart. -/
structure Decl.Alike (a b : Decl) : Prop where
  layout : ∀ st, a.layout st = b.layout st
  generate : (Statement.decl a).generate = (Statement.decl b).generate

/-- Two statements that no layout tells apart. -/
structure Statement.Alike (a b : Statement) : Prop where
  shape : a.shape = b.shape
  endsWithOpenIf : a.endsWithOpenIf = b.endsWithOpenIf
  layout : ∀ st, a.layout st = b.layout st
  generate : a.generate = b.generate

namespace Expr.Alike

theorem refl (e : Expr) : e.Alike e := ⟨rfl, fun _ => rfl, rfl⟩

theorem trans {a b c : Expr} (hab : a.Alike b) (hbc : b.Alike c) : a.Alike c :=
  ⟨hab.face.trans hbc.face, fun st => (hab.layout st).trans (hbc.layout st),
    hab.generate.trans hbc.generate⟩

variable {a b : Expr}

theorem precedence (h : a.Alike b) : a.precedence = b.precedence :=
  congrArg Face.precedence h.face

theorem groupsBeforePostfix (h : a.Alike b) : a.groupsBeforePostfix = b.groupsBeforePostfix :=
  congrArg Face.groupsBeforePostfix h.face

theorem startsWithObject (h : a.Alike b) : a.startsWithObject = b.startsWithObject :=
  congrArg Face.startsWithObject h.face

theorem leadingUpdate? (h : a.Alike b) : a.leadingUpdate? = b.leadingUpdate? :=
  congrArg Face.leadingUpdate? h.face

theorem groupsLeft (h : a.Alike b) (op : BinaryOp) : op.groupsLeft a = op.groupsLeft b := by
  rw [BinaryOp.groupsLeft, BinaryOp.groupsLeft, h.precedence]

theorem groupsRight (h : a.Alike b) (op : BinaryOp) : op.groupsRight a = op.groupsRight b := by
  rw [BinaryOp.groupsRight, BinaryOp.groupsRight, h.precedence]

theorem operatorLayout (h : a.Alike b) (st : Style) (sign : String) (grouped : Bool) :
    operatorLayout st sign a grouped = operatorLayout st sign b grouped := by
  rw [CurlyScript.operatorLayout, CurlyScript.operatorLayout, gluesTo, gluesTo, h.leadingUpdate?]

end Expr.Alike

theorem Statement.Alike.trans {a b c : Statement} (hab : a.Alike b) (hbc : b.Alike c) :
    a.Alike c :=
  ⟨hab.shape.trans hbc.shape, hab.endsWithOpenIf.trans hbc.endsWithOpenIf,
    fun st => (hab.layout st).trans (hbc.layout st), hab.generate.trans hbc.generate⟩

theorem Statement.Alike.refl (s : Statement) : s.Alike s := ⟨rfl, rfl, fun _ => rfl, rfl⟩

/-! ## Lists of alike trees -/

section lists

variable (st : Style)

theorem map_layout_congr {f : Expr → Expr} {es : List Expr} (h : ∀ e ∈ es, (f e).Alike e) :
    exprsLayout st (es.map f) = exprsLayout st es := by
  rw [exprsLayout_eq_map, exprsLayout_eq_map, List.map_map]
  exact List.map_congr_left fun e he => (h e he).layout st

theorem flatMap_layout_congr {f : Statement → Statement} {ss : List Statement}
    (h : ∀ s ∈ ss, (f s).Alike s) : linesLayout st (ss.map f) = linesLayout st ss := by
  rw [linesLayout_eq_flatMap, linesLayout_eq_flatMap, List.flatMap_map]
  refine congrArg List.flatten (List.map_congr_left fun s hs => ?_)
  rw [(h s hs).layout st]

theorem optionLayout_congr {f : Expr → Expr} {before : String} {o : Option Expr}
    (h : ∀ e ∈ o, (f e).Alike e) : optionLayout st before (o.map f) = optionLayout st before o := by
  cases o with
  | none => rfl
  | some e =>
    show [Piece.text before] ++ (f e).layout st = [Piece.text before] ++ e.layout st
    rw [(h e rfl).layout st]

end lists

theorem mapM_map_congr {α β : Type} {f : α → α} {k : α → Except Unsupported β} {xs : List α}
    (h : ∀ x ∈ xs, k (f x) = k x) : (xs.map f).mapM k = xs.mapM k := by
  induction xs with
  | nil => rfl
  | cons x xs ih =>
    rw [List.map_cons, List.mapM_cons, List.mapM_cons, h x List.mem_cons_self,
      ih fun y hy => h y (List.mem_cons_of_mem x hy)]

theorem exprsGenerate_congr {f : Expr → Expr} {es : List Expr}
    (h : ∀ e ∈ es, (f e).Alike e) : exprsGenerate (es.map f) = exprsGenerate es := by
  rw [exprsGenerate_eq_mapM, exprsGenerate_eq_mapM]
  exact mapM_map_congr fun e he => (h e he).generate

theorem statementsGenerate_congr {f : Statement → Statement} {ss : List Statement}
    (h : ∀ s ∈ ss, (f s).Alike s) : statementsGenerate (ss.map f) = statementsGenerate ss := by
  rw [statementsGenerate_eq_mapM, statementsGenerate_eq_mapM]
  exact mapM_map_congr fun s hs => (h s hs).generate

/-! ## Every constructor respects likeness -/

namespace Expr.Alike

variable {s s' : Span} {a a' b b' : Expr}

theorem binary (op : BinaryOp) (ha : a.Alike a') (hb : b.Alike b') :
    (Expr.binary s op a b).Alike (.binary s' op a' b') where
  face := by
    simp only [Expr.face, Expr.precedence, Expr.groupsBeforePostfix, Expr.startsWithObject,
      Expr.leadingUpdate?, ha.groupsLeft, ha.startsWithObject, ha.leadingUpdate?]
  layout st := by
    simp only [Expr.layout, ha.groupsLeft, hb.groupsRight, ha.layout, hb.layout,
      hb.operatorLayout]
  generate := by
    simp only [Expr.generate, ha.generate, hb.generate, ha.groupsLeft, hb.groupsRight]

theorem assign (op : AssignOp) (ha : a.Alike a') (hb : b.Alike b') :
    (Expr.assign s op a b).Alike (.assign s' op a' b') where
  face := by
    simp only [Expr.face, Expr.precedence, Expr.groupsBeforePostfix, Expr.startsWithObject,
      Expr.leadingUpdate?, ha.startsWithObject, ha.leadingUpdate?]
  layout st := by simp only [Expr.layout, ha.layout, hb.layout, hb.operatorLayout]
  generate := rfl

theorem update (op : UpdateOp) (isPrefix : Bool) (ha : a.Alike a') :
    (Expr.update s op isPrefix a).Alike (.update s' op isPrefix a') where
  face := by
    simp only [Expr.face, Expr.precedence, Expr.groupsBeforePostfix, Expr.startsWithObject,
      Expr.leadingUpdate?, ha.startsWithObject, ha.leadingUpdate?]
  layout st := by simp only [Expr.layout, ha.layout]
  generate := rfl

theorem call {f : Expr → Expr} {args : List Expr} (ha : a.Alike a')
    (hargs : ∀ e ∈ args, (f e).Alike e) :
    (Expr.call s a (args.map f)).Alike (.call s' a' args) where
  face := by
    simp only [Expr.face, Expr.precedence, Expr.startsWithObject, Expr.leadingUpdate?,
      ha.groupsBeforePostfix, ha.startsWithObject, ha.leadingUpdate?]
    rfl
  layout st := by
    simp only [Expr.layout, ha.groupsBeforePostfix, ha.layout, map_layout_congr st hargs]
  generate := rfl

theorem member {p p' : Name} (ha : a.Alike a') (hp : p.text = p'.text) :
    (Expr.member s a p).Alike (.member s' a' p') where
  face := by
    simp only [Expr.face, Expr.precedence, Expr.startsWithObject, Expr.leadingUpdate?,
      ha.groupsBeforePostfix, ha.startsWithObject, ha.leadingUpdate?]
    rfl
  layout st := by simp only [Expr.layout, ha.groupsBeforePostfix, ha.layout, hp]
  generate := rfl

theorem index (ha : a.Alike a') (hb : b.Alike b') :
    (Expr.index s a b).Alike (.index s' a' b') where
  face := by
    simp only [Expr.face, Expr.precedence, Expr.startsWithObject, Expr.leadingUpdate?,
      ha.groupsBeforePostfix, ha.startsWithObject, ha.leadingUpdate?]
    rfl
  layout st := by simp only [Expr.layout, ha.groupsBeforePostfix, ha.layout, hb.layout]
  generate := rfl

theorem paren (ha : a.Alike a') : (Expr.paren s a).Alike (.paren s' a') where
  face := rfl
  layout st := by simp only [Expr.layout, ha.layout]
  generate := by simp only [Expr.generate, ha.generate]

end Expr.Alike

end CurlyScript
