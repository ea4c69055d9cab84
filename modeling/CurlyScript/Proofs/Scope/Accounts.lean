import CurlyScript.Proofs.Grammar.Linear
import CurlyScript.Proofs.Grammar.Mentions
import CurlyScript.Proofs.Scope.Frames
import CurlyScript.Scope.Resolution
import Mathlib.Data.List.SplitBy

/-
  Every identifier of a text is accounted for.

  Whatever a program mentions goes to ONE of five lists: a variable is declared, declared too late,
  used or used without a declaration, and a label is none of the resolution's business.  One action
  adds its mention to the end of one of these lists (`Resolution.records_step`).  So after all
  actions the lists together hold what was mentioned, and each holds its part in the order of the
  text (`Records.Account`).
-/

namespace CurlyScript

/-! ## What a resolution records -/

/-- The mentions that a resolution has recorded, list by list. -/
structure Records where
  /-- The names of the symbols, by number. -/
  declared : List Mention
  /-- The declarations that came too late. -/
  redeclared : List Mention
  /-- The uses without a declaration. -/
  undefined : List Mention
  /-- The uses that refer to a symbol. -/
  referenced : List Mention
  /-- The declarations and uses of symbols together. -/
  logged : List Mention

namespace Records

variable {c : Records} {ms : List Mention} {m : Mention}

/-- The records hold the mentions `ms`, each of them once, and each list in their order. -/
structure Account (c : Records) (ms : List Mention) : Prop where
  all : ms.Perm (c.declared ++ c.redeclared ++ c.undefined ++ c.referenced)
  declared : c.declared.Sublist ms
  redeclared : c.redeclared.Sublist ms
  undefined : c.undefined.Sublist ms
  logged : c.logged.Sublist ms

end Records

namespace Resolution

variable {r : Resolution} {a : Action} {m : Mention}

/-- What was recorded so far. -/
def records (r : Resolution) : Records where
  declared := r.table.symbols.toList.map fun s => ⟨s.name, s.offset⟩
  redeclared := r.redeclarations.toList.map fun d => ⟨d.name, d.offset⟩
  undefined := r.undefined.toList.map fun u => ⟨u.name, u.offset⟩
  referenced := (r.log.toList.filter fun e => !e.2.isDeclaration).map fun e => ⟨e.1, e.2.offset⟩
  logged := r.log.toList.map fun e => ⟨e.1, e.2.offset⟩

/-- **What one action records.**  An action that mentions a name adds it to the end of one list, and
    of the log too if it stands for a symbol. -/
theorem records_step (r : Resolution) (a : Action) :
    (a.mention? = none ∧ (r.step a).records = r.records) ∨
    ∃ m, a.mention? = some m ∧
      ((r.step a).records = { r.records with
          declared := r.records.declared ++ [m], logged := r.records.logged ++ [m] } ∨
        (r.step a).records = { r.records with redeclared := r.records.redeclared ++ [m] } ∨
        (r.step a).records = { r.records with undefined := r.records.undefined ++ [m] } ∨
        (r.step a).records = { r.records with
          referenced := r.records.referenced ++ [m], logged := r.records.logged ++ [m] }) := by
  cases a with
  | enter kind => exact .inl ⟨rfl, rfl⟩
  | leave =>
    have hsymbols : r.table.leave.symbols = r.table.symbols := by
      rw [Table.leave]
      split <;> rfl
    refine .inl ⟨rfl, ?_⟩
    rw [step, close, records, hsymbols]
    rfl
  | declare name kind =>
    refine .inr ⟨name.mention, rfl, ?_⟩
    rw [step, declare, Table.declare]
    cases r.table.lookupLocal? name.text with
    | some existing => exact .inr (.inl (by simp [records, Name.mention]))
    | none => exact .inl (by simp [records, Name.mention])
  | use name offset =>
    refine .inr ⟨⟨name, offset⟩, rfl, ?_⟩
    rw [step, use]
    cases r.table.lookup? name with
    | some number => exact .inr (.inr (.inr (by simp [records, Table.map_symbols_refer_same])))
    | none => exact .inr (.inr (.inl (by simp [records])))

/-- What is added at the end of the mentions may be added within the lists. -/
theorem perm_insert {ms after : List Mention} (before : List Mention)
    (h : ms.Perm (before ++ after)) (m : Mention) :
    (ms ++ [m]).Perm (before ++ [m] ++ after) := by
  have hlast : (after ++ [m]).Perm ([m] ++ after) := List.perm_append_comm
  rw [List.append_assoc]
  refine (h.append_right [m]).trans ?_
  rw [List.append_assoc]
  exact hlast.append_left before

/-- One more action, one more mention. -/
theorem account_step {ms : List Mention} (h : r.records.Account ms) (a : Action) :
    (r.step a).records.Account (ms ++ a.mention?.toList) := by
  have hkept : ∀ {l : List Mention} {m : Mention}, l.Sublist ms → l.Sublist (ms ++ [m]) :=
    fun hl => hl.trans (List.sublist_append_left ms _)
  have hadded : ∀ {l : List Mention} {m : Mention}, l.Sublist ms → (l ++ [m]).Sublist (ms ++ [m]) :=
    fun hl => hl.append (List.Sublist.refl _)
  obtain ⟨hnone, hsame⟩ | ⟨m, hsome, hdeclared | hredeclared | hundefined | hreferenced⟩ :=
    records_step r a
  · rw [hsame, hnone, Option.toList_none, List.append_nil]
    exact h
  · rw [hdeclared, hsome, Option.toList_some]
    refine ⟨?_, hadded h.declared, hkept h.redeclared, hkept h.undefined, hadded h.logged⟩
    have hall := perm_insert r.records.declared (by simpa using h.all) m
    simpa using hall
  · rw [hredeclared, hsome, Option.toList_some]
    refine ⟨?_, hkept h.declared, hadded h.redeclared, hkept h.undefined, hkept h.logged⟩
    have hall := perm_insert (r.records.declared ++ r.records.redeclared)
      (by simpa using h.all) m
    simpa using hall
  · rw [hundefined, hsome, Option.toList_some]
    refine ⟨?_, hkept h.declared, hkept h.redeclared, hadded h.undefined, hkept h.logged⟩
    have hall := perm_insert _ h.all m
    simpa using hall
  · rw [hreferenced, hsome, Option.toList_some]
    refine ⟨?_, hkept h.declared, hkept h.redeclared, hkept h.undefined, hadded h.logged⟩
    rw [← List.append_assoc]
    exact h.all.append_right [m]

/-- Nothing is recorded at first. -/
theorem account_empty : empty.records.Account [] :=
  ⟨.refl _, .slnil, .slnil, .slnil, .slnil⟩

/-- **What all actions record.** -/
theorem account_foldl {ms : List Mention} (h : r.records.Account ms) (actions : List Action) :
    (actions.foldl step r).records.Account (ms ++ Action.mentions actions) := by
  induction actions generalizing r ms with
  | nil =>
    rw [Action.mentions, List.filterMap_nil, List.append_nil]
    exact h
  | cons a actions ih =>
    have hcons : Action.mentions (a :: actions) = a.mention?.toList ++ Action.mentions actions := by
      rw [Action.mentions, List.filterMap_cons]
      cases a.mention? <;> rfl
    rw [List.foldl_cons, hcons, ← List.append_assoc]
    exact ih (account_step h a)

/-! ## Usages, name by name -/

/-- The order in which the log is sorted. -/
def byName (e e' : String × Usage) : Bool := e.1 ≤ e'.1

theorem byName_trans (a b c : String × Usage) (hab : byName a b = true) (hbc : byName b c = true) :
    byName a c = true :=
  decide_eq_true (String.le_trans (of_decide_eq_true hab) (of_decide_eq_true hbc))

theorem byName_total (a b : String × Usage) : (byName a b || byName b a) = true := by
  rw [Bool.or_eq_true]
  exact (String.le_total a.1 b.1).imp decide_eq_true decide_eq_true

/-- Entries of one name stay in the order of the log when it is sorted. -/
theorem filter_mergeSort (log : List (String × Usage)) (name : String) :
    (log.mergeSort byName).filter (·.1 = name) = log.filter (·.1 = name) := by
  have hequal : (log.filter (·.1 = name)).Pairwise fun a b => byName a b = true := by
    refine List.pairwise_of_forall_mem_list fun a ha b hb => decide_eq_true ?_
    have hsame : a.1 = b.1 := (of_decide_eq_true (List.mem_filter.mp ha).2).trans
      (of_decide_eq_true (List.mem_filter.mp hb).2).symm
    exact hsame ▸ String.le_refl a.1
  have hsub : (log.filter (·.1 = name)).Sublist ((log.mergeSort byName).filter (·.1 = name)) := by
    have hsorted := List.sublist_mergeSort byName_trans byName_total hequal List.filter_sublist
    have hfilter := hsorted.filter (·.1 = name)
    rw [List.filter_filter] at hfilter
    simpa using hfilter
  have hperm := (List.mergeSort_perm log byName).filter (·.1 = name)
  exact (hsub.eq_of_length hperm.length_eq.symm).symm

/-- In a group all entries have the name of the first. -/
theorem eq_of_isChain {first : String × Usage} {rest : List (String × Usage)}
    (h : (first :: rest).IsChain fun a b => (a.1 == b.1) = true) : ∀ e ∈ rest, e.1 = first.1 := by
  induction rest generalizing first with
  | nil => exact fun _ he => absurd he List.not_mem_nil
  | cons second rest ih =>
    obtain ⟨hsame, hrest⟩ := List.isChain_cons_cons.mp h
    have hfirst : second.1 = first.1 := (eq_of_beq hsame).symm
    intro e he
    rcases List.mem_cons.mp he with rfl | he
    · exact hfirst
    · exact (ih hrest e he).trans hfirst

/-- The usages of a name, each with the name. -/
def entries (g : String × List Usage) : List (String × Usage) := g.2.map (g.1, ·)

/-- A group, with its name set apart. -/
def group? (group : List (String × Usage)) : Option (String × List Usage) :=
  group.head?.map fun first => (first.1, group.map (·.2))

/-- Setting the name of a group apart loses nothing. -/
theorem exists_group? {group : List (String × Usage)} (hne : group ≠ [])
    (hchain : group.IsChain fun a b => (a.1 == b.1) = true) :
    ∃ g, group? group = some g ∧ entries g = group ∧ ∀ e ∈ group, e.1 = g.1 := by
  cases group with
  | nil => exact absurd rfl hne
  | cons first rest =>
    have hname : ∀ e ∈ first :: rest, e.1 = first.1 :=
      List.forall_mem_cons.mpr ⟨rfl, eq_of_isChain hchain⟩
    refine ⟨_, rfl, ?_, hname⟩
    rw [entries, List.map_map]
    refine List.map_congr_left (fun e he => ?_) |>.trans (List.map_id _)
    rw [Function.comp_apply, ← hname e he]
    rfl

theorem usages_eq (r : Resolution) : r.usages =
    ((r.log.toList.mergeSort byName).splitBy fun a b => a.1 == b.1).filterMap group? := rfl

/-- **The usages name by name are the log**, sorted by name. -/
theorem flatMap_usages (r : Resolution) :
    r.usages.flatMap entries = r.log.toList.mergeSort byName := by
  have hgroups : ∀ groups : List (List (String × Usage)),
      (∀ group ∈ groups, group ≠ [] ∧ group.IsChain fun a b => (a.1 == b.1) = true) →
      (groups.filterMap group?).flatMap entries = groups.flatten := by
    intro groups
    induction groups with
    | nil => exact fun _ => rfl
    | cons group groups ih =>
      intro h
      obtain ⟨⟨hne, hchain⟩, hrest⟩ := List.forall_mem_cons.mp h
      obtain ⟨g, hg, hentries, -⟩ := exists_group? hne hchain
      rw [List.filterMap_cons_some hg, List.flatMap_cons, List.flatten_cons, hentries, ih hrest]
  rw [usages_eq, hgroups, List.flatten_splitBy]
  exact fun group hm => ⟨List.ne_nil_of_mem_splitBy hm, List.isChain_of_mem_splitBy hm⟩

/-- The usages of a name stand in the log in the same order. -/
theorem entries_sublist {r : Resolution} {g : String × List Usage} (hg : g ∈ r.usages) :
    (entries g).Sublist r.log.toList := by
  rw [usages_eq] at hg
  obtain ⟨group, hm, hgroup⟩ := List.mem_filterMap.mp hg
  obtain ⟨g', hg', hentries, hname⟩ := exists_group? (List.ne_nil_of_mem_splitBy hm)
    (List.isChain_of_mem_splitBy hm)
  obtain rfl : g' = g := Option.some.inj (hg'.symm.trans hgroup)
  have hsorted : group.Sublist (r.log.toList.mergeSort byName) := by
    have hflatten := List.sublist_flatten_of_mem hm
    rw [List.flatten_splitBy] at hflatten
    exact hflatten
  have hfilter := hsorted.filter (·.1 = g'.1)
  rw [filter_mergeSort, List.filter_eq_self.mpr fun e he => decide_eq_true (hname e he)] at hfilter
  rw [hentries]
  exact hfilter.trans List.filter_sublist

/-- The uses of symbols, name by name. -/
def references (r : Resolution) : List Mention :=
  r.usages.flatMap fun g => (g.2.filter fun u => !u.isDeclaration).map fun u => ⟨g.1, u.offset⟩

/-- Name by name there are the same uses as in the log. -/
theorem references_perm (r : Resolution) : r.references.Perm r.records.referenced := by
  have hgroups : r.references = ((r.usages.flatMap entries).filter fun e => !e.2.isDeclaration).map
      fun e => ⟨e.1, e.2.offset⟩ := by
    rw [references, List.filter_flatMap, List.map_flatMap]
    simp [entries, List.filter_map, Function.comp_def]
  rw [hgroups, flatMap_usages]
  exact ((List.mergeSort_perm r.log.toList byName).filter _).map _

end Resolution

/-! ## The identifiers of a text -/

/-- Mentions in the order of the text. -/
def Ascending (ms : List Mention) : Prop := ms.Pairwise (·.offset < ·.offset)

/-- No two identifiers stand at one place. -/
theorem ascending_mentions {source : String} {keep : Bool} {tokens : List Token}
    (h : scan source keep = .ok tokens) : Ascending (Token.mentions tokens) := by
  refine List.pairwise_filterMap.mpr ((inOrder_of_scan h).2.imp_of_mem ?_)
  intro t u ht _ hbefore m hm m' hm'
  rw [Token.mention?, Option.ite_none_right_eq_some] at hm hm'
  obtain ⟨hkind, hm⟩ := hm
  obtain ⟨-, hm'⟩ := hm'
  rw [← Option.some.inj hm, ← Option.some.inj hm']
  have hlt : t.span.start < t.span.stop :=
    start_lt_stop_of_scan h t ht (by rw [hkind]; decide)
  exact Nat.lt_of_lt_of_le hlt hbefore

/-- **Every identifier is accounted for**, and once.  It is the name of a symbol, of a declaration
    that came too late, of a use with or without a declaration, or a label, and of no two of these.
    All lists are in the order of the text, the usages name by name. -/
theorem Program.mentions_accounted {source : String} {p : Program}
    (h : ofSource source false = .ok p) : ∃ tokens, scan source false = .ok tokens ∧
      Ascending (Token.mentions tokens) ∧
      (Token.mentions tokens).Perm (p.resolve.records.declared ++ p.resolve.records.redeclared ++
        p.resolve.records.undefined ++ p.resolve.references ++ p.labels) ∧
      Ascending p.resolve.records.declared ∧ Ascending p.resolve.records.redeclared ∧
      Ascending p.resolve.records.undefined ∧
      ∀ g ∈ p.resolve.usages, g.2.Pairwise (·.offset < ·.offset) := by
  obtain ⟨ts, hscan, hwritten⟩ := written_of_ofSource h
  obtain ⟨hordered, hall⟩ := mentions_of_mem_writings hwritten
  have hascending := ascending_mentions hscan
  have hmentions : Token.mentions (ts ++ [Token.endAt (byteLength source.toList)]) =
      Token.mentions ts := by
    rw [Token.mentions_append]
    exact List.append_nil _
  rw [hmentions] at hascending
  have haccount : p.resolve.records.Account (Action.mentions p.actions) :=
    Resolution.account_foldl Resolution.account_empty p.actions
  have hascends : ∀ {ms : List Mention}, ms.Sublist (Action.mentions p.actions) → Ascending ms :=
    fun hms => hascending.sublist (hms.trans hordered)
  refine ⟨_, hscan, hmentions ▸ hascending, ?_, hascends haccount.declared,
    hascends haccount.redeclared, hascends haccount.undefined, fun g hg => ?_⟩
  · rw [hmentions]
    refine hall.trans (List.Perm.append_right p.labels (haccount.all.trans ?_))
    exact (Resolution.references_perm p.resolve).symm.append_left _
  · have hlogged : ((Resolution.entries g).map fun e => Mention.mk e.1 e.2.offset).Sublist
        (Action.mentions p.actions) :=
      ((Resolution.entries_sublist hg).map _).trans haccount.logged
    have hentries := hascends hlogged
    rw [Ascending, Resolution.entries, List.map_map, List.pairwise_map] at hentries
    exact hentries

/-- A text with a name declared twice, names that nothing declares, and labels of both kinds. -/
def crowded : String := "let a={k:b};var a;function f(x){return x.k+a}f((y)=>{c++})"

theorem Program.mentions_accounted_crowded : ∃ p, ofSource crowded false = .ok p ∧
    ∃ tokens, scan crowded false = .ok tokens ∧
      Ascending (Token.mentions tokens) ∧
      (Token.mentions tokens).Perm (p.resolve.records.declared ++ p.resolve.records.redeclared ++
        p.resolve.records.undefined ++ p.resolve.references ++ p.labels) ∧
      Ascending p.resolve.records.declared ∧ Ascending p.resolve.records.redeclared ∧
      Ascending p.resolve.records.undefined ∧
      ∀ g ∈ p.resolve.usages, g.2.Pairwise (·.offset < ·.offset) := by
  have hok : (ofSource crowded false).isOk = true := by decide +kernel
  cases h : ofSource crowded false with
  | error e =>
    rw [h] at hok
    exact Bool.noConfusion hok
  | ok p => exact ⟨p, rfl, mentions_accounted h⟩

end CurlyScript
