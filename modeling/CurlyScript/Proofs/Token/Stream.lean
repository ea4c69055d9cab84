import CurlyScript.Proofs.Token.Terminal

/-
  Token streams: what the tokens of a text are like as a list.

  They stand in the order of the text and none overlaps another (`inOrder_of_scan`), the end token
  is the last and the only one of its class (`scan_eq_append`), and a scan that drops comments
  gives the tokens of one that keeps them but for the comments (`scan_false`).
-/

namespace CurlyScript

/-! ## Leaving out comments -/

/-- Whether a token is none of the comments. -/
def Token.isProper (t : Token) : Bool := !t.isComment

/-- The tokens `raw` without some of the comments. -/
def Thinned (raw ts : List Token) : Prop :=
  ts.Sublist raw ∧ ts.filter Token.isProper = raw.filter Token.isProper

namespace Thinned

variable {raw raw' ts us : List Token} {t : Token}

theorem refl (ts : List Token) : Thinned ts ts := ⟨List.Sublist.refl ts, rfl⟩

theorem append (h : Thinned raw ts) (h' : Thinned raw' us) : Thinned (raw ++ raw') (ts ++ us) := by
  refine ⟨h.1.append h'.1, ?_⟩
  rw [List.filter_append, List.filter_append, h.2, h'.2]

/-- All comments may be left out. -/
theorem of_comments (h : ∀ t ∈ raw, t.isComment = true) : Thinned raw [] := by
  refine ⟨List.nil_sublist raw, (List.filter_eq_nil_iff.mpr fun t ht => ?_).symm⟩
  rw [Token.isProper, h t ht]
  exact Bool.noConfusion

/-- Where there are no comments, none were left out. -/
theorem eq (h : Thinned raw ts) (hraw : ∀ t ∈ raw, t.isComment = false) : ts = raw := by
  have hproper : ∀ t ∈ raw, t.isProper = true := fun t ht => by rw [Token.isProper, hraw t ht]; rfl
  have hfilter := h.2
  rw [List.filter_eq_self.mpr hproper,
    List.filter_eq_self.mpr fun t ht => hproper t (h.1.subset ht)] at hfilter
  exact hfilter

/-- The first token is the first proper one, if it is proper at all. -/
theorem dropWhile_eq (h : Thinned raw (t :: ts)) (ht : t.isComment = false) (rest : List Token) :
    ∃ us, (raw ++ rest).dropWhile Token.isComment = t :: us := by
  have hfilter := h.2
  rw [List.filter_cons_of_pos (by rw [Token.isProper, ht]; rfl)] at hfilter
  obtain ⟨before, after, rfl, hbefore, -⟩ := List.filter_eq_cons_iff.mp hfilter.symm
  refine ⟨after ++ rest, ?_⟩
  rw [List.append_assoc, List.dropWhile_append_of_pos]
  · rw [List.cons_append, List.dropWhile_cons_of_neg]
    rw [ht]
    exact Bool.noConfusion
  · intro u hu
    have hnot := hbefore u hu
    simpa [Token.isProper] using hnot

end Thinned

/-! ## The order of the tokens -/

/-- Each token ends where it begins or later, and none begins before those in front of it end. -/
def InOrder (ts : List Token) : Prop :=
  (∀ t ∈ ts, t.span.start ≤ t.span.stop) ∧ ts.Pairwise (·.span.stop ≤ ·.span.start)

/-- The span goes from the start of the first token to the end of the last. -/
def Span.Covers (s : Span) (ts : List Token) : Prop :=
  ts.head?.map (·.span.start) = some s.start ∧ ts.getLast?.map (·.span.stop) = some s.stop

namespace InOrder

variable {ts us : List Token} {s s' : Span}

theorem sublist (h : InOrder us) (hs : ts.Sublist us) : InOrder ts :=
  ⟨fun t ht => h.1 t (hs.subset ht), h.2.sublist hs⟩

/-- Every token stands within the span of all. -/
theorem mem_within (h : InOrder ts) (hs : s.Covers ts) {t : Token} (ht : t ∈ ts) :
    s.start ≤ t.span.start ∧ t.span.stop ≤ s.stop := by
  obtain ⟨hhead, hlast⟩ := hs
  obtain ⟨a, ha, hstart⟩ := Option.map_eq_some_iff.mp hhead
  obtain ⟨b, hb, hstop⟩ := Option.map_eq_some_iff.mp hlast
  obtain ⟨rest, rfl⟩ := List.head?_eq_some_iff.mp ha
  obtain ⟨front, hfront⟩ := List.getLast?_eq_some_iff.mp hb
  rw [← hstart, ← hstop]
  constructor
  · rcases List.mem_cons.mp ht with rfl | hm
    · exact Nat.le_refl _
    · have hbetween := List.rel_of_pairwise_cons h.2 hm
      have hfirst := h.1 a List.mem_cons_self
      omega
  · rw [hfront] at ht h
    rcases List.mem_append.mp ht with hm | hm
    · have hbetween := (List.pairwise_append.mp h.2).2.2 t hm b List.mem_cons_self
      have hfinal := h.1 b (List.mem_append_right front List.mem_cons_self)
      omega
    · obtain rfl := List.mem_singleton.mp hm
      exact Nat.le_refl _

/-- Some token stands within the span of all. -/
theorem exists_within (h : InOrder ts) (hs : s.Covers ts) :
    ∃ t ∈ ts, s.start ≤ t.span.start ∧ t.span.stop ≤ s.stop := by
  obtain ⟨a, ha, -⟩ := Option.map_eq_some_iff.mp hs.1
  have hm := List.mem_of_head? ha
  exact ⟨a, hm, h.mem_within hs hm⟩

/-- The first token begins before the last one ends. -/
theorem start_le_stop (h : InOrder ts) (hs : s.Covers ts) : s.start ≤ s.stop := by
  obtain ⟨a, hm, hstart, hstop⟩ := h.exists_within hs
  have hordered := h.1 a hm
  omega

/-- What stands before has ended where the rest begins. -/
theorem stop_le_start (h : InOrder (ts ++ us)) (hs : s.Covers ts) (hs' : s'.Covers us) :
    s.stop ≤ s'.start := by
  obtain ⟨b, hb, hstop⟩ := Option.map_eq_some_iff.mp hs.2
  obtain ⟨a, ha, hstart⟩ := Option.map_eq_some_iff.mp hs'.1
  rw [← hstop, ← hstart]
  exact (List.pairwise_append.mp h.2).2.2 b (List.mem_of_getLast? hb) a (List.mem_of_head? ha)

/-- The span of some of the tokens lies within the span of all. -/
theorem covers_within {before after : List Token} (h : InOrder (before ++ us ++ after))
    (hs : s.Covers (before ++ us ++ after)) (hs' : s'.Covers us) :
    s.start ≤ s'.start ∧ s'.stop ≤ s.stop := by
  have hmem : ∀ t ∈ us, t ∈ before ++ us ++ after := fun t ht =>
    List.mem_append_left after (List.mem_append_right before ht)
  obtain ⟨a, ha, hstart⟩ := Option.map_eq_some_iff.mp hs'.1
  obtain ⟨b, hb, hstop⟩ := Option.map_eq_some_iff.mp hs'.2
  rw [← hstart, ← hstop]
  exact ⟨(h.mem_within hs (hmem a (List.mem_of_head? ha))).1,
    (h.mem_within hs (hmem b (List.mem_of_getLast? hb))).2⟩

/-- The only token that ends where it does. -/
theorem eq_of_stop_eq {us vs us' vs' : List Token} {t t' : Token}
    (h : InOrder (us ++ t :: vs)) (hwide : ∀ u ∈ us ++ t :: vs, u.span.start < u.span.stop)
    (heq : us ++ t :: vs = us' ++ t' :: vs') (hstop : t.span.stop = t'.span.stop) :
    us = us' ∧ t = t' ∧ vs = vs' := by
  -- of two tokens one after the other the second ends later
  have hlater : ∀ {x y : Token} {xs : List Token}, InOrder (x :: xs) → y ∈ xs →
      y.span.start < y.span.stop → x.span.stop < y.span.stop := by
    intro x y xs hxs hy hlt
    have hbetween := List.rel_of_pairwise_cons hxs.2 hy
    omega
  induction us generalizing us' with
  | nil =>
    cases us' with
    | nil =>
      obtain ⟨rfl, rfl⟩ := List.cons.inj heq
      exact ⟨rfl, rfl, rfl⟩
    | cons u us' =>
      obtain ⟨rfl, rfl⟩ := List.cons.inj heq
      have hmem : t' ∈ us' ++ t' :: vs' := List.mem_append_right us' List.mem_cons_self
      have hlt := hlater h hmem (hwide t' (List.mem_cons_of_mem _ hmem))
      omega
  | cons u us ih =>
    cases us' with
    | nil =>
      obtain ⟨rfl, rfl⟩ := List.cons.inj heq
      have hmem : t ∈ us ++ t :: vs := List.mem_append_right us List.mem_cons_self
      have hlt := hlater h hmem (hwide t (List.mem_cons_of_mem _ hmem))
      omega
    | cons u' us' =>
      obtain ⟨rfl, hrest⟩ := List.cons.inj heq
      obtain ⟨rfl, ht, hvs⟩ := ih (h.sublist (List.sublist_cons_self _ _))
        (fun x hx => hwide x (List.mem_cons_of_mem _ hx)) hrest
      exact ⟨rfl, ht, hvs⟩

/-- Two nodes one after the other, perhaps with a sign between them, stand in the span of both. -/
theorem covers_merge {mid : List Token} (h : InOrder (ts ++ mid ++ us)) (hs : s.Covers ts)
    (hs' : s'.Covers us) : (s.merge s').Covers (ts ++ mid ++ us) := by
  have hts : s.start ≤ s.stop :=
    (h.sublist ((List.sublist_append_left ts mid).trans
      (List.sublist_append_left _ us))).start_le_stop hs
  have hus : s'.start ≤ s'.stop := (h.sublist (List.sublist_append_right _ us)).start_le_stop hs'
  have hbetween : s.stop ≤ s'.start := by
    have hboth : (ts ++ us).Sublist (ts ++ mid ++ us) :=
      (List.sublist_append_left ts mid).append (List.Sublist.refl us)
    exact (h.sublist hboth).stop_le_start hs hs'
  obtain ⟨hhead, hlast⟩ := hs
  obtain ⟨hhead', hlast'⟩ := hs'
  obtain ⟨a, ha, hstart⟩ := Option.map_eq_some_iff.mp hhead
  obtain ⟨b', hb', hstop'⟩ := Option.map_eq_some_iff.mp hlast'
  have hmin : min s.start s'.start = s.start := by omega
  have hmax : max s.stop s'.stop = s'.stop := by omega
  constructor
  · show _ = some (min s.start s'.start)
    rw [hmin, List.append_assoc, List.head?_append, ha, ← hstart]
    rfl
  · show _ = some (max s.stop s'.stop)
    rw [hmax, List.getLast?_append, hb', ← hstop']
    rfl

end InOrder

/-! ## The tokens of a text -/

theorem inOrder_of_scanFrom {keep : Bool} {done : List Token} {offset : Nat} {cs : List Char}
    {tokens : List Token} (hdone : InOrder done.reverse)
    (hstop : ∀ t ∈ done, t.span.stop ≤ offset) (h : scanFrom keep done offset cs = .ok tokens) :
    InOrder tokens := by
  have hcons : ∀ {done : List Token} {t : Token}, InOrder done.reverse →
      (∀ u ∈ done, u.span.stop ≤ t.span.start) → t.span.start ≤ t.span.stop →
      InOrder (t :: done).reverse := by
    intro done t hdone hbefore ht
    rw [List.reverse_cons]
    refine ⟨fun u hu => ?_, List.pairwise_append.mpr ⟨hdone.2, List.pairwise_singleton _ t, ?_⟩⟩
    · rcases List.mem_append.mp hu with hu | hu
      · exact hdone.1 u hu
      · rw [List.mem_singleton.mp hu]
        exact ht
    · intro u hu v hv
      rw [List.mem_singleton.mp hv]
      exact hbefore u (List.mem_reverse.mp hu)
  -- along the scan: what was scanned is in order and ends before what is to come
  fun_induction scanFrom keep done offset cs with
  | case1 done offset =>
    rw [← Except.ok.inj h]
    exact hcons hdone hstop (Nat.le_refl offset)
  | case2 done offset c cs hb ih =>
    exact ih hdone (fun t ht => Nat.le_trans (hstop t ht) (Nat.le_add_right _ _)) h
  | case3 => cases h
  | case4 done offset c cs hb kind n hl text stop token done' ih =>
    have hle : offset ≤ stop := Nat.le_add_right _ _
    have hlater : ∀ t ∈ done, t.span.stop ≤ stop := fun t ht => Nat.le_trans (hstop t ht) hle
    by_cases hk : kind = .comment ∧ keep = false
    · have hsame : done' = done := if_pos hk
      rw [hsame] at ih
      rw [hsame] at h
      exact ih hdone hlater h
    · have hmore : done' = token :: done := if_neg hk
      rw [hmore] at ih
      rw [hmore] at h
      exact ih (hcons hdone hstop hle) (List.forall_mem_cons.mpr ⟨Nat.le_refl stop, hlater⟩) h

/-- The tokens of a text stand in order. -/
theorem inOrder_of_scan {source : String} {keep : Bool} {tokens : List Token}
    (h : scan source keep = .ok tokens) : InOrder tokens :=
  inOrder_of_scanFrom ⟨fun _ ht => absurd ht List.not_mem_nil, .nil⟩
    (fun _ ht => absurd ht List.not_mem_nil) h

/-- Only the end of a text is a token without characters. -/
theorem start_lt_stop_of_scanFrom {keep : Bool} {done : List Token} {offset : Nat} {cs : List Char}
    {tokens : List Token} (hdone : ∀ t ∈ done, t.kind ≠ .eof → t.span.start < t.span.stop)
    (h : scanFrom keep done offset cs = .ok tokens) :
    ∀ t ∈ tokens, t.kind ≠ .eof → t.span.start < t.span.stop := by
  fun_induction scanFrom keep done offset cs with
  | case1 done offset =>
    rw [← Except.ok.inj h]
    intro t ht hkind
    rcases List.mem_cons.mp (List.mem_reverse.mp ht) with rfl | ht
    · exact absurd rfl hkind
    · exact hdone t ht hkind
  | case2 done offset c cs hb ih => exact ih hdone h
  | case3 => cases h
  | case4 done offset c cs hb kind n hl text stop token done' ih =>
    refine ih (fun t ht hkind => ?_) h
    have hmem : t = token ∨ t ∈ done := by
      by_cases hk : kind = .comment ∧ keep = false
      · have hsame : done' = done := if_pos hk
        exact .inr (hsame ▸ ht)
      · have hmore : done' = token :: done := if_neg hk
        exact List.mem_cons.mp (hmore ▸ ht)
    rcases hmem with rfl | ht
    · have hpos : 0 < c.utf8Size := Char.utf8Size_pos c
      show offset < offset + byteLength (c :: cs.take n)
      rw [byteLength_cons]
      omega
    · exact hdone t ht hkind

theorem start_lt_stop_of_scan {source : String} {keep : Bool} {tokens : List Token}
    (h : scan source keep = .ok tokens) : ∀ t ∈ tokens, t.kind ≠ .eof → t.span.start < t.span.stop :=
  start_lt_stop_of_scanFrom (fun _ ht => absurd ht List.not_mem_nil) h

/-- The end token is the last token of a text, and the only one of its class.  A scan that drops
    comments has none. -/
theorem scan_eq_append {source : String} {keep : Bool} {tokens : List Token}
    (h : scan source keep = .ok tokens) :
    ∃ before, tokens = before ++ [Token.endAt (byteLength source.toList)] ∧
      (∀ t ∈ before, t.kind ≠ .eof) ∧ (keep = false → ∀ t ∈ before, t.isComment = false) := by
  obtain ⟨ts, before, hscans, htokens, hmap⟩ := scans_of_scan h
  have hmem : ∀ t ∈ before, t.terminal ∈ ts.filter (Terminal.isKept keep) := by
    intro t ht
    rw [← hmap]
    exact List.mem_map_of_mem ht
  refine ⟨before, htokens, fun t ht hk => ?_, fun hkeep t ht => ?_⟩
  · -- the end of the text has no spelling, but every terminal of a text has one
    have hspelled := hscans.isSpelled _ (List.mem_filter.mp (hmem t ht)).1
    obtain ⟨kind, text, span⟩ := t
    obtain rfl : kind = .eof := hk
    exact Bool.noConfusion hspelled
  · have hkept := (List.mem_filter.mp (hmem t ht)).2
    rw [hkeep, Terminal.isKept, Bool.false_or, Bool.not_eq_true'] at hkept
    exact hkept

theorem scanFrom_false (done : List Token) (offset : Nat) (cs : List Char) :
    scanFrom false (done.filter Token.isProper) offset cs =
      (scanFrom true done offset cs).map (List.filter Token.isProper) := by
  fun_induction scanFrom true done offset cs with
  | case1 done offset =>
    rw [scanFrom, Except.map, List.filter_reverse, List.filter_cons_of_pos rfl]
  | case2 done offset c cs hb ih => rw [scanFrom, if_pos hb, ih]
  | case3 done offset c cs hb fault hl =>
    rw [scanFrom, if_neg hb, hl]
    rfl
  | case4 done offset c cs hb kind n hl text stop token done' ih =>
    have hmore : done' = token :: done := if_neg fun h => Bool.noConfusion h.2
    rw [← ih, hmore, scanFrom, if_neg hb, hl]
    show scanFrom false (if kind = .comment ∧ false = false then done.filter Token.isProper
      else token :: done.filter Token.isProper) stop (cs.drop n) = _
    by_cases hk : kind = .comment
    · rw [if_pos ⟨hk, rfl⟩, List.filter_cons_of_neg]
      simp [Token.isProper, Token.isComment, token, hk]
    · rw [if_neg fun h => hk h.1, List.filter_cons_of_pos]
      simp [Token.isProper, Token.isComment, token, hk]

/-- **Dropping comments drops nothing else**, and does so at no other time. -/
theorem scan_false (source : String) :
    scan source false = (scan source true).map (List.filter Token.isProper) :=
  scanFrom_false [] 0 source.toList

end CurlyScript
