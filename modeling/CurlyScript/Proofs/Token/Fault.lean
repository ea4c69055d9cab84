import CurlyScript.Proofs.Token.Munch
import CurlyScript.Proofs.Token.Slice

/-
  What stands before a fault.

  A scan that fails has come to the fault by the longest tokens (`MunchesTo`), and none of them was
  as long as it is because of what comes after: a token at the end of a text is taken as it was taken
  before the rest of the text (`lexeme_of_append`).  So the text before the fault is scanned, and as
  just those tokens (`exists_tokens_of_scan_error`).
-/

namespace CurlyScript

/-- The scan of the text that stands at `offset` takes the tokens, comments among them, and comes to
    what is left of the text. -/
inductive MunchesTo : Nat → List Char → List Token → List Char → Prop where
  | here (offset : Nat) (rest : List Char) : MunchesTo offset rest [] rest
  | blank {offset : Nat} {c : Char} {cs rest : List Char} {ts : List Token} :
    Text.isBlank c = true → MunchesTo (offset + c.utf8Size) cs ts rest →
      MunchesTo offset (c :: cs) ts rest
  | token {offset : Nat} {c : Char} {x more rest : List Char} {kind : TokenKind}
    {ts : List Token} : Text.isBlank c = false → (∀ f, ¬ Fails f (c :: x ++ more)) →
    Longest kind (c :: x) (c :: x ++ more) →
    MunchesTo (offset + byteLength (c :: x)) more ts rest →
      MunchesTo offset (c :: x ++ more)
        (⟨kind, String.ofList (c :: x), ⟨offset, offset + byteLength (c :: x)⟩⟩ :: ts) rest

/-- A scan that fails comes to the fault. -/
theorem Munches.exists_munchesTo {offset : Nat} {cs : List Char} {e : LexicalError}
    (h : Munches offset cs (.error e)) : ∃ ts rest, MunchesTo offset cs ts rest ∧
      Fails e.fault rest ∧ e.offset + byteLength rest = offset + byteLength cs := by
  generalize hresult : Except.error e = result at h
  induction h with
  | nil offset => cases hresult
  | @blank offset c cs _ hb _ ih =>
    obtain ⟨ts, rest, hto, hfails, hlength⟩ := ih hresult
    refine ⟨ts, rest, .blank hb hto, hfails, ?_⟩
    rw [hlength, byteLength_cons, Nat.add_assoc]
  | @fault offset c cs f hb hf =>
    obtain rfl := Except.error.inj hresult
    exact ⟨[], c :: cs, .here offset (c :: cs), hf, rfl⟩
  | @token offset c x more kind result hb hno hlongest _ ih =>
    cases result with
    | ok ts => cases hresult
    | error e' =>
      obtain rfl : e = e' := Except.error.inj hresult
      obtain ⟨ts, rest, hto, hfails, hlength⟩ := ih rfl
      refine ⟨_, rest, .token hb hno hlongest hto, hfails, ?_⟩
      rw [hlength, byteLength_append, Nat.add_assoc]

/-- What is taken at the start of a text is taken there without what comes after it. -/
theorem lexeme_of_append {c : Char} {x text after : List Char} {kind : TokenKind}
    (h : lexeme c (x ++ (text ++ after)) = .ok (kind, x.length)) :
    lexeme c (x ++ text) = .ok (kind, x.length) := by
  cases text with
  | nil =>
    -- nothing comes after the token, and of that it is taken as a whole
    obtain ⟨-, htoken, -, -⟩ := longest_of_lexeme h
    rw [List.take_left] at htoken
    refine htoken.lexeme_eq (fun d hd => ?_) fun _ d hd => ?_
    · cases hd
    · cases hd
  | cons d text =>
    have hcut : lexeme c (x ++ (d :: text ++ [])) = .ok (kind, x.length) :=
      lexeme_cut_append h (fun _ => List.cons_ne_nil d text) fun _ hd => nomatch hd
    rw [List.append_nil] at hcut
    exact hcut

/-- The text up to where a scan has come is scanned as the tokens that were taken. -/
theorem MunchesTo.exists_munches {offset : Nat} {cs rest : List Char} {ts : List Token}
    (h : MunchesTo offset cs ts rest) : ∃ before, cs = before ++ rest ∧
      Munches offset before (.ok (ts ++ [Token.endAt (offset + byteLength before)])) := by
  induction h with
  | here offset rest => exact ⟨[], rfl, .nil offset⟩
  | @blank offset c cs rest ts hb _ ih =>
    obtain ⟨before, rfl, hmunches⟩ := ih
    refine ⟨c :: before, rfl, .blank hb ?_⟩
    rw [byteLength_cons, ← Nat.add_assoc]
    exact hmunches
  | @token offset c x more rest kind ts hb hno hlongest _ ih =>
    obtain ⟨before, rfl, hmunches⟩ := ih
    have hwhole : lexeme c (x ++ (before ++ rest)) = .ok (kind, x.length) := by
      refine lexeme_eq_ok_iff.mpr ⟨hno, ?_, ?_⟩
      · rw [List.length_append]
        omega
      · rw [List.take_left]
        exact hlongest
    obtain ⟨hno', -, hlongest'⟩ := lexeme_eq_ok_iff.mp (lexeme_of_append hwhole)
    rw [List.take_left] at hlongest'
    refine ⟨c :: x ++ before, (List.append_assoc _ _ _).symm, ?_⟩
    have htoken := Munches.token hb hno' hlongest' hmunches
    rw [byteLength_append, ← Nat.add_assoc]
    exact htoken

/-- A fault is at some character. -/
theorem Fails.ne_nil {f : ScanFault} {r : List Char} (h : Fails f r) : r ≠ [] := by
  cases h <;> exact List.cons_ne_nil _ _

/-- Comments are faulty or not whether they are kept or dropped. -/
theorem munches_of_scan_error {source : String} {keep : Bool} {e : LexicalError}
    (h : scan source keep = .error e) : Munches 0 source.toList (.error e) := by
  have hkept : scan source true = .error e := by
    cases keep with
    | true => exact h
    | false =>
      rw [scan_false] at h
      cases hscan : scan source true with
      | error e' =>
        rw [hscan] at h
        exact h
      | ok ts =>
        rw [hscan] at h
        cases h
  rw [← hkept]
  exact munches_scan source

/-- **The text before a fault has the tokens that were scanned before it**, and nothing else; the
    fault is where the offset says, between two characters. -/
theorem exists_tokens_of_scan_error {source : String} {keep : Bool} {e : LexicalError}
    (h : scan source keep = .error e) : ∃ (before after : String) (ts : List Token),
      source = before ++ after ∧ byteLength before.toList = e.offset ∧
      e.offset < byteLength source.toList ∧ Fails e.fault after.toList ∧
      MunchesTo 0 source.toList ts after.toList ∧
      scan before keep = .ok (ts.filter (fun t => keep || t.isProper) ++
        [Token.endAt e.offset]) := by
  obtain ⟨ts, rest, hto, hfails, hlength⟩ := (munches_of_scan_error h).exists_munchesTo
  obtain ⟨before, hsource, hbefore⟩ := hto.exists_munches
  rw [hsource, byteLength_append] at hlength
  have hoffset : byteLength before = e.offset := by omega
  have hpos : 0 < byteLength rest := by
    obtain ⟨c, cs, rfl⟩ := List.exists_cons_of_ne_nil hfails.ne_nil
    have hsize := Char.utf8Size_pos c
    rw [byteLength_cons]
    omega
  have hscan : scan (String.ofList before) true = .ok (ts ++ [Token.endAt e.offset]) := by
    rw [scan, String.toList_ofList, hbefore.scanFrom_eq [], Nat.zero_add, hoffset]
    rfl
  refine ⟨.ofList before, .ofList rest, ts, ?_, ?_, ?_, ?_, ?_, ?_⟩
  · rw [← String.toList_inj, hsource, String.toList_append, String.toList_ofList,
      String.toList_ofList]
  · rw [String.toList_ofList, hoffset]
  · rw [hsource, byteLength_append]
    omega
  · rw [String.toList_ofList]
    exact hfails
  · rw [String.toList_ofList]
    exact hto
  · cases keep with
    | true =>
      have hall : ts.filter (fun t => true || t.isProper) = ts :=
        List.filter_eq_self.mpr fun _ _ => rfl
      rw [hscan, hall]
    | false =>
      rw [scan_false, hscan]
      exact congrArg Except.ok (List.filter_append _ _)

end CurlyScript
