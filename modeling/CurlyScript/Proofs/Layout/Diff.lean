import CurlyScript.Layout.Source
import CurlyScript.Proofs.Number.ReadBack
import Mathlib.Data.List.MinMax

/-
  Differences read back.

  A difference is a text made for people.  Here it is read again, and applied to the old lines.

  1. **The reader** — `Change.ofEntries? d` splits a text at its line feeds and reads each part as a
     sign, blanks, digits, a bar and the text of the line.  It does not know how wide the column of
     the numbers is, and a text may hold bars, digits and carriage returns.

  2. **The patch** — `patched old changes`: the line at a place is the one that was added there, if
     there is one; else none if the old line was removed there; else the old line.

  3. **The changes** — `mem_between` says which changes there are: for each place where the two
     texts do not have the same line, the line of each of them that has one.  So the patch gives, at
     each place, the line of the new text (`lineAfter_between`).

  4. **The lines** — two texts have the same lines if they are equal once each `\r\n` is a line feed
     and the last line has one (`lines_eq_iff`).  A text without characters has no line.
-/

namespace CurlyScript

/-! ## The reader -/

/-- The parts of a text that end with a line feed, and what stands after the last of these;
    `current` is the part so far in reverse. -/
def partsFrom (current : List Char) : List Char → List (List Char) × List Char
  | [] => ([], current.reverse)
  | c :: cs =>
    if c = '\n' then
      let parts := partsFrom [] cs
      (current.reverse :: parts.1, parts.2)
    else partsFrom (c :: current) cs

theorem partsFrom_append {line : List Char} (h : '\n' ∉ line) (current rest : List Char) :
    partsFrom current (line ++ rest) = partsFrom (line.reverse ++ current) rest := by
  induction line generalizing current with
  | nil => rfl
  | cons c line ih =>
    obtain ⟨hc, hline⟩ := not_or.mp (List.mem_cons.not.mp h)
    rw [List.cons_append, partsFrom, if_neg (Ne.symm hc), ih hline, List.reverse_cons,
      List.append_assoc]
    rfl

/-- Lines that are each ended by a line feed are found again. -/
theorem partsFrom_flatMap {ls : List (List Char)} (h : ∀ l ∈ ls, '\n' ∉ l) :
    partsFrom [] (ls.flatMap (· ++ ['\n'])) = (ls, []) := by
  induction ls with
  | nil => rfl
  | cons l ls ih =>
    rw [List.flatMap_cons, List.append_assoc, partsFrom_append (h l List.mem_cons_self),
      List.append_nil, List.singleton_append, partsFrom, if_pos rfl,
      ih fun x hx => h x (List.mem_cons_of_mem l hx), List.reverse_reverse]

namespace Change

/-- What a sign says of the line after it. -/
def isAdded? : Char → Option Bool
  | '+' => some true
  | '-' => some false
  | _ => none

/-- The text of a line after the number of its place. -/
def text? : List Char → Option (List Char)
  | ' ' :: '|' :: ' ' :: text => some text
  | _ => none

/-- Reads an entry without the line feed at its end: a sign, blanks, a number, a bar, a text. -/
def ofEntry? : List Char → Option Change
  | [] => none
  | sign :: cs =>
    let place := cs.dropWhile (· = ' ')
    (isAdded? sign).bind fun added =>
      (text? (place.dropWhile Char.isDigit)).map fun text =>
        ⟨added, Decimal.ofDigits (place.takeWhile Char.isDigit), String.ofList text⟩

/-- Reads entries, each of which is ended by a line feed. -/
def ofEntries? (d : String) : Option (List Change) :=
  let parts := partsFrom [] d.toList
  if parts.2 = [] then parts.1.mapM ofEntry? else none

/-- The characters of an entry without the line feed. -/
def entryChars (c : Change) : List Char :=
  (if c.added then '+' else '-') :: ((column c.line).toList ++ ' ' :: '|' :: ' ' :: c.text.toList)

theorem toList_entry (c : Change) : c.entry.toList = c.entryChars ++ ['\n'] := by
  cases h : c.added <;> simp [entry, entryChars, h]

theorem toList_column (n : Nat) : (column n).toList =
    List.replicate (4 - (Decimal.digitsOf n).length) ' ' ++ Decimal.digitsOf n := by
  rw [column, String.toList_ofList]
  rfl

theorem ofEntry?_entryChars (c : Change) : ofEntry? c.entryChars = some c := by
  have hdigit : ∀ d ∈ Decimal.digitsOf c.line, d.isDigit = true := fun d hd =>
    Decimal.isDigit_of_mem_digitsOf hd
  have hplace : ∀ rest, ((column c.line).toList ++ rest).dropWhile (· = ' ') =
      Decimal.digitsOf c.line ++ rest := by
    intro rest
    rw [toList_column, List.append_assoc, List.dropWhile_append_of_pos (by simp)]
    obtain ⟨d, ds, hds⟩ := List.exists_cons_of_ne_nil (Decimal.digitsOf_ne_nil c.line)
    have hd : d ≠ ' ' := by
      rintro rfl
      exact absurd (hdigit ' ' (by rw [hds]; exact List.mem_cons_self)) (by decide)
    rw [hds, List.cons_append, List.dropWhile_cons_of_neg (by simpa using hd)]
  have hsign : isAdded? (if c.added then '+' else '-') = some c.added := by
    cases c.added <;> rfl
  rw [entryChars, ofEntry?]
  simp only [hplace, hsign, Option.bind_some]
  rw [List.dropWhile_append_of_pos hdigit, takeWhile_append_stop hdigit (by simp),
    List.dropWhile_cons_of_neg (by decide), text?, Option.map_some, Decimal.ofDigits_digitsOf,
    String.ofList_toList]

theorem newline_notMem_entryChars {c : Change} (h : '\n' ∉ c.text.toList) :
    '\n' ∉ c.entryChars := by
  have hdigits : '\n' ∉ Decimal.digitsOf c.line := fun hd =>
    absurd (Decimal.isDigit_of_mem_digitsOf hd) (by decide)
  have hsign : '\n' ≠ (if c.added then '+' else '-') := by
    cases c.added <;> decide
  simp [entryChars, toList_column, h, hdigits, hsign]

theorem toList_join_entries (cs : List Change) :
    (String.join (cs.map entry)).toList = (cs.map entryChars).flatMap (· ++ ['\n']) := by
  induction cs with
  | nil => rfl
  | cons c cs ih => simp [String.join_cons, toList_entry, ih]

theorem mapM_ofEntry? (cs : List Change) : (cs.map entryChars).mapM ofEntry? = some cs := by
  induction cs with
  | nil => rfl
  | cons c cs ih =>
    rw [List.map_cons, List.mapM_cons, ofEntry?_entryChars, ih]
    rfl

/-- Entries are read back, if no text holds a line feed. -/
theorem ofEntries?_join {cs : List Change} (h : ∀ c ∈ cs, '\n' ∉ c.text.toList) :
    ofEntries? (String.join (cs.map entry)) = some cs := by
  have hparts : partsFrom [] (String.join (cs.map entry)).toList = (cs.map entryChars, []) := by
    rw [toList_join_entries]
    apply partsFrom_flatMap
    intro l hl
    obtain ⟨c, hc, rfl⟩ := List.mem_map.mp hl
    exact newline_notMem_entryChars (h c hc)
  rw [ofEntries?, hparts, if_pos rfl, mapM_ofEntry?]

end Change

/-! ## The patch -/

/-- The line at a place, counted from one, once the changes are made. -/
def lineAfter (old : List String) (changes : List Change) (place : Nat) : Option String :=
  match changes.find? fun c => c.added && c.line == place with
  | some c => some c.text
  | none =>
    if changes.any fun c => !c.added && c.line == place then none else old[place - 1]?

/-- The last place that the old lines or the changes have. -/
def lastPlace (old : List String) (changes : List Change) : Nat :=
  (old.length :: changes.map Change.line).foldr max 0

/-- The lines once the changes are made. -/
def patched (old : List String) (changes : List Change) : List String :=
  (List.range' 1 (lastPlace old changes)).filterMap (lineAfter old changes)

/-- The new lines, from the old ones and a difference. -/
def rebuilt? (old : List String) (d : String) : Option (List String) :=
  (Change.ofEntries? d).map (patched old)

/-! ## The changes -/

/-- A line that only one of two texts has at its place, the first lines being at place `n`. -/
def Change.IsOf (n : Nat) (as bs : List String) (c : Change) : Prop :=
  ∃ i, c.line = n + i ∧ as[i]? ≠ bs[i]? ∧ (if c.added then bs else as)[i]? = some c.text

namespace Change

variable {n : Nat} {as bs : List String} {c : Change}

theorem isOf_iff (as bs : List String) : IsOf n as bs c ↔
    (c.line = n ∧ as.head? ≠ bs.head? ∧ (if c.added then bs else as).head? = some c.text) ∨
      IsOf (n + 1) as.tail bs.tail c := by
  constructor
  · rintro ⟨i, hline, hne, htext⟩
    cases i with
    | zero =>
      rw [← List.head?_eq_getElem?, ← List.head?_eq_getElem?] at hne
      rw [← List.head?_eq_getElem?] at htext
      exact .inl ⟨hline, hne, htext⟩
    | succ i =>
      refine .inr ⟨i, by omega, ?_, ?_⟩
      · rw [List.getElem?_tail, List.getElem?_tail]
        exact hne
      · cases h : c.added <;> simpa [h] using htext
  · rintro (⟨hline, hne, htext⟩ | ⟨i, hline, hne, htext⟩)
    · refine ⟨0, hline, ?_, ?_⟩
      · rw [← List.head?_eq_getElem?, ← List.head?_eq_getElem?]
        exact hne
      · rw [← List.head?_eq_getElem?]
        exact htext
    · refine ⟨i + 1, by omega, ?_, ?_⟩
      · rw [List.getElem?_tail, List.getElem?_tail] at hne
        exact hne
      · cases h : c.added <;> simpa [h] using htext

/-- There is a change where the lines differ, for each of the two that there is. -/
theorem mem_between : c ∈ between n as bs ↔ IsOf n as bs c := by
  fun_induction between n as bs with
  | case1 n => simp [IsOf]
  | case2 n a as ih =>
    rw [List.mem_cons, ih, isOf_iff (a :: as)]
    apply or_congr_left
    obtain ⟨added, line, text⟩ := c
    cases added <;> simp [eq_comm]
  | case3 n b bs ih =>
    rw [List.mem_cons, ih, isOf_iff [] (b :: bs)]
    apply or_congr_left
    obtain ⟨added, line, text⟩ := c
    cases added <;> simp [eq_comm]
  | case4 n as b bs ih =>
    rw [ih, isOf_iff (b :: as)]
    simp
  | case5 n a as b bs hab ih =>
    rw [List.mem_cons, List.mem_cons, ih, isOf_iff (a :: as), ← or_assoc]
    apply or_congr_left
    obtain ⟨added, line, text⟩ := c
    cases added <;> simp [hab, eq_comm]

/-- The text of a change is a line of one of the two texts. -/
theorem text_mem (h : c ∈ between n as bs) : c.text ∈ as ∨ c.text ∈ bs := by
  obtain ⟨i, -, -, htext⟩ := mem_between.mp h
  have hmem := List.mem_of_getElem? htext
  cases hadded : c.added with
  | true => exact .inr (by simpa [hadded] using hmem)
  | false => exact .inl (by simpa [hadded] using hmem)

end Change

/-- The patch gives, at each place, the line of the new text. -/
theorem lineAfter_between (as bs : List String) (i : Nat) :
    lineAfter as (Change.between 1 as bs) (i + 1) = bs[i]? := by
  unfold lineAfter
  split
  · rename_i c hfind
    have hc := List.find?_some hfind
    rw [Bool.and_eq_true, beq_iff_eq] at hc
    obtain ⟨j, hline, -, htext⟩ := Change.mem_between.mp (List.mem_of_find?_eq_some hfind)
    obtain rfl : j = i := by omega
    rw [if_pos hc.1] at htext
    exact htext.symm
  · rename_i hfind
    rw [List.find?_eq_none] at hfind
    -- were a line added here, it would have been found
    have hnew : as[i]? ≠ bs[i]? → bs[i]? = none := by
      intro hne
      rw [Option.eq_none_iff_forall_ne_some]
      intro b hb
      have hmem : (⟨true, i + 1, b⟩ : Change) ∈ Change.between 1 as bs :=
        Change.mem_between.mpr ⟨i, Nat.add_comm i 1, hne, hb⟩
      exact hfind _ hmem (by simp)
    split
    · rename_i hany
      obtain ⟨c, hc, hremoved⟩ := List.any_eq_true.mp hany
      rw [Bool.and_eq_true, beq_iff_eq] at hremoved
      obtain ⟨j, hline, hne, -⟩ := Change.mem_between.mp hc
      obtain rfl : j = i := by omega
      exact (hnew hne).symm
    · rename_i hany
      rw [Nat.add_sub_cancel]
      by_contra hne
      have hnone := hnew hne
      rw [hnone] at hne
      obtain ⟨a, ha⟩ := Option.ne_none_iff_exists'.mp hne
      have hmem : (⟨false, i + 1, a⟩ : Change) ∈ Change.between 1 as bs :=
        Change.mem_between.mpr ⟨i, Nat.add_comm i 1, by rw [ha, hnone]; simp, ha⟩
      exact hany (List.any_eq_true.mpr ⟨_, hmem, by simp⟩)

/-- No line of the new text stands beyond the last place. -/
theorem length_le_lastPlace (as bs : List String) :
    bs.length ≤ lastPlace as (Change.between 1 as bs) := by
  by_cases h : bs.length ≤ as.length
  · exact List.le_max_of_le' 0 List.mem_cons_self h
  · have hlt : bs.length - 1 < bs.length := by omega
    have hb : bs[bs.length - 1]? = some bs[bs.length - 1] := List.getElem?_eq_getElem hlt
    have ha : as[bs.length - 1]? = none := List.getElem?_eq_none (by omega)
    have hmem : (⟨true, bs.length, bs[bs.length - 1]⟩ : Change) ∈ Change.between 1 as bs :=
      Change.mem_between.mpr ⟨bs.length - 1, by show bs.length = _; omega, by rw [ha, hb]; simp, hb⟩
    exact List.le_max_of_le' 0 (List.mem_cons_of_mem _ (List.mem_map_of_mem hmem)) le_rfl

/-- Lines that are looked up place by place, from place `n` on. -/
theorem filterMap_range' {as : List String} {n count : Nat} {f : Nat → Option String}
    (h : as.length ≤ count) (hf : ∀ i, f (n + i) = as[i]?) :
    (List.range' n count).filterMap f = as := by
  induction as generalizing n count with
  | nil =>
    rw [List.filterMap_eq_nil_iff]
    intro place hplace
    obtain ⟨i, -, rfl⟩ := List.mem_range'.mp hplace
    rw [Nat.one_mul, hf i]
    rfl
  | cons a as ih =>
    obtain ⟨count, rfl⟩ : ∃ m, count = m + 1 := ⟨count - 1, by rw [List.length_cons] at h; omega⟩
    have hrest : ∀ i, f (n + 1 + i) = as[i]? := by
      intro i
      rw [Nat.add_right_comm, Nat.add_assoc, hf (i + 1)]
      rfl
    have hfirst : f n = some a := hf 0
    rw [List.range'_succ, List.filterMap_cons_some hfirst, ih (Nat.le_of_succ_le_succ h) hrest]

/-- The changes, made to the old lines, give the new ones. -/
theorem patched_between (as bs : List String) : patched as (Change.between 1 as bs) = bs := by
  apply filterMap_range' (length_le_lastPlace as bs)
  intro i
  rw [Nat.add_comm]
  exact lineAfter_between as bs i

/-! ## The lines -/

/-- A line without the carriage return at its end, if there is one. -/
def withoutReturn (line : List Char) : List Char :=
  if line.getLast? = some '\r' then line.dropLast else line

theorem linesFrom_append {line : List Char} (h : '\n' ∉ line) (current rest : List Char) :
    linesFrom current (line ++ rest) = linesFrom (line.reverse ++ current) rest := by
  induction line generalizing current with
  | nil => rfl
  | cons c line ih =>
    obtain ⟨hc, hline⟩ := not_or.mp (List.mem_cons.not.mp h)
    rw [List.cons_append, linesFrom, ih hline, List.reverse_cons, List.append_assoc]
    · rfl
    · exact fun he => hc he.symm

theorem linesFrom_newline (current cs : List Char) : linesFrom current ('\n' :: cs) =
    String.ofList (withoutReturn current.reverse) :: linesFrom [] cs := by
  cases current with
  | nil => rfl
  | cons c current =>
    by_cases hc : c = '\r'
    · subst hc
      simp [linesFrom, withoutReturn]
    · rw [linesFrom]
      · simp [withoutReturn, hc]
      · exact fun _ he => hc (List.cons.inj he).1

/-- The first line of a text with a line feed. -/
theorem lines_append_newline {line : List Char} (h : '\n' ∉ line) (cs : List Char) :
    linesFrom [] (line ++ '\n' :: cs) = String.ofList (withoutReturn line) :: linesFrom [] cs := by
  rw [linesFrom_append h, linesFrom_newline, List.append_nil, List.reverse_reverse]

/-- A text without a line feed is one line, or none if it is empty. -/
theorem lines_last {line : List Char} (h : '\n' ∉ line) (hne : line ≠ []) :
    linesFrom [] line = [String.ofList line] := by
  have happend := linesFrom_append h [] []
  rw [List.append_nil, List.append_nil] at happend
  rw [happend, linesFrom, if_neg (by simpa using hne), List.reverse_reverse]

/-- Induction along the lines of a text. -/
theorem line_induction {P : List Char → Prop} (nil : P [])
    (last : ∀ line, '\n' ∉ line → line ≠ [] → P line)
    (cons : ∀ line cs, '\n' ∉ line → P cs → P (line ++ '\n' :: cs)) (cs : List Char) : P cs := by
  -- for all that may stand on the line before
  suffices h : ∀ line, '\n' ∉ line → P (line ++ cs) from h [] List.not_mem_nil
  induction cs with
  | nil =>
    intro line hline
    rw [List.append_nil]
    by_cases hne : line = []
    · rw [hne]
      exact nil
    · exact last line hline hne
  | cons c cs ih =>
    intro line hline
    by_cases hc : c = '\n'
    · rw [hc]
      exact cons line cs hline (ih [] List.not_mem_nil)
    · rw [List.append_cons]
      apply ih
      simp [hline, Ne.symm hc]

theorem newline_notMem_withoutReturn {line : List Char} (h : '\n' ∉ line) :
    '\n' ∉ withoutReturn line := by
  unfold withoutReturn
  split
  · exact fun hm => h ((List.dropLast_sublist line).subset hm)
  · exact h

/-- No line holds a line feed. -/
theorem newline_notMem_of_mem_lines {s l : String} (h : l ∈ lines s) : '\n' ∉ l.toList := by
  rw [lines] at h
  generalize s.toList = cs at h
  induction cs using line_induction with
  | nil => exact absurd h List.not_mem_nil
  | last line hline hne =>
    rw [lines_last hline hne, List.mem_singleton] at h
    rw [h, String.toList_ofList]
    exact hline
  | cons line cs hline ih =>
    rw [lines_append_newline hline, List.mem_cons] at h
    rcases h with rfl | h
    · rw [String.toList_ofList]
      exact newline_notMem_withoutReturn hline
    · exact ih h

/-- A text in which each carriage return before a line feed is left out. -/
def unified : List Char → List Char
  | [] => []
  | '\r' :: '\n' :: cs => '\n' :: unified cs
  | c :: cs => c :: unified cs

/-- A text with a line feed at its end, if it has any characters. -/
def finished (cs : List Char) : List Char :=
  if cs = [] ∨ cs.getLast? = some '\n' then cs else cs ++ ['\n']

/-- A text with each of its lines ended by a line feed alone. -/
def ended (s : String) : List Char := finished (unified s.toList)

theorem unified_cons {c : Char} {cs : List Char} (h : c = '\r' → cs.head? ≠ some '\n') :
    unified (c :: cs) = c :: unified cs := by
  rw [unified]
  rintro rest hc rfl
  exact h hc rfl

theorem unified_last {line : List Char} (h : '\n' ∉ line) : unified line = line := by
  induction line with
  | nil => rfl
  | cons c line ih =>
    obtain ⟨-, hline⟩ := not_or.mp (List.mem_cons.not.mp h)
    rw [unified_cons fun _ hhead => hline (List.mem_of_mem_head? hhead), ih hline]

theorem unified_append_newline {line : List Char} (h : '\n' ∉ line) (cs : List Char) :
    unified (line ++ '\n' :: cs) = withoutReturn line ++ '\n' :: unified cs := by
  induction line with
  | nil => exact unified_cons fun hc => absurd hc (by decide)
  | cons c line ih =>
    obtain ⟨hc, hline⟩ := not_or.mp (List.mem_cons.not.mp h)
    cases line with
    | nil =>
      by_cases hreturn : c = '\r'
      · subst hreturn
        rfl
      · rw [List.cons_append, unified_cons fun he => absurd he hreturn, ih hline]
        simp [withoutReturn, hreturn]
    | cons d line =>
      have hhead : (d :: line ++ '\n' :: cs).head? ≠ some '\n' := by
        rintro ⟨⟩
        exact hline List.mem_cons_self
      rw [List.cons_append, unified_cons fun _ => hhead, ih hline]
      unfold withoutReturn
      rw [List.getLast?_cons_cons, List.dropLast_cons_cons]
      split <;> rfl

theorem finished_append_newline (line cs : List Char) :
    finished (line ++ '\n' :: cs) = line ++ '\n' :: finished cs := by
  unfold finished
  cases cs with
  | nil => simp
  | cons c cs =>
    have hlast : (line ++ '\n' :: c :: cs).getLast? = (c :: cs).getLast? := by
      rw [List.getLast?_append_cons, List.getLast?_cons_cons]
    rw [hlast]
    simp only [List.append_eq_nil_iff, reduceCtorEq, and_false, false_or]
    split
    · rfl
    · simp

/-- The lines, each ended by a line feed. -/
theorem flatMap_lines (s : String) : (lines s).flatMap (·.toList ++ ['\n']) = ended s := by
  rw [lines, ended]
  generalize s.toList = cs
  induction cs using line_induction with
  | nil => rfl
  | last line hline hne =>
    have hlast : line.getLast? ≠ some '\n' := fun hl => hline (List.mem_of_getLast? hl)
    rw [lines_last hline hne, unified_last hline, finished, if_neg (by simp [hne, hlast])]
    simp
  | cons line cs hline ih =>
    rw [lines_append_newline hline, unified_append_newline hline, finished_append_newline,
      List.flatMap_cons, ih]
    simp

/-- Two texts have the same lines if they differ in the ends of lines only. -/
theorem lines_eq_iff {s t : String} : lines s = lines t ↔ ended s = ended t := by
  constructor
  · intro h
    rw [← flatMap_lines, h, flatMap_lines]
  · intro h
    have hparts : ∀ s, partsFrom [] (ended s) = ((lines s).map String.toList, []) := by
      intro s
      rw [← flatMap_lines, ← partsFrom_flatMap, List.flatMap_map]
      intro l hl
      obtain ⟨line, hline, rfl⟩ := List.mem_map.mp hl
      exact newline_notMem_of_mem_lines hline
    have hmap := (hparts s).symm.trans (by rw [h, hparts t])
    exact List.map_injective_iff.mpr (fun _ _ => String.toList_inj.mp) (Prod.mk.inj hmap).1

/-! ## The difference -/

/-- A difference, read back and made to the old lines, gives the new ones. -/
theorem rebuilt?_of_diff? {old new d : String} (h : diff? old new = some d) :
    rebuilt? (lines old) d = some (lines new) := by
  rw [diff?] at h
  split at h
  · exact absurd h (by simp)
  · obtain rfl := Option.some.inj h
    rw [rebuilt?, Change.ofEntries?_join, Option.map_some, patched_between]
    intro c hc
    rcases Change.text_mem hc with hold | hnew
    · exact newline_notMem_of_mem_lines hold
    · exact newline_notMem_of_mem_lines hnew

theorem Change.between_self (n : Nat) (as : List String) : between n as as = [] := by
  induction as generalizing n with
  | nil => rw [between]
  | cons a as ih => rw [between, if_pos rfl, ih]

theorem rebuilt?_empty (old : List String) : rebuilt? old "" = some old := by
  show some (patched old []) = some old
  rw [← Change.between_self 1 old, patched_between]

/-- A difference without entries is one between texts with the same lines. -/
theorem diff?_eq_empty_iff {old new d : String} (h : diff? old new = some d) :
    d = "" ↔ lines old = lines new := by
  constructor
  · rintro rfl
    have hnew := rebuilt?_of_diff? h
    rw [rebuilt?_empty] at hnew
    exact Option.some.inj hnew
  · intro hlines
    rw [diff?, hlines, Change.between_self] at h
    split at h
    · exact absurd h (by simp)
    · exact (Option.some.inj h).symm

/-- What laying a text out changes, told faithfully.  Nothing is told if and only if the text is
    laid out already.  Otherwise what is told, read as entries of a sign, a number and a text, gives
    the lines of the new text when it is made to those of the old one; and it has no entry if and
    only if the two have the same lines, that is, differ in the ends of lines only. -/
theorem changes_of_reformat {st : Style} {source f : String} (h : reformat st source = .ok f) :
    (changes? st source = .ok none ↔ isLaidOut st source = .ok true) ∧
    (isLaidOut st source = .ok true ↔ source = f) ∧
    (source ≠ f → ∃ d, changes? st source = .ok (some d) ∧
      rebuilt? (lines source) d = some (lines f) ∧ (d = "" ↔ lines source = lines f)) ∧
    (lines source = lines f ↔ ended source = ended f) := by
  have hchanges : changes? st source = .ok (diff? source f) := by
    rw [changes?, h]
    rfl
  have hlaid : isLaidOut st source = .ok (source == f) := by
    rw [isLaidOut, h]
    rfl
  have hlaidOut : isLaidOut st source = .ok true ↔ source = f := by
    rw [hlaid, Except.ok.injEq, beq_iff_eq]
  refine ⟨?_, hlaidOut, ?_, lines_eq_iff⟩
  · rw [hlaidOut, hchanges, Except.ok.injEq, diff?]
    split <;> simp [*]
  · intro hne
    have hdiff : ∃ d, diff? source f = some d := by
      rw [diff?, if_neg hne]
      exact ⟨_, rfl⟩
    obtain ⟨d, hd⟩ := hdiff
    exact ⟨d, by rw [hchanges, hd], rebuilt?_of_diff? hd, diff?_eq_empty_iff hd⟩

/-- A text whose lines hold bars, signs and carriage returns. -/
def barred : String := "a('+   1 | b')\r\n\n\nb(1)//-   2 | c\r\r\n"

/-- That text laid out, which has one line less. -/
def barredLaidOut : String := "a(\"+   1 | b\");\nb(1);\n//-   2 | c\r\r\n"

theorem changes_of_reformat_barred : reformat .standard barred = .ok barredLaidOut ∧
    (changes? .standard barred = .ok none ↔ isLaidOut .standard barred = .ok true) ∧
    (isLaidOut .standard barred = .ok true ↔ barred = barredLaidOut) ∧
    (barred ≠ barredLaidOut → ∃ d, changes? .standard barred = .ok (some d) ∧
      rebuilt? (lines barred) d = some (lines barredLaidOut) ∧
      (d = "" ↔ lines barred = lines barredLaidOut)) ∧
    (lines barred = lines barredLaidOut ↔ ended barred = ended barredLaidOut) := by
  have h : reformat .standard barred = .ok barredLaidOut := by decide +kernel
  exact ⟨h, changes_of_reformat h⟩

end CurlyScript
