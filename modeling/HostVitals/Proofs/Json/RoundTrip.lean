import HostVitals.Json.Printer
import HostVitals.Json.Reader
import HostVitals.Proofs.Document.Shown
import HostVitals.Proofs.Text.Numerals
import Mathlib.Data.List.TakeWhile

/-! A document written as JSON is read back: every text comes out of its quotes as it was, and every
value of a table stands where the reader looks for it. -/
namespace HostVitals.Json

open Document (Shows ShowsAll Simple SimpleAll)

variable {c e : Char} {r s tail : List Char} {fuel level n : Nat} {d : Document}
  {entries : List (String × Document)} {limit : Nat} {isKey : String → Prop}

/-! Texts. -/

theorem takePieces_short (hc : shortEscape e = some c) (fuel : Nat) (r : List Char) :
    takePieces (fuel + 1) ('\\' :: e :: r) =
      (takePieces fuel r).map fun p => (.char c :: p.1, p.2) := by
  have hu : e ≠ 'u' := by
    rintro rfl
    simp [shortEscape] at hc
  simp [takePieces, hc, Option.map_eq_bind]

theorem takeHex4_hexDigits (hn : n < 32) (r : List Char) :
    takeHex4 ((hexDigits 4 n).toList ++ r) = some (n, r) := by
  interval_cases n <;> rfl

theorem takePieces_code (hc : c.toNat < 32) (fuel : Nat) (r : List Char) :
    takePieces (fuel + 1) ('\\' :: 'u' :: ((hexDigits 4 c.toNat).toList ++ r)) =
      (takePieces fuel r).map fun p => (.char c :: p.1, p.2) := by
  have hunit : pieceOfUnit c.toNat = .char c := by
    have hhigh : ¬(0xD800 ≤ c.toNat ∧ c.toNat < 0xDC00) := by omega
    have hlow : ¬(0xDC00 ≤ c.toNat ∧ c.toNat < 0xE000) := by omega
    rw [pieceOfUnit, if_neg hhigh, if_neg hlow, Char.ofNat_toNat]
  simp [takePieces, takeHex4_hexDigits hc, hunit, Option.map_eq_bind]

theorem takePieces_plain (hquote : c ≠ '"') (hslash : c ≠ '\\') (hshown : ¬c.toNat < 32)
    (fuel : Nat) (r : List Char) :
    takePieces (fuel + 1) (c :: r) = (takePieces fuel r).map fun p => (.char c :: p.1, p.2) := by
  simp [takePieces, hquote, hslash, hshown, Option.map_eq_bind]

/-- A character is read from its escape, whatever follows. -/
theorem takePieces_escapedChar (fuel : Nat) (c : Char) (r : List Char) :
    takePieces (fuel + 1) ((escapedChar c).toList ++ r) =
      (takePieces fuel r).map fun p => (.char c :: p.1, p.2) := by
  have hcode {n : Nat} (h : c.toNat = n) : c = Char.ofNat n := by rw [← h, Char.ofNat_toNat]
  unfold escapedChar
  repeat' split
  case isTrue h => exact takePieces_short (by rw [h]; rfl) fuel r
  case isTrue h => exact takePieces_short (by rw [h]; rfl) fuel r
  case isTrue h => exact takePieces_short (by rw [h]; rfl) fuel r
  case isTrue h => exact takePieces_short (by rw [h]; rfl) fuel r
  case isTrue h => exact takePieces_short (by rw [h]; rfl) fuel r
  case isTrue h => exact takePieces_short (by rw [hcode h]; rfl) fuel r
  case isTrue h => exact takePieces_short (by rw [hcode h]; rfl) fuel r
  case isTrue h => simpa using takePieces_code h fuel r
  case isFalse hquote hslash _ _ _ _ _ hshown =>
    simpa using takePieces_plain hquote hslash hshown fuel r

theorem takePieces_text (cs r : List Char) (hfuel : cs.length < fuel) :
    takePieces fuel (cs.flatMap (fun c => (escapedChar c).toList) ++ '"' :: r) =
      some (cs.map .char, r) := by
  induction cs generalizing fuel with
  | nil =>
    obtain ⟨fuel, rfl⟩ := Nat.exists_eq_succ_of_ne_zero (Nat.ne_of_gt hfuel)
    simp [takePieces]
  | cons c cs ih =>
    obtain ⟨fuel, rfl⟩ := Nat.exists_eq_succ_of_ne_zero (Nat.ne_of_gt (Nat.zero_lt_of_lt hfuel))
    rw [List.flatMap_cons, List.append_assoc, takePieces_escapedChar, ih (by simpa using hfuel)]
    rfl

theorem joinPieces_chars (cs : List Char) : joinPieces (cs.map .char) = some cs := by
  induction cs with
  | nil => rfl
  | cons c cs ih => simp [joinPieces, ih]

theorem escapedChar_ne_nil (c : Char) : (escapedChar c).toList ≠ [] := by
  unfold escapedChar
  repeat' split
  all_goals simp

/-- A text in quotes, the opening one taken off. -/
theorem takeText_stringText (t : String) :
    ∃ inside, (stringText t).toList = '"' :: inside ∧
      ∀ r, takeText (inside ++ r) = some (some t, r) := by
  refine ⟨t.toList.flatMap (fun c => (escapedChar c).toList) ++ ['"'], ?_, fun r => ?_⟩
  · simp [stringText, List.flatMap_def, Function.comp_def]
  · have hlength := Text.length_le_flatMap fun c (_ : c ∈ t.toList) => escapedChar_ne_nil c
    rw [takeText, List.append_assoc, List.singleton_append, takePieces_text]
    · simp [joinPieces_chars]
    · simp only [List.length_append, List.length_cons]
      omega

/-! Numbers. -/

def EndsNumber (tail : List Char) : Prop :=
  ∀ c ∈ tail.head?, c.isDigit = false ∧ c ≠ '.' ∧ c ≠ 'e' ∧ c ≠ 'E'

theorem takeDigits_toDigits (n : Nat) (htail : EndsNumber tail) :
    takeDigits (Nat.toDigits 10 n ++ tail) = (Nat.toDigits 10 n, tail) := by
  have hdigits : ∀ c ∈ Nat.toDigits 10 n, c.isDigit = true := fun c hc =>
    Nat.isDigit_of_mem_toDigits (by decide) (by decide) hc
  rw [takeDigits, List.takeWhile_append_of_pos hdigits, List.dropWhile_append_of_pos hdigits]
  cases tail with
  | nil => simp
  | cons c tail => simp [(htail c rfl).1]

theorem takeNumber_toDigits (n : Nat) (htail : EndsNumber tail) :
    takeNumber false (Nat.toDigits 10 n ++ tail) = some (.number (some n), tail) := by
  have hzero : ¬((Nat.toDigits 10 n).head? = some '0' ∧ 1 < (Nat.toDigits 10 n).length) := by
    rintro ⟨hhead, hlength⟩
    rw [Text.length_toDigits_of_head? (by decide) (by decide) hhead] at hlength
    exact Nat.lt_irrefl 1 hlength
  have hvalue : (Nat.toDigits 10 n).foldl (fun n c => n * 10 + (c.toNat - 48)) 0 = n := by
    have h := Nat.ofDigitChars_ten_toDigits (n := n)
    simpa [Nat.ofDigitChars_eq_foldl, Nat.mul_comm] using h
  have hfraction : takeFraction tail = some (false, tail) := by
    cases tail with
    | nil => rfl
    | cons c tail => simp [takeFraction, (htail c rfl).2.1]
  have hexponent : takeExponent tail = some (false, tail) := by
    cases tail with
    | nil => rfl
    | cons c tail => simp [takeExponent, (htail c rfl).2.2]
  simp [takeNumber, takeDigits_toDigits n htail, Nat.toDigits_ne_nil, hzero, hvalue, hfraction,
    hexponent]

/-! Values. -/

def moreEntries (level : Nat) : List (String × Document) → List Char
  | [] => []
  | (k, d) :: entries =>
    ',' :: '\n' :: ((margin level).toList ++ ((stringText k).toList ++
      ':' :: ' ' :: ((prettyAt level d).toList ++ moreEntries level entries)))

theorem intercalate_prettyEntries (level : Nat) (k : String) (d : Document)
    (entries : List (String × Document)) :
    (String.intercalate ",\n"
        ((prettyEntries level ((k, d) :: entries)).map (margin level ++ ·))).toList =
      (margin level).toList ++ ((stringText k).toList ++
        ':' :: ' ' :: ((prettyAt level d).toList ++ moreEntries level entries)) := by
  induction entries generalizing k d with
  | nil => simp [prettyEntries, moreEntries]
  | cons e entries ih =>
    obtain ⟨k', d'⟩ := e
    have hmore : (prettyEntries level ((k', d') :: entries)).map (margin level ++ ·) ≠ [] := by
      simp [prettyEntries]
    rw [prettyEntries, List.map_cons, String.intercalate_cons_of_ne_nil hmore, String.toList_append,
      ih]
    simp [moreEntries]

theorem prettyAt_table (level : Nat) (k : String) (d : Document)
    (entries : List (String × Document)) :
    (prettyAt level (.table ((k, d) :: entries))).toList =
      '\x7b' :: '\n' :: ((margin (level + 1)).toList ++ ((stringText k).toList ++
        ':' :: ' ' :: ((prettyAt (level + 1) d).toList ++ (moreEntries (level + 1) entries ++
          '\n' :: ((margin level).toList ++ ['\x7d']))))) := by
  have hsome : (prettyEntries (level + 1) ((k, d) :: entries)).isEmpty = false := by
    simp [prettyEntries]
  simp only [prettyAt, bracketed, hsome, Bool.false_eq_true, if_false, String.toList_append,
    intercalate_prettyEntries]
  simp

theorem skipSpace_margin (level : Nat) (s : List Char) :
    skipSpace ((margin level).toList ++ s) = skipSpace s := by
  have hspaces : ∀ c ∈ List.replicate (2 * level) ' ', isSpace c = true := by
    simp [isSpace]
  simp [margin, skipSpace, List.dropWhile_append_of_pos hspaces]

theorem skipSpace_newline (s : List Char) : skipSpace ('\n' :: s) = skipSpace s := by
  simp [skipSpace, isSpace]

theorem skipSpace_blank (s : List Char) : skipSpace (' ' :: s) = skipSpace s := by
  simp [skipSpace, isSpace]

theorem skipSpace_of_head (hc : isSpace c = false) (s : List Char) : skipSpace (c :: s) = c :: s := by
  simp [skipSpace, hc]

theorem length_skipSpace_le (s : List Char) : (skipSpace s).length ≤ s.length :=
  (List.dropWhile_suffix _).length_le

theorem takeValue_of_digit (hs : skipSpace s = c :: r) (hc : c.isDigit = true) :
    takeValue (fuel + 1) s = takeNumber false (c :: r) := by
  rw [takeValue, hs]
  split <;> simp_all

theorem isSpace_of_isDigit (hc : c.isDigit = true) : isSpace c = false := by
  by_contra h
  simp only [isSpace, Bool.not_eq_false, Bool.or_eq_true, decide_eq_true_eq] at h
  rcases h with ((rfl | rfl) | rfl) | rfl <;> cases hc

/-- A value starts with no blank. -/
theorem skipSpace_prettyAt (hd : Simple limit isKey d) (level : Nat) (r : List Char) :
    skipSpace ((prettyAt level d).toList ++ r) = (prettyAt level d).toList ++ r := by
  have hhead : ∃ c cs, (prettyAt level d).toList = c :: cs ∧ isSpace c = false := by
    cases d with
    | null => exact ⟨'n', ['u', 'l', 'l'], by simp [prettyAt, compact], by decide⟩
    | bool b =>
      cases b with
      | true => exact ⟨'t', ['r', 'u', 'e'], by simp [prettyAt, compact], by decide⟩
      | false => exact ⟨'f', ['a', 'l', 's', 'e'], by simp [prettyAt, compact], by decide⟩
    | int i =>
      obtain ⟨n, -, rfl⟩ := hd
      obtain ⟨c, cs, hcs, hc⟩ := Text.exists_digit_toDigits n
      have htext : (prettyAt level (.int n)).toList = c :: cs := by
        simp only [prettyAt, compact, Text.toList_toString_natCast, hcs]
      exact ⟨c, cs, htext, isSpace_of_isDigit hc⟩
    | text t =>
      obtain ⟨inside, hinside, -⟩ := takeText_stringText t
      exact ⟨'"', inside, by simp [prettyAt, compact, hinside], by decide⟩
    | table entries =>
      cases entries with
      | nil => exact absurd rfl hd.1
      | cons e entries => exact ⟨_, _, prettyAt_table level e.1 e.2 entries, by decide⟩
    | number _ | list _ => cases hd
  obtain ⟨c, cs, hcs, hc⟩ := hhead
  rw [hcs, List.cons_append, skipSpace_of_head hc]

theorem takeValue_table {t : List Char} (hs : skipSpace s = '\x7b' :: r)
    (hr : skipSpace r = '"' :: t) :
    takeValue (fuel + 1) s = (takeEntries fuel ('"' :: t)).map fun p => (.table p.1, p.2) := by
  rw [takeValue, hs]
  simp [hr]

section Entries
variable {k : Option String} {n : Node} {t rest : List Char} (hs : skipSpace s = '"' :: r)
  (hk : takeText r = some (k, ':' :: t)) (hn : takeValue fuel t = some (n, rest))
include hs hk hn

theorem takeEntries_last (hrest : skipSpace rest = '\x7d' :: tail) :
    takeEntries (fuel + 1) s = some ([(k, n)], tail) := by
  rw [takeEntries, hs]
  simp [hk, hn, hrest, skipSpace_of_head (c := ':') (by decide)]

theorem takeEntries_more (hrest : skipSpace rest = ',' :: tail) :
    takeEntries (fuel + 1) s = (takeEntries fuel tail).map fun p => ((k, n) :: p.1, p.2) := by
  rw [takeEntries, hs]
  simp [hk, hn, hrest, skipSpace_of_head (c := ':') (by decide), Option.map_eq_bind]

end Entries

def afterEntry (level outer : Nat) (entries : List (String × Document)) (tail : List Char) :
    List Char :=
  moreEntries level entries ++ '\n' :: ((margin outer).toList ++ '\x7d' :: tail)

theorem endsNumber_afterEntry (level outer : Nat) (entries : List (String × Document))
    (tail : List Char) : EndsNumber (afterEntry level outer entries tail) := by
  cases entries <;> simp [EndsNumber, afterEntry, moreEntries]

def ReadsBack (d : Document) : Prop :=
  ∀ (level fuel : Nat) (s tail : List Char), skipSpace s = (prettyAt level d).toList ++ tail →
    EndsNumber tail → s.length ≤ fuel →
      ∃ n, takeValue (fuel + 1) s = some (n, tail) ∧ Shows Node.shape d n

theorem readsBack_null : ReadsBack .null := by
  intro level fuel s tail hs htail hfuel
  refine ⟨.null, ?_, .null rfl rfl⟩
  rw [takeValue, hs]
  simp [prettyAt, compact]

theorem readsBack_bool (b : Bool) : ReadsBack (.bool b) := by
  intro level fuel s tail hs htail hfuel
  refine ⟨.bool b, ?_, .bool rfl rfl rfl⟩
  rw [takeValue, hs]
  cases b <;> simp [prettyAt, compact]

theorem readsBack_int {n : Nat} (hn : n ≤ Text.maxU64) : ReadsBack (.int n) := by
  intro level fuel s tail hs htail hfuel
  simp only [prettyAt, compact, Text.toList_toString_natCast] at hs
  obtain ⟨c, cs, hcs, hc⟩ := Text.exists_digit_toDigits n
  have hread : takeValue (fuel + 1) s = takeNumber false (Nat.toDigits 10 n ++ tail) := by
    rw [hcs, List.cons_append] at hs ⊢
    exact takeValue_of_digit hs hc
  refine ⟨.number (some n), by rw [hread, takeNumber_toDigits n htail], .int rfl rfl ?_ rfl⟩
  simp [Option.filter, hn]

theorem readsBack_text (t : String) : ReadsBack (.text t) := by
  intro level fuel s tail hs htail hfuel
  obtain ⟨inside, hinside, hread⟩ := takeText_stringText t
  refine ⟨.text (some t), ?_, .text rfl rfl rfl⟩
  simp only [prettyAt, compact, hinside, List.cons_append] at hs
  rw [takeValue, hs]
  simp [hread]

/-- The key and the value of an entry are read back. -/
theorem takeEntry_pretty {k : String} (hd : Simple limit isKey d) (hback : ReadsBack d)
    (htail : EndsNumber tail) (hs : skipSpace s = (stringText k).toList ++
      ':' :: ' ' :: ((prettyAt level d).toList ++ tail)) (hfuel : s.length ≤ fuel + 1) :
    ∃ r t n, skipSpace s = '"' :: r ∧ takeText r = some (some k, ':' :: t) ∧
      takeValue (fuel + 1) t = some (n, tail) ∧ Shows Node.shape d n := by
  obtain ⟨inside, hinside, hread⟩ := takeText_stringText k
  rw [hinside, List.cons_append] at hs
  have hblank : skipSpace (' ' :: ((prettyAt level d).toList ++ tail)) =
      (prettyAt level d).toList ++ tail := by
    rw [skipSpace_blank, skipSpace_prettyAt hd]
  have hlength := length_skipSpace_le s
  rw [hs] at hlength
  simp only [List.length_cons, List.length_append] at hlength
  obtain ⟨n, hn, hshows⟩ := hback level fuel _ tail hblank htail (by
    simp only [List.length_cons, List.length_append]
    omega)
  exact ⟨_, _, n, hs, hread _, hn, hshows⟩

/-- Entries are read back from behind the margin of the first. -/
theorem takeEntries_pretty {k : String} (hentries : ∀ e ∈ (k, d) :: entries,
      isKey e.1 ∧ Simple limit isKey e.2 ∧ ReadsBack e.2) {outer : Nat}
    (hs : skipSpace s = (stringText k).toList ++ ':' :: ' ' :: ((prettyAt level d).toList ++
      afterEntry level outer entries tail))
    (hfuel : s.length ≤ fuel + 1) :
    ∃ ns, takeEntries (fuel + 2) s = some (ns, tail) ∧
      ShowsAll Node.shape ((k, d) :: entries) ns := by
  induction entries generalizing k d fuel s with
  | nil =>
    obtain ⟨-, hd, hback⟩ := hentries _ List.mem_cons_self
    obtain ⟨r, t, n, hr, hk, hn, hshows⟩ := takeEntry_pretty hd hback
      (endsNumber_afterEntry _ _ _ _) hs hfuel
    have hclose : skipSpace (afterEntry level outer [] tail) = '\x7d' :: tail := by
      rw [afterEntry, moreEntries, List.nil_append, skipSpace_newline, skipSpace_margin,
        skipSpace_of_head (by decide)]
    exact ⟨[(some k, n)], takeEntries_last hr hk hn hclose, .cons hshows .nil⟩
  | cons e entries ih =>
    obtain ⟨k', d'⟩ := e
    obtain ⟨-, hd, hback⟩ := hentries _ List.mem_cons_self
    obtain ⟨r, t, n, hr, hk, hn, hshows⟩ := takeEntry_pretty hd hback
      (endsNumber_afterEntry _ _ _ _) hs hfuel
    generalize hnext : (stringText k').toList ++
      ':' :: ' ' :: ((prettyAt level d').toList ++ afterEntry level outer entries tail) = next at ih
    have hmore : afterEntry level outer ((k', d') :: entries) tail =
        ',' :: '\n' :: ((margin level).toList ++ next) := by
      rw [← hnext]
      simp [afterEntry, moreEntries]
    have hstart : skipSpace ('\n' :: ((margin level).toList ++ next)) = next := by
      obtain ⟨inside, hinside, -⟩ := takeText_stringText k'
      rw [skipSpace_newline, skipSpace_margin, ← hnext, hinside, List.cons_append,
        skipSpace_of_head (by decide)]
    have hlength := length_skipSpace_le s
    rw [hs, hmore] at hlength
    simp only [List.length_append, List.length_cons] at hlength
    obtain ⟨fuel, rfl⟩ : ∃ f, fuel = f + 1 := ⟨fuel - 1, by omega⟩
    obtain ⟨ns, hns, hrest⟩ := ih (fun e he => hentries e (List.mem_cons_of_mem _ he))
      (hstart.trans hnext.symm)
      (by
        simp only [List.length_append, List.length_cons]
        omega : ('\n' :: ((margin level).toList ++ next)).length ≤ fuel + 1)
    have hcomma : skipSpace (afterEntry level outer ((k', d') :: entries) tail) =
        ',' :: '\n' :: ((margin level).toList ++ next) := by
      rw [hmore, skipSpace_of_head (by decide)]
    refine ⟨(some k, n) :: ns, ?_, .cons hshows hrest⟩
    rw [takeEntries_more hr hk hn hcomma, hns]
    rfl

theorem readsBack_table {k : String} (hentries : ∀ e ∈ (k, d) :: entries,
      isKey e.1 ∧ Simple limit isKey e.2 ∧ ReadsBack e.2) :
    ReadsBack (.table ((k, d) :: entries)) := by
  intro level fuel s tail hs htail hfuel
  obtain ⟨inside, hinside, -⟩ := takeText_stringText k
  generalize hinner : (stringText k).toList ++ ':' :: ' ' :: ((prettyAt (level + 1) d).toList ++
    afterEntry (level + 1) level entries tail) = inner
  obtain ⟨t, ht⟩ : ∃ t, inner = '"' :: t := ⟨_, by rw [← hinner, hinside, List.cons_append]⟩
  have hopen : skipSpace s = '\x7b' :: '\n' :: ((margin (level + 1)).toList ++ inner) := by
    rw [hs, prettyAt_table, ← hinner]
    simp [afterEntry]
  have hfirst : skipSpace ('\n' :: ((margin (level + 1)).toList ++ inner)) = '"' :: t := by
    rw [skipSpace_newline, skipSpace_margin, ht, skipSpace_of_head (by decide)]
  have hlength := length_skipSpace_le s
  rw [hopen] at hlength
  simp only [List.length_cons, List.length_append] at hlength
  obtain ⟨fuel, rfl⟩ : ∃ f, fuel = f + 2 := ⟨fuel - 2, by omega⟩
  obtain ⟨ns, hns, hshows⟩ := takeEntries_pretty hentries
    (s := inner) (by rw [hinner, ht, skipSpace_of_head (by decide)])
    (by omega : inner.length ≤ fuel + 1)
  refine ⟨.table ns, ?_, .table rfl hshows⟩
  rw [takeValue_table hopen hfirst, ← ht, hns]
  rfl

theorem readsBack (hd : Simple Text.maxU64 isKey d) : ReadsBack d :=
  Simple.elim readsBack_null readsBack_bool (fun _ => readsBack_int) readsBack_text
    (fun _ _ _ => readsBack_table) d hd

/-- The text of a document leads to a value that shows the document. -/
theorem read_pretty (hd : Simple Text.maxU64 isKey d) :
    ∃ n, read (pretty d).toList = some n ∧ Shows Node.shape d n := by
  have hs : skipSpace (pretty d).toList = (prettyAt 0 d).toList ++ [] := by
    simpa [pretty] using skipSpace_prettyAt hd 0 []
  obtain ⟨n, hn, hshows⟩ := readsBack hd 0 (2 * (pretty d).toList.length + 1) _ [] hs
    (by simp [EndsNumber]) (by omega)
  refine ⟨n, ?_, hshows⟩
  rw [read, hn]
  rfl

end HostVitals.Json
