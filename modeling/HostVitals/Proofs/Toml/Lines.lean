import HostVitals.Proofs.Document.Shown
import HostVitals.Proofs.Toml.Texts
import Mathlib.Data.List.TakeWhile

/-! The lines of a TOML document: each key with a value is read back, but for numbers that do not fit
into 64 bits with a sign. -/
namespace HostVitals.Toml

open Document (Shows ShowsAll)

variable {c : Char} {cs r s : List Char} {fuel : Nat} {k : String} {d : Document}
  {entries : List (String × Document)} {path : List String}

def IsBareKey (k : String) : Prop := k ≠ "" ∧ k.toList.all isBareKeyChar = true

theorem keyText_of_isBareKey (hk : IsBareKey k) : keyText k = k := if_pos hk

theorem takeBare_append (hcs : ∀ c ∈ cs, isBare c = true) (hsome : cs ≠ [])
    (hr : ∀ c ∈ r.head?, isBare c = false) : takeBare (cs ++ r) = some (cs, r) := by
  have htake : (cs ++ r).takeWhile isBare = cs := by
    rw [List.takeWhile_append_of_pos hcs]
    cases r with
    | nil => simp
    | cons c r => simp [hr c rfl]
  have hdrop : (cs ++ r).dropWhile isBare = r := by
    rw [List.dropWhile_append_of_pos hcs]
    cases r with
    | nil => simp
    | cons c r => simp [hr c rfl]
  simp [takeBare, htake, hdrop, hsome]

theorem isBare_of_mem (hk : IsBareKey k) : ∀ c ∈ k.toList, isBare c = true := by
  simpa only [isBareKeyChar, isBare, List.all_eq_true] using hk.2

theorem toList_ne_nil (hk : IsBareKey k) : k.toList ≠ [] := by
  simpa using hk.1

theorem takeKey_of_isBareKey (hk : IsBareKey k) (hr : ∀ c ∈ r.head?, isBare c = false) :
    takeKey (k.toList ++ r) = some (k, r) := by
  have hbare := takeBare_append (isBare_of_mem hk) (toList_ne_nil hk) hr
  cases hcs : k.toList with
  | nil => exact absurd hcs (toList_ne_nil hk)
  | cons c cs =>
    have hc : isBare c = true := isBare_of_mem hk c (by simp [hcs])
    have hdouble : c ≠ '"' := by
      rintro rfl
      cases hc
    have hsingle : c ≠ '\'' := by
      rintro rfl
      cases hc
    rw [hcs] at hbare
    simp only [List.cons_append] at hbare ⊢
    rw [takeKey]
    · simp [hbare, ← hcs]
    · simpa using hdouble
    · simpa using hsingle

/-! Values. -/

def nodeOf? : Document → Option Node
  | .bool b => some (.bool b)
  | .int i => if i.toNat ≤ Text.maxI64 then some (.integer i) else none
  | .text t => some (.text t)
  | _ => none

theorem takeInteger_go_digits (hcs : ∀ c ∈ cs, (Text.digitValue 10 c).isSome = true) :
    takeInteger.go false 10 false false false cs = some (cs, []) := by
  induction cs with
  | nil => rfl
  | cons c cs ih =>
    simp [takeInteger.go, hcs c List.mem_cons_self, ih fun c hc => hcs c (List.mem_cons_of_mem _ hc)]

theorem isDigit_of_mem {n : Nat} (hc : c ∈ Nat.toDigits 10 n) : c.isDigit = true :=
  Nat.isDigit_of_mem_toDigits (by decide) (by decide) hc

theorem takeInteger_toDigits (n : Nat) :
    takeInteger true false 10 (Nat.toDigits 10 n) = some (Nat.toDigits 10 n, []) := by
  have hdigits : ∀ c ∈ Nat.toDigits 10 n, (Text.digitValue 10 c).isSome = true := fun c hc =>
    Text.digitValue_isSome_of_mem_toDigits (by decide) (by decide) hc
  have hzero := Text.length_toDigits_of_head? (b := 10) (n := n) (by decide) (by decide)
  obtain ⟨c, cs, hcs, hc⟩ := Text.exists_digit_toDigits n
  rw [hcs] at hdigits hzero ⊢
  have hsign : ¬(c = '+' ∨ c = '-') :=
    not_or.mpr ⟨Text.ne_of_isDigit hc (by decide), Text.ne_of_isDigit hc (by decide)⟩
  simp only [takeInteger, true_and, if_neg hsign]
  by_cases h0 : c = '0'
  · have hnil : cs = [] := by simpa [h0] using hzero
    subst hnil h0
    rfl
  · have hrest := takeInteger_go_digits fun c hc => hdigits c (List.mem_cons_of_mem _ hc)
    simp [takeInteger.go, h0, hdigits c List.mem_cons_self, hrest]

theorem integer_toDigits (n : Nat) : integer 10 (Nat.toDigits 10 n) = nodeOf? (.int n) := by
  have hdigits : ∀ c ∈ Nat.toDigits 10 n, (Text.digitValue 10 c).isSome = true := fun c hc =>
    Text.digitValue_isSome_of_mem_toDigits (by decide) (by decide) hc
  have hvalue := Text.valueAfter_toDigits (b := 10) (by decide) (by decide) n
  have hplain : withoutUnderscores (Nat.toDigits 10 n) = Nat.toDigits 10 n :=
    List.filter_eq_self.mpr fun c hc =>
      bne_iff_ne.mpr (Text.ne_of_isDigit (isDigit_of_mem hc) (by decide))
  have hread : Text.readInteger 10 Text.maxI64 (Nat.toDigits 10 n) =
      (Text.readDigits 10 Text.maxI64 .tooLarge 0 (Nat.toDigits 10 n)).map Int.ofNat := by
    obtain ⟨c, cs, hcs, hc⟩ := Text.exists_digit_toDigits n
    have hplus := Text.ne_of_isDigit hc (d := '+') (by decide)
    have hminus := Text.ne_of_isDigit hc (d := '-') (by decide)
    rw [hcs, Text.readInteger.eq_def]
    split <;> simp_all
  simp only [integer, takeInteger_toDigits, decide_true, ne_eq, not_true_eq_false, decide_false,
    Option.bind_eq_bind, Option.bind_some, List.isEmpty_nil, if_true, hplain, hread, nodeOf?]
  by_cases hn : n ≤ Text.maxI64
  · rw [Text.readDigits_of_le (by decide) hdigits (by rwa [hvalue]), hvalue]
    simp [Except.map, Except.toOption, hn]
  · rw [Text.readDigits_of_lt hdigits (Nat.zero_le _) (by rw [hvalue]; omega)]
    simp [Except.map, Except.toOption, hn]

theorem not_mem_toDigits {n : Nat} (hc : c.isDigit = false) : c ∉ Nat.toDigits 10 n :=
  fun h => Bool.false_ne_true (hc.symm.trans (isDigit_of_mem h))

/-- Digits are no text with another character in it. -/
theorem ofList_toDigits_ne {n : Nat} {t : String} (ht : c ∈ t.toList) (hc : c.isDigit = false) :
    String.ofList (Nat.toDigits 10 n) ≠ t := by
  rintro rfl
  exact not_mem_toDigits hc (by simpa using ht)

theorem takeNumber_toDigits (n : Nat) (r : List Char) :
    takeNumber (Nat.toDigits 10 n) ('\n' :: r) = (nodeOf? (.int n)).map (·, '\n' :: r) := by
  have he := not_mem_toDigits (n := n) (c := 'e') (by decide)
  have hE := not_mem_toDigits (n := n) (c := 'E') (by decide)
  have hn {t : String} (ht : 'n' ∈ t.toList) := ofList_toDigits_ne (n := n) ht (by decide)
  have hmark {d : Char} {ds : List Char} (h : Nat.toDigits 10 n = '0' :: d :: ds)
      (hd : d.isDigit = false) : False :=
    not_mem_toDigits hd (by rw [h]; simp)
  unfold takeNumber
  split
  · exact (hmark ‹_› (by decide)).elim
  · exact (hmark ‹_› (by decide)).elim
  · exact (hmark ‹_› (by decide)).elim
  · simp [he, hE, hn, integer_toDigits]

theorem takeWordValue_toDigits (n : Nat) (r : List Char) :
    takeWordValue (Nat.toDigits 10 n) ('\n' :: r) = (nodeOf? (.int n)).map (·, '\n' :: r) := by
  obtain ⟨c, cs, hcs, hc⟩ := Text.exists_digit_toDigits n
  have hmoment : looksLikeMoment (Nat.toDigits 10 n) = false := by
    have hT := not_mem_toDigits (n := n) (c := 'T') (by decide)
    have ht := not_mem_toDigits (n := n) (c := 't') (by decide)
    have hdash : '-' ∉ (Nat.toDigits 10 n).tail := fun h =>
      not_mem_toDigits (n := n) (c := '-') (by decide) (List.mem_of_mem_tail h)
    simp [looksLikeMoment, hT, ht, hdash]
  have hhead : ((Nat.toDigits 10 n).headD ' ').isDigit = true := by
    rw [hcs]
    exact hc
  unfold takeWordValue
  split
  · exact absurd ‹_› (ofList_toDigits_ne (c := 'e') (by decide) (by decide))
  · exact absurd ‹_› (ofList_toDigits_ne (c := 'e') (by decide) (by decide))
  · rw [if_pos (.inr (.inr (.inr hhead))), hmoment]
    exact takeNumber_toDigits n r

theorem isBare_of_isDigit (hc : c.isDigit = true) : isBare c = true := by
  simp [isBare, hc]

theorem takeValue_toDigits (n : Nat) (fuel : Nat) (r : List Char) :
    takeValue (fuel + 1) (Nat.toDigits 10 n ++ '\n' :: r) =
      (nodeOf? (.int n)).map (·, '\n' :: r) := by
  have hbare := takeBare_append (r := '\n' :: r) (fun c hc => isBare_of_isDigit (isDigit_of_mem hc))
    (Nat.toDigits_ne_nil (b := 10) (n := n)) (by simp [isBare])
  have hread := takeWordValue_toDigits n r
  obtain ⟨c, cs, hcs, hc⟩ := Text.exists_digit_toDigits n
  rw [hcs] at hbare hread ⊢
  have hne {d : Char} (hd : d.isDigit = false) : c ≠ d := Text.ne_of_isDigit hc hd
  rw [List.cons_append] at hbare ⊢
  rw [takeValue, if_neg (by simp [hne]), if_neg (hne (by decide)), if_neg (hne (by decide)),
    if_neg (hne (by decide)), hbare]
  exact hread

theorem takeValue_bool (b : Bool) (fuel : Nat) (r : List Char) :
    takeValue (fuel + 1) ((valueText (.bool b)).toList ++ '\n' :: r) =
      some (.bool b, '\n' :: r) := by
  have hnewline : ∀ c ∈ ('\n' :: r).head?, isBare c = false := by simp [isBare]
  cases b with
  | true =>
    have hword := takeBare_append (by simp [isBare] : ∀ c ∈ ['t', 'r', 'u', 'e'], isBare c = true)
      (by decide) hnewline
    have htext : (valueText (.bool true)).toList = ['t', 'r', 'u', 'e'] := by simp [valueText]
    rw [List.cons_append] at hword
    rw [htext, List.cons_append, takeValue]
    simp only [hword, Char.reduceEq, or_self, if_false]
    rfl
  | false =>
    have hword := takeBare_append (by simp [isBare] : ∀ c ∈ ['f', 'a', 'l', 's', 'e'], isBare c = true)
      (by decide) hnewline
    have htext : (valueText (.bool false)).toList = ['f', 'a', 'l', 's', 'e'] := by simp [valueText]
    rw [List.cons_append] at hword
    rw [htext, List.cons_append, takeValue]
    simp only [hword, Char.reduceEq, or_self, if_false]
    rfl

theorem takeValue_text (t : String) (fuel : Nat) (r : List Char) :
    takeValue (fuel + 1) ((valueText (.text t)).toList ++ '\n' :: r) =
      some (.text t, '\n' :: r) := by
  obtain ⟨quote, inside, hinside, hquote, hread⟩ := takeText_textChars t
  obtain ⟨several, hread⟩ := hread r
  rw [valueText, String.toList_ofList, hinside, List.cons_append, takeValue, if_pos hquote, hread]
  rfl

def IsSingle : Document → Prop
  | .bool _ | .text _ => True
  | .int i => 0 ≤ i
  | _ => False

theorem takeValue_valueText (hd : IsSingle d) :
    ∃ c cs, (valueText d).toList = c :: cs ∧ isBlank c = false ∧ ∀ fuel r,
      takeValue (fuel + 1) (c :: cs ++ '\n' :: r) = (nodeOf? d).map (·, '\n' :: r) := by
  cases d with
  | bool b =>
    have hread := takeValue_bool b
    cases b with
    | true =>
      exact ⟨'t', ['r', 'u', 'e'], by simp [valueText], rfl, by simpa [valueText, nodeOf?] using hread⟩
    | false =>
      exact ⟨'f', ['a', 'l', 's', 'e'], by simp [valueText], rfl,
        by simpa [valueText, nodeOf?] using hread⟩
  | int i =>
    obtain ⟨n, rfl⟩ := Int.eq_ofNat_of_zero_le hd
    obtain ⟨c, cs, hcs, hc⟩ := Text.exists_digit_toDigits n
    refine ⟨c, cs, by rw [valueText, Text.toList_toString_natCast, hcs], ?_, fun fuel r => ?_⟩
    · simp [isBlank, Text.ne_of_isDigit hc (d := ' '), Text.ne_of_isDigit hc (d := '\t')]
    · rw [← hcs]
      exact takeValue_toDigits n fuel r
  | text t =>
    obtain ⟨quote, inside, hinside, hquote, -⟩ := takeText_textChars t
    have htext : (valueText (.text t)).toList = quote :: inside := by
      rw [valueText, String.toList_ofList, hinside]
    refine ⟨quote, inside, htext, ?_, fun fuel r => ?_⟩
    · rcases hquote with rfl | rfl <;> rfl
    · rw [← htext]
      exact takeValue_text t fuel r
  | null | number _ | list _ | table _ => cases hd

/-! Lines. -/

def lineChars (k : String) (d : Document) : List Char :=
  k.toList ++ ' ' :: '=' :: ' ' :: ((valueText d).toList ++ ['\n'])

theorem skipBlanks_of_head (hc : isBlank c = false) (s : List Char) : skipBlanks (c :: s) = c :: s := by
  simp [skipBlanks, hc]

theorem skipBlanks_blank (s : List Char) : skipBlanks (' ' :: s) = skipBlanks s := by
  simp [skipBlanks, isBlank]

theorem takePath_last (hk : IsBareKey k) (hr : ∀ c ∈ r.head?, isBare c = false)
    (hskip : skipBlanks r = c :: s) (hpoint : c ≠ '.') :
    takePath (fuel + 1) (k.toList ++ r) = some ([k], c :: s) := by
  rw [takePath, takeKey_of_isBareKey hk hr]
  simp only [Option.bind_eq_bind, Option.bind_some, hskip]
  split
  · exact absurd (List.cons.inj ‹_›).1 hpoint
  · rfl

theorem takePath_point (hk : IsBareKey k) (hr : skipBlanks r = r) :
    takePath (fuel + 1) (k.toList ++ '.' :: r) =
      (takePath fuel r).map fun p => (k :: p.1, p.2) := by
  have hpoint : ∀ c ∈ ('.' :: r).head?, isBare c = false := by simp [isBare]
  rw [takePath, takeKey_of_isBareKey hk hpoint]
  simp [skipBlanks_of_head (c := '.') (by decide), hr, Option.map_eq_bind]

theorem not_isBlank_of_isBare (hc : isBare c = true) : isBlank c = false := by
  by_contra h
  simp only [isBlank, Bool.not_eq_false, Bool.or_eq_true, decide_eq_true_eq] at h
  rcases h with rfl | rfl <;> cases hc

theorem exists_head_of_isBareKey (hk : IsBareKey k) :
    ∃ c cs, k.toList = c :: cs ∧ isBare c = true := by
  cases hcs : k.toList with
  | nil => exact absurd hcs (toList_ne_nil hk)
  | cons c cs => exact ⟨c, cs, rfl, isBare_of_mem hk c (by simp [hcs])⟩

theorem pathText_cons (hk : IsBareKey k) (hpath : path ≠ []) :
    (pathText (k :: path)).toList = k.toList ++ '.' :: (pathText path).toList := by
  rw [pathText, List.map_cons, String.intercalate_cons_of_ne_nil (by simpa using hpath),
    keyText_of_isBareKey hk]
  simp [pathText]

theorem exists_head_pathText (hpath : ∀ k ∈ path, IsBareKey k) (hsome : path ≠ []) :
    ∃ c cs, (pathText path).toList = c :: cs ∧ isBare c = true := by
  cases path with
  | nil => exact absurd rfl hsome
  | cons k path =>
    have hk : IsBareKey k := hpath k List.mem_cons_self
    obtain ⟨c, cs, hcs, hc⟩ := exists_head_of_isBareKey hk
    cases path with
    | nil => exact ⟨c, cs, by simp [pathText, keyText_of_isBareKey hk, hcs], hc⟩
    | cons k' path => exact ⟨c, _, by rw [pathText_cons hk (by simp), hcs, List.cons_append], hc⟩

/-- A path leads through its keys, up to the bracket behind it. -/
theorem takePath_pathText (hpath : ∀ k ∈ path, IsBareKey k) (hsome : path ≠ [])
    (hfuel : path.length ≤ fuel) (r : List Char) :
    takePath fuel ((pathText path).toList ++ ']' :: r) = some (path, ']' :: r) := by
  induction path generalizing fuel with
  | nil => exact absurd rfl hsome
  | cons k path ih =>
    have hk : IsBareKey k := hpath k List.mem_cons_self
    obtain ⟨fuel, rfl⟩ : ∃ f, fuel = f + 1 := ⟨fuel - 1, by simp at hfuel; omega⟩
    cases path with
    | nil =>
      have htext : (pathText [k]).toList = k.toList := by simp [pathText, keyText_of_isBareKey hk]
      rw [htext, takePath_last hk (by simp [isBare]) (skipBlanks_of_head (by decide) r) (by decide)]
    | cons k' path =>
      have hpath' : ∀ k ∈ k' :: path, IsBareKey k := fun k hk => hpath k (List.mem_cons_of_mem _ hk)
      have hskip : skipBlanks ((pathText (k' :: path)).toList ++ ']' :: r) =
          (pathText (k' :: path)).toList ++ ']' :: r := by
        obtain ⟨c, cs, hcs, hc⟩ := exists_head_pathText hpath' (by simp)
        rw [hcs, List.cons_append, skipBlanks_of_head (not_isBlank_of_isBare hc)]
      rw [pathText_cons hk (by simp), List.append_assoc, List.cons_append, takePath_point hk hskip,
        ih hpath' (by simp) (by simpa using hfuel)]
      rfl

theorem takeEntry_lineChars (hk : IsBareKey k) (hd : IsSingle d) (r : List Char) :
    takeEntry (lineChars k d ++ r) = (nodeOf? d).map fun n => (([k], n), r) := by
  obtain ⟨c, cs, hcs, hc, hread⟩ := takeValue_valueText hd
  have htext : lineChars k d ++ r = k.toList ++ ' ' :: '=' :: ' ' :: (c :: cs ++ '\n' :: r) := by
    simp [lineChars, hcs]
  have hpath (fuel : Nat) :
      takePath (fuel + 1) (k.toList ++ ' ' :: '=' :: ' ' :: (c :: cs ++ '\n' :: r)) =
        some ([k], '=' :: ' ' :: (c :: cs ++ '\n' :: r)) :=
    takePath_last hk (by simp [isBare]) ((skipBlanks_blank _).trans (skipBlanks_of_head (by decide) _))
      (by decide)
  have hvalue : skipBlanks (' ' :: (c :: cs ++ '\n' :: r)) = c :: cs ++ '\n' :: r := by
    rw [skipBlanks_blank, List.cons_append, skipBlanks_of_head hc]
  rw [htext, takeEntry, hpath]
  simp only [Option.bind_eq_bind, Option.bind_some, hvalue, hread]
  cases nodeOf? d with
  | none => rfl
  | some n => simp [skipBlanks_of_head (c := '\n') (by decide), endLine]

end HostVitals.Toml
