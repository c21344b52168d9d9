import HostVitals.Proofs.Text.Numerals
import HostVitals.Toml.Printer
import HostVitals.Toml.Reader

/-! Texts of a TOML document come out of their quotes as they were: single quotes around what needs no
escape, three of them around quotes and line breaks, and double quotes around escapes. -/
namespace HostVitals.Toml

variable {c : Char} {cs r : List Char} {fuel : Nat} {several : Bool}

theorem isPlain_of_not_isControl (hc : isControl c = false) : isPlain c = true := by
  simp only [isControl, Bool.or_eq_false_iff, decide_eq_false_iff_not] at hc
  simp only [isPlain, isShown, Bool.and_eq_true, Bool.or_eq_true, decide_eq_true_eq, ne_eq]
  exact ⟨.inr (by omega), hc.2⟩

/-! Single quotes, where every character stands for itself. -/

theorem takeQuoted_plain {quote : Char}
    (hopen : c ≠ quote ∨ several = true ∧ r.take 2 ≠ [quote, quote])
    (hslash : c ≠ '\\' ∨ quote ≠ '"') (hc : isPlain c = true) (hnewline : c ≠ '\n') :
    takeQuoted quote several (fuel + 1) (c :: r) =
      (takeQuoted quote several fuel r).map fun p => (c :: p.1, p.2) := by
  have hone : ¬(c = quote ∧ (!several) = true) := by
    rcases hopen with h | h <;> simp [h]
  have hthree : ¬(c = quote ∧ r.take 2 = [quote, quote]) := by
    rcases hopen with h | h <;> simp [h]
  have hescape : ¬(c = '\\' ∧ quote = '"') := by tauto
  simp only [takeQuoted, if_neg hone, if_neg hthree, if_neg hnewline, if_neg hescape, if_pos hc]
  simp [Option.map_eq_bind]

theorem takeQuoted_newline {quote : Char} (hquote : quote ≠ '\n') :
    takeQuoted quote true (fuel + 1) ('\n' :: r) =
      (takeQuoted quote true fuel r).map fun p => ('\n' :: p.1, p.2) := by
  simp [takeQuoted, hquote.symm, Option.map_eq_bind]

theorem takeQuoted_literal (hcs : ∀ c ∈ cs, c ≠ '\'' ∧ isPlain c = true ∧ c ≠ '\n')
    (hfuel : cs.length < fuel) (r : List Char) :
    takeQuoted '\'' false fuel (cs ++ '\'' :: r) = some (cs, r) := by
  induction cs generalizing fuel with
  | nil =>
    obtain ⟨fuel, rfl⟩ := Nat.exists_eq_succ_of_ne_zero (Nat.ne_of_gt hfuel)
    simp [takeQuoted]
  | cons c cs ih =>
    obtain ⟨fuel, rfl⟩ := Nat.exists_eq_succ_of_ne_zero (Nat.ne_of_gt (Nat.zero_lt_of_lt hfuel))
    obtain ⟨hquote, hc, hnewline⟩ := hcs c List.mem_cons_self
    rw [List.cons_append, takeQuoted_plain (.inl hquote) (.inr (by decide)) hc hnewline,
      ih (fun c hc => hcs c (List.mem_cons_of_mem _ hc)) (by simpa using hfuel)]
    rfl

theorem takeQuoted_close_several {quote : Char} (hr : r.head? ≠ some quote) :
    takeQuoted quote true (fuel + 1) (quote :: quote :: quote :: r) = some ([], r) := by
  cases r with
  | nil => simp [takeQuoted, closeSeveral]
  | cons c r =>
    have hc : c ≠ quote := by simpa using hr
    simp [takeQuoted, closeSeveral, hc]

/-- A quote right before others is no end where three in a row do not occur. -/
theorem take_two_ne (htriple : hasTripleQuote ('\'' :: cs) = false)
    (hlast : ('\'' :: cs).getLast? ≠ some '\'') (r : List Char) :
    (cs ++ '\'' :: '\'' :: '\'' :: r).take 2 ≠ ['\'', '\''] := by
  match cs with
  | [] => simp at hlast
  | [a] => simpa using hlast
  | a :: b :: cs =>
    simp only [hasTripleQuote, Bool.or_eq_false_iff] at htriple
    simpa using htriple.1

/-- What three quotes enclose: no three quotes in a row, and no quote at the end. -/
theorem takeQuoted_several_literal (hcs : ∀ c ∈ cs, isPlain c = true ∨ c = '\n')
    (htriple : hasTripleQuote cs = false) (hlast : cs.getLast? ≠ some '\'')
    (hfuel : cs.length < fuel) (hr : r.head? ≠ some '\'') :
    takeQuoted '\'' true fuel (cs ++ '\'' :: '\'' :: '\'' :: r) = some (cs, r) := by
  induction cs generalizing fuel with
  | nil =>
    obtain ⟨fuel, rfl⟩ := Nat.exists_eq_succ_of_ne_zero (Nat.ne_of_gt hfuel)
    exact takeQuoted_close_several hr
  | cons c cs ih =>
    obtain ⟨fuel, rfl⟩ := Nat.exists_eq_succ_of_ne_zero (Nat.ne_of_gt (Nat.zero_lt_of_lt hfuel))
    have htriple' : hasTripleQuote cs = false := by
      simp only [hasTripleQuote, Bool.or_eq_false_iff] at htriple
      exact htriple.2
    have hlast' : cs.getLast? ≠ some '\'' := by
      cases cs with
      | nil => simp
      | cons d cs => simpa using hlast
    have hrest := ih (fun c hc => hcs c (List.mem_cons_of_mem _ hc)) htriple' hlast'
      (by simpa using hfuel)
    rw [List.cons_append]
    by_cases hnewline : c = '\n'
    · rw [hnewline, takeQuoted_newline (by decide), hrest]
      rfl
    · have hc : isPlain c = true := (hcs c List.mem_cons_self).resolve_right hnewline
      have hopen : c ≠ '\'' ∨ true = true ∧
          (cs ++ '\'' :: '\'' :: '\'' :: r).take 2 ≠ ['\'', '\''] := by
        by_cases hquote : c = '\''
        · subst hquote
          exact .inr ⟨rfl, take_two_ne htriple hlast r⟩
        · exact .inl hquote
      rw [takeQuoted_plain hopen (.inr (by decide)) hc hnewline, hrest]
      rfl

/-! Double quotes, with escapes. -/

theorem takeCode_hex4 (hc : isControl c = true) (r : List Char) :
    takeCode 4 (hex4 c.toNat ++ r) = some (c, r) := by
  have hall : ∀ n, n < 32 ∨ n = 127 → takeCode 4 (hex4 n ++ r) = some (Char.ofNat n, r) := by
    rintro n (hn | rfl)
    · interval_cases n <;> rfl
    · rfl
  rw [hall c.toNat (by simpa [isControl] using hc), Char.ofNat_toNat]

theorem takeQuoted_escape {e : List Char} (he : takeEscape several e = some ([c], r)) :
    takeQuoted '"' several (fuel + 1) ('\\' :: e) =
      (takeQuoted '"' several fuel r).map fun p => (c :: p.1, p.2) := by
  simp [takeQuoted, he, Option.map_eq_bind]

/-- A character is read from its escape, whatever follows. -/
theorem takeQuoted_escapedChar (several : Bool) (fuel : Nat) (c : Char) (r : List Char) :
    takeQuoted '"' several (fuel + 1) (escapedChar several c ++ r) =
      (takeQuoted '"' several fuel r).map fun p => (c :: p.1, p.2) := by
  unfold escapedChar
  repeat' split
  case isTrue h =>
    subst h
    exact takeQuoted_escape rfl
  case isTrue h =>
    subst h
    exact takeQuoted_escape rfl
  case isTrue h hs =>
    rw [h, hs]
    exact takeQuoted_newline (by decide)
  case isFalse h hs =>
    subst h
    exact takeQuoted_escape rfl
  case isTrue h =>
    subst h
    exact takeQuoted_escape rfl
  case isTrue h =>
    subst h
    exact takeQuoted_escape rfl
  case isTrue h =>
    subst h
    exact takeQuoted_escape rfl
  case isTrue h =>
    subst h
    exact takeQuoted_escape rfl
  case isTrue h => exact takeQuoted_escape (by simp [takeEscape, takeCode_hex4 h])
  case isFalse hquote hslash hcontrol =>
    exact takeQuoted_plain (.inl hquote) (.inl hslash)
      (isPlain_of_not_isControl (by simpa using hcontrol)) ‹_›

theorem escapedChar_ne_nil (several : Bool) (c : Char) : escapedChar several c ≠ [] := by
  unfold escapedChar
  repeat' split
  all_goals simp

/-- Behind the escapes of a text its quotes end it. -/
theorem takeQuoted_escaped {close : List Char} (several : Bool) (cs : List Char)
    (hclose : ∀ fuel, takeQuoted '"' several (fuel + 1) close = some ([], r))
    (hfuel : cs.length < fuel) :
    takeQuoted '"' several fuel (cs.flatMap (escapedChar several) ++ close) = some (cs, r) := by
  induction cs generalizing fuel with
  | nil =>
    obtain ⟨fuel, rfl⟩ := Nat.exists_eq_succ_of_ne_zero (Nat.ne_of_gt hfuel)
    exact hclose fuel
  | cons c cs ih =>
    obtain ⟨fuel, rfl⟩ := Nat.exists_eq_succ_of_ne_zero (Nat.ne_of_gt (Nat.zero_lt_of_lt hfuel))
    rw [List.flatMap_cons, List.append_assoc, takeQuoted_escapedChar, ih (by simpa using hfuel)]
    rfl

/-! Whole texts. -/

section Quotes
variable {quote : Char} {s t : List Char}

theorem takeText_one (hs : s.take 2 ≠ [quote, quote])
    (hread : takeQuoted quote false (s.length + 1) s = some (t, r)) :
    takeText quote s = some (false, String.ofList t, r) := by
  simp [takeText, hs, hread]

theorem takeText_several (hread : takeQuoted quote true (s.length + 1) s = some (t, r)) :
    takeText quote (quote :: quote :: '\n' :: s) = some (true, String.ofList t, r) := by
  simp [takeText, hread]

theorem takeText_three (hs : s.head? ≠ some '\n')
    (hread : takeQuoted quote true (s.length + 1) s = some (t, r)) :
    takeText quote (quote :: quote :: s) = some (true, String.ofList t, r) := by
  have htwo : (quote :: quote :: s).take 2 = [quote, quote] := rfl
  simp only [takeText, htwo, if_true, List.drop_succ_cons, List.drop_zero]
  split
  · exact absurd rfl hs
  · rw [hread]
    rfl

end Quotes

theorem head?_escapedChar_ne (several : Bool) (c : Char) :
    (escapedChar several c).head? ≠ some '"' := by
  unfold escapedChar
  repeat' split
  all_goals simp_all

/-- No two quotes stand at the start of a text behind its opening quote. -/
theorem take_two_escaped_ne (cs r : List Char) :
    (cs.flatMap (escapedChar false) ++ '"' :: '\n' :: r).take 2 ≠ ['"', '"'] := by
  cases cs with
  | nil => simp
  | cons c cs =>
    have hhead := head?_escapedChar_ne false c
    cases hc : escapedChar false c with
    | nil => exact absurd hc (escapedChar_ne_nil false c)
    | cons d ds =>
      rw [hc] at hhead
      intro h
      simp only [List.flatMap_cons, hc, List.cons_append, List.take_succ_cons] at h
      exact hhead (by rw [List.head?_cons, (List.cons.inj h).1])

theorem plain_of_literalFits (hfits : literalFits cs = true) :
    (∀ c ∈ cs, isPlain c = true ∨ c = '\n') ∧ hasTripleQuote cs = false ∧
      cs.getLast? ≠ some '\'' := by
  simp only [literalFits, Bool.and_eq_true, List.all_eq_true, Bool.not_eq_true'] at hfits
  obtain ⟨⟨hcs, htriple⟩, hlast⟩ := hfits
  refine ⟨fun c hc => ?_, htriple, by simpa using hlast⟩
  have hallowed := hcs c hc
  simp only [Bool.or_eq_true, Bool.not_eq_true', decide_eq_true_eq] at hallowed
  rcases hallowed with (h | rfl) | rfl
  · exact .inl (isPlain_of_not_isControl h)
  · exact .inl (by decide)
  · exact .inr rfl

/-- A text in single quotes, the first one taken off. -/
theorem takeText_literal (hfits : literalFits cs = true) :
    ∃ inside, textChars (String.ofList cs) = '\'' :: inside ∧ ∀ r, ∃ several,
      takeText '\'' (inside ++ '\n' :: r) = some (several, String.ofList cs, '\n' :: r) := by
  obtain ⟨hplain, htriple, hlast⟩ := plain_of_literalFits hfits
  simp only [textChars, String.toList_ofList, if_pos hfits]
  by_cases hseveral : '\n' ∈ cs
  · refine ⟨'\'' :: '\'' :: '\n' :: (cs ++ ['\'', '\'', '\'']), by simp [hseveral],
      fun r => ⟨true, ?_⟩⟩
    simpa using takeText_several (takeQuoted_several_literal (r := '\n' :: r) hplain htriple hlast
      (by simp only [List.length_append, List.length_cons]; omega) (by simp))
  · by_cases hquote : '\'' ∈ cs
    · refine ⟨'\'' :: '\'' :: (cs ++ ['\'', '\'', '\'']), by simp [hseveral, hquote],
        fun r => ⟨true, ?_⟩⟩
      have hhead : (cs ++ '\'' :: '\'' :: '\'' :: '\n' :: r).head? ≠ some '\n' := by
        cases cs with
        | nil => simp
        | cons c cs =>
          rintro h
          exact hseveral (by rw [← Option.some_inj.mp h]; exact List.mem_cons_self)
      simpa using takeText_three hhead (takeQuoted_several_literal (r := '\n' :: r) hplain htriple
        hlast (by simp only [List.length_append, List.length_cons]; omega) (by simp))
    · refine ⟨cs ++ ['\''], by simp [hseveral, hquote], fun r => ⟨false, ?_⟩⟩
      have hhead : (cs ++ '\'' :: '\n' :: r).take 2 ≠ ['\'', '\''] := by
        cases cs with
        | nil => simp
        | cons c cs =>
          intro h
          simp only [List.cons_append, List.take_succ_cons] at h
          exact hquote (by rw [← (List.cons.inj h).1]; exact List.mem_cons_self)
      have hcs : ∀ c ∈ cs, c ≠ '\'' ∧ isPlain c = true ∧ c ≠ '\n' := by
        intro c hc
        have hnewline : c ≠ '\n' := fun h => hseveral (h ▸ hc)
        exact ⟨fun h => hquote (h ▸ hc), (hplain c hc).resolve_right hnewline, hnewline⟩
      have hroom : cs.length < (cs ++ '\'' :: '\n' :: r).length + 1 := by
        simp only [List.length_append, List.length_cons]
        omega
      simpa using takeText_one hhead (takeQuoted_literal hcs hroom ('\n' :: r))

/-- A text in double quotes, the first one taken off. -/
theorem takeText_escaped (hfits : literalFits cs = false) :
    ∃ inside, textChars (String.ofList cs) = '"' :: inside ∧ ∀ r, ∃ several,
      takeText '"' (inside ++ '\n' :: r) = some (several, String.ofList cs, '\n' :: r) := by
  have hlength (several : Bool) :=
    Text.length_le_flatMap fun c (_ : c ∈ cs) => escapedChar_ne_nil several c
  simp only [textChars, String.toList_ofList, hfits, Bool.false_eq_true, if_false]
  by_cases hseveral : '\n' ∈ cs
  · refine ⟨'"' :: '"' :: '\n' :: (cs.flatMap (escapedChar true) ++ ['"', '"', '"']),
      by simp [hseveral], fun r => ⟨true, ?_⟩⟩
    simpa using takeText_several (takeQuoted_escaped (r := '\n' :: r) true cs
      (fun _ => takeQuoted_close_several (by simp))
      (by simp only [List.length_append, List.length_cons]; have h := hlength true; omega))
  · refine ⟨cs.flatMap (escapedChar false) ++ ['"'], by simp [hseveral], fun r => ⟨false, ?_⟩⟩
    simpa using takeText_one (take_two_escaped_ne cs r) (takeQuoted_escaped (r := '\n' :: r) false cs
      (fun _ => by simp [takeQuoted])
      (by simp only [List.length_append, List.length_cons]; have h := hlength false; omega))

/-- A text in its quotes, the first one taken off. A line break has to follow. -/
theorem takeText_textChars (t : String) :
    ∃ quote inside, textChars t = quote :: inside ∧ (quote = '"' ∨ quote = '\'') ∧
      ∀ r, ∃ several, takeText quote (inside ++ '\n' :: r) = some (several, t, '\n' :: r) := by
  have ht : String.ofList t.toList = t := String.ofList_toList
  cases hfits : literalFits t.toList with
  | true =>
    obtain ⟨inside, hinside, hread⟩ := takeText_literal hfits
    rw [ht] at hinside hread
    exact ⟨_, inside, hinside, .inr rfl, hread⟩
  | false =>
    obtain ⟨inside, hinside, hread⟩ := takeText_escaped hfits
    rw [ht] at hinside hread
    exact ⟨_, inside, hinside, .inl rfl, hread⟩

theorem not_mem_hex4 (hc : isControl c = true) : '\r' ∉ hex4 c.toNat := by
  have hall : ∀ n, n < 32 ∨ n = 127 → '\r' ∉ hex4 n := by
    rintro n (hn | rfl)
    · interval_cases n <;> decide
    · decide
  exact hall c.toNat (by simpa [isControl] using hc)

theorem not_mem_escapedChar (several : Bool) (c : Char) : '\r' ∉ escapedChar several c := by
  unfold escapedChar
  repeat' split
  any_goals decide
  case isTrue h => simp [not_mem_hex4 h]
  case isFalse hreturn _ _ _ => simpa using Ne.symm hreturn

/-- A carriage return is always written as an escape. -/
theorem not_mem_textChars (t : String) : '\r' ∉ textChars t := by
  have hliteral (h : literalFits t.toList = true) : '\r' ∉ t.toList := by
    intro hmem
    simp only [literalFits, Bool.and_eq_true, List.all_eq_true] at h
    exact absurd (h.1.1 _ hmem) (by decide)
  have hescaped (several : Bool) : '\r' ∉ t.toList.flatMap (escapedChar several) := by
    simp [not_mem_escapedChar]
  simp only [textChars]
  split_ifs <;> simp_all

end HostVitals.Toml
