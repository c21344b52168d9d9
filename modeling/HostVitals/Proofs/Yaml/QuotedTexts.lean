import HostVitals.Proofs.Text.Numerals
import HostVitals.Proofs.Yaml.PlainTexts

/-! Texts in quotes come out of them as they were: single quotes double those inside and break
lines, double quotes escape what cannot be shown. -/
namespace HostVitals.Yaml

variable {place : Cursor} {cs r s done : List Char} {c d : Char} {column fuel : Nat} {single : Bool}

/-! Runs of characters without a gap. -/

def IsPiece (single : Bool) (c : Char) (piece : List Char) : Prop :=
  piece ≠ [] ∧ ∀ fuel r, quotedRun single (fuel + 1) (piece ++ r) =
    (quotedRun single fuel r).map fun (ds, e, r) => (c :: ds, e, r)

theorem quotedRun_pieces {piece : Char → List Char} {e : RunEnd}
    (hcs : ∀ c ∈ cs, IsPiece single c (piece c))
    (hend : ∀ fuel, quotedRun single (fuel + 1) s = some ([], e, r)) (hfuel : cs.length < fuel) :
    quotedRun single fuel (cs.flatMap piece ++ s) = some (cs, e, r) := by
  induction cs generalizing fuel with
  | nil =>
    obtain ⟨fuel, rfl⟩ := Nat.exists_eq_succ_of_ne_zero (Nat.ne_of_gt hfuel)
    exact hend fuel
  | cons c cs ih =>
    obtain ⟨fuel, rfl⟩ := Nat.exists_eq_succ_of_ne_zero (Nat.ne_of_gt (Nat.zero_lt_of_lt hfuel))
    rw [List.flatMap_cons, List.append_assoc, (hcs c List.mem_cons_self).2,
      ih (fun c hc => hcs c (List.mem_cons_of_mem _ hc)) (by simpa using hfuel)]
    rfl

section Steps
variable {piece : Char → List Char} (hcs : ∀ c ∈ cs, IsPiece single c (piece c))
  (hcolumn : place.column ≠ 0)
include hcs hcolumn

/-- The quote that ends a text. -/
theorem takeQuoted_close {quote : Char} (hplace : place.text = cs.flatMap piece ++ quote :: r)
    (hend : ∀ fuel, quotedRun single (fuel + 1) (quote :: r) = some ([], .quote, r)) (fuel : Nat)
    (done : List Char) :
    ∃ place', takeQuoted single (fuel + 1) done place = some (done ++ cs, place') ∧
      place'.text = r := by
  have hlength := Text.length_le_flatMap fun c hc => (hcs c hc).1
  have hrun := quotedRun_pieces hcs hend (by
    rw [hplace, List.length_append]
    omega : cs.length < place.text.length + 1)
  have hmark : place.atDocumentMark = false := by simp [Cursor.atDocumentMark, hcolumn]
  have hsome : place.text.isEmpty = false := by simp [hplace]
  rw [← hplace] at hrun
  refine ⟨place.advance (place.text.length - r.length), ?_, ?_⟩
  · simp only [takeQuoted, hmark, hsome, hrun, Bool.or_self, Bool.false_eq_true, if_false,
      Option.bind_eq_bind, Option.bind_some]
    rfl
  · have htext : place.text = (cs.flatMap piece ++ [quote]) ++ r := by simp [hplace]
    have hskip : place.text.length - r.length = (cs.flatMap piece ++ [quote]).length := by
      rw [htext, List.length_append, Nat.add_sub_cancel]
    rw [hskip]
    exact Cursor.text_advance htext

/-- A gap in a text. -/
theorem takeQuoted_gap {gap : Gap} {place' : Cursor}
    (hplace : place.text = cs.flatMap piece ++ d :: r) (hd : isGap d = true)
    (hread : Gap.read 0 ((d :: r).length + 1) {} (place.advance (cs.flatMap piece).length) =
      some (gap, place')) (fuel : Nat) (done : List Char) :
    takeQuoted single (fuel + 1) done place =
      takeQuoted single fuel (done ++ cs ++ gap.text) place' := by
  have hend (fuel : Nat) : quotedRun single (fuel + 1) (d :: r) = some ([], .gap, d :: r) := by
    simp [quotedRun, hd]
  have hlength := Text.length_le_flatMap fun c hc => (hcs c hc).1
  have hrun := quotedRun_pieces hcs hend (by
    rw [hplace, List.length_append]
    omega : cs.length < place.text.length + 1)
  have hmark : place.atDocumentMark = false := by simp [Cursor.atDocumentMark, hcolumn]
  have hsome : place.text.isEmpty = false := by simp [hplace]
  have hskip : place.text.length - (d :: r).length = (cs.flatMap piece).length := by
    rw [hplace, List.length_append, Nat.add_sub_cancel]
  have htext := Cursor.text_advance hplace
  rw [← hplace] at hrun
  simp only [takeQuoted, hmark, hsome, hrun, Bool.or_self, Bool.false_eq_true, if_false,
    Option.bind_eq_bind, Option.bind_some, hskip, htext, hread]

/-- A gap of blanks stays as it is. -/
theorem takeQuoted_blanks {n : Nat} (hplace : place.text = cs.flatMap piece ++ (margin (n + 1) ++ s))
    (hs : ∀ d ∈ s.head?, isGap d = false) (fuel : Nat) (done : List Char) :
    ∃ place', takeQuoted single (fuel + 1) done place =
      takeQuoted single fuel (done ++ (cs ++ margin (n + 1))) place' ∧ place'.text = s ∧
        place'.column ≠ 0 := by
  have htext := Cursor.text_advance hplace
  have hread := Gap.read_only_blanks hs htext 0
  refine ⟨_, ?_, Cursor.text_advance_margin htext, by simp only [Cursor.advance]; omega⟩
  rw [takeQuoted_gap hcs hcolumn hplace (by rfl) hread fuel done]
  simp [Gap.text]

end Steps

/-! Double quotes. -/

theorem takeCode_upperHex {width : Nat} (hwidth : 0 < width) (hc : c.toNat < 16 ^ width)
    (r : List Char) : takeCode width (upperHex width c.toNat ++ r) = some (c, r) := by
  have hshort := (Nat.length_toDigits_le_iff (by decide) hwidth).mpr hc
  have hlength : (upperHex width c.toNat).length = width := by
    simp only [upperHex, List.length_append, List.length_replicate, List.length_map]
    omega
  have hdigits : ∀ d ∈ upperHex width c.toNat, (Text.digitValue 16 d).isSome = true := by
    intro d hd
    simp only [upperHex, List.mem_append, List.mem_map] at hd
    rcases hd with hd | ⟨e, he, rfl⟩
    · rw [List.eq_of_mem_replicate hd]
      rfl
    · obtain ⟨v, hv, rfl⟩ := Text.exists_digitChar_of_mem_toDigits (by decide) he
      rw [Text.digitValue_toUpper_digitChar hv (by decide)]
      rfl
  have hvalue : (upperHex width c.toNat).foldl
      (fun n c => n * 16 + (Text.digitValue 16 c).getD 0) 0 = c.toNat := by
    change Text.valueAfter 16 0 (upperHex width c.toNat) = c.toNat
    rw [upperHex, Text.valueAfter_zeros, Text.valueAfter_toUpper
      (fun d hd => Text.exists_digitChar_of_mem_toDigits (by decide) hd) (by decide),
      Text.valueAfter_toDigits (by decide) (by decide)]
  have hvalid : c.toNat < 0xD800 ∨ (0xE000 ≤ c.toNat ∧ c.toNat < 0x110000) := by
    have h : c.toNat.isValidChar := c.valid
    rcases h with h | h
    · exact .inl h
    · exact .inr ⟨h.1, h.2⟩
  have hall : (upperHex width c.toNat).all fun d => (Text.digitValue 16 d).isSome := by
    rwa [List.all_eq_true]
  simp only [takeCode, List.take_left' hlength, List.drop_left' hlength, hlength, hvalue, hall,
    and_self, if_true, if_pos hvalid, Char.ofNat_toNat]

theorem shortEscape_escapeLetter (h : escapeLetter c = some d) :
    shortEscape d = some c ∧ isBreak d = false := by
  have hchar {n : Nat} (hn : c.toNat = n) : c = Char.ofNat n := by rw [← hn, Char.ofNat_toNat]
  unfold escapeLetter at h
  split at h
  all_goals cases h
  all_goals
    rw [hchar ‹c.toNat = _›]
    exact ⟨rfl, rfl⟩

theorem isPiece_code {letter : Char} {width : Nat} (hletter : isBreak letter = false)
    (hshort : shortEscape letter = none) (hwidth : codeWidth letter = some width)
    (hsome : 0 < width) (hc : c.toNat < 16 ^ width) :
    IsPiece false c ('\\' :: letter :: upperHex width c.toNat) := by
  refine ⟨by simp, fun fuel r => ?_⟩
  have hgap : isGap '\\' = false := by decide
  simp [quotedRun, hgap, hletter, hshort, hwidth, takeCode_upperHex hsome hc]

theorem isPiece_doubleChar (hc : c ≠ ' ') : IsPiece false c (doubleChar c) := by
  have hsize : c.toNat < 0x110000 := by
    have h : c.toNat.isValidChar := c.valid
    rcases h with h | h <;> omega
  unfold doubleChar
  split
  · next h =>
    simp only [Bool.and_eq_true, Bool.not_eq_true', decide_eq_true_eq] at h
    obtain ⟨⟨⟨hshown, hbreak⟩, hquote⟩, hslash⟩ := h
    have hgap := isGap_of_isShown hshown hc hbreak
    refine ⟨by simp, fun fuel r => ?_⟩
    simp [quotedRun, hgap, hquote, hslash]
  · split
    · next l hl =>
      obtain ⟨hshort, hbreak⟩ := shortEscape_escapeLetter hl
      have hgap : isGap '\\' = false := by decide
      refine ⟨by simp, fun fuel r => ?_⟩
      simp [quotedRun, hgap, hshort, hbreak]
    · dsimp only
      split_ifs
      · exact isPiece_code (by decide) (by decide) rfl (by decide) (by omega)
      · exact isPiece_code (by decide) (by decide) rfl (by decide) (by omega)
      · exact isPiece_code (by decide) (by decide) rfl (by decide) (by omega)

theorem doubleChar_ne_nil (c : Char) : doubleChar c ≠ [] := by
  by_cases hc : c = ' '
  · rw [hc]
    decide
  · exact (isPiece_doubleChar hc).1

theorem exists_blanks (cs : List Char) : (∀ c ∈ cs, c ≠ ' ') ∨ ∃ run n rest,
    cs = run ++ (margin (n + 1) ++ rest) ∧ (∀ c ∈ run, c ≠ ' ') ∧ rest.head? ≠ some ' ' := by
  obtain ⟨run, behind, rfl, hrun, hbehind⟩ := exists_run (· ≠ ' ') cs
  simp only [decide_eq_true_eq] at hrun
  cases behind with
  | nil => exact .inl (by simpa using hrun)
  | cons d t =>
    obtain rfl : d = ' ' := by simpa using hbehind
    obtain ⟨n, rest, rfl, hrest⟩ := exists_margin t
    exact .inr ⟨run, n, rest, rfl, hrun, hrest⟩

theorem flatMap_margin {piece : Char → List Char} (h : piece ' ' = [' ']) (n : Nat) :
    (margin n).flatMap piece = margin n := by
  induction n with
  | zero => rfl
  | succ n ih => rw [margin, List.replicate_succ, List.flatMap_cons, ← margin, ih, h]; rfl

theorem isGap_head_doubleChar (hc : c ≠ ' ') : ∀ d ∈ (doubleChar c).head?, isGap d = false := by
  unfold doubleChar
  split
  · next h =>
    simp only [Bool.and_eq_true, Bool.not_eq_true', decide_eq_true_eq] at h
    simpa using isGap_of_isShown h.1.1.1 hc h.1.1.2
  · split
    · simp [isGap, isBlank, isBreak]
    · dsimp only
      split_ifs <;> simp [isGap, isBlank, isBreak]

/-- Behind its blanks a text goes on without a gap, or the quote ends it. -/
theorem isGap_head_double (r : List Char) (hs : s.head? ≠ some ' ') :
    ∀ d ∈ (s.flatMap doubleChar ++ '"' :: r).head?, isGap d = false := by
  cases s with
  | nil => simp [isGap, isBlank, isBreak]
  | cons c s =>
    have hc : c ≠ ' ' := by simpa using hs
    have hhead := isGap_head_doubleChar hc
    cases hcs : doubleChar c with
    | nil => exact absurd hcs (doubleChar_ne_nil c)
    | cons d ds =>
      rw [hcs] at hhead
      simpa [hcs] using hhead

/-- A text is read back from double quotes, the first one taken off. -/
theorem takeQuoted_double (hplace : place.text = cs.flatMap doubleChar ++ '"' :: r)
    (hcolumn : place.column ≠ 0) (hfuel : cs.length < fuel) (done : List Char) :
    ∃ place', takeQuoted false fuel done place = some (done ++ cs, place') ∧ place'.text = r := by
  induction fuel generalizing cs place done with
  | zero => exact absurd hfuel (Nat.not_lt_zero _)
  | succ fuel ih =>
    rcases exists_blanks cs with hall | ⟨run, n, rest, rfl, hrun, hrest⟩
    · exact takeQuoted_close (fun c hc => isPiece_doubleChar (hall c hc)) hcolumn hplace
        (fun fuel => by simp [quotedRun, isGap, isBlank, isBreak]) fuel done
    · have hplace' : place.text = run.flatMap doubleChar ++
          (margin (n + 1) ++ (rest.flatMap doubleChar ++ '"' :: r)) := by
        rw [hplace, List.flatMap_append, List.flatMap_append, flatMap_margin (by rfl)]
        simp
      obtain ⟨next, hstep, htext, hright⟩ := takeQuoted_blanks
        (fun c hc => isPiece_doubleChar (hrun c hc)) hcolumn hplace' (isGap_head_double r hrest) fuel
        done
      obtain ⟨place', hrest', htext'⟩ := ih htext hright
        (by simp only [List.length_append, margin, List.length_replicate] at hfuel; omega)
        (done ++ (run ++ margin (n + 1)))
      refine ⟨place', ?_, htext'⟩
      rw [hstep, hrest']
      simp

/-! Single quotes. -/

def singlePiece (c : Char) : List Char := if c = '\'' then ['\'', '\''] else [c]

theorem isPiece_singlePiece (hc : isGap c = false) : IsPiece true c (singlePiece c) := by
  unfold singlePiece
  split
  · next h =>
    rw [h] at hc ⊢
    exact ⟨by simp, fun fuel r => by simp [quotedRun, hc]⟩
  · next h => exact ⟨by simp, fun fuel r => by simp [quotedRun, hc, h]⟩

theorem isBreak_of_not_isGap (hc : isGap c = false) : isBreak c = false := by
  simp only [isGap, Bool.or_eq_false_iff] at hc
  exact hc.2

theorem singleBody_run (column : Nat) (hcs : ∀ c ∈ cs, isBreak c = false) (s : List Char) :
    singleBody column false (cs ++ s) = cs.flatMap singlePiece ++ singleBody column false s := by
  induction cs with
  | nil => rfl
  | cons c cs ih =>
    have hrest := ih fun c hc => hcs c (List.mem_cons_of_mem _ hc)
    simp [singleBody, hcs c List.mem_cons_self, hrest, singlePiece]

theorem singleBody_breaks (column : Nat) (hcs : ∀ c ∈ cs, isBreak c = true)
    (hs : ∀ c ∈ s.head?, isBreak c = false) :
    singleBody column true (cs ++ s) = cs ++ (margin column ++ singleBody column false s) := by
  induction cs with
  | nil =>
    cases s with
    | nil => simp [singleBody]
    | cons c s => simp [singleBody, hs c rfl]
  | cons c cs ih =>
    have hrest := ih fun c hc => hcs c (List.mem_cons_of_mem _ hc)
    simp [singleBody, hcs c List.mem_cons_self, hrest]

theorem length_le_singleBody (column : Nat) (broken : Bool) (cs : List Char) :
    cs.length ≤ (singleBody column broken cs).length := by
  induction cs generalizing broken with
  | nil => exact Nat.zero_le _
  | cons c cs ih =>
    have hbroken := ih true
    have hwhole := ih false
    rw [singleBody]
    split
    · simpa using hbroken
    · split <;> simp only [List.length_append, List.length_cons] <;> split <;> simp <;> omega

theorem foldl_addBreak_text (hcs : ∀ c ∈ cs, keptBreak c = c) (gap : Gap) {first : List Char}
    (hfirst : gap.first = some first) (hnewline : first ≠ ['\n']) :
    (cs.foldl Gap.addBreak gap).text = first ++ gap.more ++ cs := by
  induction cs generalizing gap with
  | nil => simp [Gap.text, hfirst, hnewline]
  | cons c cs ih =>
    have hc := hcs c List.mem_cons_self
    have hadd : gap.addBreak c = { gap with more := gap.more ++ [c] } := by
      simp [Gap.addBreak, hfirst, hc]
    rw [List.foldl_cons, hadd, ih (fun c hc => hcs c (List.mem_cons_of_mem _ hc))
      { gap with more := gap.more ++ [c] } hfirst]
    simp

/-- Breaks other than newlines stay. -/
theorem text_breaks (hcs : ∀ c ∈ cs, keptBreak c = c ∧ c ≠ '\n') (hsome : cs ≠ []) :
    (cs.foldl Gap.addBreak {}).text = cs := by
  cases cs with
  | nil => exact absurd rfl hsome
  | cons c cs =>
    obtain ⟨hc, hnewline⟩ := hcs c List.mem_cons_self
    have hadd : ({} : Gap).addBreak c = { first := some [c] } := by simp [Gap.addBreak, hc]
    rw [List.foldl_cons, hadd, foldl_addBreak_text
      (fun c hc => (hcs c (List.mem_cons_of_mem _ hc)).1) _ rfl (by simpa using hnewline)]
    simp

theorem keptBreak_of_isShown (hc : isShown c = true) (hbreak : isBreak c = true) :
    keptBreak c = c := by
  simp only [isBreak, Bool.or_eq_true, decide_eq_true_eq] at hbreak
  rcases hbreak with (((rfl | rfl) | rfl) | rfl) | rfl
  · cases hc
  · rfl
  · cases hc
  · rfl
  · rfl

theorem exists_last (hsome : cs ≠ []) : ∃ t a, cs = t ++ [a] :=
  ⟨_, _, (List.dropLast_append_getLast hsome).symm⟩

def isMixed (a b : Char) : Bool := (isBreak a && b = ' ') || (a = ' ' && isBreak b)

structure IsSingle (cs : List Char) : Prop where
  shown : ∀ c ∈ cs, isShown c = true ∧ c ≠ '\n'
  pairs : anyPair isMixed cs = false

theorem anyPair_of_suffix {p : Char → Char → Bool} (hs : s <:+ cs) (hcs : anyPair p cs = false) :
    anyPair p s = false := by
  obtain ⟨t, rfl⟩ := hs
  induction t with
  | nil => exact hcs
  | cons c t ih =>
    cases hts : t ++ s with
    | nil =>
      rw [(List.append_eq_nil_iff.mp hts).2]
      rfl
    | cons d u =>
      rw [List.cons_append, hts, anyPair, Bool.or_eq_false_iff, ← hts] at hcs
      exact ih hcs.2

theorem IsSingle.of_suffix (hcs : IsSingle cs) (hs : s <:+ cs) : IsSingle s where
  shown c hc := hcs.shown c (hs.mem hc)
  pairs := anyPair_of_suffix hs hcs.pairs

theorem IsSingle.not_isMixed {t : List Char} (hcs : IsSingle (t ++ c :: d :: s)) :
    isMixed c d = false := by
  have h := anyPair_of_suffix (List.suffix_append t (c :: d :: s)) hcs.pairs
  rw [anyPair, Bool.or_eq_false_iff] at h
  exact h.1

theorem isBreak_or_blank (hc : isShown c = true) (hgap : isGap c = true) :
    c = ' ' ∨ isBreak c = true := by
  by_contra h
  rw [not_or, Bool.not_eq_true] at h
  exact Bool.false_ne_true ((isGap_of_isShown hc h.1 h.2).symm.trans hgap)

/-- Behind a blank only blanks go on with the gap. -/
theorem IsSingle.isGap_behind_blank {t : List Char} (hcs : IsSingle (t ++ ' ' :: s))
    (hs : s.head? ≠ some ' ') : ∀ c ∈ s.head?, isGap c = false := by
  intro c hc
  obtain ⟨u, rfl⟩ := List.head?_eq_some_iff.mp hc
  have hbreak : isBreak c = false := by simpa [isMixed, isBreak] using hcs.not_isMixed
  exact isGap_of_isShown (hcs.shown c (by simp)).1 (by simpa using hs) hbreak

/-- Behind a break only breaks go on with the gap. -/
theorem IsSingle.isGap_behind_break {t : List Char} (hcs : IsSingle (t ++ d :: s))
    (hd : isBreak d = true) (hs : ∀ c ∈ s.head?, isBreak c = false) :
    ∀ c ∈ s.head?, isGap c = false := by
  intro c hc
  obtain ⟨u, rfl⟩ := List.head?_eq_some_iff.mp hc
  have hblank : c ≠ ' ' := by
    rintro rfl
    have hpair := hcs.not_isMixed
    simp [isMixed, hd] at hpair
  exact isGap_of_isShown (hcs.shown c (by simp)).1 hblank (hs c hc)

/-- A gap holds blanks or breaks, not both. -/
theorem IsSingle.cases_gap (hcs : IsSingle cs) : (∀ c ∈ cs, isGap c = false) ∨ ∃ run gap rest,
    cs = run ++ (gap ++ rest) ∧ (∀ c ∈ run, isGap c = false) ∧
      ((∃ n, gap = margin (n + 1)) ∨ (gap ≠ [] ∧ ∀ c ∈ gap, isBreak c = true)) ∧
      (∀ c ∈ rest.head?, isGap c = false) ∧ IsSingle rest := by
  obtain ⟨run, behind, rfl, hrun, hbehind⟩ := exists_run (!isGap ·) cs
  simp only [Bool.not_eq_true', Bool.not_eq_false'] at hrun hbehind
  cases behind with
  | nil => exact .inl (by simpa using hrun)
  | cons d t =>
    right
    rcases isBreak_or_blank (hcs.shown d (by simp)).1 (hbehind d rfl) with rfl | hbreak
    · obtain ⟨n, rest, rfl, hhead⟩ := exists_margin t
      have hlast : IsSingle ((run ++ margin n) ++ ' ' :: rest) := by
        rw [List.append_assoc, margin_append_blank]
        exact hcs
      exact ⟨run, margin (n + 1), rest, rfl, hrun, .inl ⟨n, rfl⟩, hlast.isGap_behind_blank hhead,
        hlast.of_suffix ((List.suffix_cons _ _).trans (List.suffix_append _ _))⟩
    · obtain ⟨breaks, rest, rfl, hbreaks, hhead⟩ := exists_run isBreak t
      have hgap : ∀ c ∈ d :: breaks, isBreak c = true := List.forall_mem_cons.mpr ⟨hbreak, hbreaks⟩
      obtain ⟨before, last, hsplit⟩ := exists_last (List.cons_ne_nil d breaks)
      have hlast : IsSingle ((run ++ before) ++ last :: rest) := by
        rw [← List.cons_append, hsplit] at hcs
        simpa using hcs
      exact ⟨run, d :: breaks, rest, rfl, hrun, .inr ⟨by simp, hgap⟩,
        hlast.isGap_behind_break (hgap last (by simp [hsplit])) hhead,
        hlast.of_suffix ((List.suffix_cons _ _).trans (List.suffix_append _ _))⟩

theorem isGap_head_singleBody (column : Nat) (r : List Char) (hs : ∀ c ∈ s.head?, isGap c = false) :
    ∀ c ∈ (singleBody column false s ++ '\'' :: r).head?, isGap c = false := by
  cases s with
  | nil => simp [singleBody, isGap, isBlank, isBreak]
  | cons c s =>
    have hc := hs c rfl
    have hbreak := hc
    simp only [isGap, Bool.or_eq_false_iff] at hbreak
    by_cases hquote : c = '\''
    · simp [singleBody, hquote, isGap, isBlank, isBreak]
    · simp [singleBody, hquote, hbreak.2, hc]

/-- What a gap of breaks has to be, to be kept as it is. -/
theorem kept_of_isShown (hshown : ∀ c ∈ cs, isShown c = true) (hbreaks : ∀ c ∈ cs, isBreak c = true) :
    ∀ c ∈ cs, isBreak c = true ∧ c ≠ '\r' ∧ keptBreak c = c := by
  intro c hc
  refine ⟨hbreaks c hc, ?_, keptBreak_of_isShown (hshown c hc) (hbreaks c hc)⟩
  rintro rfl
  cases hshown _ hc

/-- A gap of breaks stays as it is, and the blanks behind it are left out. -/
theorem takeQuoted_breaks {run gap : List Char} (hrun : ∀ c ∈ run, isGap c = false)
    (hgap : ∀ c ∈ gap, isShown c = true ∧ c ≠ '\n') (hbreaks : ∀ c ∈ gap, isBreak c = true)
    (hsome : gap ≠ []) (hright : place.column ≠ 0)
    (hplace : place.text = run.flatMap singlePiece ++ (gap ++ (margin column ++ s)))
    (hs : ∀ d ∈ s.head?, isGap d = false) (fuel : Nat) (done : List Char) :
    ∃ place', takeQuoted true (fuel + 1) done place =
      takeQuoted true fuel (done ++ (run ++ gap)) place' ∧ place'.text = s ∧
        place'.column = column := by
  have hkept := kept_of_isShown (fun c hc => (hgap c hc).1) hbreaks
  have htext := Cursor.text_advance hplace
  obtain ⟨place', hread, htext', hcolumn'⟩ := Gap.read_breaks
    (fun c hc => ⟨hbreaks c hc, (hkept c hc).2.1⟩) hsome hs htext (Nat.lt_succ_self _) 0 {}
  have hsame := text_breaks (fun c hc => ⟨(hkept c hc).2.2, (hgap c hc).2⟩) hsome
  obtain ⟨e, gap, rfl⟩ := List.exists_cons_of_ne_nil hsome
  have he : isGap e = true := by simp [isGap, hbreaks e List.mem_cons_self]
  rw [htext] at hread
  refine ⟨place', ?_, htext', hcolumn'⟩
  rw [takeQuoted_gap (fun c hc => isPiece_singlePiece (hrun c hc)) hright hplace he hread fuel done,
    hsame, List.append_assoc]

theorem singleBody_gap {gap : List Char} (hsome : gap ≠ []) (hbreaks : ∀ c ∈ gap, isBreak c = true)
    (hs : ∀ c ∈ s.head?, isBreak c = false) : singleBody column false (gap ++ s) =
      gap ++ (margin column ++ singleBody column false s) := by
  obtain ⟨c, gap, rfl⟩ := List.exists_cons_of_ne_nil hsome
  obtain ⟨hc, hrest⟩ := List.forall_mem_cons.mp hbreaks
  simp [singleBody, hc, singleBody_breaks column hrest hs]

/-- A quote that no other one follows is the last one. -/
theorem quotedRun_last (hr : r.head? ≠ some '\'') (fuel : Nat) :
    quotedRun true (fuel + 1) ('\'' :: r) = some ([], .quote, r) := by
  cases r with
  | nil => simp [quotedRun, isGap, isBlank, isBreak]
  | cons c r =>
    have hc : c ≠ '\'' := by simpa using hr
    simp [quotedRun, isGap, isBlank, isBreak, hc]

/-- A text is read back from single quotes, the first one taken off. -/
theorem takeQuoted_single (hcs : IsSingle cs)
    (hplace : place.text = singleBody column false cs ++ '\'' :: r) (hr : r.head? ≠ some '\'')
    (hcolumn : 0 < column) (hright : place.column ≠ 0) (hfuel : cs.length < fuel)
    (done : List Char) :
    ∃ place', takeQuoted true fuel done place = some (done ++ cs, place') ∧ place'.text = r := by
  induction fuel generalizing cs place done with
  | zero => exact absurd hfuel (Nat.not_lt_zero _)
  | succ fuel ih =>
    rcases hcs.cases_gap with hall | ⟨run, gap, rest, rfl, hrun, hgap, hhead, hrest⟩
    · have hbody := singleBody_run column (fun c hc => isBreak_of_not_isGap (hall c hc)) []
      rw [List.append_nil] at hbody
      exact takeQuoted_close (fun c hc => isPiece_singlePiece (hall c hc)) hright
        (by rw [hplace, hbody]; simp [singleBody]) (quotedRun_last hr) fuel done
    · have hstop := isGap_head_singleBody column r hhead
      have hshown : ∀ c ∈ gap, isShown c = true ∧ c ≠ '\n' := fun c hc => hcs.shown c (by simp [hc])
      rw [singleBody_run column fun c hc => isBreak_of_not_isGap (hrun c hc),
        List.append_assoc] at hplace
      obtain ⟨hsome, next, hstep, htext, hright'⟩ : gap ≠ [] ∧ ∃ next,
          takeQuoted true (fuel + 1) done place = takeQuoted true fuel (done ++ (run ++ gap)) next ∧
            next.text = singleBody column false rest ++ '\'' :: r ∧ next.column ≠ 0 := by
        rcases hgap with ⟨n, rfl⟩ | ⟨hsome, hbreaks⟩
        · have hspaces : ∀ c ∈ margin (n + 1), isBreak c = false := fun c hc => by
            rw [List.eq_of_mem_replicate hc]
            rfl
          rw [singleBody_run column hspaces, flatMap_margin (by rfl), List.append_assoc] at hplace
          exact ⟨by simp [margin], takeQuoted_blanks (fun c hc => isPiece_singlePiece (hrun c hc))
            hright hplace hstop fuel done⟩
        · rw [singleBody_gap hsome hbreaks fun c hc => isBreak_of_not_isGap (hhead c hc),
            List.append_assoc, List.append_assoc] at hplace
          obtain ⟨next, hstep, htext, hnext⟩ := takeQuoted_breaks hrun hshown hbreaks hsome hright
            hplace hstop fuel done
          exact ⟨hsome, next, hstep, htext, by omega⟩
      have hlength := List.length_pos_of_ne_nil hsome
      obtain ⟨place', hrest', htext'⟩ := ih hrest htext hright'
        (by simp only [List.length_append] at hfuel; omega) (done ++ (run ++ gap))
      refine ⟨place', ?_, htext'⟩
      rw [hstep, hrest']
      simp

namespace Scanner
variable {tokens all : List Token} {columns : List Nat}

theorem takeToken_quote {t : Scanner}
    (hplace : t.place.text = (if single then '\'' else '"') :: r) :
    t.takeToken (if single then '\'' else '"') r = t.takeQuotedText single := by
  have hmark : t.place.atDocumentMark = false := by
    cases single <;> simp [Cursor.atDocumentMark, hplace, documentMark]
  cases single <;> simp [takeToken, hmark]

/-- A text in quotes is a token. -/
theorem scansOn_quoted (single : Bool) (cs body : List Char) (hr : AtKey r)
    (hread : ∀ (place : Cursor) (t : List Char), place.text = body ++ '\n' :: t → place.column ≠ 0 →
      ∃ place', takeQuoted single (place.text.length + 1) [] place = some (cs, place') ∧
        place'.text = '\n' :: t)
    (h : Scans r column (.scalar (if single then .single else .double) (String.ofList cs) :: tokens)
      columns all) :
    ScansOn ((if single then '\'' else '"') :: (body ++ '\n' :: (margin column ++ r))) tokens columns
      all := by
  have hstart : startsToken (if single then '\'' else '"') = true := by
    cases single <;> decide
  refine scansOn_token hstart fun place htext hright => ?_
  have htext' := Cursor.text_advance_one htext
  obtain ⟨place', htake, hrest⟩ := hread (place.advance 1) (margin column ++ r) htext'
    (by simp [Cursor.advance])
  refine ⟨standing place'
    (.scalar (if single then .single else .double) (String.ofList cs) :: tokens) columns false, ?_,
    fun fuel hfuel => takeTokens_newline hr h hrest ?_ false⟩
  · rw [takeToken_quote htext, takeQuotedText, takeNamed]
    cases single <;> simp [notePending, standing, emit, htake]
  · simp only [List.length_append, List.length_cons] at hfuel
    omega

theorem scansOn_double (cs : List Char) (hr : AtKey r)
    (h : Scans r column (.scalar .double (String.ofList cs) :: tokens) columns all) :
    ScansOn ('"' :: (cs.flatMap doubleChar ++ '"' :: '\n' :: (margin column ++ r))) tokens columns
      all := by
  have htoken := scansOn_quoted false cs (cs.flatMap doubleChar ++ ['"']) hr
    (fun place t hplace hcolumn => ?_) h
  · simpa using htoken
  · have hlength := Text.length_le_flatMap fun c (_ : c ∈ cs) => doubleChar_ne_nil c
    refine takeQuoted_double (by simpa using hplace) hcolumn ?_ []
    simp only [hplace, List.length_append]
    omega

theorem scansOn_single (hcs : IsSingle cs) {inner : Nat} (hinner : 0 < inner) (hr : AtKey r)
    (h : Scans r column (.scalar .single (String.ofList cs) :: tokens) columns all) :
    ScansOn ('\'' :: (singleBody inner false cs ++ '\'' :: '\n' :: (margin column ++ r))) tokens
      columns all := by
  have htoken := scansOn_quoted true cs (singleBody inner false cs ++ ['\'']) hr
    (fun place t hplace hcolumn => ?_) h
  · simpa using htoken
  · have hlength := length_le_singleBody inner false cs
    refine takeQuoted_single hcs (by simpa using hplace) (by simp) hinner hcolumn ?_ []
    simp only [hplace, List.length_append]
    omega

end Scanner

end HostVitals.Yaml
