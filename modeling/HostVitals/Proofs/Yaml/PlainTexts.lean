import HostVitals.Proofs.Yaml.Scanning
import Mathlib.Data.List.Basic
import Mathlib.Data.List.TakeWhile

/-! Texts without quotes are scanned up to the end of their line. -/
namespace HostVitals.Yaml

variable {place : Cursor} {gap : Gap} {cs r s : List Char} {c d : Char} {column indent fuel : Nat}

/-- A text begins with a run of characters of one kind, though maybe with none. -/
theorem exists_run (p : Char → Bool) (cs : List Char) : ∃ run rest, cs = run ++ rest ∧
    (∀ c ∈ run, p c = true) ∧ ∀ c ∈ rest.head?, p c = false := by
  induction cs with
  | nil => exact ⟨[], [], rfl, by simp, by simp⟩
  | cons c cs ih =>
    cases hc : p c with
    | true =>
      obtain ⟨run, rest, rfl, hrun, hrest⟩ := ih
      exact ⟨c :: run, rest, rfl, List.forall_mem_cons.mpr ⟨hc, hrun⟩, hrest⟩
    | false => exact ⟨[], c :: cs, rfl, by simp, by simpa using hc⟩

theorem exists_margin (s : List Char) : ∃ n r, s = margin n ++ r ∧ r.head? ≠ some ' ' := by
  obtain ⟨run, r, rfl, hrun, hr⟩ := exists_run (· = ' ') s
  have hmargin : run = margin run.length :=
    List.eq_replicate_of_mem fun c hc => of_decide_eq_true (hrun c hc)
  exact ⟨run.length, r, by rw [← hmargin], fun h => of_decide_eq_false (hr ' ' h) rfl⟩

theorem margin_append_blank (n : Nat) (s : List Char) :
    margin n ++ ' ' :: s = margin (n + 1) ++ s := by
  rw [margin, margin, List.replicate_succ', List.append_assoc]
  rfl

/-! What stands between two words. -/

namespace Gap

theorem read_end (hr : ∀ d ∈ r.head?, isGap d = false) (hplace : place.text = r) (indent fuel : Nat)
    (gap : Gap) : gap.read indent (fuel + 1) place = some (gap, place) := by
  rw [read, hplace]
  cases r with
  | nil => rfl
  | cons d r =>
    have hd := hr d rfl
    simp only [isGap, Bool.or_eq_false_iff] at hd
    simp [hd.1, hd.2]

/-- Blanks on one line are kept. -/
theorem read_blanks (hr : ∀ d ∈ r.head?, isGap d = false) (hfirst : gap.first = none)
    (hplace : place.text = margin column ++ r) (hfuel : column < fuel) (indent : Nat) :
    gap.read indent fuel place =
      some ({ gap with blanks := gap.blanks ++ margin column }, place.advance column) := by
  induction column generalizing gap place fuel with
  | zero =>
    obtain ⟨fuel, rfl⟩ := Nat.exists_eq_succ_of_ne_zero (Nat.ne_of_gt hfuel)
    simpa [Cursor.advance, margin] using read_end hr hplace indent fuel gap
  | succ column ih =>
    obtain ⟨fuel, rfl⟩ := Nat.exists_eq_succ_of_ne_zero (Nat.ne_of_gt (Nat.zero_lt_of_lt hfuel))
    have hplace' : place.text = ' ' :: (margin column ++ r) := hplace
    have hstep : gap.read indent (fuel + 1) place =
        Gap.read indent fuel { gap with blanks := gap.blanks ++ [' '] } (place.advance 1) := by
      rw [read, hplace']
      simp [isBlank, hfirst]
    have hrest : Gap.read indent fuel { gap with blanks := gap.blanks ++ [' '] } (place.advance 1) =
        some ({ gap with blanks := gap.blanks ++ [' '] ++ margin column },
          (place.advance 1).advance column) :=
      ih hfirst (Cursor.text_advance_one hplace') (by simpa using hfuel)
    rw [hstep, hrest, Cursor.advance_advance, Nat.add_comm]
    simp [margin, List.replicate_succ]

/-- Where a gap begins, blanks up to the next word are all of it. -/
theorem read_only_blanks (hr : ∀ d ∈ r.head?, isGap d = false)
    (hplace : place.text = margin column ++ r) (indent : Nat) :
    Gap.read indent ((margin column ++ r).length + 1) {} place =
      some ({ blanks := margin column }, place.advance column) := by
  have hroom : column < (margin column ++ r).length + 1 := by
    simp only [margin, List.length_append, List.length_replicate]
    omega
  have hread := read_blanks hr (rfl : ({} : Gap).first = none) hplace hroom indent
  rwa [List.nil_append] at hread

/-- Blanks at the start of a line are passed over. -/
theorem read_margin (hr : ∀ d ∈ r.head?, isGap d = false) (hfirst : gap.first.isSome = true)
    (hplace : place.text = margin column ++ r) (hfuel : column < fuel) (indent : Nat) :
    gap.read indent fuel place = some (gap, place.advance column) := by
  induction column generalizing place fuel with
  | zero =>
    obtain ⟨fuel, rfl⟩ := Nat.exists_eq_succ_of_ne_zero (Nat.ne_of_gt hfuel)
    simpa [Cursor.advance] using read_end hr hplace indent fuel gap
  | succ column ih =>
    obtain ⟨fuel, rfl⟩ := Nat.exists_eq_succ_of_ne_zero (Nat.ne_of_gt (Nat.zero_lt_of_lt hfuel))
    have hplace' : place.text = ' ' :: (margin column ++ r) := hplace
    have hstep : gap.read indent (fuel + 1) place = gap.read indent fuel (place.advance 1) := by
      rw [read, hplace']
      simp [isBlank, hfirst]
    rw [hstep, ih (Cursor.text_advance_one hplace') (by simpa using hfuel), Cursor.advance_advance,
      Nat.add_comm]

theorem addBreak_first (gap : Gap) (d : Char) : (gap.addBreak d).first.isSome = true := by
  unfold addBreak
  split
  · rfl
  · next h => simp [h]

/-- Line breaks are noted one by one; the blanks at the start of the last line are passed over. -/
theorem read_breaks (hs : ∀ d ∈ s, isBreak d = true ∧ d ≠ '\r') (hsome : s ≠ [])
    (hr : ∀ d ∈ r.head?, isGap d = false) (hplace : place.text = s ++ (margin column ++ r))
    (hfuel : place.text.length < fuel) (indent : Nat) (gap : Gap) :
    ∃ place', gap.read indent fuel place = some (s.foldl addBreak gap, place') ∧
      place'.text = r ∧ place'.column = column := by
  induction s generalizing gap place fuel with
  | nil => exact absurd rfl hsome
  | cons d s ih =>
    obtain ⟨fuel, rfl⟩ := Nat.exists_eq_succ_of_ne_zero (Nat.ne_of_gt (Nat.zero_lt_of_lt hfuel))
    obtain ⟨hd, hreturn⟩ := hs d List.mem_cons_self
    have hblank : isBlank d = false := by
      by_contra h
      simp only [isBlank, Bool.not_eq_false, Bool.or_eq_true, decide_eq_true_eq] at h
      rcases h with rfl | rfl <;> cases hd
    have hnext : place.nextLine.text = s ++ (margin column ++ r) :=
      Cursor.text_nextLine hplace hreturn
    have hstep : gap.read indent (fuel + 1) place =
        (gap.addBreak d).read indent fuel place.nextLine := by
      rw [read, hplace]
      simp [hd, hblank]
    rw [hplace] at hfuel
    have hlength : place.nextLine.text.length < fuel := by
      rw [hnext]
      exact Nat.lt_of_succ_lt_succ hfuel
    rw [hstep]
    by_cases hlast : s = []
    · subst hlast
      have hmargin : column < fuel := by
        simp only [hnext, List.nil_append, List.length_append, margin, List.length_replicate]
          at hlength
        omega
      exact ⟨_, read_margin hr (addBreak_first gap d) hnext hmargin indent,
        Cursor.text_advance_margin hnext, by simp [Cursor.advance, Cursor.column_nextLine hplace]⟩
    · exact ih (fun d hd => hs d (List.mem_cons_of_mem _ hd)) hlast hnext hlength _

end Gap

/-! Words of a text without quotes. -/

theorem hasInnerMark_of_suffix (hs : s <:+ cs) (hcs : hasInnerMark cs = false) :
    hasInnerMark s = false := by
  obtain ⟨t, rfl⟩ := hs
  induction t with
  | nil => exact hcs
  | cons d t ih =>
    rw [List.cons_append, hasInnerMark, Bool.or_eq_false_iff] at hcs
    exact ih hcs.2

/-- A word ends at the first gap. -/
theorem plainWord_eq (hcs : hasInnerMark cs = false) (hr : gapAhead r = true) :
    plainWord false (cs ++ r) = some (cs.takeWhile (!isGap ·)) := by
  induction cs with
  | nil =>
    cases r with
    | nil => rfl
    | cons d r =>
      have hd : isGap d = true := hr
      simp [plainWord, hd]
  | cons d cs ih =>
    simp only [hasInnerMark, Bool.or_eq_false_iff] at hcs
    obtain ⟨⟨hcolon, -⟩, hrest⟩ := hcs
    cases hd : isGap d with
    | true => simp [plainWord, hd]
    | false =>
      have hahead : (decide (d = ':') && gapAhead (cs ++ r)) = false := by
        cases cs with
        | nil =>
          have hne : d ≠ ':' := by simpa [gapAhead] using hcolon
          simp [hne]
        | cons e cs => exact hcolon
      simp [plainWord, hd, hahead, ih hrest]

structure IsLine (cs : List Char) : Prop where
  chars : ∀ c ∈ cs, c = ' ' ∨ isGap c = false
  head : ∀ c ∈ cs.head?, c ≠ ' ' ∧ c ≠ '#'
  last : cs.getLast? ≠ some ' '
  marks : hasInnerMark cs = false

theorem IsLine.of_suffix (hcs : IsLine cs) (hs : s <:+ cs) (hsome : s ≠ [])
    (hhead : ∀ c ∈ s.head?, c ≠ ' ' ∧ c ≠ '#') : IsLine s where
  chars c hc := hcs.chars c (hs.mem hc)
  head := hhead
  last := by
    obtain ⟨t, rfl⟩ := hs
    have h := hcs.last
    rwa [List.getLast?_append_of_ne_nil _ hsome] at h
  marks := hasInnerMark_of_suffix hs hcs.marks

/-- A line is a word, or a word with blanks and another line behind it. -/
theorem IsLine.cases_words (hcs : IsLine cs) :
    cs.takeWhile (!isGap ·) = cs ∨ ∃ n rest, rest ≠ [] ∧ IsLine rest ∧
      cs = cs.takeWhile (!isGap ·) ++ (margin (n + 1) ++ rest) := by
  have hsplit := List.takeWhile_append_dropWhile (p := (!isGap ·)) (l := cs)
  cases hbehind : cs.dropWhile (!isGap ·) with
  | nil =>
    rw [hbehind, List.append_nil] at hsplit
    exact .inl hsplit
  | cons d t =>
    right
    rw [hbehind] at hsplit
    have hsuffix : d :: t <:+ cs := ⟨_, hsplit⟩
    have hgap : isGap d = true := by
      have h := List.head?_dropWhile_not (!isGap ·) cs
      rw [hbehind] at h
      simpa using h
    obtain rfl : d = ' ' :=
      (hcs.chars d (hsuffix.mem List.mem_cons_self)).resolve_right (by simp [hgap])
    obtain ⟨n, rest, rfl, hhead⟩ := exists_margin t
    have hblank : ' ' :: rest <:+ cs := by
      refine (List.suffix_append (margin n) (' ' :: rest)).trans ?_
      rw [margin_append_blank]
      exact hsuffix
    have hsome : rest ≠ [] := by
      rintro rfl
      obtain ⟨t, rfl⟩ := hblank
      exact hcs.last (by simp)
    refine ⟨n, rest, hsome, hcs.of_suffix ((List.suffix_cons _ _).trans hblank) hsome ?_,
      hsplit.symm⟩
    intro c hc
    refine ⟨fun h => hhead (h ▸ hc), ?_⟩
    rintro rfl
    have hmark := hasInnerMark_of_suffix hblank hcs.marks
    have hsign : rest.head? = some '#' := hc
    simp [hasInnerMark, isGap, isBlank, hsign] at hmark

/-! Whole texts. -/

theorem IsLine.exists_head (hcs : IsLine cs) (hsome : cs ≠ []) :
    ∃ c s, cs = c :: s ∧ isGap c = false ∧ c ≠ '#' := by
  cases cs with
  | nil => exact absurd rfl hsome
  | cons c s =>
    have hc := hcs.head c rfl
    exact ⟨c, s, rfl, (hcs.chars c List.mem_cons_self).resolve_left hc.1, hc.2⟩

/-- A word is taken with what stands behind it. -/
theorem takePlain_word {word : List Char} {gap' : Gap} {place' : Cursor} (hcs : IsLine cs)
    (hsome : cs ≠ []) (hmark : place.atDocumentMark = false) (hr : gapAhead r = true)
    (hplace : place.text = cs ++ r) (hword : cs.takeWhile (!isGap ·) = word)
    (hbehind : (place.advance word.length).text = d :: s) (hd : isGap d = true)
    (hread : Gap.read indent ((d :: s).length + 1) {} (place.advance word.length) =
      some (gap', place')) (fuel : Nat) (done : List Char) (gap : Gap) :
    takePlain false indent (fuel + 1) done gap place =
      if place'.column < indent then some (done ++ gap.text ++ word, gap'.first.isSome, place')
      else takePlain false indent fuel (done ++ gap.text ++ word) gap' place' := by
  obtain ⟨c, t, hc, hgap, hsign⟩ := hcs.exists_head hsome
  have hcomment : (place.text.head? == some '#') = false := by
    rw [hplace, hc]
    simpa using hsign
  have hword' : word.isEmpty = false := by
    rw [← hword, hc]
    simp [hgap]
  rw [takePlain, hmark, hcomment, hplace, plainWord_eq hcs.marks hr, hword]
  simp only [Bool.or_self, Bool.false_eq_true, if_false, Option.bind_eq_bind, Option.bind_some,
    hword', hbehind, hd, hread]
  simp

/-- A line is taken whole, up to the next key. -/
theorem takePlain_line (hcs : IsLine cs) (hsome : cs ≠ []) (hr : AtKey r)
    (hplace : place.text = cs ++ '\n' :: (margin column ++ r)) (hindent : column < indent)
    (hcolumn : indent ≤ place.column) (hfuel : cs.length < fuel) (done : List Char) (gap : Gap) :
    ∃ place', takePlain false indent fuel done gap place =
      some (done ++ gap.text ++ cs, true, place') ∧ place'.text = r ∧ place'.column = column := by
  induction fuel generalizing cs place done gap with
  | zero => exact absurd hfuel (Nat.not_lt_zero _)
  | succ fuel ih =>
    have hmark : place.atDocumentMark = false := by
      have hpositive : place.column ≠ 0 := by omega
      simp [Cursor.atDocumentMark, hpositive]
    obtain hword | ⟨n, rest, hsome', hrest, hsplit⟩ := hcs.cases_words
    · have htext := Cursor.text_advance hplace
      obtain ⟨place', hread, htext', hcolumn'⟩ := Gap.read_breaks (s := ['\n'])
        (by simp [isBreak]) (by simp) (fun d hd => isGap_of_startsToken (hr.startsToken d hd)) htext
        (Nat.lt_succ_self _) indent {}
      rw [htext] at hread
      refine ⟨place', ?_, htext', hcolumn'⟩
      rw [takePlain_word hcs hsome hmark (by rfl) hplace hword htext (by rfl) hread, hcolumn',
        if_pos hindent]
      rfl
    · have hplace' : place.text = cs.takeWhile (!isGap ·) ++
          (margin (n + 1) ++ (rest ++ '\n' :: (margin column ++ r))) := by
        rw [hplace]
        conv_lhs => rw [hsplit]
        simp
      obtain ⟨c, t, hc, hgap, -⟩ := hrest.exists_head hsome'
      have hstop : ∀ d ∈ (rest ++ '\n' :: (margin column ++ r)).head?, isGap d = false := by
        simp [hc, hgap]
      have htext := Cursor.text_advance hplace'
      have hread := Gap.read_only_blanks hstop htext indent
      have hlength := congrArg List.length hsplit
      obtain ⟨place', hrest', htext', hcolumn'⟩ := ih hrest hsome'
        (Cursor.text_advance_margin htext) (by simp only [Cursor.advance]; omega)
        (by simp only [List.length_append, margin, List.length_replicate] at hlength; omega)
        (done ++ gap.text ++ cs.takeWhile (!isGap ·)) { blanks := margin (n + 1) }
      refine ⟨place', ?_, htext', hcolumn'⟩
      have hright : ¬((place.advance (cs.takeWhile (!isGap ·)).length).advance (n + 1)).column <
          indent := by
        simp only [Cursor.advance]
        omega
      have hwhole : done ++ gap.text ++ cs.takeWhile (!isGap ·) ++
          ({ blanks := margin (n + 1) } : Gap).text ++ rest = done ++ gap.text ++ cs := by
        conv_rhs => rw [hsplit]
        simp [Gap.text]
      rw [takePlain_word hcs hsome hmark (by rfl) hplace rfl htext (by rfl) hread, if_neg hright]
      rw [hwhole] at hrest'
      exact hrest'

/-! As tokens. -/

structure IsPlain (cs : List Char) : Prop extends IsLine cs where
  ne_nil : cs ≠ []
  start : hasMarks cs = false
  mark : cs.head? ≠ some '\uFEFF'

theorem not_hasMarks (hcs : hasMarks (c :: s) = false) :
    "#,[]\x7b\x7d&*!|>'\"%@`".toList.contains c = false ∧
      ((c = '?' ∨ c = ':' ∨ c = '-') → gapAhead s = false) := by
  unfold hasMarks at hcs
  simp only [Bool.or_eq_false_iff] at hcs
  obtain ⟨hstart, -⟩ := hcs
  split at hstart
  · cases hstart
  · cases hstart
  · next h =>
    obtain ⟨rfl, rfl⟩ := List.cons.inj h
    simp only [Bool.or_eq_false_iff, Bool.and_eq_false_iff, decide_eq_false_iff_not] at hstart
    refine ⟨hstart.1, ?_⟩
    rintro (rfl | rfl | rfl)
    all_goals exact hstart.2.resolve_left (by simp)
  · next h => cases h

theorem takeToken_plain {t : Scanner} (hcs : IsPlain (c :: s)) (hcolumn : t.place.column ≠ 0)
    (hflow : t.flow = false) (r : List Char) :
    t.takeToken c (s ++ r) = t.takePlainText := by
  obtain ⟨hsign, hahead⟩ := not_hasMarks hcs.start
  simp only [List.contains_eq_mem] at hsign
  have hmark : t.place.atDocumentMark = false := by simp [Cursor.atDocumentMark, hcolumn]
  have hgap : isGap c = false := (hcs.chars c List.mem_cons_self).resolve_left (hcs.head c rfl).1
  simp only [isGap, Bool.or_eq_false_iff] at hgap
  by_cases hmiddle : c = '?' ∨ c = ':' ∨ c = '-'
  · have hahead' : gapAhead (s ++ r) = false := by
      have hs := hahead hmiddle
      cases s with
      | nil => cases hs
      | cons d s => exact hs
    have hblank : (s ++ r).head?.any isBlank = false := by
      cases h : s ++ r with
      | nil => rfl
      | cons d t =>
        rw [h] at hahead'
        simp only [gapAhead, isGap, Bool.or_eq_false_iff] at hahead'
        exact hahead'.1
    rcases hmiddle with rfl | rfl | rfl
    · simp [Scanner.takeToken, Scanner.plainAhead, hmark, hflow, hahead']
    · simp [Scanner.takeToken, Scanner.plainAhead, hmark, hflow, hahead']
    · simp only [Scanner.takeToken, Scanner.plainAhead, hmark, hahead', hblank]
      simp
  · have hne : c ≠ '#' ∧ c ≠ ',' ∧ c ≠ '[' ∧ c ≠ ']' ∧ c ≠ '\x7b' ∧ c ≠ '\x7d' ∧ c ≠ '&' ∧ c ≠ '*' ∧
        c ≠ '!' ∧ c ≠ '|' ∧ c ≠ '>' ∧ c ≠ '\'' ∧ c ≠ '"' ∧ c ≠ '%' ∧ c ≠ '@' ∧ c ≠ '`' := by
      simpa using hsign
    simp only [not_or] at hmiddle
    have hplain : t.plainAhead c (s ++ r) = true := by
      simp [Scanner.plainAhead, Scanner.isSign, hgap, hne, hmiddle]
    simp [Scanner.takeToken, hmark, hplain, hne, hmiddle]

theorem isGap_of_isShown (hc : isShown c = true) (hblank : c ≠ ' ') (hbreak : isBreak c = false) :
    isGap c = false := by
  have htab : c ≠ '\t' := by
    rintro rfl
    cases hc
  simp [isGap, isBlank, hblank, htab, hbreak]

theorem isPlain_of_plainFits (hsome : cs ≠ []) (hfits : plainFits cs = true) : IsPlain cs := by
  simp only [plainFits, Bool.and_eq_true, Bool.not_eq_true'] at hfits
  obtain ⟨⟨⟨⟨hshown, hbreak⟩, hhead⟩, hlast⟩, hmarks⟩ := hfits
  simp only [List.all_eq_true] at hshown
  simp only [List.any_eq_false, Bool.not_eq_true] at hbreak
  have hinner : hasInnerMark cs = false := by
    simp only [hasMarks, Bool.or_eq_false_iff] at hmarks
    exact hmarks.2
  refine ⟨⟨fun c hc => ?_, fun c hc => ⟨?_, ?_⟩, ?_, hinner⟩, hsome, hmarks, ?_⟩
  · by_cases hblank : c = ' '
    · exact .inl hblank
    · exact .inr (isGap_of_isShown (hshown c hc) hblank (hbreak c hc))
  · rintro rfl
    rw [Option.mem_def.mp hc] at hhead
    cases hhead
  · rintro rfl
    cases cs with
    | nil => cases hc
    | cons d cs =>
      obtain rfl := Option.some_inj.mp hc
      have hsign := (not_hasMarks hmarks).1
      simp at hsign
  · intro h
    rw [h] at hlast
    cases hlast
  · intro h
    cases hshown _ (List.mem_of_mem_head? h)

namespace Scanner
variable {tokens all : List Token} {columns : List Nat} {c : Nat}

/-- A plain text is a token. -/
theorem scansOn_plain (hcs : IsPlain cs) (hr : AtKey r) (hcolumn : column ≤ c)
    (h : Scans r column (.scalar .plain (String.ofList cs) :: tokens) (c :: columns) all) :
    ScansOn (cs ++ '\n' :: (margin column ++ r)) tokens (c :: columns) all := by
  obtain ⟨d, t, rfl, hgap, hsign⟩ := hcs.toIsLine.exists_head hcs.ne_nil
  have hstart : startsToken d = true := by
    have hd : d ≠ '\uFEFF' := by simpa using hcs.mark
    simp [startsToken, hgap, hsign, hd]
  rw [List.cons_append]
  refine scansOn_token hstart fun place htext hright => ?_
  have hright' : c < place.column := by simpa [innermost] using hright
  have hroom : (d :: t).length < place.text.length + 1 := by
    rw [htext, List.length_cons, List.length_cons, List.length_append]
    omega
  obtain ⟨place', hread, htext', hcolumn'⟩ := takePlain_line hcs.toIsLine hcs.ne_nil hr
    htext (Nat.lt_succ_of_le hcolumn) hright' hroom [] {}
  refine ⟨standing place' (.scalar .plain (String.ofList (d :: t)) :: tokens) (c :: columns) true,
    ?_, ?_⟩
  · have hindent : (innermost (c :: columns) + 1).toNat = c + 1 := rfl
    have hread' : takePlain false (innermost (c :: columns) + 1).toNat (place.text.length + 1) [] {}
        place = some (d :: t, true, place') := hread
    rw [takeToken_plain hcs (Nat.ne_of_gt (Nat.zero_lt_of_lt hright')) (by rfl), takePlainText]
    simp [notePending, standing, flow, hread', emit]
  · intro fuel hfuel
    exact h place' fuel htext' hcolumn' (by simp [margin] at hfuel; omega)

end Scanner

end HostVitals.Yaml
