import HostVitals.Proofs.Yaml.QuotedTexts

/-! Texts that are written as a block of lines come out of it as they were, with the line breaks at
their end. -/
namespace HostVitals.Yaml

variable {place : Cursor} {cs r s t done pending breaks : List Char} {c d : Char}
  {column indent fuel : Nat} {chomp : Chomp}

/-! The marks behind the sign of a block. -/

def endingOf (s : List Char) : Chomp :=
  match s.reverse with
  | a :: b :: _ => if !isBreak a then .strip else if isBreak b then .keep else .clip
  | [a] => if isBreak a then .keep else .strip
  | [] => .strip

def chompSign : Chomp → List Char
  | .strip => ['-']
  | .clip => []
  | .keep => ['+']

theorem blockMarks_eq (s : List Char) :
    blockMarks s = (if s.head?.any isEdge then ['2'] else []) ++ chompSign (endingOf s) := by
  cases h : s.reverse with
  | nil => simp [blockMarks, endingOf, h, chompSign]
  | cons a t =>
    cases t with
    | nil => cases ha : isBreak a <;> simp [blockMarks, endingOf, h, ha, chompSign]
    | cons b t =>
      cases ha : isBreak a <;> cases hb : isBreak b <;>
        simp [blockMarks, endingOf, h, ha, hb, chompSign]

theorem takeMarks_blockMarks (s t : List Char) :
    takeMarks (blockMarks s ++ '\n' :: t) =
      some (endingOf s, if s.head?.any isEdge then some 2 else none, (blockMarks s).length) := by
  rw [blockMarks_eq]
  cases t <;> cases endingOf s <;> split <;> rfl

theorem endingOf_append (hs : s ≠ []) (hhead : ∀ c ∈ s.head?, isBreak c = false) (t : List Char) :
    endingOf (t ++ s) = endingOf s := by
  cases h : s.reverse with
  | nil => exact absurd (List.reverse_eq_nil_iff.mp h) hs
  | cons a u =>
    cases u with
    | nil =>
      obtain rfl : s = [a] := by simpa using congrArg List.reverse h
      have ha := hhead a rfl
      cases ht : t.reverse <;> simp [endingOf, ht, ha]
    | cons b u => simp [endingOf, h]

/-! Empty lines and the indentation of the next line. -/

theorem takeWhile_margin {n m : Nat} (hn : m = n ∨ m < n ∧ AtKey s) :
    (((margin m ++ s).take n).takeWhile (· == ' ')).length = m := by
  have hspaces : ∀ c ∈ margin m, (c == ' ') = true := fun c hc => by
    simpa using List.eq_of_mem_replicate hc
  have hlength : (margin m).length = m := by simp [margin]
  rcases hn with rfl | ⟨hlt, hs⟩
  · rw [List.take_left' hlength, List.takeWhile_eq_self_iff.mpr hspaces, hlength]
  · have hrest : (s.take (n - m)).takeWhile (· == ' ') = [] := by
      cases s with
      | nil => simp
      | cons c s =>
        have hc : c ≠ ' ' := ne_of_isLetter (hs c rfl) (by decide)
        obtain ⟨k, hk⟩ := Nat.exists_eq_succ_of_ne_zero (Nat.ne_of_gt (Nat.sub_pos_of_lt hlt))
        simp [hk, hc]
    rw [List.take_append, hlength, List.take_of_length_le (by omega),
      List.takeWhile_append_of_pos hspaces, hrest, List.append_nil, hlength]

theorem skipIndent_end {n m : Nat} (hs : ∀ c ∈ s.head?, isBreak c = false)
    (hn : m = n ∨ m < n ∧ AtKey s) (hplace : place.text = margin m ++ s)
    (hcolumn : place.column = 0) (fuel : Nat) (breaks : List Char) (widest : Nat) :
    ∃ widest', skipIndent (some n) (fuel + 1) breaks widest place =
      some (breaks, widest', place.advance m) := by
  have htaken := takeWhile_margin hn
  have htext := Cursor.text_advance_margin hplace
  rw [← hplace] at htaken
  simp only [skipIndent, hcolumn, Nat.sub_zero, htaken, htext]
  cases s with
  | nil => exact ⟨_, rfl⟩
  | cons c s =>
    have hshort : (decide ((place.advance m).column < n) && decide (c = '\t')) = false := by
      rcases hn with rfl | ⟨-, hs⟩
      · simp [Cursor.advance, hcolumn]
      · simp [ne_of_isLetter (hs c rfl) (by decide : isLetter '\t' = false)]
    refine ⟨max widest (place.advance m).column, ?_⟩
    simp only [hshort, hs c rfl, Bool.false_eq_true, if_false]

/-- Line breaks are collected up to a line with the indentation, or with less at a key. -/
theorem skipIndent_breaks {n m : Nat}
    (hbreaks : ∀ c ∈ cs, isBreak c = true ∧ c ≠ '\r' ∧ keptBreak c = c)
    (hs : ∀ c ∈ s.head?, isBreak c = false) (hn : m = n ∨ m < n ∧ AtKey s)
    (hplace : place.text = cs ++ (margin m ++ s)) (hcolumn : place.column = 0)
    (hfuel : cs.length < fuel) (breaks : List Char) (widest : Nat) :
    ∃ widest' place', skipIndent (some n) fuel breaks widest place =
      some (breaks ++ cs, widest', place') ∧ place'.text = s ∧ place'.column = m := by
  induction cs generalizing place fuel breaks widest with
  | nil =>
    obtain ⟨fuel, rfl⟩ := Nat.exists_eq_succ_of_ne_zero (Nat.ne_of_gt hfuel)
    obtain ⟨widest', h⟩ := skipIndent_end hs hn hplace hcolumn fuel breaks widest
    exact ⟨widest', _, by simpa using h, Cursor.text_advance_margin hplace,
      by simp [Cursor.advance, hcolumn]⟩
  | cons c cs ih =>
    obtain ⟨fuel, rfl⟩ := Nat.exists_eq_succ_of_ne_zero (Nat.ne_of_gt (Nat.zero_lt_of_lt hfuel))
    obtain ⟨hbreak, hreturn, hkept⟩ := hbreaks c List.mem_cons_self
    have hplace' : place.text = c :: (cs ++ (margin m ++ s)) := hplace
    have hblank : c ≠ ' ' ∧ c ≠ '\t' := by
      constructor <;> rintro rfl <;> cases hbreak
    have hnone : ((place.text.take n).takeWhile (· == ' ')).length = 0 := by
      cases n <;> simp [hplace', hblank.1]
    obtain ⟨widest', place', hrest, htext, hcolumn'⟩ := ih
      (fun c hc => hbreaks c (List.mem_cons_of_mem _ hc)) (Cursor.text_nextLine hplace' hreturn)
      (Cursor.column_nextLine hplace') (by simpa using hfuel) (breaks ++ [c])
      (max widest place.column)
    refine ⟨widest', place', ?_, htext, hcolumn'⟩
    simp only [skipIndent, hcolumn, Nat.sub_zero, hnone, Cursor.advance_zero]
    rw [hplace']
    simpa [hblank.2, hbreak, hkept, hcolumn] using hrest

/-- At the start of a line there is room for all of its breaks. -/
theorem skipIndent_start {n m : Nat}
    (hbreaks : ∀ c ∈ cs, isBreak c = true ∧ c ≠ '\r' ∧ keptBreak c = c)
    (hs : ∀ c ∈ s.head?, isBreak c = false) (hn : m = n ∨ m < n ∧ AtKey s)
    (hplace : place.text = cs ++ (margin m ++ s)) (hcolumn : place.column = 0) :
    ∃ widest place', skipIndent (some n) (place.text.length + 1) [] 0 place =
      some (cs, widest, place') ∧ place'.text = s ∧ place'.column = m := by
  have hroom : cs.length < place.text.length + 1 := by
    rw [hplace, List.length_append]
    omega
  exact skipIndent_breaks hbreaks hs hn hplace hcolumn hroom [] 0

/-! The lines of a block. -/

theorem takeLines_end (hcolumn : place.column ≠ indent) (literal : Bool) (fuel : Nat)
    (blank : Bool) :
    takeLines literal indent chomp (fuel + 1) done blank pending breaks place =
      some (done ++ (if chomp = .strip then [] else pending) ++
        (if chomp = .keep then breaks else []), place) := by
  rw [takeLines, if_pos (.inl hcolumn)]

/-- A line up to its break, with the empty lines behind it. -/
theorem takeLines_line {line newBreaks : List Char} {widest : Nat} {place' : Cursor}
    (hline : ∀ c ∈ line, isBreak c = false) (hd : isBreak d = true)
    (hplace : place.text = line ++ d :: s) (hcolumn : place.column = indent)
    (hskip : skipIndent (some indent) ((place.advance line.length).nextLine.text.length + 1) [] 0
      (place.advance line.length).nextLine = some (newBreaks, widest, place'))
    (chomp : Chomp) (fuel : Nat) (done : List Char) (blank : Bool) (pending breaks : List Char) :
    ∃ blank', takeLines true indent chomp (fuel + 1) done blank pending breaks place =
      takeLines true indent chomp fuel (done ++ pending ++ breaks ++ line) blank' [keptBreak d]
        newBreaks place' := by
  have hsome : ¬(place.column ≠ indent ∨ place.text.isEmpty = true) := by
    simp [hcolumn, hplace]
  have htaken : place.text.takeWhile (fun d => !isBreak d) = line := by
    rw [hplace, List.takeWhile_append_of_pos (by simpa using hline)]
    simp [hd]
  have htext := Cursor.text_advance hplace
  refine ⟨place.text.head?.any isBlank, ?_⟩
  rw [takeLines, if_neg hsome]
  simp only [Cursor.takeWhile, htaken, takeBreak, htext, hskip]
  simp

/-- A line, its break and the empty lines behind it, up to the next line. -/
theorem takeLines_step {line : List Char} {n : Nat} (hline : ∀ c ∈ line, isBreak c = false)
    (hbreaks : ∀ c ∈ d :: cs, isBreak c = true ∧ c ≠ '\r' ∧ keptBreak c = c)
    (hs : ∀ c ∈ s.head?, isBreak c = false) (hn : n = indent ∨ n < indent ∧ AtKey s)
    (hplace : place.text = line ++ d :: (cs ++ (margin n ++ s))) (hright : place.column = indent)
    (chomp : Chomp) (fuel : Nat) (done : List Char) (blank : Bool) (pending breaks : List Char) :
    ∃ blank' place', takeLines true indent chomp (fuel + 1) done blank pending breaks place =
      takeLines true indent chomp fuel (done ++ pending ++ breaks ++ line) blank' [d] cs place' ∧
        place'.text = s ∧ place'.column = n := by
  obtain ⟨⟨hd, hreturn, hkept⟩, hcs⟩ := List.forall_mem_cons.mp hbreaks
  have htext := Cursor.text_advance hplace
  obtain ⟨widest, place', hskip, htext', hcolumn'⟩ := skipIndent_start hcs hs hn
    (Cursor.text_nextLine htext hreturn) (Cursor.column_nextLine htext)
  obtain ⟨blank', hstep⟩ := takeLines_line hline hd hplace hright hskip chomp fuel done blank pending
    breaks
  rw [hkept] at hstep
  exact ⟨blank', place', hstep, htext', hcolumn'⟩

def endPlace (cs : List Char) : Place := if cs.getLast?.any isBreak then .fresh else .ended

theorem blockBody_line (column : Nat) (hcs : ∀ c ∈ cs, isBreak c = false) (s : List Char) :
    blockBody column false (cs ++ s) = cs ++ blockBody column false s := by
  induction cs with
  | nil => rfl
  | cons c cs ih =>
    simp [blockBody, hcs c List.mem_cons_self, ih fun c hc => hcs c (List.mem_cons_of_mem _ hc)]

theorem blockBody_breaks (column : Nat) (hcs : ∀ c ∈ cs, isBreak c = true)
    (hs : ∀ c ∈ s.head?, isBreak c = false) :
    blockBody column true (cs ++ s) =
      cs ++ if s.isEmpty then [] else margin column ++ blockBody column false s := by
  induction cs with
  | nil =>
    cases s with
    | nil => rfl
    | cons c s => simp [blockBody, hs c rfl]
  | cons c cs ih =>
    simp [blockBody, hcs c List.mem_cons_self, ih fun c hc => hcs c (List.mem_cons_of_mem _ hc)]

theorem endPlace_append (hs : s ≠ []) (t : List Char) : endPlace (t ++ s) = endPlace s := by
  simp [endPlace, List.getLast?_append_of_ne_nil t hs]

theorem endPlace_of_isBreak (hcs : ∀ c ∈ cs, isBreak c = true) (hsome : cs ≠ []) (t : List Char) :
    endPlace (t ++ cs) = .fresh := by
  rw [endPlace_append hsome, endPlace, List.getLast?_eq_some_getLast hsome]
  simp [hcs _ (List.getLast_mem hsome)]

theorem length_le_blockBody (column : Nat) (broken : Bool) (cs : List Char) :
    cs.length ≤ (blockBody column broken cs).length := by
  induction cs generalizing broken with
  | nil => exact Nat.zero_le _
  | cons c cs ih =>
    have hbroken := ih true
    have hwhole := ih false
    rw [blockBody]
    split <;> simp only [List.length_append, List.length_cons] <;> omega

/-- A line with the line breaks behind it, and the lines after these. -/
theorem exists_lines (hsome : cs ≠ []) (hhead : ∀ c ∈ cs.head?, isBreak c = false) :
    (∀ c ∈ cs, isBreak c = false) ∨ ∃ line d ds rest, cs = line ++ d :: (ds ++ rest) ∧
      line ≠ [] ∧ (∀ c ∈ line, isBreak c = false) ∧ (∀ c ∈ d :: ds, isBreak c = true) ∧
      ∀ c ∈ rest.head?, isBreak c = false := by
  obtain ⟨line, behind, rfl, hline, hbehind⟩ := exists_run (!isBreak ·) cs
  simp only [Bool.not_eq_true', Bool.not_eq_false'] at hline hbehind
  cases behind with
  | nil => exact .inl (by simpa using hline)
  | cons d t =>
    obtain ⟨ds, rest, rfl, hbreaks, hrest⟩ := exists_run isBreak t
    have hd : isBreak d = true := hbehind d rfl
    refine .inr ⟨line, d, ds, rest, rfl, ?_, hline, List.forall_mem_cons.mpr ⟨hd, hbreaks⟩, hrest⟩
    rintro rfl
    exact Bool.false_ne_true ((hhead d rfl).symm.trans hd)

theorem endingOf_line (hline : ∀ c ∈ cs, isBreak c = false) (hsome : cs ≠ []) :
    endingOf cs = .strip ∧ endPlace cs = .ended := by
  have hlast := hline _ (List.getLast_mem hsome)
  rw [← List.dropLast_append_getLast hsome, endingOf_append (by simp) (by simpa using hlast),
    endPlace_append (by simp)]
  simp [endingOf, endPlace, hlast]

theorem endingOf_two (t : List Char) (b a : Char) : endingOf (t ++ [b, a]) =
    if !isBreak a then .strip else if isBreak b then .keep else .clip := by
  simp [endingOf]

theorem endingOf_breaks {line : List Char} (hline : ∀ c ∈ line, isBreak c = false)
    (hsome : line ≠ []) (hbreaks : ∀ c ∈ d :: cs, isBreak c = true) :
    endingOf (line ++ d :: cs) = if cs.isEmpty then .clip else .keep := by
  cases cs with
  | nil =>
    obtain ⟨t, b, rfl⟩ := exists_last hsome
    have hb := hline b (by simp)
    rw [List.append_assoc, List.singleton_append, endingOf_two]
    simp [hb, hbreaks d]
  | cons e cs =>
    obtain ⟨u, a, hu⟩ := exists_last (List.cons_ne_nil e cs)
    obtain ⟨v, b, hv⟩ := exists_last (List.cons_ne_nil d u)
    have hwhole : d :: e :: cs = v ++ [b, a] := by
      rw [hu, ← List.cons_append, hv]
      simp
    have ha := hbreaks a (by simp [hwhole])
    have hb := hbreaks b (by simp [hwhole])
    rw [hwhole, ← List.append_assoc, endingOf_two]
    simp [ha, hb]

theorem AtKey.isBreak (hr : AtKey r) : ∀ c ∈ r.head?, isBreak c = false := fun c hc =>
  isBreak_of_not_isGap (isGap_of_startsToken (hr.startsToken c hc))

/-- The last line of a text without a line break at its end. -/
theorem takeLines_last (hline : ∀ c ∈ cs, isBreak c = false) (hsome : cs ≠ []) (hr : AtKey r)
    (hcolumn : column < indent)
    (hplace : place.text = blockBody indent false cs ++ ((endPlace cs).lead column ++ r))
    (hright : place.column = indent) (fuel : Nat) (done : List Char) (blank : Bool)
    (pending breaks : List Char) :
    ∃ place', takeLines true indent (endingOf cs) (fuel + 2) done blank pending breaks place =
      some (done ++ pending ++ breaks ++ cs, place') ∧ place'.text = r ∧ place'.column = column := by
  obtain ⟨hending, hend⟩ := endingOf_line hline hsome
  have hbody := blockBody_line indent hline []
  rw [List.append_nil] at hbody
  have hplace' : place.text = cs ++ '\n' :: (margin column ++ r) := by
    simp [hplace, hbody, hend, Place.lead, blockBody]
  have hnewline : ∀ c ∈ ['\n'], isBreak c = true ∧ c ≠ '\r' ∧ keptBreak c = c :=
    List.forall_mem_singleton.mpr (by decide)
  obtain ⟨blank', place', hstep, htext', hcolumn'⟩ := takeLines_step hline hnewline hr.isBreak
    (.inr ⟨hcolumn, hr⟩) hplace' hright (endingOf cs) (fuel + 1) done blank pending breaks
  refine ⟨place', ?_, htext', hcolumn'⟩
  rw [hstep, takeLines_end (by omega), hending]
  simp

/-- The last line of a text with the line breaks at its end. -/
theorem takeLines_breaks {line : List Char} (hshown : ∀ c ∈ d :: cs, isShown c = true)
    (hbreaks : ∀ c ∈ d :: cs, isBreak c = true) (hline : ∀ c ∈ line, isBreak c = false)
    (hsome : line ≠ []) (hr : AtKey r) (hcolumn : column < indent)
    (hplace : place.text = line ++ d :: (cs ++ (margin column ++ r)))
    (hright : place.column = indent) (fuel : Nat) (done : List Char) (blank : Bool)
    (pending breaks : List Char) :
    ∃ place', takeLines true indent (endingOf (line ++ d :: cs)) (fuel + 2) done blank pending breaks
      place = some (done ++ pending ++ breaks ++ (line ++ d :: cs), place') ∧ place'.text = r ∧
        place'.column = column := by
  obtain ⟨blank', place', hstep, htext', hcolumn'⟩ := takeLines_step hline
    (kept_of_isShown hshown hbreaks) hr.isBreak (.inr ⟨hcolumn, hr⟩) hplace hright
    (endingOf (line ++ d :: cs)) (fuel + 1) done blank pending breaks
  have hending := endingOf_breaks hline hsome hbreaks
  refine ⟨place', ?_, htext', hcolumn'⟩
  rw [hstep, takeLines_end (by omega), hending]
  cases cs <;> simp

/-- The lines of a text are taken one after another. -/
theorem takeLines_body (hshown : ∀ c ∈ cs, isShown c = true) (hsome : cs ≠ [])
    (hhead : ∀ c ∈ cs.head?, isBreak c = false) (hr : AtKey r) (hcolumn : column < indent)
    (hplace : place.text = blockBody indent false cs ++ ((endPlace cs).lead column ++ r))
    (hright : place.column = indent) (hfuel : cs.length < fuel) (done : List Char) (blank : Bool)
    (pending breaks : List Char) :
    ∃ place', takeLines true indent (endingOf cs) fuel done blank pending breaks place =
      some (done ++ pending ++ breaks ++ cs, place') ∧ place'.text = r ∧ place'.column = column := by
  induction fuel generalizing cs place done blank pending breaks with
  | zero => exact absurd hfuel (Nat.not_lt_zero _)
  | succ fuel ih =>
    have hlength := List.length_pos_of_ne_nil hsome
    obtain ⟨fuel, rfl⟩ : ∃ f, fuel = f + 1 := ⟨fuel - 1, by omega⟩
    obtain hline | ⟨line, d, ds, rest, rfl, hsome', hline, hbreaks, hrest⟩ :=
      exists_lines hsome hhead
    · exact takeLines_last hline hsome hr hcolumn hplace hright fuel done blank pending breaks
    · have hshown' : ∀ c ∈ d :: ds, isShown c = true := fun c hc => hshown c (by
        rw [← List.cons_append]
        exact List.mem_append_right _ (List.mem_append_left _ hc))
      obtain ⟨hd, hds⟩ := List.forall_mem_cons.mp hbreaks
      rw [blockBody_line indent hline, blockBody, if_pos hd,
        blockBody_breaks indent hds hrest] at hplace
      cases rest with
      | nil =>
        have hend : endPlace (line ++ d :: (ds ++ [])) = .fresh := by
          rw [List.append_nil]
          exact endPlace_of_isBreak hbreaks (by simp) line
        rw [hend] at hplace
        rw [List.append_nil]
        exact takeLines_breaks hshown' hbreaks hline hsome' hr hcolumn
          (by simp [hplace, Place.lead]) hright fuel done blank pending breaks
      | cons e rest =>
        have hbehind : line ++ d :: (ds ++ e :: rest) = line ++ d :: ds ++ e :: rest := by simp
        have hplace' : place.text = line ++ d :: (ds ++ (margin indent ++
            (blockBody indent false (e :: rest) ++ ((endPlace (e :: rest)).lead column ++ r)))) := by
          rw [hplace, hbehind, endPlace_append (by simp)]
          simp
        have hfirst : ∀ c ∈ (blockBody indent false (e :: rest) ++
            ((endPlace (e :: rest)).lead column ++ r)).head?, isBreak c = false := by
          simp [blockBody, hrest e rfl]
        obtain ⟨blank', place', hstep, htext', hcolumn'⟩ := takeLines_step hline
          (kept_of_isShown hshown' hbreaks) hfirst (.inl rfl) hplace' hright (endingOf (e :: rest))
          (fuel + 1) done blank pending breaks
        obtain ⟨place'', hrest', htext'', hcolumn''⟩ := ih
          (fun c hc => hshown c (by rw [hbehind]; exact List.mem_append_right _ hc)) (by simp) hrest
          htext' hcolumn' (by simp only [List.length_append, List.length_cons] at hfuel ⊢; omega)
          (done ++ pending ++ breaks ++ line) blank' [d] ds
        refine ⟨place'', ?_, htext'', hcolumn''⟩
        rw [hbehind, endingOf_append (by simp) hrest, hstep, hrest']
        simp

/-! Whole blocks. -/

theorem skipIndent_none (hd : isGap d = false) (hplace : place.text = margin column ++ d :: s)
    (hcolumn : place.column = 0) (fuel : Nat) :
    skipIndent none (fuel + 1) [] 0 place = some ([], column, place.advance column) := by
  have hspaces : ∀ c ∈ margin column, (c == ' ') = true := fun c hc => by
    simpa using List.eq_of_mem_replicate hc
  simp only [isGap, isBlank, Bool.or_eq_false_iff, decide_eq_false_iff_not] at hd
  have htaken : ((place.text.take place.text.length).takeWhile (· == ' ')).length = column := by
    rw [List.take_length, hplace, List.takeWhile_append_of_pos hspaces]
    simp [hd.1.1, margin]
  have htext := Cursor.text_advance_margin hplace
  simp only [skipIndent, htaken, htext]
  simp [hd.1.2, hd.2, Cursor.advance, hcolumn]

theorem endLine_newline (hplace : place.text = '\n' :: s) :
    place.endLine = some place.nextLine := by
  have hskip : place.skipWhile isBlank = place :=
    Cursor.skipWhile_eq_self (by simp [hplace, isBlank])
  have hcomment : place.skipComment = place := by simp [Cursor.skipComment, hplace]
  simp [Cursor.endLine, hskip, hcomment, hplace, isBreak]

theorem endingOf_of_isBreak (hcs : ∀ c ∈ cs, isBreak c = true) (hsome : cs ≠ []) :
    endingOf cs = .keep := by
  cases h : cs.reverse with
  | nil => exact absurd (List.reverse_eq_nil_iff.mp h) hsome
  | cons a t =>
    have hmem : ∀ c ∈ a :: t, isBreak c = true := fun c hc => hcs c (by
      rw [← List.mem_reverse, h]
      exact hc)
    cases t with
    | nil => simp [endingOf, h, hmem a]
    | cons b t => simp [endingOf, h, hmem a, hmem b]

/-- The lines of a block from its first line on. -/
theorem takeLines_block (hshown : ∀ c ∈ cs, isShown c = true) (hsome : cs ≠ []) (hr : AtKey r)
    (hcolumn : column < indent) (hplace : place.text =
      blockBody indent true cs ++ ((endPlace cs).lead column ++ r)) (hstart : place.column = 0) :
    ∃ breaks widest place' place'',
      skipIndent (some indent) (place.text.length + 1) [] 0 place = some (breaks, widest, place') ∧
        takeLines true indent (endingOf cs) (place'.text.length + 1) [] false [] breaks place' =
          some (cs, place'') ∧ place''.text = r ∧ place''.column = column := by
  obtain ⟨ds, rest, rfl, hbreaks, hrest⟩ := exists_run isBreak cs
  have hkept := kept_of_isShown (fun c hc => hshown c (List.mem_append_left _ hc)) hbreaks
  rw [blockBody_breaks indent hbreaks hrest] at hplace
  cases rest with
  | nil =>
    rw [List.append_nil] at hsome
    have hend := endPlace_of_isBreak hbreaks hsome []
    rw [List.nil_append] at hend
    have hplace' : place.text = ds ++ (margin column ++ r) := by
      simp [hplace, hend, Place.lead]
    obtain ⟨widest, place', hskip, htext', hcolumn'⟩ := skipIndent_start hkept hr.isBreak
      (.inr ⟨hcolumn, hr⟩) hplace' hstart
    refine ⟨_, widest, place', place', hskip, ?_, htext', hcolumn'⟩
    rw [takeLines_end (by omega), List.append_nil, endingOf_of_isBreak hbreaks hsome]
    simp
  | cons e rest =>
    have hplace' : place.text = ds ++ (margin indent ++
        (blockBody indent false (e :: rest) ++ ((endPlace (e :: rest)).lead column ++ r))) := by
      rw [hplace, endPlace_append (by simp)]
      simp
    have hfirst : ∀ c ∈ (blockBody indent false (e :: rest) ++
        ((endPlace (e :: rest)).lead column ++ r)).head?, isBreak c = false := by
      simp [blockBody, hrest e rfl]
    obtain ⟨widest, place', hskip, htext', hcolumn'⟩ := skipIndent_start hkept hfirst (.inl rfl)
      hplace' hstart
    have hroom : (e :: rest).length < place'.text.length + 1 := by
      have hlength := length_le_blockBody indent false (e :: rest)
      rw [htext', List.length_append]
      omega
    obtain ⟨place'', hread, htext'', hcolumn''⟩ := takeLines_body
      (fun c hc => hshown c (List.mem_append_right _ hc)) (by simp) hrest hr hcolumn htext' hcolumn'
      hroom [] false [] ds
    refine ⟨_, widest, place', place'', hskip, ?_, htext'', hcolumn''⟩
    rw [endingOf_append (by simp) hrest, hread]
    simp

/-- A text is read back from its block, the sign taken off. -/
theorem takeBlock_text {c : Nat} (hshown : ∀ c ∈ cs, isShown c = true) (hsome : cs ≠ [])
    (hr : AtKey r) (hcolumn : column ≤ c) (hplace : place.text = blockMarks cs ++
      '\n' :: (blockBody (c + 2) true cs ++ ((endPlace cs).lead column ++ r))) :
    ∃ place', takeBlock true (some c) place = some (cs, place') ∧ place'.text = r ∧
      place'.column = column := by
  have htext := Cursor.text_advance hplace
  have hnext := Cursor.text_nextLine htext (by decide)
  have hstart := Cursor.column_nextLine htext
  have hmarks := takeMarks_blockMarks cs
    (blockBody (c + 2) true cs ++ ((endPlace cs).lead column ++ r))
  rw [← hplace] at hmarks
  have hmax : max (max (c + 2) (c + 1)) 1 = c + 2 := by omega
  simp only [takeBlock, hmarks, Option.bind_eq_bind, Option.bind_some, endLine_newline htext]
  cases hedge : cs.head?.any isEdge with
  | true =>
    obtain ⟨breaks, widest, place', place'', hskip, hread, htext', hcolumn'⟩ :=
      takeLines_block hshown hsome hr (by omega : column < c + 2) hnext hstart
    refine ⟨place'', ?_, htext', hcolumn'⟩
    simp [hskip, hread]
  | false =>
    cases cs with
    | nil => exact absurd rfl hsome
    | cons d cs =>
      simp only [List.head?_cons, Option.any_some, isEdge, Bool.or_eq_false_iff,
        decide_eq_false_iff_not] at hedge
      have hgap := isGap_of_isShown (hshown d List.mem_cons_self) hedge.1 hedge.2
      have hplace' : (place.advance (blockMarks (d :: cs)).length).nextLine.text = margin (c + 2) ++
          (blockBody (c + 2) false (d :: cs) ++ ((endPlace (d :: cs)).lead column ++ r)) := by
        simp [hnext, blockBody, hedge.2]
      have hbegin : blockBody (c + 2) false (d :: cs) ++ ((endPlace (d :: cs)).lead column ++ r) =
          d :: (blockBody (c + 2) false cs ++ ((endPlace (d :: cs)).lead column ++ r)) := by
        rw [blockBody, if_neg (by simp [hedge.2])]
        rfl
      have hskip := skipIndent_none hgap (hplace'.trans (congrArg _ hbegin)) hstart
        (place.advance (blockMarks (d :: cs)).length).nextLine.text.length
      have hbody := Cursor.text_advance_margin hplace'
      have hroom : (d :: cs).length < ((place.advance (blockMarks (d :: cs)).length).nextLine.advance
          (c + 2)).text.length + 1 := by
        have hlength := length_le_blockBody (c + 2) false (d :: cs)
        rw [hbody, List.length_append]
        omega
      obtain ⟨place', hread, htext', hcolumn'⟩ := takeLines_body hshown hsome (by simp [hedge.2]) hr
        (by omega : column < c + 2) hbody (by rw [Cursor.column_advance, hstart, Nat.zero_add]) hroom
        [] false [] []
      refine ⟨place', ?_, htext', hcolumn'⟩
      simpa [hskip, hmax] using hread

/-- A block of lines is a token. -/
theorem Scanner.scansOn_block {tokens all : List Token} {columns : List Nat} {c : Nat}
    (hshown : ∀ c ∈ cs, isShown c = true) (hsome : cs ≠ []) (hr : AtKey r) (hcolumn : column ≤ c)
    (h : Scans r column (.scalar .literal (String.ofList cs) :: tokens) (c :: columns) all) :
    ScansOn ('|' :: (blockMarks cs ++
        '\n' :: (blockBody (c + 2) true cs ++ ((endPlace cs).lead column ++ r))))
      tokens (c :: columns) all := by
  refine scansOn_token (by decide) fun place htext hright => ?_
  obtain ⟨place', hread, htext', hcolumn'⟩ := takeBlock_text hshown hsome hr hcolumn
    (Cursor.text_advance_one htext)
  refine ⟨standing place' (.scalar .literal (String.ofList cs) :: tokens) (c :: columns) true, ?_,
    fun fuel hfuel => h place' fuel htext' hcolumn' ?_⟩
  · have hmark : place.atDocumentMark = false := by
      simp [Cursor.atDocumentMark, htext, documentMark]
    have hread' : takeBlock true (if (c : Int) < 0 then none else some c) (place.advance 1) =
        some (cs, place') := by
      rw [if_neg (by omega), hread]
    simp [takeToken, takeBlockText, dropPending, standing, flow, hmark, innermost, hread', emit]
  · simp only [List.length_append, List.length_cons] at hfuel
    omega

end HostVitals.Yaml
