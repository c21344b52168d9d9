import HostVitals.Proofs.Yaml.Characters
import HostVitals.Proofs.Yaml.PlainTexts
import HostVitals.Yaml.Reader
import Mathlib.Data.List.Infix

/-! A text without marks is a single plain text, on however many lines it stands. It is no table and
not empty, so that nothing can be read from it as a record. -/
namespace HostVitals.Yaml

variable {s : List Char} {c : Char} {place : Cursor} {indent fuel : Nat}

structure IsProse (s : List Char) : Prop where
  chars : ∀ c ∈ s, c ≠ ':' ∧ c ≠ '#' ∧ c ≠ '\t' ∧ c ≠ '\r'
  marks : ∀ t, t <:+ s → documentMark t = false

def proseAhead (t : List Char) : Bool :=
  !documentMark t &&
    t.head?.all fun c => c ≠ ':' && c ≠ '#' && c ≠ '\t' && c ≠ '\r' && isAllowed c

theorem isProse_of_tails (h : s.tails.all proseAhead = true) : IsProse s ∧ AllAllowed s := by
  have hall (t : List Char) (ht : t <:+ s) : proseAhead t = true :=
    List.all_eq_true.mp h t ((List.mem_tails t s).mpr ht)
  have hchar (c : Char) (hc : c ∈ s) :
      (c ≠ ':' ∧ c ≠ '#' ∧ c ≠ '\t' ∧ c ≠ '\r') ∧ isAllowed c = true := by
    obtain ⟨u, r, hur⟩ := List.append_of_mem hc
    have hahead := hall (c :: r) ⟨u, hur.symm⟩
    simp only [proseAhead, List.head?_cons, Option.all_some, Bool.and_eq_true,
      decide_eq_true_eq] at hahead
    obtain ⟨-, ⟨⟨⟨hcolon, hnumber⟩, htab⟩, hreturn⟩, hallowed⟩ := hahead
    exact ⟨⟨hcolon, hnumber, htab, hreturn⟩, hallowed⟩
  refine ⟨⟨fun c hc => (hchar c hc).1, fun t ht => ?_⟩, fun c hc => (hchar c hc).2⟩
  have hahead := hall t ht
  simp only [proseAhead, Bool.and_eq_true, Bool.not_eq_true'] at hahead
  exact hahead.1

theorem IsProse.suffix {t : List Char} (hs : IsProse s) (ht : t <:+ s) : IsProse t where
  chars c hc := hs.chars c (ht.mem hc)
  marks u hu := hs.marks u (hu.trans ht)

theorem IsProse.not_atDocumentMark (hs : IsProse place.text) : place.atDocumentMark = false := by
  rw [Cursor.atDocumentMark, hs.marks _ (List.suffix_refl _), Bool.and_false]

theorem IsProse.plainWord (hs : IsProse s) :
    Yaml.plainWord false s = some (s.takeWhile (!isGap ·)) := by
  induction s with
  | nil => rfl
  | cons c s ih =>
    have hcolon : c ≠ ':' := (hs.chars c List.mem_cons_self).1
    rw [Yaml.plainWord, ih (hs.suffix (List.suffix_cons c s))]
    cases hgap : isGap c <;> simp [hcolon, hgap]

/-- A gap is read up to the next word. -/
theorem IsProse.readGap (hs : IsProse place.text) (hfuel : place.text.length < fuel) (indent : Nat)
    (gap : Gap) :
    ∃ (gap' : Gap) (next : Cursor), gap.read indent fuel place = some (gap', next) ∧
      next.text <:+ place.text ∧ ∀ d ∈ next.text.head?, isGap d = false := by
  induction fuel generalizing place gap with
  | zero => exact absurd hfuel (Nat.not_lt_zero _)
  | succ fuel ih =>
    cases htext : place.text with
    | nil =>
      exact ⟨gap, place, by rw [Gap.read, htext], htext ▸ List.suffix_refl _, by simp [htext]⟩
    | cons d r =>
      have hr : IsProse r := hs.suffix (htext ▸ List.suffix_cons d r)
      have hchar := hs.chars d (htext ▸ List.mem_cons_self)
      have hstep (gap : Gap) {next : Cursor} (hnext : next.text = r) :
          ∃ (gap' : Gap) (last : Cursor), gap.read indent fuel next = some (gap', last) ∧
            last.text <:+ d :: r ∧ ∀ d ∈ last.text.head?, isGap d = false := by
        obtain ⟨gap', last, hread, hsuffix, hhead⟩ := ih (hnext ▸ hr : IsProse next.text)
          (by rw [hnext]; simpa [htext] using hfuel) gap
        exact ⟨gap', last, hread, (hnext ▸ hsuffix).trans (List.suffix_cons d r), hhead⟩
      have hblank := Cursor.text_advance_one htext
      rw [Gap.read, htext]
      by_cases hd : isBlank d = true
      · by_cases hfirst : gap.first.isSome = true
        · simpa [hd, hfirst, hchar.2.2.1] using hstep gap hblank
        · simpa [hd, hfirst] using hstep { gap with blanks := gap.blanks ++ [d] } hblank
      · by_cases hbreak : isBreak d = true
        · simpa [hd, hbreak] using hstep (gap.addBreak d) (Cursor.text_nextLine htext hchar.2.2.2)
        · refine ⟨gap, place, by simp [hd, hbreak], htext ▸ List.suffix_refl _, ?_⟩
          simp [htext, isGap, hd, hbreak]

/-- A plain text goes on to the end. -/
theorem IsProse.takePlain (hs : IsProse place.text) (hfuel : place.text.length < fuel)
    (done : List Char) (gap : Gap) :
    ∃ (more : List Char) (newLine : Bool) (last : Cursor),
      takePlain false 0 fuel done gap place = some (done ++ more, newLine, last) ∧ last.text = [] ∧
        (more = [] → place.text.takeWhile (!isGap ·) = []) := by
  induction fuel generalizing place done gap with
  | zero => exact absurd hfuel (Nat.not_lt_zero _)
  | succ fuel ih =>
    generalize hword : place.text.takeWhile (!isGap ·) = word
    have hnumber : (place.text.head? == some '#') = false := by
      cases htext : place.text with
      | nil => rfl
      | cons c r => simpa using (hs.chars c (htext ▸ List.mem_cons_self)).2.1
    obtain ⟨start, gap', hstart, hsome⟩ : ∃ (start : List Char) (gap' : Gap),
        (if word.isEmpty then (done, gap) else (done ++ gap.text ++ word, {})) = (done ++ start, gap') ∧
          (start = [] → word = []) := by
      cases word with
      | nil => exact ⟨[], gap, by simp, fun _ => rfl⟩
      | cons c word => exact ⟨gap.text ++ c :: word, {}, by simp, by simp⟩
    have hsplit := List.takeWhile_append_dropWhile (p := (!isGap ·)) (l := place.text)
    rw [hword] at hsplit
    have hbehind := Cursor.text_advance hsplit.symm
    rw [Yaml.takePlain, hs.not_atDocumentMark, hnumber, hs.plainWord, hword]
    simp only [Bool.or_self, Bool.false_eq_true, if_false, Option.bind_eq_bind, Option.bind_some,
      hstart]
    cases hrest : place.text.dropWhile (!isGap ·) with
    | nil =>
      rw [hrest] at hbehind
      simp only [hbehind]
      exact ⟨start, _, _, rfl, hbehind, hsome⟩
    | cons d r =>
      have hd : isGap d = true := by
        have hhead := List.head?_dropWhile_not (!isGap ·) place.text
        simpa [hrest] using hhead
      have hsuffix : d :: r <:+ place.text := hrest ▸ List.dropWhile_suffix _
      rw [hrest] at hbehind
      obtain ⟨gap'', next, hread, hnext, hhead⟩ := IsProse.readGap
        (by rw [hbehind]; exact hs.suffix hsuffix : IsProse (place.advance word.length).text)
        (Nat.lt_add_one _) 0 gap'
      rw [hbehind] at hnext
      have hshorter : next.text.length < place.text.length := by
        refine Nat.lt_of_lt_of_le (Nat.lt_of_le_of_ne hnext.length_le fun hlength => ?_)
          hsuffix.length_le
        have hsame := hnext.eq_of_length hlength
        exact Bool.false_ne_true ((hhead d (by rw [hsame]; rfl)).symm.trans hd)
      obtain ⟨more, newLine, last, htake, hlast, -⟩ := ih
        (hs.suffix (hnext.trans hsuffix) : IsProse next.text) (by omega) (done ++ start) gap''
      refine ⟨start ++ more, newLine, last, ?_, hlast, ?_⟩
      · rw [← List.append_assoc, ← htake]
        rw [hbehind, List.length_cons] at hread
        simp [hbehind, hd, hread]
      · exact fun hmore => hsome (List.append_eq_nil_iff.mp hmore).1

namespace Scanner

def awaiting (place : Cursor) (tokens : List Token) (keyAllowed : Bool) (k : Option PendingKey) :
    Scanner :=
  { place, tokens, keyAllowed, pending := [k] }

theorem closeTo_awaiting (place : Cursor) (tokens : List Token) (keyAllowed : Bool)
    (k : Option PendingKey) {column : Int} (hcolumn : -1 ≤ column) :
    (awaiting place tokens keyAllowed k).closeTo column = awaiting place tokens keyAllowed k := by
  rw [closeTo, closeBlocks]
  exact if_pos (.inr hcolumn)

/-- At the end of a text a pending key that is not required is given up. -/
theorem takeTokens_end {k : PendingKey} (hplace : place.text = []) (hk : k.required = false)
    (tokens : List Token) (keyAllowed : Bool) (fuel : Nat) :
    takeTokens (fuel + 1) (awaiting place tokens keyAllowed (some k)) = some tokens.reverse := by
  have hstay := Cursor.toToken_of_startsToken (c := place) (by simp [hplace]) false place.text.length
    keyAllowed
  have harrive : ∃ p : Option PendingKey, (∀ k ∈ p, k.required = false) ∧
      (awaiting place tokens keyAllowed (some k)).arrive =
        some (awaiting place tokens keyAllowed p) := by
    have hflow : (awaiting place tokens keyAllowed (some k)).flow = false := rfl
    have hcolumn : (-1 : Int) ≤ place.column := by omega
    rw [arrive, hflow]
    simp only [awaiting] at hstay ⊢
    rw [hstay]
    by_cases hstale : k.line < place.line ∨ k.index + 1024 < place.index
    · refine ⟨none, by simp, ?_⟩
      have hclose := closeTo_awaiting place tokens keyAllowed none hcolumn
      simpa [dropStale, hstale, hk, awaiting] using hclose
    · refine ⟨some k, by simpa using hk, ?_⟩
      have hclose := closeTo_awaiting place tokens keyAllowed (some k) hcolumn
      simpa [dropStale, hstale, awaiting] using hclose
  obtain ⟨p, hp, harrive⟩ := harrive
  have hthere : (awaiting place tokens keyAllowed p).place.text = [] := hplace
  rw [takeTokens_succ, harrive, Option.bind_some, goOn, hthere]
  simp only [closeTo_awaiting place tokens keyAllowed p (Int.le_refl (-1))]
  cases p with
  | none => rfl
  | some k => simp [dropPending, awaiting, hp k rfl]

/-- A text that starts with a letter is its only token. -/
theorem takeTokens_prose (hs : IsProse (c :: s)) (hc : isLetter c = true)
    (htext : place.text = c :: s) (fuel : Nat) :
    ∃ t, t ≠ "" ∧ takeTokens (fuel + 2) (standing place [] [] true) = some [.scalar .plain t] := by
  have hstay := Cursor.toToken_of_startsToken (c := place)
    (by simpa [htext] using startsToken_of_isLetter hc) false place.text.length true
  obtain ⟨more, newLine, last, htake, hlast, hsome⟩ := IsProse.takePlain
    (htext ▸ hs : IsProse place.text) (Nat.lt_add_one _) [] {}
  have hfirst : isGap c = false := isGap_of_startsToken (startsToken_of_isLetter hc)
  have hmore : more ≠ [] := fun h => by simpa [htext, hfirst] using hsome h
  refine ⟨String.ofList more, fun h => hmore (by simpa using congrArg String.toList h), ?_⟩
  have hplace : (standing place [] [] true).place.text = c :: s := htext
  rw [takeTokens_succ, arrive_standing hstay, closeTo_eq_self (by simp only [innermost]; omega)]
  simp only [Option.bind_some, goOn, hplace, takeToken_letter hc hplace]
  have htoken : (standing place [] [] true).takePlainText = some (awaiting last
      [.scalar .plain (String.ofList more)] newLine (some {
        position := 0, line := place.line, index := place.index, column := place.column
        required := false })) := by
    simp [takePlainText, notePending, dropPending, standing, flow, innermost, emit, awaiting, outerOf,
      htake]
  rw [htoken, Option.bind_some, takeTokens_end hlast rfl]
  rfl

end Scanner

/-- Such a text is read as itself. -/
theorem read_prose (hs : IsProse (c :: s)) (hc : isLetter c = true) (hallowed : AllAllowed (c :: s)) :
    ∃ l t, read (c :: s) = some l ∧ t ≠ "" ∧
      l.rootShape = .scalar (Linked.scalarShape none .plain t) := by
  obtain ⟨t, ht, htokens⟩ := Scanner.takeTokens_prose hs hc
    (rfl : ({ text := c :: s } : Cursor).text = c :: s) s.length
  have hmark : (c :: s).head? ≠ some '\uFEFF' := by
    simpa using ne_of_isLetter hc (by decide)
  have htext : Token.ofText? (c :: s) = some [.scalar .plain t] := by
    have hall : (c :: s).all isAllowed = true := List.all_eq_true.mpr hallowed
    simp only [Token.ofText?, if_neg hmark, hall, if_true]
    exact htokens
  refine ⟨⟨some (.scalar none none .plain t), [], []⟩, t, ?_, ht, rfl⟩
  rw [read, htext]
  rfl

end HostVitals.Yaml
