import HostVitals.Yaml.Printer
import HostVitals.Yaml.Token

/-! How a scanner goes through the lines of a block table. Between two tokens it only has a place, the
tokens so far and the columns of the open blocks. -/
namespace HostVitals.Yaml

def isLetter (c : Char) : Bool := 'a' ≤ c && c ≤ 'z'

def AtKey (s : List Char) : Prop := ∀ c ∈ s.head?, isLetter c = true

def startsToken (c : Char) : Bool := !isGap c && c ≠ '#' && c ≠ '\uFEFF'

section Letters
variable {c d : Char} {s : List Char}

theorem ne_of_isLetter (hc : isLetter c = true) (hd : isLetter d = false) : c ≠ d := by
  rintro rfl
  exact Bool.false_ne_true (hd.symm.trans hc)

theorem startsToken_of_isLetter (hc : isLetter c = true) : startsToken c = true := by
  have hne {d : Char} (hd : isLetter d = false) : c ≠ d := ne_of_isLetter hc hd
  simp [startsToken, isGap, isBlank, isBreak, hne, isLetter]

theorem AtKey.startsToken (hs : AtKey s) : ∀ c ∈ s.head?, startsToken c = true :=
  fun c hc => startsToken_of_isLetter (hs c hc)

theorem isGap_of_startsToken (hc : startsToken c = true) : isGap c = false := by
  simp only [startsToken, Bool.and_eq_true, Bool.not_eq_true'] at hc
  exact hc.1.1

end Letters

namespace Cursor
variable {c : Cursor} {d : Char} {r : List Char} {keyAllowed : Bool} {fuel : Nat}

theorem advance_advance (c : Cursor) (m n : Nat) : (c.advance m).advance n = c.advance (m + n) := by
  simp [advance, Nat.add_assoc]

theorem advance_zero (c : Cursor) : c.advance 0 = c := rfl

theorem column_advance (c : Cursor) (n : Nat) : (c.advance n).column = c.column + n := rfl

theorem text_advance {s : List Char} (hc : c.text = s ++ r) : (c.advance s.length).text = r := by
  simp [advance, hc]

theorem text_advance_one (hc : c.text = d :: r) : (c.advance 1).text = r := by
  simp [advance, hc]

theorem text_advance_margin {column : Nat} (hc : c.text = margin column ++ r) :
    (c.advance column).text = r := by
  simp [advance, hc, margin]

theorem skipComment_of_startsToken (hc : ∀ d ∈ c.text.head?, startsToken d = true) :
    c.skipComment = c := by
  unfold skipComment
  split
  · next h => cases hc '#' (by rw [h]; rfl)
  · rfl

theorem skipWhile_eq_self {p : Char → Bool} (hc : ∀ d ∈ c.text.head?, p d = false) :
    c.skipWhile p = c := by
  have htaken : c.text.takeWhile p = [] := by
    cases h : c.text with
    | nil => rfl
    | cons d r => simp [hc d (by rw [h]; rfl)]
  simp [skipWhile, takeWhile, htaken, advance]

theorem skipWhile_append {p : Char → Bool} {s : List Char} (hs : ∀ d ∈ s, p d = true)
    (hr : ∀ d ∈ r.head?, p d = false) (hc : c.text = s ++ r) :
    c.skipWhile p = c.advance s.length := by
  have hrest : r.takeWhile p = [] := by
    cases r with
    | nil => rfl
    | cons d r => simp [hr d rfl]
  simp [skipWhile, takeWhile, hc, List.takeWhile_append_of_pos hs, hrest]

def isSkipped (flow keyAllowed : Bool) (c : Char) : Bool :=
  c = ' ' || ((flow || !keyAllowed) && c = '\t')

/-- A scanner goes on to the place where a token starts, past blanks. -/
theorem toToken_blanks {flow : Bool} {s : List Char} (hs : ∀ d ∈ s, isSkipped flow keyAllowed d = true)
    (hr : ∀ d ∈ r.head?, startsToken d = true) (hc : c.text = s ++ r) (fuel : Nat) :
    c.toToken flow (fuel + 1) keyAllowed = (c.advance s.length, keyAllowed) := by
  have hmark : ¬(c.index = 0 ∧ c.text.head? = some '\uFEFF') := by
    rintro ⟨-, h⟩
    rw [hc] at h
    cases s with
    | nil => cases hr _ h
    | cons d s =>
      have hd := hs d List.mem_cons_self
      rw [Option.some_inj.mp h] at hd
      revert hd
      cases flow <;> cases keyAllowed <;> decide
  have hstop : ∀ d ∈ r.head?, isSkipped flow keyAllowed d = false := by
    intro d hd
    have hgap := isGap_of_startsToken (hr d hd)
    simp only [isGap, isBlank, Bool.or_eq_false_iff, decide_eq_false_iff_not] at hgap
    simp [isSkipped, hgap.1]
  have hskip : (c.skipWhile fun d => d = ' ' || ((flow || !keyAllowed) && d = '\t')) =
      c.advance s.length :=
    skipWhile_append hs hstop hc
  have htext := text_advance hc
  have hcomment : (c.advance s.length).skipComment = c.advance s.length :=
    skipComment_of_startsToken (by rwa [htext])
  simp only [toToken, if_neg hmark, hskip, hcomment, htext]
  cases r with
  | nil => rfl
  | cons d r =>
    have hbreak := isGap_of_startsToken (hr d rfl)
    simp only [isGap, Bool.or_eq_false_iff] at hbreak
    simp [hbreak.2]

/-- A scanner stays where a token starts. -/
theorem toToken_of_startsToken (hc : ∀ d ∈ c.text.head?, startsToken d = true) (flow : Bool)
    (fuel : Nat) (keyAllowed : Bool) : c.toToken flow (fuel + 1) keyAllowed = (c, keyAllowed) :=
  toToken_blanks (s := []) (by simp) hc rfl fuel

theorem afterBreak_eq (hd : d ≠ '\r') (r : List Char) : afterBreak d r = r := by
  unfold afterBreak
  split
  · exact absurd rfl hd
  · rfl

theorem text_nextLine (hc : c.text = d :: r) (hd : d ≠ '\r') : c.nextLine.text = r := by
  rw [nextLine, hc]
  exact afterBreak_eq hd r

theorem column_nextLine (hc : c.text = d :: r) : c.nextLine.column = 0 := by
  rw [nextLine, hc]

/-- A scanner goes on to the next line, where a key may start. -/
theorem toToken_break (hc : c.text = '\n' :: r) (fuel : Nat) (keyAllowed : Bool) :
    c.toToken false (fuel + 1) keyAllowed = c.nextLine.toToken false fuel true := by
  have hmark : ¬(c.index = 0 ∧ c.text.head? = some '\uFEFF') := by simp [hc]
  have hskip : (c.skipWhile fun d => d = ' ' || ((false || !keyAllowed) && d = '\t')) = c :=
    skipWhile_eq_self (by simp [hc])
  have hcomment : c.skipComment = c := by simp [skipComment, hc]
  simp only [toToken, if_neg hmark, hskip, hcomment]
  simp [hc, isBreak]

/-- A scanner goes on to a key in the next line. -/
theorem toToken_newline (hr : AtKey r) {column : Nat} (hc : c.text = '\n' :: (margin column ++ r))
    (fuel : Nat) (keyAllowed : Bool) :
    c.toToken false (fuel + 2) keyAllowed = (c.nextLine.advance column, true) := by
  have hspaces : ∀ d ∈ margin column, isSkipped false true d = true := by
    simp [margin, isSkipped]
  rw [toToken_break hc, toToken_blanks hspaces hr.startsToken (text_nextLine hc (by decide))]
  simp [margin]

end Cursor

namespace Scanner
variable {s s' t : Scanner} {place : Cursor} {tokens all : List Token} {columns : List Nat}
  {column c fuel : Nat} {keyAllowed : Bool} {text r : List Char}

def arrive (s : Scanner) : Option Scanner := do
  let (c, keyAllowed) := s.place.toToken s.flow (s.place.text.length + 1) s.keyAllowed
  let s ← { s with place := c, keyAllowed }.dropStale
  return s.closeTo (c.column : Int)

def goOn (fuel : Nat) (s : Scanner) : Option (List Token) :=
  match s.place.text with
  | [] => ((s.closeTo (-1)).dropPending).map fun s => s.tokens.reverse
  | d :: r => (s.takeToken d r).bind (takeTokens fuel)

@[simp] theorem closeBlocks_place (column : Int) (fuel : Nat) (s : Scanner) :
    (s.closeBlocks column fuel).place = s.place := by
  induction fuel generalizing s with
  | zero => rfl
  | succ fuel ih =>
    rw [closeBlocks]
    split
    · rfl
    · rw [ih]
      rfl

theorem dropStale_place (h : s.dropStale = some s') : s'.place = s.place := by
  unfold dropStale at h
  simp only [Option.bind_eq_bind, Option.bind_eq_some_iff] at h
  obtain ⟨_, -, h⟩ := h
  cases h
  rfl

theorem takeTokens_succ (fuel : Nat) (s : Scanner) :
    takeTokens (fuel + 1) s = s.arrive.bind (goOn fuel) := by
  rw [takeTokens, arrive]
  simp only [Option.bind_eq_bind, Option.bind_assoc]
  refine Option.bind_congr fun s' hs' => ?_
  have hplace := dropStale_place hs'
  simp only [pure, Option.bind_some, goOn, closeTo, closeBlocks_place, hplace]
  cases (s.place.toToken s.flow (s.place.text.length + 1) s.keyAllowed).1.text with
  | nil =>
    rw [Option.map_eq_bind]
    rfl
  | cons d r => rfl

/-! Between two tokens of a block. -/

def innermost : List Nat → Int
  | [] => -1
  | c :: _ => c

def outerOf : List Nat → List Int
  | [] => []
  | _ :: columns => innermost columns :: outerOf columns

def standing (place : Cursor) (tokens : List Token) (columns : List Nat) (keyAllowed : Bool) :
    Scanner :=
  { place, tokens, indent := innermost columns, outer := outerOf columns, keyAllowed }

theorem arrive_standing {c : Cursor} {allowed : Bool}
    (hc : place.toToken false (place.text.length + 1) keyAllowed = (c, allowed)) :
    (standing place tokens columns keyAllowed).arrive =
      some ((standing c tokens columns allowed).closeTo (c.column : Int)) := by
  have hflow : (standing place tokens columns keyAllowed).flow = false := rfl
  rw [arrive, hflow]
  simp only [standing] at hc ⊢
  rw [hc]
  rfl

theorem closeTo_eq_self {column : Int} (h : innermost columns ≤ column) :
    (standing place tokens columns keyAllowed).closeTo column =
      standing place tokens columns keyAllowed := by
  rw [closeTo, closeBlocks]
  exact if_pos (.inr h)

theorem closeTo_of_lt {column : Int} {c : Nat} (h : column < c) :
    (standing place tokens (c :: columns) keyAllowed).closeTo column =
      (standing place (.closeBlock :: tokens) columns keyAllowed).closeTo column := by
  have hopen : ¬((standing place tokens (c :: columns) keyAllowed).flow ∨
      (standing place tokens (c :: columns) keyAllowed).indent ≤ column) := by
    rintro (hflow | hle)
    · cases hflow
    · exact Int.not_le.mpr h hle
  rw [closeTo, closeBlocks, if_neg hopen]
  rfl

/-- From a text at a column a scanner comes to the end with these tokens. -/
def Scans (text : List Char) (column : Nat) (tokens : List Token) (columns : List Nat)
    (all : List Token) : Prop :=
  ∀ (place : Cursor) (fuel : Nat), place.text = text → place.column = column → text.length < fuel →
    takeTokens fuel (standing place tokens columns true) = some all

def ScansOn (text : List Char) (tokens : List Token) (columns : List Nat) (all : List Token) :
    Prop :=
  ∀ (place : Cursor) (fuel : Nat), place.text = text → innermost columns < place.column →
    text.length < fuel → takeTokens fuel (standing place tokens columns false) = some all

/-- At the end the outermost block is closed. -/
theorem scans_end (column : Nat) (tokens : List Token) :
    Scans [] column tokens [0] (.closeBlock :: tokens).reverse := by
  intro place fuel htext hcolumn hfuel
  obtain ⟨fuel, rfl⟩ := Nat.exists_eq_succ_of_ne_zero (Nat.ne_of_gt hfuel)
  have hstay := Cursor.toToken_of_startsToken (c := place) (by simp [htext]) false place.text.length
    true
  rw [takeTokens_succ, arrive_standing hstay,
    closeTo_eq_self (Int.natCast_nonneg place.column : innermost [0] ≤ _)]
  simp only [Option.bind_some, goOn, standing, htext]
  rfl

/-- A key or the end left of a block closes it. -/
theorem scans_close (hr : AtKey r) (hc : column < c)
    (h : Scans r column (.closeBlock :: tokens) columns all) :
    Scans r column tokens (c :: columns) all := by
  intro place fuel htext hcolumn hfuel
  obtain ⟨fuel, rfl⟩ := Nat.exists_eq_succ_of_ne_zero (Nat.ne_of_gt (Nat.zero_lt_of_lt hfuel))
  have hstay := Cursor.toToken_of_startsToken (c := place) (by rw [htext]; exact hr.startsToken) false
    place.text.length true
  have hlt : (place.column : Int) < c := by omega
  rw [← h place _ htext hcolumn hfuel, takeTokens_succ, takeTokens_succ, arrive_standing hstay,
    arrive_standing hstay, closeTo_of_lt hlt]

/-- Behind a line break the next line follows. -/
theorem takeTokens_newline (hr : AtKey r) (h : Scans r column tokens columns all)
    (htext : place.text = '\n' :: (margin column ++ r)) (hfuel : r.length < fuel)
    (keyAllowed : Bool) :
    takeTokens fuel (standing place tokens columns keyAllowed) = some all := by
  obtain ⟨fuel, rfl⟩ := Nat.exists_eq_succ_of_ne_zero (Nat.ne_of_gt (Nat.zero_lt_of_lt hfuel))
  have hnext := Cursor.text_nextLine htext (by decide)
  have hline := Cursor.column_nextLine htext
  have hthere := Cursor.text_advance_margin hnext
  have hmove : place.toToken false (place.text.length + 1) keyAllowed =
      (place.nextLine.advance column, true) := by
    rw [htext]
    exact Cursor.toToken_newline hr htext _ _
  have hstay := Cursor.toToken_of_startsToken (c := place.nextLine.advance column)
    (by rw [hthere]; exact hr.startsToken) false (place.nextLine.advance column).text.length true
  have hread := h (place.nextLine.advance column) (fuel + 1) hthere
    (by simp [Cursor.advance, hline]) hfuel
  rw [takeTokens_succ, arrive_standing hstay] at hread
  rw [takeTokens_succ, arrive_standing hmove, hread]

theorem scansOn_newline (hr : AtKey r) (h : Scans r column tokens columns all) :
    ScansOn ('\n' :: (margin column ++ r)) tokens columns all := by
  intro place fuel htext hcolumn hfuel
  refine takeTokens_newline hr h htext ?_ false
  simp only [List.length_cons, List.length_append] at hfuel
  omega

/-- Behind a colon a value follows on the same line. -/
theorem scansOn_blank {d : Char} (hd : startsToken d = true)
    (h : ScansOn (d :: r) tokens columns all) : ScansOn (' ' :: d :: r) tokens columns all := by
  intro place fuel htext hcolumn hfuel
  obtain ⟨fuel, rfl⟩ := Nat.exists_eq_succ_of_ne_zero (Nat.ne_of_gt (Nat.zero_lt_of_lt hfuel))
  have hthere := Cursor.text_advance_one htext
  have hmove : place.toToken false (place.text.length + 1) false = (place.advance 1, false) :=
    Cursor.toToken_blanks (s := [' ']) (r := d :: r) (by simp [Cursor.isSkipped])
      (by simpa using hd) htext _
  have hstay := Cursor.toToken_of_startsToken (c := place.advance 1) (by simpa [hthere] using hd) false
    (place.advance 1).text.length false
  have hread := h (place.advance 1) (fuel + 1) hthere (by simp only [Cursor.advance]; omega)
    (by simp only [List.length_cons] at hfuel ⊢; omega)
  rw [takeTokens_succ, arrive_standing hstay] at hread
  rw [takeTokens_succ, arrive_standing hmove, hread]

/-- A token is taken where it starts. -/
theorem scansOn_token {d : Char} (hd : startsToken d = true)
    (h : ∀ place : Cursor, place.text = d :: r → innermost columns < place.column →
      ∃ t, (standing place tokens columns false).takeToken d r = some t ∧
        ∀ fuel, r.length < fuel → takeTokens fuel t = some all) :
    ScansOn (d :: r) tokens columns all := by
  intro place fuel htext hcolumn hfuel
  obtain ⟨fuel, rfl⟩ := Nat.exists_eq_succ_of_ne_zero (Nat.ne_of_gt (Nat.zero_lt_of_lt hfuel))
  have hstay := Cursor.toToken_of_startsToken (c := place) (by simpa [htext] using hd) false
    place.text.length false
  obtain ⟨t, ht, hrest⟩ := h place htext hcolumn
  have hplace : (standing place tokens columns false).place.text = d :: r := htext
  rw [takeTokens_succ, arrive_standing hstay, closeTo_eq_self (Int.le_of_lt hcolumn)]
  simp only [Option.bind_some, goOn, hplace, ht]
  exact hrest fuel (by simpa using hfuel)

/-! Keys. -/

structure IsWord (word : List Char) : Prop where
  head : ∃ d ds, word = d :: ds ∧ isLetter d = true
  chars : ∀ d ∈ word, isLetter d = true ∨ d = '_'
  short : word.length ≤ 1024

theorem not_atDocumentMark {d : Char} (hd : isLetter d = true) (htext : place.text = d :: r) :
    place.atDocumentMark = false := by
  rw [Cursor.atDocumentMark, htext, documentMark.eq_def]
  split
  · next h => exact absurd (List.cons.inj h).1 (ne_of_isLetter hd (by decide))
  · next h => exact absurd (List.cons.inj h).1 (ne_of_isLetter hd (by decide))
  · simp

theorem takeToken_letter {d : Char} (hd : isLetter d = true) (htext : s.place.text = d :: r) :
    s.takeToken d r = s.takePlainText := by
  have hne {e : Char} (he : isLetter e = false) : d ≠ e := ne_of_isLetter hd he
  have hsign : isSign d = false := by
    simp [isSign, hne, isLetter]
  have hplain : s.plainAhead d r = true := by
    simp [plainAhead, hsign, isBlank, hne, isLetter]
  simp [takeToken, not_atDocumentMark hd htext, hplain, hne, isLetter]

theorem isGap_of_wordChar {d : Char} (hd : isLetter d = true ∨ d = '_') : isGap d = false := by
  rcases hd with hd | rfl
  · exact isGap_of_startsToken (startsToken_of_isLetter hd)
  · decide

theorem plainWord_key {word : List Char} (hword : ∀ d ∈ word, isLetter d = true ∨ d = '_')
    (hr : gapAhead r = true) : plainWord false (word ++ ':' :: r) = some word := by
  induction word with
  | nil => simp [plainWord, hr, isGap, isBlank, isBreak]
  | cons d word ih =>
    have hd := hword d List.mem_cons_self
    have hcolon : d ≠ ':' := by
      rintro rfl
      revert hd
      decide
    rw [List.cons_append, plainWord, ih fun d hd => hword d (List.mem_cons_of_mem _ hd)]
    simp [isGap_of_wordChar hd, hcolon]

theorem takePlain_key {word : List Char} (hword : IsWord word) (hr : gapAhead r = true)
    (htext : place.text = word ++ ':' :: r) (indent fuel : Nat) :
    takePlain false indent (fuel + 1) [] {} place = some (word, false, place.advance word.length) := by
  obtain ⟨d, ds, rfl, hd⟩ := hword.head
  have hmark := not_atDocumentMark hd htext
  have hread := plainWord_key hword.chars hr
  have hcomment : (place.text.head? == some '#') = false := by
    rw [htext]
    simpa using ne_of_isLetter hd (by decide)
  have hrest : (place.advance (d :: ds).length).text = ':' :: r := by
    simp [Cursor.advance, htext]
  rw [takePlain, hmark, hcomment, htext, hread]
  simp only [Bool.or_self, Bool.false_eq_true, if_false, Option.bind_eq_bind, Option.bind_some, hrest]
  simp [isGap, isBlank, isBreak, Gap.text]

def behindKey (place : Cursor) (word : List Char) (tokens : List Token) (columns : List Nat) :
    Scanner :=
  { standing (place.advance word.length) (.scalar .plain (String.ofList word) :: tokens) columns
      false with
    pending := [some {
      position := tokens.length, line := place.line, index := place.index, column := place.column
      required := innermost columns == (place.column : Int) }] }

theorem takeToken_key {word : List Char} {d : Char} {ds : List Char} (hword : IsWord word)
    (hds : word ++ ':' :: r = d :: ds) (hr : gapAhead r = true)
    (htext : place.text = word ++ ':' :: r) :
    (standing place tokens columns true).takeToken d ds =
      some (behindKey place word tokens columns) := by
  obtain ⟨e, es, rfl, he⟩ := hword.head
  obtain ⟨rfl, rfl⟩ := List.cons.inj hds
  have hread := takePlain_key hword hr htext (innermost columns + 1).toNat place.text.length
  rw [takeToken_letter he htext, takePlainText]
  simp [notePending, dropPending, standing, flow, hread, behindKey, emit]

theorem arrive_behindKey {word : List Char} (hword : IsWord word)
    (htext : place.text = word ++ ':' :: r) (hcolumn : innermost columns ≤ place.column) :
    (behindKey place word tokens columns).arrive = some (behindKey place word tokens columns) := by
  have hrest := Cursor.text_advance htext
  have hstay := Cursor.toToken_of_startsToken (c := place.advance word.length)
    (by simp [hrest, startsToken, isGap, isBlank, isBreak]) false
    (place.advance word.length).text.length false
  have hshort := hword.short
  have hflow : (behindKey place word tokens columns).flow = false := rfl
  have hfresh : ¬place.index + 1024 < place.index + word.length := by omega
  have hstale : (behindKey place word tokens columns).dropStale =
      some (behindKey place word tokens columns) := by
    simp [dropStale, behindKey, standing, Cursor.advance, hfresh]
  have hright : innermost columns ≤ ((place.advance word.length).column : Int) := by
    simp only [Cursor.advance]
    omega
  rw [arrive, hflow, show (behindKey place word tokens columns).place = place.advance word.length from
    rfl, show (behindKey place word tokens columns).keyAllowed = false from rfl, hstay]
  simp only [Option.bind_eq_bind]
  rw [show ({ behindKey place word tokens columns with
      place := place.advance word.length, keyAllowed := false } : Scanner) =
    behindKey place word tokens columns from rfl, hstale, Option.bind_some, closeTo, closeBlocks,
    if_pos (.inr hright)]
  rfl

theorem takeColon_behindKey (place : Cursor) (word : List Char) (tokens : List Token)
    (columns : List Nat) :
    (behindKey place word tokens columns).takeColon = some (standing
      (place.advance (word.length + 1))
      (.value :: .scalar .plain (String.ofList word) :: .key ::
        (if (place.column : Int) ≤ innermost columns then tokens else .openBlockTable :: tokens))
      (if (place.column : Int) ≤ innermost columns then columns else place.column :: columns)
      false) := by
  have hlater : tokens.length + 1 - tokens.length = 1 := by omega
  have hlater' : tokens.length + 1 + 1 - tokens.length = 2 := by omega
  have hplace : (place.advance word.length).advance 1 = place.advance (word.length + 1) := by
    simp [Cursor.advance, Nat.add_assoc]
  by_cases hopen : (place.column : Int) ≤ innermost columns
  · simp [takeColon, behindKey, standing, emitBefore, openBlock, takeSign, emit, flow, hlater, hopen,
      hplace]
  · have hinner : innermost (place.column :: columns) = place.column := rfl
    simp only [if_neg hopen]
    simp [takeColon, behindKey, standing, emitBefore, openBlock, takeSign, emit, flow, hlater, hlater',
      hopen, hplace, hinner, outerOf]

theorem takeToken_colon (hr : gapAhead r = true)
    (htext : s.place.text = ':' :: r) : s.takeToken ':' r = s.takeColon := by
  have hmark : s.place.atDocumentMark = false := by
    simp [Cursor.atDocumentMark, htext, documentMark]
  simp [takeToken, hmark, hr]

/-- A key belongs to the table that is open at its column, or opens it. -/
theorem scans_key {word : List Char} (tokens : List Token) (columns : List Nat)
    (hword : IsWord word) (hr : gapAhead r = true) (hcolumn : innermost columns ≤ c)
    (h : ScansOn r (.value :: .scalar .plain (String.ofList word) :: .key ::
        (if (c : Int) ≤ innermost columns then tokens else .openBlockTable :: tokens))
      (if (c : Int) ≤ innermost columns then columns else c :: columns) all) :
    Scans (word ++ ':' :: r) c tokens columns all := by
  rintro place fuel htext rfl hfuel
  obtain ⟨d, ds, hds, hd⟩ := hword.head
  have hlength : 0 < word.length := by simp [hds]
  simp only [List.length_append, List.length_cons] at hfuel
  obtain ⟨fuel, rfl⟩ : ∃ f, fuel = f + 2 := ⟨fuel - 2, by omega⟩
  have htoken : word ++ ':' :: r = d :: (ds ++ ':' :: r) := by rw [hds, List.cons_append]
  have hstay := Cursor.toToken_of_startsToken (c := place)
    (by simpa [htext, htoken] using startsToken_of_isLetter hd) false place.text.length true
  have hfirst : (standing place tokens columns true).place.text = d :: (ds ++ ':' :: r) :=
    htext.trans htoken
  have hsecond : (behindKey place word tokens columns).place.text = ':' :: r := by
    simp [behindKey, standing, Cursor.advance, htext]
  have hinner : innermost (if (place.column : Int) ≤ innermost columns then columns
      else place.column :: columns) < ((place.advance (word.length + 1)).column : Int) := by
    simp only [Cursor.advance]
    split
    · omega
    · simp only [innermost]
      omega
  have hread := h (place.advance (word.length + 1)) fuel (by simp [Cursor.advance, htext]) hinner
    (by omega)
  rw [takeTokens_succ, arrive_standing hstay, closeTo_eq_self hcolumn, Option.bind_some, goOn,
    hfirst]
  simp only [takeToken_key hword htoken hr htext, Option.bind_some]
  rw [takeTokens_succ, arrive_behindKey hword htext hcolumn, Option.bind_some, goOn, hsecond]
  simp only [takeToken_colon hr hsecond,
    takeColon_behindKey, Option.bind_some, hread]

end Scanner
end HostVitals.Yaml
