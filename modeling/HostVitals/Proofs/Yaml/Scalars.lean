import HostVitals.Proofs.Text.Numerals
import HostVitals.Proofs.Yaml.Blocks
import HostVitals.Yaml.Reader

/-! Single values as they are written, and what the tokens that they are read as stand for. -/
namespace HostVitals.Yaml

open Text (ne_of_isDigit)

variable {cs r : List Char} {c column n limit : Nat} {tokens all : List Token} {columns : List Nat}
  {t : String} {ch : Char}

/-! Texts. -/

def styleOf (s : String) : Style :=
  if s.toList.contains '\n' then if blockFits s.toList then .literal else .double
  else if !Plain.isTaken s && plainFits s.toList then .plain
  else if singleFits s.toList then .single
  else .double

theorem textChars_eq (column : Nat) (s : String) : textChars column s =
    match styleOf s with
    | .literal => ('|' :: blockMarks s.toList ++ '\n' :: blockBody column true s.toList,
        endPlace s.toList)
    | .plain => (s.toList, .ended)
    | .single => ('\'' :: singleBody column false s.toList ++ ['\''], .ended)
    | _ => ('"' :: s.toList.flatMap doubleChar ++ ['"'], .ended) := by
  simp only [textChars, styleOf, ← endPlace.eq_def]
  split_ifs <;> rfl

theorem styleOf_ne_folded (s : String) : styleOf s ≠ .folded := by
  unfold styleOf
  split_ifs <;> nofun

theorem blockFits_of_styleOf (h : styleOf t = .literal) :
    t.toList ≠ [] ∧ ∀ c ∈ t.toList, isShown c = true := by
  unfold styleOf at h
  split_ifs at h with hseveral hblock
  simp only [blockFits, Bool.and_eq_true, List.all_eq_true] at hblock
  refine ⟨?_, hblock.1.1⟩
  intro h
  simp [h] at hseveral

theorem plainFits_of_styleOf (h : styleOf t = .plain) :
    Plain.isTaken t = false ∧ plainFits t.toList = true := by
  unfold styleOf at h
  split_ifs at h with hseveral hblock hplain
  simpa using hplain

theorem isSingle_of_styleOf (h : styleOf t = .single) : IsSingle t.toList := by
  unfold styleOf at h
  split_ifs at h with hseveral hblock hplain hsingle
  simp only [singleFits, Bool.and_eq_true, List.all_eq_true, Bool.not_eq_true'] at hsingle
  refine ⟨fun c hc => ⟨hsingle.1 c hc, ?_⟩, hsingle.2⟩
  rintro rfl
  simp [hc] at hseveral

theorem ne_nil_of_not_isTaken (ht : Plain.isTaken t = false) : t.toList ≠ [] := by
  intro h
  have hempty : t = "" := by simpa using h
  rw [hempty] at ht
  cases ht

theorem IsPlain.startsToken (hcs : IsPlain (ch :: cs)) : startsToken ch = true := by
  have hhead := hcs.head ch rfl
  have hgap := (hcs.chars ch List.mem_cons_self).resolve_left hhead.1
  have hmark : ch ≠ '\uFEFF' := by simpa using hcs.mark
  simp [HostVitals.Yaml.startsToken, hgap, hhead.2, hmark]

/-! Numbers. -/

theorem isGap_of_isDigit (hc : ch.isDigit = true) : isGap ch = false := by
  have hne {d : Char} (hd : d.isDigit = false) : ch ≠ d := ne_of_isDigit hc hd
  simp [isGap, isBlank, isBreak, hne]

theorem hasInnerMark_of_isDigit (hcs : ∀ c ∈ cs, c.isDigit = true) : hasInnerMark cs = false := by
  induction cs with
  | nil => rfl
  | cons c cs ih =>
    have hc := hcs c List.mem_cons_self
    have hcolon : c ≠ ':' := ne_of_isDigit hc (by decide)
    simp [hasInnerMark, hcolon, isGap_of_isDigit hc, ih fun c hc => hcs c (List.mem_cons_of_mem _ hc)]

theorem hasMarks_of_isDigit (hcs : ∀ c ∈ cs, c.isDigit = true) : hasMarks cs = false := by
  unfold hasMarks
  simp only [hasInnerMark_of_isDigit hcs, Bool.or_false]
  split
  · exact absurd (hcs '-' (by simp)) (by decide)
  · exact absurd (hcs '.' (by simp)) (by decide)
  · next c r _ _ =>
    have hne {d : Char} (hd : d.isDigit = false) : c ≠ d :=
      ne_of_isDigit (hcs c List.mem_cons_self) hd
    simp [hne]
  · rfl

theorem isPlain_of_isDigit (hcs : ∀ c ∈ cs, c.isDigit = true) (hsome : cs ≠ []) : IsPlain cs where
  chars c hc := .inr (isGap_of_isDigit (hcs c hc))
  head c hc :=
    have hdigit := hcs c (List.mem_of_head? hc)
    ⟨ne_of_isDigit hdigit (by decide), ne_of_isDigit hdigit (by decide)⟩
  last h := absurd (hcs _ (List.mem_of_getLast? h)) (by decide)
  marks := hasInnerMark_of_isDigit hcs
  ne_nil := hsome
  start := hasMarks_of_isDigit hcs
  mark h := absurd (hcs _ (List.mem_of_head? h)) (by decide)

theorem natural?_toString (hn : n ≤ limit) : Plain.natural? limit (toString (n : Int)) = some n := by
  obtain ⟨c, r, hcr, hc⟩ := Text.exists_digit_toDigits n
  have hplus : c ≠ '+' := ne_of_isDigit hc (by decide)
  have hminus : c ≠ '-' := ne_of_isDigit hc (by decide)
  have hzero : c = '0' → r = [] := by
    intro hc
    have hlength := Text.length_toDigits_of_head? (b := 10) (n := n) (by decide) (by decide)
      (by rw [hcr, hc]; rfl)
    simpa [hcr] using hlength
  have hread := Text.readNatural_toDigits hn
  rw [hcr] at hread
  rw [Plain.natural?, Text.toList_toString_natCast, hcr]
  by_cases hc0 : c = '0'
  · obtain rfl := hzero hc0
    rw [hc0] at hread ⊢
    simp [Plain.startsWithSign, Plain.isPadded, hread, Except.toOption]
  · simp [Plain.startsWithSign, Plain.isPadded, hread, Except.toOption, hplus, hminus, hc0]

/-! All single values. -/

def scalarOf : Document → Style × String
  | .null => (.plain, "null")
  | .bool b => (.plain, if b then "true" else "false")
  | .int i => (.plain, toString i)
  | .text t => (styleOf t, t)
  | _ => (.plain, "")

namespace Scanner

theorem scansOn_word (hcs : IsPlain cs) (hr : AtKey r) (hcolumn : column ≤ c)
    (h : Scans r column (.scalar .plain (String.ofList cs) :: tokens) (c :: columns) all) :
    ScansOn (' ' :: (cs ++ (Place.ended.lead column ++ r))) tokens (c :: columns) all := by
  have htoken := scansOn_plain hcs hr hcolumn h
  cases cs with
  | nil => exact absurd rfl hcs.ne_nil
  | cons d cs => simpa [Place.lead] using scansOn_blank hcs.startsToken htoken

/-- A text behind a colon is a token of its own. -/
theorem scansOn_text (t : String) (hr : AtKey r) (hcolumn : column ≤ c)
    (h : Scans r column (.scalar (styleOf t) t :: tokens) (c :: columns) all) :
    ScansOn (' ' :: ((textChars (c + 2) t).1 ++ ((textChars (c + 2) t).2.lead column ++ r))) tokens
      (c :: columns) all := by
  have ht : String.ofList t.toList = t := String.ofList_toList
  rw [textChars_eq]
  rw [← ht] at h
  cases hstyle : styleOf t with
  | literal =>
    obtain ⟨hsome, hshown⟩ := blockFits_of_styleOf hstyle
    rw [ht, hstyle, ← ht] at h
    have htoken := scansOn_block hshown hsome hr hcolumn h
    simpa using scansOn_blank (by decide) htoken
  | plain =>
    obtain ⟨htaken, hfits⟩ := plainFits_of_styleOf hstyle
    rw [ht, hstyle, ← ht] at h
    exact scansOn_word (isPlain_of_plainFits (ne_nil_of_not_isTaken htaken) hfits) hr hcolumn h
  | single =>
    rw [ht, hstyle, ← ht] at h
    have htoken := scansOn_single (isSingle_of_styleOf hstyle) (Nat.succ_pos (c + 1)) hr h
    simpa [Place.lead] using scansOn_blank (by decide) htoken
  | double =>
    rw [ht, hstyle, ← ht] at h
    have htoken := scansOn_double t.toList hr h
    simpa [Place.lead] using scansOn_blank (by decide) htoken
  | folded => exact absurd hstyle (styleOf_ne_folded t)

/-- A value whose text is written as it is, without quotes. -/
theorem scansOn_plainScalar (t : String) (ht : IsPlain t.toList) (hr : AtKey r)
    (hcolumn : column ≤ c)
    (h : Scans r column (.scalar .plain t :: tokens) (c :: columns) all) :
    ScansOn (' ' :: (t.toList ++ (Place.ended.lead column ++ r))) tokens (c :: columns) all :=
  scansOn_word ht hr hcolumn (by rwa [String.ofList_toList])

end Scanner
end HostVitals.Yaml
