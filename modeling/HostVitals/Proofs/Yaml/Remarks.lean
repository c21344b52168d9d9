import HostVitals.Proofs.Yaml.RoundTrip
import HostVitals.Text.Blank

/-! Lines that say nothing: comments and empty lines before a document change nothing of what is
read. -/
namespace HostVitals.Yaml

open Document (Shows Simple)

variable {place : Cursor} {line r : List Char} {ls : List (List Char)} {tokens all : List Token}
  {entries : List (String × Document)}

def IsRemark (line : List Char) : Prop :=
  (∀ c ∈ line.head?, c = '#') ∧ ∀ c ∈ line, isBreak c = false ∧ isAllowed c = true

theorem isRemark_iff {line : List Char} : IsRemark line ↔
    line.head?.all (· = '#') = true ∧ line.all (fun c => !isBreak c && isAllowed c) = true := by
  cases line <;> simp [IsRemark]

instance : DecidablePred IsRemark := fun _ => decidable_of_iff' _ isRemark_iff

def linesChars (ls : List (List Char)) : List Char := ls.flatMap (· ++ ['\n'])

/-- The lines of a text are the text, with its last line ended too. -/
theorem linesChars_splitNewlines (s : List Char) :
    linesChars (Text.splitNewlines s) = s ++ ['\n'] := by
  induction s with
  | nil => rfl
  | cons c s ih =>
    rw [Text.splitNewlines]
    split
    · next hc => rw [linesChars, List.flatMap_cons, ← linesChars, ih, hc]; rfl
    · cases hrest : Text.splitNewlines s with
      | nil =>
        rw [hrest] at ih
        simp [linesChars] at ih
      | cons line ls =>
        rw [hrest] at ih
        simpa [Text.consHead, linesChars] using ih

theorem allAllowed_linesChars (hls : ∀ line ∈ ls, IsRemark line) : AllAllowed (linesChars ls) := by
  intro c hc
  obtain ⟨line, hline, hc⟩ := List.mem_flatMap.mp hc
  rcases List.mem_append.mp hc with hc | hc
  · exact ((hls line hline).2 c hc).2
  · rw [List.mem_singleton.mp hc]
    decide

theorem not_mem_linesChars (hls : ∀ line ∈ ls, IsRemark line) : '\r' ∉ linesChars ls := by
  intro hreturn
  obtain ⟨line, hline, hc⟩ := List.mem_flatMap.mp hreturn
  rcases List.mem_append.mp hc with hc | hc
  · exact absurd ((hls line hline).2 _ hc).1 (by decide)
  · exact absurd (List.mem_singleton.mp hc) (by decide)

theorem length_le_linesChars (ls : List (List Char)) : ls.length ≤ (linesChars ls).length :=
  Text.length_le_flatMap fun _ _ => by simp

namespace Cursor

/-- A line that says nothing is passed over. -/
theorem toToken_remark (hline : IsRemark line) (htext : place.text = line ++ '\n' :: r) :
    ∃ next : Cursor, next.text = r ∧ next.column = 0 ∧ ∀ fuel,
      place.toToken false (fuel + 1) true = next.toToken false fuel true := by
  cases line with
  | nil =>
    exact ⟨place.nextLine, text_nextLine htext (by decide), column_nextLine htext,
      fun fuel => toToken_break htext fuel true⟩
  | cons c line =>
    obtain rfl : c = '#' := hline.1 c rfl
    have hbehind := text_advance htext
    have hmark : ¬(place.index = 0 ∧ place.text.head? = some '\uFEFF') := by simp [htext]
    have hstay : (place.skipWhile fun d => d = ' ' || ((false || !true) && d = '\t')) = place :=
      skipWhile_eq_self (by simp [htext])
    have hskip : place.skipComment = place.advance ('#' :: line).length := by
      have hrest := skipWhile_append (p := fun d => !isBreak d) (fun d hd => by
        simp [(hline.2 d hd).1]) (by simp [isBreak]) htext
      simpa [skipComment, htext] using hrest
    refine ⟨_, text_nextLine hbehind (by decide), column_nextLine hbehind, fun fuel => ?_⟩
    simp only [toToken, if_neg hmark, hstay, hskip, hbehind]
    rfl

theorem toToken_remarks (hls : ∀ line ∈ ls, IsRemark line) (hr : AtKey r)
    (htext : place.text = linesChars ls ++ r) (hcolumn : place.column = 0) {fuel : Nat}
    (hfuel : ls.length < fuel) :
    ∃ next : Cursor, place.toToken false fuel true = (next, true) ∧ next.text = r ∧
      next.column = 0 := by
  induction ls generalizing place fuel with
  | nil =>
    obtain ⟨fuel, rfl⟩ := Nat.exists_eq_succ_of_ne_zero (Nat.ne_of_gt hfuel)
    have htext' : place.text = r := htext
    exact ⟨place, toToken_of_startsToken (by rw [htext']; exact hr.startsToken) false fuel true, htext',
      hcolumn⟩
  | cons line ls ih =>
    obtain ⟨fuel, rfl⟩ := Nat.exists_eq_succ_of_ne_zero (Nat.ne_of_gt (Nat.zero_lt_of_lt hfuel))
    obtain ⟨next, hnext, hstart, hskip⟩ := toToken_remark (hls line List.mem_cons_self)
      (htext.trans (by simp [linesChars]) : place.text = line ++ '\n' :: (linesChars ls ++ r))
    rw [hskip]
    exact ih (fun line hline => hls line (List.mem_cons_of_mem _ hline)) hnext hstart
      (Nat.lt_of_succ_lt_succ hfuel)

end Cursor

namespace Scanner

theorem scans_remarks (hls : ∀ line ∈ ls, IsRemark line) (hr : AtKey r)
    (h : Scans r 0 tokens [] all) : Scans (linesChars ls ++ r) 0 tokens [] all := by
  intro place fuel htext hcolumn hfuel
  obtain ⟨fuel, rfl⟩ := Nat.exists_eq_succ_of_ne_zero (Nat.ne_of_gt (Nat.zero_lt_of_lt hfuel))
  have hlength := length_le_linesChars ls
  simp only [List.length_append] at hfuel
  obtain ⟨next, hmove, hthere, hstart⟩ := Cursor.toToken_remarks hls hr htext hcolumn
    (by simp only [htext, List.length_append]; omega : ls.length < place.text.length + 1)
  have hstay := Cursor.toToken_of_startsToken (c := next) (by rw [hthere]; exact hr.startsToken) false
    next.text.length true
  have hread := h next (fuel + 1) hthere hstart (by omega)
  rw [takeTokens_succ, arrive_standing hstay] at hread
  rw [takeTokens_succ, arrive_standing hmove, hread]

end Scanner

theorem head?_linesChars_ne (hls : ∀ line ∈ ls, IsRemark line) (hr : r.head? ≠ some '\uFEFF') :
    (linesChars ls ++ r).head? ≠ some '\uFEFF' := by
  cases ls with
  | nil => exact hr
  | cons line ls =>
    cases line with
    | nil => simp [linesChars]
    | cons c line =>
      have hc : c = '#' := (hls _ List.mem_cons_self).1 c rfl
      simp [linesChars, hc]

/-- A document is read from behind lines that say nothing. -/
theorem read_remarks (hls : ∀ line ∈ ls, IsRemark line)
    (hd : Simple Text.maxU64 IsKey (.table entries)) :
    ∃ l, read (linesChars ls ++ (render (.table entries)).toList) = some l ∧
      ∃ n, l.root = some n ∧ Shows l.shape (.table entries) n := by
  cases entries with
  | nil => exact absurd rfl hd.1
  | cons e entries =>
    exact read_of_ofText? hd (ofText?_of_scans (head?_linesChars_ne hls (atKey_render hd).head?_ne)
      ((allAllowed_linesChars hls).append (allAllowed_render hd))
      (Scanner.scans_remarks hls (atKey_render hd) (scans_render hd)))

end HostVitals.Yaml
