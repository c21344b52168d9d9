import HostVitals.Text.Blank

/-! Where texts are cut. A blank between two texts parts their words, and a newline their lines; a
text starts with another one if it continues it. -/
namespace HostVitals.Text

variable {c : Char} {s w pre : List Char}

theorem stripStart_eq_some_iff {rest : List Char} : stripStart pre s = some rest ↔ s = pre ++ rest := by
  induction pre generalizing s with
  | nil => simp [stripStart]
  | cons p pre ih =>
    cases s with
    | nil => simp [stripStart]
    | cons c s =>
      by_cases hc : p = c
      · simp [stripStart, hc, ih]
      · simp [stripStart, hc, Ne.symm hc]

theorem startsWith_iff : startsWith pre s = true ↔ ∃ rest, s = pre ++ rest := by
  rw [startsWith, Option.isSome_iff_exists]
  simp only [stripStart_eq_some_iff]

theorem cutAt_append {l : List Char} (h : c ∉ l) (s : List Char) :
    cutAt c (l ++ c :: s) = some (l, s) := by
  induction l with
  | nil => simp [cutAt]
  | cons x l ih =>
    rw [List.mem_cons, not_or] at h
    rw [List.cons_append, cutAt, if_neg (Ne.symm h.1), ih h.2]
    rfl

/-! Words. -/

theorem words_of_isBlank (hc : isBlank c = true) (s : List Char) : words (c :: s) = words s := by
  rw [words.eq_def]
  exact if_pos hc

theorem words_single (hc : isBlank c = false) : words [c] = [[c]] := by
  simp [words, hc]

theorem words_cons_blank {d : Char} (hc : isBlank c = false) (hd : isBlank d = true)
    (s : List Char) : words (c :: d :: s) = [c] :: words (d :: s) := by
  rw [words]
  simp [hc, hd]

theorem words_cons_cons {d : Char} (hc : isBlank c = false) (hd : isBlank d = false)
    (s : List Char) : words (c :: d :: s) = consHead c (words (d :: s)) := by
  rw [words]
  simp [hc, hd]

theorem words_ne_nil (hc : isBlank c = false) (s : List Char) : words (c :: s) ≠ [] := by
  cases s with
  | nil => simp [words_single hc]
  | cons d s =>
    cases hd : isBlank d with
    | true => simp [words_cons_blank hc hd]
    | false =>
      rw [words_cons_cons hc hd]
      cases words (d :: s) <;> simp [consHead]

/-- A blank between two texts keeps their words apart. -/
theorem words_append_blank (s : List Char) (hc : isBlank c = true) (t : List Char) :
    words (s ++ c :: t) = words s ++ words t := by
  induction s with
  | nil => exact words_of_isBlank hc t
  | cons x s ih =>
    cases hx : isBlank x with
    | true => rw [List.cons_append, words_of_isBlank hx, words_of_isBlank hx, ih]
    | false =>
      cases s with
      | nil =>
        rw [List.singleton_append, words_cons_blank hx hc, words_of_isBlank hc, words_single hx]
        rfl
      | cons d s =>
        rw [List.cons_append] at ih
        cases hd : isBlank d with
        | true =>
          rw [List.cons_append, List.cons_append, words_cons_blank hx hd, ih,
            words_cons_blank hx hd]
          rfl
        | false =>
          rw [List.cons_append, List.cons_append, words_cons_cons hx hd, ih,
            words_cons_cons hx hd]
          cases hwords : words (d :: s) with
          | nil => exact absurd hwords (words_ne_nil hd s)
          | cons w ws => rfl

/-- A text without blanks is one word. -/
theorem words_eq_single (hw : w ≠ []) (h : ∀ c ∈ w, isBlank c = false) : words w = [w] := by
  induction w with
  | nil => exact absurd rfl hw
  | cons c w ih =>
    have hc := h c List.mem_cons_self
    cases w with
    | nil => exact words_single hc
    | cons d w =>
      have hrest := ih (List.cons_ne_nil d w) fun x hx => h x (List.mem_cons_of_mem c hx)
      rw [words_cons_cons hc (h d (by simp)), hrest]
      rfl

/-- The words of a text are not empty and have no blanks. -/
theorem isBlank_of_mem_words (hw : w ∈ words s) : w ≠ [] ∧ ∀ c ∈ w, isBlank c = false := by
  induction s generalizing w with
  | nil => simp [words] at hw
  | cons c s ih =>
    cases hc : isBlank c with
    | true =>
      rw [words_of_isBlank hc] at hw
      exact ih hw
    | false =>
      cases s with
      | nil =>
        rw [words_single hc, List.mem_singleton] at hw
        simp [hw, hc]
      | cons d s =>
        cases hd : isBlank d with
        | true =>
          rw [words_cons_blank hc hd, List.mem_cons] at hw
          rcases hw with rfl | hw
          · simp [hc]
          · exact ih hw
        | false =>
          rw [words_cons_cons hc hd] at hw
          cases hwords : words (d :: s) with
          | nil => exact absurd hwords (words_ne_nil hd s)
          | cons v vs =>
            rw [hwords] at hw ih
            rw [consHead, List.mem_cons] at hw
            rcases hw with rfl | hw
            · have hv := (ih List.mem_cons_self).2
              simpa [hc] using hv
            · exact ih (List.mem_cons_of_mem v hw)

/-! Lines. -/

theorem splitNewlines_ne_nil (s : List Char) : splitNewlines s ≠ [] := by
  cases s with
  | nil => simp [splitNewlines]
  | cons c s =>
    rw [splitNewlines]
    split
    · simp
    · cases splitNewlines s <;> simp [consHead]

theorem splitNewlines_eq_single {l : List Char} (h : '\n' ∉ l) : splitNewlines l = [l] := by
  induction l with
  | nil => rfl
  | cons c l ih =>
    rw [List.mem_cons, not_or] at h
    rw [splitNewlines, if_neg (Ne.symm h.1), ih h.2]
    rfl

theorem splitNewlines_append (s t : List Char) :
    splitNewlines (s ++ '\n' :: t) = splitNewlines s ++ splitNewlines t := by
  induction s with
  | nil => rfl
  | cons c s ih =>
    rw [List.cons_append, splitNewlines, splitNewlines, ih]
    by_cases hc : c = '\n'
    · rw [if_pos hc, if_pos hc, List.cons_append]
    · rw [if_neg hc, if_neg hc]
      cases hs : splitNewlines s with
      | nil => exact absurd hs (splitNewlines_ne_nil s)
      | cons l ls => rfl

theorem linesGo_append (ls : List (List Char)) {rest : List (List Char)} (h : rest ≠ []) :
    lines.go (ls ++ rest) = ls.map chomp ++ lines.go rest := by
  induction ls with
  | nil => rfl
  | cons l ls ih =>
    rw [List.cons_append, List.map_cons, List.cons_append, ← ih]
    cases hnext : ls ++ rest with
    | nil => exact absurd (List.append_eq_nil_iff.mp hnext).2 h
    | cons next more => rfl

/-- Every line before a newline is ended, and what follows the newline starts a line. -/
theorem lines_append_newline (s t : List Char) :
    lines (s ++ '\n' :: t) = (splitNewlines s).map chomp ++ lines t := by
  rw [lines, splitNewlines_append, linesGo_append _ (splitNewlines_ne_nil t), lines]

/-- A line that is ended comes before the lines of the rest. -/
theorem lines_cons {l : List Char} (h : '\n' ∉ l) (s : List Char) :
    lines (l ++ '\n' :: s) = chomp l :: lines s := by
  rw [lines_append_newline, splitNewlines_eq_single h]
  rfl

def IsEnded (s : List Char) : Prop := s = [] ∨ s.getLast? = some '\n'

instance (s : List Char) : Decidable (IsEnded s) := inferInstanceAs (Decidable (_ ∨ _))

/-- A text goes on with lines of its own behind one that is ended. -/
theorem lines_append (h : IsEnded s) (t : List Char) : lines (s ++ t) = lines s ++ lines t := by
  rcases h with rfl | h
  · rfl
  · obtain ⟨r, rfl⟩ := List.getLast?_eq_some_iff.mp h
    have hempty : lines [] = [] := rfl
    rw [List.append_assoc, List.singleton_append, lines_append_newline, lines_append_newline,
      hempty, List.append_nil]

theorem chomp_concat (hc : c ≠ '\r') (s : List Char) : chomp (s ++ [c]) = s ++ [c] := by
  induction s with
  | nil => simp [chomp, hc]
  | cons x s ih =>
    have hsome : s ++ [c] ≠ [] := by simp
    cases hs : s ++ [c] with
    | nil => exact absurd hs hsome
    | cons d s' =>
      rw [hs] at ih
      rw [List.cons_append, hs, chomp, ih]
      simp

theorem chomp_cons (hc : c ≠ '\r') (s : List Char) : chomp (c :: s) = c :: chomp s := by
  simp [chomp, hc]

/-- A carriage return further up in the line stays. -/
theorem chomp_append {t : List Char} (hc : c ≠ '\r') (ht : '\r' ∉ t) (s : List Char) :
    chomp (s ++ c :: t) = s ++ c :: t := by
  rcases List.eq_nil_or_concat t with rfl | ⟨t, d, rfl⟩
  · exact chomp_concat hc s
  · have hd : d ≠ '\r' := by
      rintro rfl
      simp at ht
    have hsplit : s ++ c :: (t ++ [d]) = (s ++ c :: t) ++ [d] := by simp
    rw [List.concat_eq_append, hsplit, chomp_concat hd]

end HostVitals.Text
