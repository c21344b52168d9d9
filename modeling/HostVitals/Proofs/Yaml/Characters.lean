import HostVitals.Proofs.Document.Shown
import HostVitals.Proofs.Text.Numerals
import HostVitals.Yaml.Printer

/-! A document is written with characters that a text may hold. -/
namespace HostVitals.Yaml

open Document (Simple SimpleAll)

variable {c : Char} {cs s : List Char} {d : Document} {entries : List (String × Document)}
  {limit : Nat} {isKey : String → Prop} {p : List Char × Place}

theorem isAllowed_of_isShown (hc : isShown c = true) : isAllowed c = true := by
  have hvalid : c.toNat.isValidChar := c.valid
  simp only [isShown, Bool.or_eq_true, Bool.and_eq_true, decide_eq_true_eq] at hc
  rcases hc with ((hc | ⟨hlow, hhigh⟩) | ⟨⟨hlow, hhigh⟩, -⟩) | hc
  · rw [hc]
    decide
  · simp [isAllowed, hlow, hhigh]
  · rcases hvalid with hc | ⟨hc, -⟩
    · simp [isAllowed, hlow, show c.toNat ≤ 0xD7FF by omega]
    · simp [isAllowed, hhigh, show 0xE000 ≤ c.toNat by omega]
  · simp [isAllowed, hc]

def AllAllowed (cs : List Char) : Prop := ∀ c ∈ cs, isAllowed c = true

theorem AllAllowed.append (hcs : AllAllowed cs) (hs : AllAllowed s) : AllAllowed (cs ++ s) := by
  intro c hc
  exact (List.mem_append.mp hc).elim (hcs c) (hs c)

theorem AllAllowed.cons (hc : isAllowed c = true) (hcs : AllAllowed cs) : AllAllowed (c :: cs) :=
  List.forall_mem_cons.mpr ⟨hc, hcs⟩

theorem allAllowed_nil : AllAllowed [] := nofun

theorem allAllowed_margin (column : Nat) : AllAllowed (margin column) := by
  intro c hc
  rw [List.eq_of_mem_replicate hc]
  decide

theorem allAllowed_lead (place : Place) (column : Nat) : AllAllowed (place.lead column) := by
  cases place with
  | fresh => exact allAllowed_margin column
  | ended => exact .cons (by decide) (allAllowed_margin column)
  | inside => exact .cons (by decide) allAllowed_nil

/-! Texts. -/

theorem allAllowed_blockBody (hcs : AllAllowed cs) (column : Nat) (broken : Bool) :
    AllAllowed (blockBody column broken cs) := by
  induction cs generalizing broken with
  | nil => exact allAllowed_nil
  | cons c cs ih =>
    have hc := hcs c List.mem_cons_self
    have hrest := ih fun c hc => hcs c (List.mem_cons_of_mem _ hc)
    rw [blockBody]
    split
    · exact .cons hc (hrest true)
    · refine .append ?_ (.cons hc (hrest false))
      split
      · exact allAllowed_margin column
      · exact allAllowed_nil

theorem allAllowed_blockMarks (cs : List Char) : AllAllowed (blockMarks cs) := by
  refine .append ?_ ?_
  · split
    · exact .cons (by decide) allAllowed_nil
    · exact allAllowed_nil
  · repeat' split
    all_goals first
      | exact .cons (by decide) allAllowed_nil
      | exact allAllowed_nil

theorem allAllowed_singleBody (hcs : AllAllowed cs) (column : Nat) (broken : Bool) :
    AllAllowed (singleBody column broken cs) := by
  induction cs generalizing broken with
  | nil =>
    cases broken with
    | false => exact allAllowed_nil
    | true => exact allAllowed_margin column
  | cons c cs ih =>
    have hc := hcs c List.mem_cons_self
    have hrest := ih fun c hc => hcs c (List.mem_cons_of_mem _ hc)
    rw [singleBody]
    split
    · exact .cons hc (hrest true)
    · refine .append (.append ?_ ?_) (hrest false)
      · split
        · exact allAllowed_margin column
        · exact allAllowed_nil
      · split
        · exact .cons (by decide) (.cons (by decide) allAllowed_nil)
        · exact .cons hc allAllowed_nil

theorem allAllowed_upperHex (width n : Nat) : AllAllowed (upperHex width n) := by
  have hdigit {d : Nat} (hd : d < 16) : isAllowed (Nat.digitChar d).toUpper = true := by
    interval_cases d <;> decide
  intro c hc
  rw [upperHex] at hc
  rcases List.mem_append.mp hc with hc | hc
  · rw [List.eq_of_mem_replicate hc]
    decide
  · obtain ⟨e, he, rfl⟩ := List.mem_map.mp hc
    obtain ⟨d, hd, rfl⟩ := Text.exists_digitChar_of_mem_toDigits (by decide) he
    exact hdigit hd

theorem isAllowed_escapeLetter {l : Char} (h : escapeLetter c = some l) : isAllowed l = true := by
  unfold escapeLetter at h
  split at h <;> cases h <;> decide

theorem allAllowed_doubleChar (c : Char) : AllAllowed (doubleChar c) := by
  unfold doubleChar
  split
  · next h =>
    simp only [Bool.and_eq_true] at h
    exact .cons (isAllowed_of_isShown h.1.1.1) allAllowed_nil
  · split
    · next l hl => exact .cons (by decide) (.cons (isAllowed_escapeLetter hl) allAllowed_nil)
    · dsimp only
      split_ifs
      all_goals exact .cons (by decide) (.cons (by decide) (allAllowed_upperHex _ _))

def IsProper (p : List Char × Place) : Prop := AllAllowed p.1 ∧ p.2 ≠ .inside

theorem isProper_textChars (column : Nat) (t : String) : IsProper (textChars column t) := by
  have hdouble : IsProper ('"' :: t.toList.flatMap doubleChar ++ ['"'], .ended) := by
    refine ⟨.cons (by decide) (.append ?_ (.cons (by decide) allAllowed_nil)), nofun⟩
    intro c hc
    obtain ⟨e, -, hc⟩ := List.mem_flatMap.mp hc
    exact allAllowed_doubleChar e c hc
  have hshown (h : t.toList.all isShown = true) : AllAllowed t.toList := fun c hc =>
    isAllowed_of_isShown (List.all_eq_true.mp h c hc)
  simp only [textChars]
  split_ifs with hseveral hblock _ hplain hsingle
  · simp only [blockFits, Bool.and_eq_true] at hblock
    exact ⟨.cons (by decide) (.append (allAllowed_blockMarks _)
      (.cons (by decide) (allAllowed_blockBody (hshown hblock.1.1) _ _))), nofun⟩
  · simp only [blockFits, Bool.and_eq_true] at hblock
    exact ⟨.cons (by decide) (.append (allAllowed_blockMarks _)
      (.cons (by decide) (allAllowed_blockBody (hshown hblock.1.1) _ _))), nofun⟩
  · exact hdouble
  · simp only [plainFits, Bool.and_eq_true] at hplain
    exact ⟨hshown hplain.2.1.1.1.1, nofun⟩
  · simp only [singleFits, Bool.and_eq_true] at hsingle
    exact ⟨.cons (by decide) (.append (allAllowed_singleBody (hshown hsingle.1) _ _)
      (.cons (by decide) allAllowed_nil)), nofun⟩
  · exact hdouble

/-! Values. -/

theorem allAllowed_keyChars (column : Nat) (k : String) : AllAllowed (keyChars column k).1 := by
  have hk := (isProper_textChars (column + 2) k).1
  have hcolon : AllAllowed [':'] := .cons (by decide) allAllowed_nil
  simp only [keyChars]
  split
  · exact hk.append hcolon
  · exact .cons (by decide) (.cons (by decide) (.append (.append hk (allAllowed_lead _ _)) hcolon))

theorem isProper_entriesChars {k : String} (hentries : ∀ e ∈ (k, d) :: entries,
      ∀ column behindKey, IsProper (valueChars column behindKey e.2)) (column : Nat)
    (place : Place) : IsProper (entriesChars column place ((k, d) :: entries)) := by
  have hvalue := hentries _ List.mem_cons_self column (keyChars column k).2
  have hstart := (allAllowed_lead place column).append (allAllowed_keyChars column k)
  induction entries generalizing k d place with
  | nil => exact ⟨(hstart.append hvalue.1).append allAllowed_nil, hvalue.2⟩
  | cons e entries ih =>
    have hrest := ih (fun e he => hentries e (List.mem_cons_of_mem _ he))
      (valueChars column (keyChars column k).2 d).2
      (hentries e (by simp) column _)
      ((allAllowed_lead _ column).append (allAllowed_keyChars column _))
    exact ⟨(hstart.append hvalue.1).append hrest.1, hrest.2⟩

def ShownProperly (d : Document) : Prop :=
  ∀ column behindKey, IsProper (valueChars column behindKey d)

theorem shownProperly_of_scalarChars (hd : ∀ column, IsProper (scalarChars column d))
    (hchars : ∀ column behindKey, valueChars column behindKey d =
      (' ' :: (scalarChars (column + 2) d).1, (scalarChars (column + 2) d).2)) : ShownProperly d := by
  intro column behindKey
  rw [hchars]
  exact ⟨.cons (by decide) (hd _).1, (hd _).2⟩

theorem shownProperly (hd : Simple limit isKey d) : ShownProperly d := by
  have hdigits (n : Nat) : AllAllowed (toString (n : Int)).toList := by
    rw [Text.toList_toString_natCast]
    intro c hc
    obtain ⟨d, hd, rfl⟩ := Text.exists_digitChar_of_mem_toDigits (by decide) hc
    interval_cases d <;> decide
  have hnull : AllAllowed "null".toList := List.all_eq_true.mp (by decide)
  have hword (b : Bool) : AllAllowed (if b then "true" else "false").toList := by
    cases b <;> exact List.all_eq_true.mp (by decide)
  refine Simple.elim (motive := ShownProperly) ?null ?bool ?int ?text ?table d hd
  case null =>
    exact shownProperly_of_scalarChars (fun _ => ⟨hnull, nofun⟩) fun _ _ => rfl
  case bool => exact fun b => shownProperly_of_scalarChars (fun _ => ⟨hword b, nofun⟩) fun _ _ => rfl
  case int =>
    exact fun n _ => shownProperly_of_scalarChars (fun _ => ⟨hdigits n, nofun⟩) fun _ _ => rfl
  case text =>
    exact fun t => shownProperly_of_scalarChars (fun column => isProper_textChars column t)
      fun _ _ => rfl
  case table =>
    exact fun k d entries hentries column behindKey =>
      isProper_entriesChars (fun e he => (hentries e he).2.2) _ _

end HostVitals.Yaml
