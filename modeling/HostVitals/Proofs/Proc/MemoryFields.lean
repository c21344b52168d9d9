import HostVitals.Proc.Memory
import HostVitals.Proofs.Collect.Run
import Mathlib.Data.List.Nodup
import Mathlib.Data.List.Perm.Subperm

/-! Which memory sizes cannot be counted in bytes. Lines are looked at until every wanted field has
been seen; a size on one of them that is too large breaks the work off, even if its field has been
seen before. -/
namespace HostVitals.MemoryInfo
variable {t : Named Nat} {line : List Char} {lines rest : List (List Char)} {name : String}
  {kb : Nat} {seen : List String}

theorem mem_fieldNames (h : fieldOf line = some (name, kb)) : name ∈ fieldNames := by
  unfold fieldOf at h
  cases hwords : Text.words line with
  | nil => simp [hwords] at h
  | cons first others =>
    cases others with
    | nil => simp [hwords] at h
    | cons value others =>
      simp only [hwords, List.contains_iff_mem, Option.ite_none_right_eq_some,
        Option.map_eq_some_iff, Prod.mk.injEq] at h
      obtain ⟨hwanted, n, -, rfl, -⟩ := h
      exact hwanted

def Lacks (seen : List String) : Prop := ∃ wanted ∈ fieldNames, wanted ∉ seen

theorem size_eq_iff (h : t.keys ⊆ fieldNames) : t.size = fieldNames.length ↔ ¬ Lacks t.keys := by
  have hsize : t.size = t.keys.length := (List.length_map _).symm
  rw [hsize]
  constructor
  · rintro hlength ⟨wanted, hwanted, hlacks⟩
    have hsubperm := List.subperm_of_subset t.nodup_keys h
    have hperm := hsubperm.perm_of_length_le (Nat.le_of_eq hlength.symm)
    exact hlacks (hperm.mem_iff.mpr hwanted)
  · intro hnone
    have hall : fieldNames ⊆ t.keys := fun wanted hwanted =>
      Classical.byContradiction fun hlacks => hnone ⟨wanted, hwanted, hlacks⟩
    have hnodup : fieldNames.Nodup := by decide
    exact Nat.le_antisymm (List.subperm_of_subset t.nodup_keys h).length_le
      (List.subperm_of_subset hnodup hall).length_le

/-! What one line does. -/

theorem keys_insert_subset (h : t.keys ⊆ fieldNames) (hfield : fieldOf line = some (name, kb))
    (n : Nat) : (t.insert name n).keys ⊆ fieldNames := by
  intro wanted hmem
  cases Named.mem_keys_insert.mp hmem with
  | inl hold => exact h hold
  | inr hnew => exact hnew ▸ mem_fieldNames hfield

theorem collect_of_none (hfield : fieldOf line = none) :
    collect (line :: rest) t = collect rest t := by
  rw [collect, hfield]

theorem collect_of_large (hfield : fieldOf line = some (name, kb))
    (hlarge : Text.maxU64 < kb * 1024) :
    collect (line :: rest) t = .error (.overflow .multiply) := by
  have hbytes : bytesOfKilobytes kb = .error (.overflow .multiply) :=
    if_neg (Nat.not_le.mpr hlarge)
  simp only [collect, hfield, hbytes, bind, Except.bind]

theorem collect_of_small (hfield : fieldOf line = some (name, kb))
    (hsmall : kb * 1024 ≤ Text.maxU64) :
    collect (line :: rest) t =
      if (t.insert name (kb * 1024)).size = fieldNames.length then .ok (t.insert name (kb * 1024))
      else collect rest (t.insert name (kb * 1024)) := by
  have hbytes : bytesOfKilobytes kb = .ok (kb * 1024) := if_pos hsmall
  rw [collect, hfield]
  simp only [hbytes]
  rfl

theorem collect_of_full (hsub : t.keys ⊆ fieldNames) (hfield : fieldOf line = some (name, kb))
    (hsmall : kb * 1024 ≤ Text.maxU64) (hfull : ¬ Lacks (t.insert name (kb * 1024)).keys) :
    collect (line :: rest) t = .ok (t.insert name (kb * 1024)) := by
  rw [collect_of_small hfield hsmall,
    if_pos ((size_eq_iff (keys_insert_subset hsub hfield _)).mpr hfull)]

theorem collect_of_lacks (hsub : t.keys ⊆ fieldNames) (hfield : fieldOf line = some (name, kb))
    (hsmall : kb * 1024 ≤ Text.maxU64) (hlacks : Lacks (t.insert name (kb * 1024)).keys) :
    collect (line :: rest) t = collect rest (t.insert name (kb * 1024)) := by
  have hopen : (t.insert name (kb * 1024)).size ≠ fieldNames.length := fun hsize =>
    (size_eq_iff (keys_insert_subset hsub hfield _)).mp hsize hlacks
  rw [collect_of_small hfield hsmall, if_neg hopen]

def Overruns (seen : List String) (lines : List (List Char)) : Prop :=
  ∃ before line after name kb, lines = before ++ line :: after ∧
    fieldOf line = some (name, kb) ∧ Text.maxU64 < kb * 1024 ∧
    ∃ wanted ∈ fieldNames, wanted ∉ seen ∧ ∀ l ∈ before, ∀ n, fieldOf l ≠ some (wanted, n)

theorem not_overruns_nil : ¬ Overruns seen [] := by
  rintro ⟨before, line, after, name, kb, h, -⟩
  cases before <;> cases h

theorem overruns_cons_of_large (h : fieldOf line = some (name, kb))
    (hlarge : Text.maxU64 < kb * 1024) (hlacks : Lacks seen) : Overruns seen (line :: rest) := by
  obtain ⟨wanted, hwanted, hlacks⟩ := hlacks
  exact ⟨[], line, rest, name, kb, rfl, h, hlarge, wanted, hwanted, hlacks, by simp⟩

theorem overruns_cons_of_small (seen' : List String)
    (hsmall : ∀ name kb, fieldOf line = some (name, kb) → kb * 1024 ≤ Text.maxU64)
    (hseen : ∀ wanted, wanted ∈ seen' ↔ wanted ∈ seen ∨ ∃ n, fieldOf line = some (wanted, n)) :
    Overruns seen (line :: rest) ↔ Overruns seen' rest := by
  constructor
  · rintro ⟨before, l, after, name, kb, hlines, hfield, hlarge, wanted, hwanted, hlacks, hbefore⟩
    cases before with
    | nil =>
      cases hlines
      exact absurd (hsmall name kb hfield) (Nat.not_le.mpr hlarge)
    | cons b before =>
      cases hlines
      have hlacks' : wanted ∉ seen' := by
        rw [hseen]
        rintro (hmem | ⟨n, hn⟩)
        · exact hlacks hmem
        · exact hbefore line List.mem_cons_self n hn
      exact ⟨before, l, after, name, kb, rfl, hfield, hlarge, wanted, hwanted, hlacks',
        fun l hl => hbefore l (List.mem_cons_of_mem _ hl)⟩
  · rintro ⟨before, l, after, name, kb, rfl, hfield, hlarge, wanted, hwanted, hlacks, hbefore⟩
    rw [hseen] at hlacks
    refine ⟨line :: before, l, after, name, kb, rfl, hfield, hlarge, wanted, hwanted,
      fun hmem => hlacks (.inl hmem), ?_⟩
    intro l hl n hn
    cases hl with
    | head => exact hlacks (.inr ⟨n, hn⟩)
    | tail _ hl => exact hbefore l hl n hn

theorem breaksOff_collect_iff (hsub : t.keys ⊆ fieldNames) (hlacks : Lacks t.keys) :
    BreaksOff (collect lines t) ↔ Overruns t.keys lines := by
  -- on the lines, with what has been seen among the wanted fields and never all of them
  induction lines generalizing t with
  | nil => simp [collect, not_overruns_nil]
  | cons line rest ih =>
    cases hfield : fieldOf line with
    | none =>
      rw [collect_of_none hfield,
        overruns_cons_of_small t.keys (by simp [hfield]) (by simp [hfield])]
      exact ih hsub hlacks
    | some e =>
      obtain ⟨name, kb⟩ := e
      by_cases hsmall : kb * 1024 ≤ Text.maxU64
      · rw [overruns_cons_of_small (t.insert name (kb * 1024)).keys
          (by simp [hfield, hsmall]) (by simp [hfield, Named.mem_keys_insert, eq_comm])]
        by_cases hlacks' : Lacks (t.insert name (kb * 1024)).keys
        · rw [collect_of_lacks hsub hfield hsmall hlacks']
          exact ih (keys_insert_subset hsub hfield _) hlacks'
        · rw [collect_of_full hsub hfield hsmall hlacks']
          refine iff_of_false BreaksOff.ok ?_
          rintro ⟨_, _, _, _, _, -, -, -, wanted, hwanted, hnew, -⟩
          exact hlacks' ⟨wanted, hwanted, hnew⟩
      · have hlarge := Nat.not_le.mp hsmall
        rw [collect_of_large hfield hlarge]
        exact iff_of_true ⟨.multiply, rfl⟩ (overruns_cons_of_large hfield hlarge hlacks)

theorem not_breaksOff_field {t : Named Nat} {name : String} : ¬ BreaksOff (field t name) := by
  cases h : t.find? name <;> simp [field, h, BreaksOff.error_iff, Fault.breaksOff]

theorem breaksOff_parse_iff (text : List Char) :
    BreaksOff (parse text) ↔ Overruns [] (Text.lines text) := by
  have hcollect : BreaksOff (collect (Text.lines text) {}) ↔ Overruns [] (Text.lines text) :=
    breaksOff_collect_iff (List.nil_subset _) ⟨"MemTotal", by decide, List.not_mem_nil⟩
  simp [parse, BreaksOff.bind_iff, BreaksOff.fmap_iff, hcollect, not_breaksOff_field]

end HostVitals.MemoryInfo
