import HostVitals.Proofs.Proc.MountPoints
import Mathlib.Data.List.Basic

/-! The table of mounts as it is written: a line for each mount, its fields parted by spaces, and
within a field a backslash with three digits for what would part fields or lines. Nobody turns these
back into characters, so only what needs none of them is read as it was. -/
namespace HostVitals.MountTable

open Text

variable {c x : Char} {s d : List Char} {field point : String}

def escapeChar (c : Char) : List Char :=
  if c = ' ' then ['\\', '0', '4', '0']
  else if c = '\t' then ['\\', '0', '1', '1']
  else if c = '\n' then ['\\', '0', '1', '2']
  else if c = '\\' then ['\\', '1', '3', '4']
  else [c]

def escape (s : List Char) : List Char := s.flatMap escapeChar

def IsEscaped (c : Char) : Prop := c ∈ [' ', '\t', '\n', '\\']

instance : DecidablePred IsEscaped := fun _ => inferInstanceAs (Decidable (_ ∈ _))

theorem escapeChar_of_not_isEscaped (h : ¬ IsEscaped c) : escapeChar c = [c] := by
  simp only [IsEscaped, List.mem_cons, List.not_mem_nil, or_false, not_or] at h
  simp [escapeChar, h]

theorem escapeChar_of_isEscaped (h : IsEscaped c) : ∃ digits, escapeChar c = '\\' :: digits ∧
    digits ≠ [] ∧ (escapeChar c).any isBlank = false := by
  simp only [IsEscaped, List.mem_cons, List.not_mem_nil, or_false] at h
  rcases h with rfl | rfl | rfl | rfl
  · exact ⟨_, rfl, by decide, rfl⟩
  · exact ⟨_, rfl, by decide, rfl⟩
  · exact ⟨_, rfl, by decide, rfl⟩
  · exact ⟨_, rfl, by decide, rfl⟩

theorem escape_cons (c : Char) (s : List Char) : escape (c :: s) = escapeChar c ++ escape s :=
  List.flatMap_cons

@[simp] theorem escape_eq_nil_iff : escape s = [] ↔ s = [] := by
  cases s with
  | nil => simp [escape]
  | cons c s =>
    by_cases hc : IsEscaped c
    · obtain ⟨digits, hchar, -⟩ := escapeChar_of_isEscaped hc
      simp [escape_cons, hchar]
    · simp [escape_cons, escapeChar_of_not_isEscaped hc]

/-- What is written of a text is no longer than the text only if all of it is written as itself. -/
theorem length_le_escape (s : List Char) :
    s.length ≤ (escape s).length ∧ ((escape s).length = s.length → ∀ c ∈ s, ¬ IsEscaped c) := by
  induction s with
  | nil => simp [escape]
  | cons c s ih =>
    rw [escape_cons, List.length_append, List.length_cons]
    by_cases hc : IsEscaped c
    · obtain ⟨digits, hchar, hdigits, -⟩ := escapeChar_of_isEscaped hc
      have hpos := List.length_pos_iff.mpr hdigits
      rw [hchar, List.length_cons]
      exact ⟨by omega, by omega⟩
    · rw [escapeChar_of_not_isEscaped hc, List.length_singleton]
      refine ⟨by omega, fun hlength x hx => ?_⟩
      rcases List.mem_cons.mp hx with rfl | hx
      · exact hc
      · exact ih.2 (by omega) x hx

theorem escape_eq_self_iff : escape s = s ↔ ∀ c ∈ s, ¬ IsEscaped c := by
  constructor
  · intro h
    exact (length_le_escape s).2 (congrArg List.length h)
  · intro h
    induction s with
    | nil => rfl
    | cons c s ih =>
      rw [escape_cons, escapeChar_of_not_isEscaped (h c List.mem_cons_self),
        ih fun x hx => h x (List.mem_cons_of_mem c hx)]
      rfl

/-- What is written has no blanks but those that are not escaped. -/
theorem isBlank_of_mem_escape (h : ∀ c ∈ s, isBlank c = true → IsEscaped c) (hx : x ∈ escape s) :
    isBlank x = false := by
  obtain ⟨c, hc, hx⟩ := List.mem_flatMap.mp hx
  by_cases hescaped : IsEscaped c
  · obtain ⟨-, -, -, hall⟩ := escapeChar_of_isEscaped hescaped
    simpa using List.any_eq_false.mp hall x hx
  · rw [escapeChar_of_not_isEscaped hescaped, List.mem_singleton] at hx
    rw [hx, ← Bool.not_eq_true]
    exact fun hblank => hescaped (h c hc hblank)

theorem escape_append (s d : List Char) : escape (s ++ d) = escape s ++ escape d :=
  List.flatMap_append

theorem not_mem_escape (s : List Char) : '\n' ∉ escape s := by
  intro h
  obtain ⟨c, -, hc⟩ := List.mem_flatMap.mp h
  by_cases hescaped : IsEscaped c
  · obtain ⟨-, -, -, hall⟩ := escapeChar_of_isEscaped hescaped
    exact List.any_eq_false.mp hall _ hc (by decide)
  · rw [escapeChar_of_not_isEscaped hescaped, List.mem_singleton] at hc
    exact hescaped (hc ▸ by decide)

def IsWord (s : List Char) : Prop := s ≠ [] ∧ ∀ c ∈ s, isBlank c = true → IsEscaped c

instance : DecidablePred IsWord := fun s =>
  @instDecidableAnd _ _ inferInstance (List.decidableBAll (fun c => isBlank c = true → IsEscaped c) s)

theorem IsWord.words_escape (h : IsWord s) : words (escape s) = [escape s] :=
  words_eq_single (mt escape_eq_nil_iff.mp h.1) fun _ hx => isBlank_of_mem_escape h.2 hx

def IsGap (c : Char) : Prop := isBlank c = true ∧ ¬ IsEscaped c

instance : DecidablePred IsGap := fun _ => inferInstanceAs (Decidable (_ ∧ _))

def pieces (s : List Char) : List (List Char) :=
  (s.splitOnP fun c => decide (IsGap c)).filter (· ≠ [])

theorem pieces_append (hc : IsGap c) (s d : List Char) :
    pieces (s ++ c :: d) = pieces s ++ pieces d := by
  rw [pieces, List.splitOnP_append_cons s d (decide_eq_true hc), List.filter_append]
  rfl

theorem pieces_of_forall_not (h : ∀ c ∈ s, ¬ IsGap c) : pieces s = if s = [] then [] else [s] := by
  rw [pieces, List.splitOnP_eq_singleton fun c hc => decide_eq_false (h c hc)]
  by_cases hs : s = [] <;> simp [hs]

theorem IsWord.pieces_eq (h : IsWord s) : pieces s = [s] := by
  rw [pieces_of_forall_not fun c hc hgap => hgap.2 (h.2 c hc hgap.1), if_neg h.1]

/-- The words of what is written are what is written of the pieces. -/
theorem words_escape (s : List Char) : words (escape s) = (pieces s).map escape := by
  induction hlength : s.length using Nat.strongRecOn generalizing s with
  | ind n ih =>
    by_cases hgap : ∃ c ∈ s, IsGap c
    · obtain ⟨c, hc, hgap⟩ := hgap
      obtain ⟨w, t, rfl⟩ := List.append_of_mem hc
      rw [List.length_append, List.length_cons] at hlength
      rw [escape_append, escape_cons, escapeChar_of_not_isEscaped hgap.2, List.singleton_append,
        words_append_blank _ hgap.1, ih _ (by omega) w rfl, ih _ (by omega) t rfl,
        pieces_append hgap, List.map_append]
    · have hword : ∀ c ∈ s, ¬ IsGap c := fun c hc h => hgap ⟨c, hc, h⟩
      rw [pieces_of_forall_not hword]
      split
      · next hs => rw [hs]; rfl
      · next hs =>
        have hescaped (c : Char) (hc : c ∈ s) (hblank : isBlank c = true) : IsEscaped c :=
          Decidable.not_not.mp fun h => hword c hc ⟨hblank, h⟩
        exact IsWord.words_escape ⟨hs, hescaped⟩

/-- A beginning that is written as itself is one of what is written. -/
theorem stripStart_escape (hd : ∀ c ∈ d, ¬ IsEscaped c) (s : List Char) :
    stripStart d (escape s) = (stripStart d s).map escape := by
  induction d generalizing s with
  | nil => rfl
  | cons p d ih =>
    have hp := hd p List.mem_cons_self
    cases s with
    | nil => rfl
    | cons c s =>
      rw [escape_cons]
      by_cases hc : IsEscaped c
      · obtain ⟨digits, hchar, -⟩ := escapeChar_of_isEscaped hc
        have hbackslash : p ≠ '\\' := fun h => hp (h ▸ by decide)
        have hne : p ≠ c := fun h => hp (h ▸ hc)
        simp [hchar, stripStart, hbackslash, hne]
      · rw [escapeChar_of_not_isEscaped hc, List.singleton_append, stripStart, stripStart]
        split
        · exact ih (fun x hx => hd x (List.mem_cons_of_mem p hx)) s
        · rfl

theorem escape_eq_iff (hd : ∀ c ∈ d, ¬ IsEscaped c) : escape s = d ↔ s = d := by
  constructor
  · intro h
    have hstrip : stripStart d (escape s) = some [] := stripStart_eq_some_iff.mpr (by simp [h])
    rw [stripStart_escape hd, Option.map_eq_some_iff] at hstrip
    obtain ⟨rest, hrest, hnil⟩ := hstrip
    rw [escape_eq_nil_iff] at hnil
    simpa [hnil] using stripStart_eq_some_iff.mp hrest
  · rintro rfl
    exact escape_eq_self_iff.mpr hd

def shown (s : String) : String := String.ofList (escape s.toList)

theorem shown_eq_iff {s t : String} (ht : ∀ c ∈ t.toList, ¬ IsEscaped c) :
    shown s = t ↔ s = t := by
  rw [shown, ← String.toList_inj, String.toList_ofList, escape_eq_iff ht, String.toList_inj]

theorem shown_eq_self_iff {s : String} : shown s = s ↔ ∀ c ∈ s.toList, ¬ IsEscaped c := by
  rw [shown, ← String.toList_inj, String.toList_ofList, escape_eq_self_iff]

theorem startsWith_shown (hd : ∀ c ∈ d, ¬ IsEscaped c) (s : String) :
    startsWith d (shown s).toList = startsWith d s.toList := by
  rw [startsWith, shown, String.toList_ofList, stripStart_escape hd, Option.isSome_map, startsWith]

theorem shown_of_mem_pseudoTypes : ∀ t ∈ Mount.pseudoTypes, shown t = t := by decide +kernel

theorem shown_of_mem_systemPoints : ∀ d ∈ Mount.systemPoints, shown d = d := by decide +kernel

/-- What is skipped can be told from the fields as they are read. -/
theorem isSkipped_shown (fstype point : String) :
    Mount.isSkipped (shown fstype) (shown point) = Mount.isSkipped fstype point := by
  have htype : shown fstype ∈ Mount.pseudoTypes ↔ fstype ∈ Mount.pseudoTypes := by
    constructor
    · intro h
      have heq := (shown_eq_iff (shown_eq_self_iff.mp (shown_of_mem_pseudoTypes _ h))).mp rfl
      exact heq ▸ h
    · intro h
      rwa [(shown_eq_iff (shown_eq_self_iff.mp (shown_of_mem_pseudoTypes _ h))).mpr rfl]
  have hpoint : ∀ d ∈ Mount.systemPoints,
      startsWith d.toList (shown point).toList = startsWith d.toList point.toList :=
    fun d hd => startsWith_shown (shown_eq_self_iff.mp (shown_of_mem_systemPoints d hd)) point
  rw [Bool.eq_iff_iff]
  simp only [Mount.isSkipped, Bool.or_eq_true, List.contains_iff_mem, htype, List.any_eq_true]
  exact or_congr_right (exists_congr fun d => and_congr_right fun hd => by rw [hpoint d hd])

structure Row where
  mount : Mount
  options : String

variable {r : Row} {rows : List Row}

namespace Row

def line (r : Row) : List Char :=
  escape r.mount.device.toList ++ ' ' :: (escape r.mount.point.toList ++ ' ' ::
    (escape r.mount.fstype.toList ++ ' ' :: (escape r.options.toList ++ " 0 0".toList)))

def text (rows : List Row) : List Char := rows.flatMap fun r => r.line ++ ['\n']

def IsSkipped (r : Row) : Prop := Mount.isSkipped r.mount.fstype r.mount.point = true

instance : DecidablePred IsSkipped := fun _ => inferInstanceAs (Decidable (_ = true))

def read (r : Row) : Mount := ⟨shown r.mount.device, shown r.mount.point, shown r.mount.fstype⟩

def HasFields (r : Row) : Prop := IsWord r.mount.device.toList ∧ IsWord r.mount.fstype.toList

instance : DecidablePred HasFields := fun _ => inferInstanceAs (Decidable (_ ∧ _))

theorem not_mem_line (r : Row) : '\n' ∉ r.line := by
  simp [line, not_mem_escape]

theorem chomp_line (r : Row) : chomp r.line = r.line := by
  have hline : r.line = (escape r.mount.device.toList ++ ' ' :: (escape r.mount.point.toList ++
      ' ' :: (escape r.mount.fstype.toList ++ ' ' :: (escape r.options.toList ++ " 0 ".toList)))) ++
        ['0'] := by
    simp [line]
  rw [hline, chomp_concat (by decide)]

theorem lines_text (rows : List Row) : lines (text rows) = rows.map line := by
  induction rows with
  | nil => rfl
  | cons r rows ih =>
    have htext : text (r :: rows) = r.line ++ '\n' :: text rows := by simp [text]
    rw [htext, lines_cons r.not_mem_line, ih, chomp_line, List.map_cons]

theorem parse_text (rows : List Row) :
    Mount.parse (text rows) = rows.filterMap fun r => Mount.ofLine r.line := by
  rw [Mount.parse, lines_text, List.filterMap_map]
  rfl

def fields (r : Row) : List (List Char) :=
  pieces r.mount.point.toList ++ r.mount.fstype.toList ::
    (pieces r.options.toList ++ [['0'], ['0']])

def found (r : Row) : Mount where
  device := r.mount.device
  point := String.ofList (r.fields.getD 0 [])
  fstype := String.ofList (r.fields.getD 1 [])

theorem words_line (hfields : r.HasFields) :
    words r.line = (r.mount.device.toList :: r.fields).map escape := by
  have hspace : isBlank ' ' = true := by decide
  have hoptions : words (escape r.options.toList ++ " 0 0".toList) =
      (pieces r.options.toList ++ [['0'], ['0']]).map escape := by
    have hzeros : words " 0 0".toList = [['0'], ['0']].map escape := by decide
    have htail : " 0 0".toList = ' ' :: "0 0".toList := rfl
    rw [htail, words_append_blank _ hspace, words_escape, List.map_append, ← hzeros]
    rfl
  rw [line, words_append_blank _ hspace, words_append_blank _ hspace,
    words_append_blank _ hspace, hfields.1.words_escape, words_escape, hfields.2.words_escape,
    hoptions]
  simp [fields]

theorem ofLine_line (hfields : r.HasFields) : Mount.ofLine r.line =
    if Mount.isSkipped r.found.fstype r.found.point then none
    else some ⟨shown r.found.device, shown r.found.point, shown r.found.fstype⟩ := by
  obtain ⟨point, fstype, rest, hrest⟩ : ∃ point fstype rest, r.fields = point :: fstype :: rest := by
    rw [fields]
    cases pieces r.mount.point.toList with
    | nil => cases pieces r.options.toList <;> exact ⟨_, _, _, rfl⟩
    | cons p ps => cases ps <;> exact ⟨_, _, _, rfl⟩
  have hskipped := isSkipped_shown r.found.fstype r.found.point
  simp only [found, hrest, shown, List.getD_cons_zero, List.getD_cons_succ,
    String.toList_ofList] at hskipped ⊢
  simp only [Mount.ofLine, words_line hfields, hrest, List.map_cons, hskipped]

/-- A mount point that is one field is found as it is. -/
theorem found_eq (hpoint : IsWord r.mount.point.toList) : r.found = r.mount := by
  simp [found, fields, hpoint.pieces_eq]

theorem ofLine_line_of_isWord (hfields : r.HasFields) (hpoint : IsWord r.mount.point.toList) :
    Mount.ofLine r.line = if r.IsSkipped then none else some r.read := by
  rw [ofLine_line hfields, found_eq hpoint]
  rfl

end Row

def IsPlain (s : String) : Prop := IsWord s.toList ∧ ∀ c ∈ s.toList, ¬ IsEscaped c

instance : DecidablePred IsPlain := fun s =>
  @instDecidableAnd _ _ inferInstance (List.decidableBAll (fun c => ¬ IsEscaped c) s.toList)

theorem IsPlain.shown_eq {s : String} (h : IsPlain s) : shown s = s := shown_eq_self_iff.mpr h.2

/-- A mount that is skipped is so as it is found, and the mount point of another one stands in the
table as it is. -/
def Row.Legible (r : Row) : Prop :=
  if r.IsSkipped then Mount.isSkipped r.found.fstype r.found.point = true
  else IsPlain r.mount.point

instance : DecidablePred Row.Legible := fun _ => inferInstanceAs (Decidable (ite _ _ _))

theorem Row.ofLine_line_eq_none_iff (hfields : r.HasFields) :
    Mount.ofLine r.line = none ↔ Mount.isSkipped r.found.fstype r.found.point = true := by
  rw [Row.ofLine_line hfields]
  split <;> simp_all

def Row.entry (r : Row) : Mount := { r.read with point := r.mount.point }

theorem filterMap_ofLine {f : Row → Mount}
    (h : ∀ r ∈ rows, Mount.ofLine r.line = if r.IsSkipped then none else some (f r)) :
    (rows.filterMap fun r => Mount.ofLine r.line) = (rows.filter fun r => ¬ r.IsSkipped).map f := by
  rw [← List.filterMap_eq_map, List.filterMap_filter]
  refine List.filterMap_congr fun r hr => ?_
  by_cases hskipped : r.IsSkipped <;> simp [h r hr, hskipped]

/-- From a legible line the mount is read at its own mount point, unless it is skipped. -/
theorem Row.Legible.ofLine_line (h : r.Legible) (hfields : r.HasFields) :
    Mount.ofLine r.line = if r.IsSkipped then none else some r.entry := by
  rw [Row.Legible] at h
  by_cases hskipped : r.IsSkipped
  · rw [if_pos hskipped] at h ⊢
    exact (Row.ofLine_line_eq_none_iff hfields).mpr h
  · rw [if_neg hskipped] at h
    rw [Row.ofLine_line_of_isWord hfields h.1, Row.entry, Row.read, h.shown_eq]

/-- As many lines are read as mounts are not skipped, and all of these: so no others. -/
theorem ofLine_eq_none (hread : ∀ r ∈ rows, ¬ r.IsSkipped → (Mount.ofLine r.line).isSome)
    (hlength : (rows.filterMap fun r => Mount.ofLine r.line).length =
      (rows.filter fun r => ¬ r.IsSkipped).length) (hr : r ∈ rows) (hskipped : r.IsSkipped) :
    Mount.ofLine r.line = none := by
  have hsub : (rows.filter fun r => ¬ r.IsSkipped).Sublist
      (rows.filter fun r => (Mount.ofLine r.line).isSome) := by
    have hboth : (rows.filter fun r => ¬ r.IsSkipped) =
        (rows.filter fun r => (Mount.ofLine r.line).isSome).filter fun r => ¬ r.IsSkipped := by
      rw [List.filter_filter]
      refine List.filter_congr fun r hr => ?_
      by_cases hskipped : r.IsSkipped
      · simp [hskipped]
      · simp [hskipped, hread r hr hskipped]
    rw [hboth]
    exact List.filter_sublist
  rw [List.length_filterMap_eq_countP, List.countP_eq_length_filter] at hlength
  have hsame := hsub.eq_of_length hlength.symm
  rw [← Option.not_isSome_iff_eq_none]
  intro hsome
  have hkept : r ∈ rows.filter fun r => ¬ r.IsSkipped := hsame ▸ List.mem_filter.mpr ⟨hr, hsome⟩
  simp [hskipped] at hkept

/-- The mount point on a line is one word. -/
theorem isBlank_of_ofLine {line : List Char} {m : Mount} (h : Mount.ofLine line = some m) :
    m.point.toList ≠ [] ∧ ∀ c ∈ m.point.toList, isBlank c = false := by
  rw [Mount.ofLine_eq, Option.filter_eq_some_iff] at h
  have hfields := h.1
  unfold Mount.ofFields at hfields
  split at hfields
  · next device point fstype rest hwords =>
    cases hfields
    have hmem : point ∈ words line := by simp [hwords]
    simpa using isBlank_of_mem_words hmem
  · cases hfields

/-- A table from which the right mount points are read is legible. -/
theorem legible_of_points_eq (hfields : ∀ r ∈ rows, r.HasFields)
    (h : (rows.filterMap fun r => Mount.ofLine r.line).map Mount.point =
      (rows.filter fun r => ¬ r.IsSkipped).map fun r => r.mount.point) :
    ∀ r ∈ rows, r.Legible := by
  have hword : ∀ r ∈ rows, ¬ r.IsSkipped → IsWord r.mount.point.toList := by
    intro r hr hskipped
    have hpoint : r.mount.point ∈ (rows.filter fun r => ¬ r.IsSkipped).map fun r => r.mount.point :=
      List.mem_map.mpr ⟨r, List.mem_filter.mpr ⟨hr, by simpa using hskipped⟩, rfl⟩
    rw [← h, List.mem_map] at hpoint
    obtain ⟨m, hm, hpoint⟩ := hpoint
    obtain ⟨r', -, hm⟩ := List.mem_filterMap.mp hm
    obtain ⟨hne, hblank⟩ := isBlank_of_ofLine hm
    rw [hpoint] at hne hblank
    exact ⟨hne, fun c hc hb => absurd hb (by simp [hblank c hc])⟩
  have hread : ∀ r ∈ rows, ¬ r.IsSkipped → Mount.ofLine r.line = some r.read := by
    intro r hr hskipped
    rw [Row.ofLine_line_of_isWord (hfields r hr) (hword r hr hskipped), if_neg hskipped]
  have hlength := congrArg List.length h
  rw [List.length_map, List.length_map] at hlength
  have hnone := fun r (hr : r ∈ rows) hskipped => ofLine_eq_none
    (fun r hr hs => by rw [hread r hr hs]; rfl) hlength hr hskipped
  have hfilterMap := filterMap_ofLine fun r hr => show Mount.ofLine r.line =
    if r.IsSkipped then none else some r.read by
      split
      · next hskipped => exact hnone r hr hskipped
      · next hskipped => exact hread r hr hskipped
  rw [hfilterMap, List.map_map, List.map_inj_left] at h
  intro r hr
  rw [Row.Legible]
  split
  · next hskipped => exact (Row.ofLine_line_eq_none_iff (hfields r hr)).mp (hnone r hr hskipped)
  · next hskipped =>
    have hshown := h r (List.mem_filter.mpr ⟨hr, by simpa using hskipped⟩)
    exact ⟨hword r hr hskipped, shown_eq_self_iff.mp hshown⟩

end HostVitals.MountTable
