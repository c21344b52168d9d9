import HostVitals.Proofs.Named
import HostVitals.Proofs.Proc.MemoryFields
import HostVitals.Proofs.Text.Cuts

/-! Which lines of the memory table matter. Reading ends with the last wanted field, and no line behind
it could change what has been read. Where each field is told once, the end comes no sooner than the
last line that tells one, so that the order of the lines does not matter either. -/
namespace HostVitals.MemoryInfo
variable {t t' : Named Nat} {line text other : List Char} {lines more : List (List Char)}
  {name : String} {kb : Nat} {m : MemoryInfo}

def Tells (line : List Char) (name : String) (kb : Nat) : Prop :=
  ∃ first value rest, Text.words line = first :: value :: rest ∧
    String.ofList (Text.dropEndWhile (· == ':') first) = name ∧ Text.u64? value = some kb

theorem fieldOf_eq_some_iff :
    fieldOf line = some (name, kb) ↔ name ∈ fieldNames ∧ Tells line name kb := by
  unfold fieldOf Tells
  cases Text.words line with
  | nil => simp
  | cons first others =>
    cases others with
    | nil => simp
    | cons value rest =>
      simp only [List.contains_iff_mem, Option.ite_none_right_eq_some, Option.map_eq_some_iff,
        Prod.mk.injEq, List.cons.injEq]
      constructor
      · rintro ⟨hwanted, n, hn, rfl, rfl⟩
        exact ⟨hwanted, first, value, rest, ⟨rfl, rfl, rfl⟩, rfl, hn⟩
      · rintro ⟨hwanted, _, _, _, ⟨rfl, rfl, rfl⟩, rfl, hn⟩
        exact ⟨hwanted, kb, hn, rfl, rfl⟩

def TellsOnce (text : List Char) : Prop :=
  (Text.lines text).Pairwise fun line line' =>
    ∀ name ∈ fieldNames, ∀ kb kb', Tells line name kb → ¬ Tells line' name kb'

def told (lines : List (List Char)) : List (String × Nat) := lines.filterMap fieldOf

theorem mem_told :
    (name, kb) ∈ told lines ↔ name ∈ fieldNames ∧ ∃ line ∈ lines, Tells line name kb := by
  simp only [told, List.mem_filterMap, fieldOf_eq_some_iff]
  constructor
  · rintro ⟨line, hline, hwanted, htells⟩
    exact ⟨hwanted, line, hline, htells⟩
  · rintro ⟨hwanted, line, hline, htells⟩
    exact ⟨line, hline, hwanted, htells⟩

theorem tellsOnce_iff : TellsOnce text ↔ ((told (Text.lines text)).map Prod.fst).Nodup := by
  rw [TellsOnce, told, List.Nodup, List.pairwise_map, List.pairwise_filterMap]
  refine iff_of_eq (congrArg (List.Pairwise · _) ?_)
  funext line line'
  apply propext
  constructor
  · rintro h ⟨name, kb⟩ hline ⟨name', kb'⟩ hline' rfl
    rw [fieldOf_eq_some_iff] at hline hline'
    exact h name hline.1 kb kb' hline.2 hline'.2
  · intro h name hwanted kb kb' htells htells'
    exact h (name, kb) (fieldOf_eq_some_iff.mpr ⟨hwanted, htells⟩) (name, kb')
      (fieldOf_eq_some_iff.mpr ⟨hwanted, htells'⟩) rfl

/-! What is read once the lines have been gone through. -/

def ofTable (t : Named Nat) : Except Fault MemoryInfo := do
  let total ← field t "MemTotal"
  let available ← field t "MemAvailable"
  let cached ← field t "Cached"
  let buffers ← field t "Buffers"
  let swapTotal ← field t "SwapTotal"
  let swapFree ← field t "SwapFree"
  return { total, available, cached, buffers, swapTotal, swapFree }

theorem parse_eq (text : List Char) : parse text = collect (Text.lines text) {} >>= ofTable := rfl

def sizes (m : MemoryInfo) : List (String × Nat) :=
  [("MemTotal", m.total), ("MemAvailable", m.available), ("Cached", m.cached),
    ("Buffers", m.buffers), ("SwapTotal", m.swapTotal), ("SwapFree", m.swapFree)]

theorem ofTable_congr (h : ∀ name, t.find? name = t'.find? name) : ofTable t = ofTable t' := by
  have hfield : field t = field t' := by
    funext name
    rw [field, field, h]
  rw [ofTable, ofTable, hfield]

theorem field_eq_ok_iff {n : Nat} : field t name = .ok n ↔ t.find? name = some n := by
  cases h : t.find? name <;> simp [field, h]

theorem ofTable_eq_ok_iff : ofTable t = .ok m ↔ ∀ e ∈ m.sizes, t.find? e.1 = some e.2 := by
  obtain ⟨total, available, cached, buffers, swapTotal, swapFree⟩ := m
  simp only [ofTable, bind_eq_ok_iff, field_eq_ok_iff, sizes, List.forall_mem_cons, pure,
    Except.pure, Except.ok.injEq, MemoryInfo.mk.injEq]
  constructor
  · rintro ⟨_, h₁, _, h₂, _, h₃, _, h₄, _, h₅, _, h₆, rfl, rfl, rfl, rfl, rfl, rfl⟩
    exact ⟨h₁, h₂, h₃, h₄, h₅, h₆, by simp⟩
  · rintro ⟨h₁, h₂, h₃, h₄, h₅, h₆, -⟩
    exact ⟨_, h₁, _, h₂, _, h₃, _, h₄, _, h₅, _, h₆, rfl, rfl, rfl, rfl, rfl, rfl⟩

theorem keys_sizes (m : MemoryInfo) : m.sizes.map Prod.fst = fieldNames := rfl

theorem not_lacks_of_ofTable (h : ofTable t = .ok m) : ¬ Lacks t.keys := by
  rintro ⟨wanted, hwanted, hlacks⟩
  rw [← keys_sizes m] at hwanted
  obtain ⟨e, he, rfl⟩ := List.mem_map.mp hwanted
  have hmem := Named.mem_entries_iff.mpr (ofTable_eq_ok_iff.mp h e he)
  exact hlacks (List.mem_map.mpr ⟨_, hmem, rfl⟩)

/-! Going through the lines. -/

/-- Lines behind the one with which the last field has been told are not looked at. -/
theorem collect_append (hsub : t.keys ⊆ fieldNames) (hlacks : Lacks t.keys)
    (h : collect lines t = .ok t') (hfull : ¬ Lacks t'.keys) (more : List (List Char)) :
    collect (lines ++ more) t = .ok t' := by
  induction lines generalizing t with
  | nil =>
    obtain rfl : t = t' := Except.ok.inj h
    exact absurd hlacks hfull
  | cons line rest ih =>
    rw [List.cons_append]
    cases hfield : fieldOf line with
    | none =>
      rw [collect_of_none hfield] at h ⊢
      exact ih hsub hlacks h
    | some e =>
      obtain ⟨name, kb⟩ := e
      by_cases hsmall : kb * 1024 ≤ Text.maxU64
      · by_cases hlacks' : Lacks (t.insert name (kb * 1024)).keys
        · rw [collect_of_lacks hsub hfield hsmall hlacks'] at h ⊢
          exact ih (keys_insert_subset hsub hfield _) hlacks' h
        · rw [collect_of_full hsub hfield hsmall hlacks'] at h ⊢
          exact h
      · rw [collect_of_large hfield (Nat.not_le.mp hsmall)] at h
        cases h

def Fits (e : String × Nat) : Prop := e.2 * 1024 ≤ Text.maxU64

instance (e : String × Nat) : Decidable (Fits e) := inferInstanceAs (Decidable (_ ≤ _))

def inBytes (e : String × Nat) : String × Nat := (e.1, e.2 * 1024)

/-- Lines tell nothing that is new once nothing lacks. -/
theorem told_eq_nil (hfull : ¬ Lacks t.keys) (hnew : ∀ e ∈ told lines, e.1 ∉ t.keys) :
    told lines = [] :=
  List.eq_nil_iff_forall_not_mem.mpr fun e he => hfull ⟨e.1, (mem_told.mp he).1, hnew e he⟩

theorem not_mem_keys_insert {l : List (String × Nat)} (hname : name ∉ l.map Prod.fst)
    (hnew : ∀ e ∈ l, e.1 ∉ t.keys) (n : Nat) : ∀ e ∈ l, e.1 ∉ (t.insert name n).keys := by
  intro e he hmem
  cases Named.mem_keys_insert.mp hmem with
  | inl hold => exact hnew e he hold
  | inr hsame => exact hname (List.mem_map.mpr ⟨e, he, hsame⟩)

/-- Where each field is told once, and none that is known, all that the lines tell is read: the last
field comes with the last line that tells one. -/
theorem collect_of_once (hsub : t.keys ⊆ fieldNames)
    (hnodup : ((told lines).map Prod.fst).Nodup) (hnew : ∀ e ∈ told lines, e.1 ∉ t.keys) :
    collect lines t = if ∀ e ∈ told lines, Fits e then .ok (t.insertAll ((told lines).map inBytes))
      else .error (.overflow .multiply) := by
  induction lines generalizing t with
  | nil => rfl
  | cons line rest ih =>
    cases hfield : fieldOf line with
    | none =>
      have htold : told (line :: rest) = told rest := List.filterMap_cons_none hfield
      rw [htold] at hnodup hnew ⊢
      rw [collect_of_none hfield]
      exact ih hsub hnodup hnew
    | some e =>
      have htold : told (line :: rest) = e :: told rest := List.filterMap_cons_some hfield
      rw [htold] at hnodup hnew ⊢
      obtain ⟨name, kb⟩ := e
      obtain ⟨hname, hrest⟩ := List.nodup_cons.mp hnodup
      simp only [List.forall_mem_cons] at hnew ⊢
      by_cases hfits : Fits (name, kb)
      · have hnew' := not_mem_keys_insert hname hnew.2 (kb * 1024)
        simp only [hfits, true_and]
        by_cases hlacks : Lacks (t.insert name (kb * 1024)).keys
        · rw [collect_of_lacks hsub hfield hfits hlacks]
          exact ih (keys_insert_subset hsub hfield _) hrest hnew'
        · rw [collect_of_full hsub hfield hfits hlacks, told_eq_nil hlacks hnew']
          exact (if_pos nofun).symm
      · rw [collect_of_large hfield (Nat.not_le.mp hfits)]
        simp only [hfits, false_and, if_false]

/-- All that a table tells which tells each field once. -/
theorem parse_of_once (h : TellsOnce text) :
    parse text = if ∀ e ∈ told (Text.lines text), Fits e
      then ofTable (Named.ofList ((told (Text.lines text)).map inBytes))
      else .error (.overflow .multiply) := by
  rw [parse_eq, collect_of_once (List.nil_subset _) (tellsOnce_iff.mp h) fun _ _ => List.not_mem_nil]
  split <;> rfl

theorem nodup_inBytes {l : List (String × Nat)} (h : (l.map Prod.fst).Nodup) :
    ((l.map inBytes).map Prod.fst).Nodup := by
  rw [List.map_map]
  exact h

theorem parse_of_perm (h : TellsOnce text) (hperm : (Text.lines other).Perm (Text.lines text)) :
    parse other = parse text := by
  have htold : (told (Text.lines other)).Perm (told (Text.lines text)) := hperm.filterMap fieldOf
  have hnodup := tellsOnce_iff.mp h
  have hnodup' := (htold.map Prod.fst).nodup_iff.mpr hnodup
  have hfits : (∀ e ∈ told (Text.lines other), Fits e) ↔ ∀ e ∈ told (Text.lines text), Fits e := by
    simp only [htold.mem_iff]
  have htable := ofTable_congr
    (Named.find?_ofList_of_perm (htold.map inBytes) (nodup_inBytes hnodup'))
  rw [parse_of_once h, parse_of_once (tellsOnce_iff.mpr hnodup'), htable]
  simp only [hfits]

theorem tells_of_parse (h : TellsOnce text) (hm : parse text = .ok m) {e : String × Nat}
    (he : e ∈ m.sizes) : ∃ line ∈ Text.lines text, ∃ kb, Tells line e.1 kb ∧ e.2 = 1024 * kb := by
  rw [parse_of_once h] at hm
  split at hm
  case isFalse => cases hm
  case isTrue =>
    have hfind := ofTable_eq_ok_iff.mp hm e he
    rw [Named.find?_ofList_eq_some_iff (nodup_inBytes (tellsOnce_iff.mp h)), List.mem_map] at hfind
    obtain ⟨⟨name, kb⟩, htold, hsize⟩ := hfind
    obtain ⟨hname, hbytes⟩ := Prod.mk.inj hsize
    obtain ⟨-, line, hline, htells⟩ := mem_told.mp htold
    rw [← hname, ← hbytes]
    exact ⟨line, hline, kb, htells, Nat.mul_comm kb 1024⟩

/-- Once a text has told all that is wanted, nothing behind it makes a difference. Of a text that tells
each field once no order of the lines makes one, and each size is the one on the field's line. -/
theorem parse_settles :
    (∀ a, Text.IsEnded a → ∀ m, parse a = .ok m → ∀ b, parse (a ++ b) = parse a) ∧
    ∀ text, TellsOnce text →
      (∀ other, (Text.lines other).Perm (Text.lines text) → parse other = parse text) ∧
      ∀ m, parse text = .ok m → ∀ e ∈ m.sizes,
        ∃ line ∈ Text.lines text, ∃ kb, Tells line e.1 kb ∧ e.2 = 1024 * kb := by
  constructor
  · intro a ha m hm b
    obtain ⟨t, ht, htable⟩ := bind_eq_ok_iff.mp (parse_eq a ▸ hm)
    have hlacks : Lacks (Named.keys ({} : Named Nat)) := ⟨"MemTotal", by decide, List.not_mem_nil⟩
    rw [hm, parse_eq, Text.lines_append ha, collect_append (List.nil_subset _) hlacks ht
      (not_lacks_of_ofTable htable)]
    exact htable
  · intro text h
    exact ⟨fun other hperm => parse_of_perm h hperm, fun m hm e he => tells_of_parse h hm he⟩

/-- A table with a line that is not wanted, the same one backwards, and one with a size behind it that
is too large to be counted in bytes. -/
theorem parse_settles_of_backwards :
    let text := ("MemTotal: 16 kB\nMemFree: 1 kB\nMemAvailable: 8 kB\nBuffers: 2 kB\n" ++
      "Cached: 4 kB\nSwapTotal: 0 kB\nSwapFree: 0 kB\n").toList
    let other := ("SwapFree: 0 kB\r\nSwapTotal: 0 kB\nCached: 4 kB\nBuffers: 2 kB\n" ++
      "MemAvailable: 8 kB\nMemFree: 1 kB\nMemTotal: 16 kB").toList
    let more := "MemTotal: 18446744073709551615 kB\n".toList
    let m : MemoryInfo := ⟨16384, 8192, 4096, 2048, 0, 0⟩
    Text.IsEnded text ∧ parse text = .ok m ∧ parse (text ++ more) = parse text ∧
      TellsOnce text ∧ (Text.lines other).Perm (Text.lines text) ∧ parse other = parse text ∧
      ∃ line ∈ Text.lines text, ∃ kb, Tells line "Cached" kb ∧ 4096 = 1024 * kb := by
  intro text other more m
  have hended : Text.IsEnded text := by decide +kernel
  have hm : parse text = .ok m := by decide +kernel
  have honce : TellsOnce text := tellsOnce_iff.mpr (by decide +kernel)
  have hperm : (Text.lines other).Perm (Text.lines text) := by decide +kernel
  obtain ⟨hreorder, hown⟩ := parse_settles.2 text honce
  exact ⟨hended, hm, parse_settles.1 text hended m hm more, honce, hperm, hreorder other hperm,
    hown m hm ("Cached", 4096) (by decide)⟩

end HostVitals.MemoryInfo
