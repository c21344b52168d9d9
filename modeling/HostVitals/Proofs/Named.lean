import HostVitals.Named
import Mathlib.Data.List.Induction

/-! Maps that are made of lists of pairs. Two lists in a row make the union of their maps, in which the
second wins, and pairs with distinct names make the same map in every order. -/
namespace HostVitals

theorem setEntry_setEntry {α : Type} (key : String) (v w : α) (l : List (String × α)) :
    setEntry key w (setEntry key v l) = setEntry key w l := by
  induction l with
  | nil => simp [setEntry]
  | cons e r ih =>
    obtain ⟨k, u⟩ := e
    by_cases hk : k = key <;> simp [setEntry, hk, ih]

/-- Two values can be set in either order, once one of the names has its place. -/
theorem setEntry_comm {α : Type} {key j : String} (hne : j ≠ key) (v u : α)
    {l : List (String × α)} (h : key ∈ l.map Prod.fst) :
    setEntry key v (setEntry j u l) = setEntry j u (setEntry key v l) := by
  induction l with
  | nil => cases h
  | cons e r ih =>
    obtain ⟨k, w⟩ := e
    by_cases hk : k = key
    · simp [setEntry, hk, Ne.symm hne]
    · have hrest : key ∈ r.map Prod.fst := by simpa [Ne.symm hk] using h
      by_cases hkj : k = j
      · simp [setEntry, hkj, hne]
      · simp [setEntry, hk, hkj, ih hrest]

namespace Named
variable {α : Type} {s t : Named α} {key : String}

theorem eq_of_entries (h : s.entries = t.entries) : s = t := by
  cases s
  cases t
  cases h
  rfl

theorem insert_insert (t : Named α) (key : String) (v w : α) :
    (t.insert key v).insert key w = t.insert key w :=
  eq_of_entries (setEntry_setEntry key v w t.entries)

theorem insert_comm {j : String} (hne : j ≠ key) (v u : α) (h : key ∈ t.keys) :
    (t.insert j u).insert key v = (t.insert key v).insert j u :=
  eq_of_entries (setEntry_comm hne v u h)

theorem insertAll_append (t : Named α) (l l' : List (String × α)) :
    (t.insertAll l).insertAll l' = t.insertAll (l ++ l') := List.foldl_append.symm

theorem insertAll_insert (v : α) {l : List (String × α)} (hl : key ∉ l.map Prod.fst)
    (h : key ∈ t.keys) : (t.insertAll l).insert key v = (t.insert key v).insertAll l := by
  induction l generalizing t with
  | nil => rfl
  | cons e r ih =>
    rw [List.map_cons, List.mem_cons, not_or] at hl
    have hrest := ih hl.2 (t := t.insert e.1 e.2) (mem_keys_insert.mpr (.inl h))
    rw [insert_comm (Ne.symm hl.1) v e.2 h] at hrest
    exact hrest

/-- A value can be set in the pairs before they are inserted or in the map afterwards. -/
theorem insertAll_setEntry (t : Named α) (key : String) (v : α) {l : List (String × α)}
    (h : (l.map Prod.fst).Nodup) :
    t.insertAll (setEntry key v l) = (t.insertAll l).insert key v := by
  induction l generalizing t with
  | nil => rfl
  | cons e r ih =>
    obtain ⟨k, w⟩ := e
    obtain ⟨hk, hr⟩ := List.nodup_cons.mp h
    by_cases hkey : k = key
    · subst hkey
      have hknown : k ∈ (t.insert k w).keys := mem_keys_insert.mpr (.inr rfl)
      have hrest := insertAll_insert v hk hknown
      rw [insert_insert] at hrest
      rw [setEntry, if_pos rfl]
      exact hrest.symm
    · rw [setEntry, if_neg hkey]
      exact ih (t.insert k w) hr

theorem insertAll_eq_union (t : Named α) (l : List (String × α)) :
    t.insertAll l = t.union (ofList l) := by
  -- from the end of the list, as maps are made from its beginning
  induction l using List.reverseRecOn with
  | nil => rfl
  | append_singleton l e ih =>
    have hlast : ofList (l ++ [e]) = (ofList l).insert e.1 e.2 := (insertAll_append {} l [e]).symm
    rw [hlast, union, insert, insertAll_setEntry t e.1 e.2 (ofList l).nodup_keys,
      ← insertAll_append, ih]
    rfl

/-- Two lists in a row make the union of their maps. -/
theorem ofList_append (l l' : List (String × α)) :
    ofList (l ++ l') = (ofList l).union (ofList l') := by
  rw [← insertAll_eq_union, ofList, ofList, insertAll_append]

theorem find?_ofList_reverse (l : List (String × α)) (key : String) :
    (ofList l).find? key = l.reverse.lookup key := by
  have hnone : ({} : Named α).find? key = none := rfl
  rw [ofList, find?_insertAll, hnone, Option.or_none]

theorem find?_union (s t : Named α) (key : String) :
    (s.union t).find? key = (t.find? key).or (s.find? key) := by
  have hsame : (ofList t.entries).find? key = t.find? key := find?_ofList t.nodup_keys key
  rw [union, find?_insertAll, ← find?_ofList_reverse, hsame]

theorem isSome_find?_ofList (l : List (String × α)) (key : String) :
    ((ofList l).find? key).isSome ↔ ∃ value, (key, value) ∈ l := by
  rw [find?_ofList_reverse, List.lookup_isSome_iff]
  constructor
  · rintro ⟨⟨name, value⟩, hmem, hkey⟩
    obtain rfl : key = name := by simpa using hkey
    exact ⟨value, List.mem_reverse.mp hmem⟩
  · rintro ⟨value, hmem⟩
    exact ⟨(key, value), List.mem_reverse.mpr hmem, by simp⟩

theorem isEmpty_ofList_iff {l : List (String × α)} : (ofList l).isEmpty = true ↔ l = [] := by
  cases l with
  | nil => exact iff_of_true rfl rfl
  | cons e r =>
    have hknown := (isSome_find?_ofList (e :: r) e.1).mpr ⟨e.2, List.mem_cons_self⟩
    obtain ⟨value, hvalue⟩ := Option.isSome_iff_exists.mp hknown
    simp [isEmpty_of_find? hvalue]

theorem find?_ofList_eq_none {l : List (String × α)} (h : ∀ value, (key, value) ∉ l) :
    (ofList l).find? key = none := by
  rw [← Option.not_isSome_iff_eq_none, isSome_find?_ofList]
  exact fun ⟨value, hmem⟩ => h value hmem

theorem find?_ofList_eq_some_iff {l : List (String × α)} (h : (l.map Prod.fst).Nodup) {value : α} :
    (ofList l).find? key = some value ↔ (key, value) ∈ l := by
  rw [find?_ofList h, mem_iff_lookup_eq_some h]

/-- Pairs with distinct names make the same map in every order. -/
theorem find?_ofList_of_perm {l l' : List (String × α)} (hperm : l.Perm l')
    (h : (l.map Prod.fst).Nodup) (key : String) : (ofList l).find? key = (ofList l').find? key := by
  have h' : (l'.map Prod.fst).Nodup := (hperm.map Prod.fst).nodup_iff.mp h
  ext value
  rw [find?_ofList_eq_some_iff h, find?_ofList_eq_some_iff h', hperm.mem_iff]

end Named
end HostVitals
