/-! Values by name: each name occurs once, in the order of its first insertion. -/
namespace HostVitals

def setEntry {α : Type} (key : String) (value : α) : List (String × α) → List (String × α)
  | [] => [(key, value)]
  | (k, v) :: r => if k = key then (k, value) :: r else (k, v) :: setEntry key value r

theorem keys_setEntry {α : Type} (key : String) (value : α) (l : List (String × α)) :
    (setEntry key value l).map Prod.fst =
      if key ∈ l.map Prod.fst then l.map Prod.fst else l.map Prod.fst ++ [key] := by
  induction l with
  | nil => simp [setEntry]
  | cons e r ih =>
    obtain ⟨k, v⟩ := e
    by_cases hk : k = key
    · simp [setEntry, hk]
    · have hk' : ¬ key = k := fun h => hk h.symm
      simp only [setEntry, hk, if_false, List.map_cons, List.mem_cons, hk', false_or, ih]
      split <;> simp

theorem nodup_setEntry {α : Type} {key : String} {value : α} {l : List (String × α)}
    (h : (l.map Prod.fst).Nodup) : ((setEntry key value l).map Prod.fst).Nodup := by
  rw [keys_setEntry]
  split
  · exact h
  · rename_i hk
    rw [List.nodup_append]
    refine ⟨h, by simp, ?_⟩
    intro a ha b hb hab
    simp only [List.mem_singleton] at hb
    exact hk (hb ▸ hab ▸ ha)

theorem setEntry_of_not_mem {α : Type} {key : String} (value : α) {l : List (String × α)}
    (h : key ∉ l.map Prod.fst) : setEntry key value l = l ++ [(key, value)] := by
  induction l with
  | nil => rfl
  | cons e r ih =>
    obtain ⟨k, v⟩ := e
    simp only [List.map_cons, List.mem_cons, not_or] at h
    simp [setEntry, Ne.symm h.1, ih h.2]

theorem keys_modify {α : Type} (l : List (String × α)) (i : Nat) (f : α → α) :
    (l.modify i fun e => (e.1, f e.2)).map Prod.fst = l.map Prod.fst := by
  apply List.ext_getElem?
  intro j
  simp only [List.getElem?_map, List.getElem?_modify]
  cases l[j]? with
  | none => rfl
  | some e => by_cases h : i = j <;> simp [h]

theorem lookup_eq_findIdx? {α : Type} (key : String) (l : List (String × α)) :
    l.lookup key = (l.findIdx? fun e => e.1 == key).bind fun i => (l[i]?).map Prod.snd := by
  induction l with
  | nil => rfl
  | cons e r ih =>
    obtain ⟨k, v⟩ := e
    by_cases hk : k = key
    · simp [hk, List.findIdx?_cons]
    · have hk' : (key == k) = false := by simpa using Ne.symm hk
      have hk'' : (k == key) = false := by simpa using hk
      simp only [List.lookup_cons, hk', ih, List.findIdx?_cons, hk'', Bool.false_eq_true, if_false,
        Option.bind_map]
      rfl

theorem lookup_cons_ite {α : Type} (k key : String) (value : α) (l : List (String × α)) :
    ((key, value) :: l).lookup k = if k = key then some value else l.lookup k := by
  by_cases hk : k = key
  · simp [hk]
  · have hk' : (k == key) = false := by simpa using hk
    simp only [List.lookup_cons, hk', if_neg hk]

theorem lookup_setEntry {α : Type} (key : String) (value : α) (l : List (String × α))
    (k : String) :
    (setEntry key value l).lookup k = if k = key then some value else l.lookup k := by
  induction l with
  | nil => exact lookup_cons_ite k key value []
  | cons e r ih =>
    obtain ⟨j, v⟩ := e
    by_cases hj : j = key
    · subst hj
      simp only [setEntry, if_true, lookup_cons_ite]
      split <;> rfl
    · simp only [setEntry, hj, if_false, lookup_cons_ite, ih]
      by_cases hk : k = j
      · simp [hk, hj]
      · simp [hk]

theorem lookup_filter_ne {α : Type} (key : String) (l : List (String × α)) (k : String) :
    (l.filter fun e => e.1 ≠ key).lookup k = if k = key then none else l.lookup k := by
  induction l with
  | nil => simp
  | cons e r ih =>
    obtain ⟨j, v⟩ := e
    by_cases hj : j = key
    · subst hj
      rw [List.filter_cons_of_neg (by simp), ih, lookup_cons_ite]
      split <;> rfl
    · rw [List.filter_cons_of_pos (by simpa using hj), lookup_cons_ite, lookup_cons_ite, ih]
      by_cases hk : k = j
      · simp [hk, hj]
      · simp [hk]

theorem mem_iff_lookup_eq_some {α : Type} {l : List (String × α)} (h : (l.map Prod.fst).Nodup)
    {key : String} {value : α} : (key, value) ∈ l ↔ l.lookup key = some value := by
  induction l with
  | nil => simp
  | cons e r ih =>
    obtain ⟨j, v⟩ := e
    rw [List.map_cons, List.nodup_cons] at h
    rw [lookup_cons_ite, List.mem_cons, ih h.2]
    by_cases hj : key = j
    · subst hj
      have hrest : r.lookup key ≠ some value := fun hm =>
        h.1 (List.mem_map.mpr ⟨_, (ih h.2).mpr hm, rfl⟩)
      simp [hrest, eq_comm]
    · simp [hj]

structure Named (α : Type) where
  entries : List (String × α) := []
  nodup_keys : (entries.map Prod.fst).Nodup := by exact List.nodup_nil

namespace Named
variable {α β : Type}

instance : Inhabited (Named α) := ⟨{}⟩

instance [DecidableEq α] : DecidableEq (Named α) := fun s t =>
  decidable_of_iff (s.entries = t.entries)
    ⟨fun h => by cases s; cases t; cases h; rfl, congrArg entries⟩

def empty : Named α := {}

def keys (t : Named α) : List String := t.entries.map Prod.fst

def size (t : Named α) : Nat := t.entries.length

def isEmpty (t : Named α) : Bool := t.entries.isEmpty

def find? (t : Named α) (key : String) : Option α := t.entries.lookup key

def contains (t : Named α) (key : String) : Bool := (t.find? key).isSome

def insert (t : Named α) (key : String) (value : α) : Named α :=
  ⟨setEntry key value t.entries, nodup_setEntry t.nodup_keys⟩

def erase (t : Named α) (key : String) : Named α :=
  ⟨t.entries.filter fun e => e.1 ≠ key,
    List.Nodup.sublist (List.Sublist.map _ List.filter_sublist) t.nodup_keys⟩

def insertAll (t : Named α) (l : List (String × α)) : Named α :=
  l.foldl (fun t e => t.insert e.1 e.2) t

def ofList (l : List (String × α)) : Named α := insertAll {} l

def union (s t : Named α) : Named α := s.insertAll t.entries

def position? (t : Named α) (key : String) : Option Nat :=
  t.entries.findIdx? fun e => e.1 == key

def get? (t : Named α) (i : Nat) : Option α := (t.entries[i]?).map Prod.snd

def map (t : Named α) (f : String → α → β) : Named β :=
  ⟨t.entries.map fun e => (e.1, f e.1 e.2), by
    rw [List.map_map]
    exact t.nodup_keys⟩

def modifyAt (t : Named α) (i : Nat) (f : α → α) : Named α :=
  ⟨t.entries.modify i fun e => (e.1, f e.2), by
    rw [keys_modify]
    exact t.nodup_keys⟩

theorem position?_eq_none_iff {t : Named α} {key : String} :
    t.position? key = none ↔ key ∉ t.keys := by
  simp only [position?, keys, List.findIdx?_eq_none_iff, beq_eq_false_iff_ne, List.mem_map,
    not_exists, not_and, ne_eq]

/-- A name is known at the one place that holds it. -/
theorem position?_eq_some_iff {t : Named α} {key : String} {i : Nat} :
    t.position? key = some i ↔ t.keys[i]? = some key := by
  constructor
  · intro h
    obtain ⟨hi, hk, -⟩ := List.findIdx?_eq_some_iff_getElem.mp h
    simpa [keys, List.getElem?_eq_getElem hi] using hk
  · intro h
    cases hp : t.position? key with
    | none => exact absurd (List.mem_of_getElem? h) (position?_eq_none_iff.mp hp)
    | some j =>
      obtain ⟨hj, hk, -⟩ := List.findIdx?_eq_some_iff_getElem.mp hp
      have hj' : t.keys[j]? = some key := by
        simpa [keys, List.getElem?_eq_getElem hj] using hk
      have hlt : j < t.keys.length := by simpa [keys] using hj
      rw [(List.getElem?_inj hlt t.nodup_keys).mp (hj'.trans h.symm)]

theorem find?_eq_position? (t : Named α) (key : String) :
    t.find? key = (t.position? key).bind t.get? := lookup_eq_findIdx? key t.entries

@[simp] theorem keys_modifyAt (t : Named α) (i : Nat) (f : α → α) :
    (t.modifyAt i f).keys = t.keys := keys_modify t.entries i f

@[simp] theorem position?_modifyAt (t : Named α) (i : Nat) (f : α → α) (key : String) :
    (t.modifyAt i f).position? key = t.position? key := by
  apply Option.ext
  intro j
  rw [position?_eq_some_iff, position?_eq_some_iff, keys_modifyAt]

theorem get?_modifyAt (t : Named α) (i j : Nat) (f : α → α) :
    (t.modifyAt i f).get? j = if i = j then (t.get? j).map f else t.get? j := by
  simp only [get?, modifyAt, List.getElem?_modify]
  cases t.entries[j]? with
  | none => simp
  | some e => by_cases h : i = j <;> simp [h]

theorem entries_insert_of_not_mem {t : Named α} {key : String} (value : α) (h : key ∉ t.keys) :
    (t.insert key value).entries = t.entries ++ [(key, value)] := setEntry_of_not_mem value h

theorem mem_keys_insert {t : Named α} {key k : String} {value : α} :
    k ∈ (t.insert key value).keys ↔ k ∈ t.keys ∨ k = key := by
  rw [keys, insert, keys_setEntry]
  split
  case isTrue h =>
    constructor
    · exact .inl
    · rintro (hk | rfl)
      · exact hk
      · exact h
  case isFalse h => simp [keys]

theorem find?_insert (t : Named α) (key : String) (value : α) (k : String) :
    (t.insert key value).find? k = if k = key then some value else t.find? k :=
  lookup_setEntry key value t.entries k

theorem find?_erase (t : Named α) (key k : String) :
    (t.erase key).find? k = if k = key then none else t.find? k :=
  lookup_filter_ne key t.entries k

theorem mem_entries_iff {t : Named α} {key : String} {value : α} :
    (key, value) ∈ t.entries ↔ t.find? key = some value :=
  mem_iff_lookup_eq_some t.nodup_keys

theorem forall_find?_iff {s t : Named α} {r : α → α → Prop} :
    (∀ name x y, s.find? name = some x → t.find? name = some y → r x y) ↔
      ∀ d ∈ s.entries, ∀ e ∈ t.entries, d.1 = e.1 → r d.2 e.2 := by
  constructor
  · rintro h ⟨name, x⟩ hx ⟨name', y⟩ hy ⟨⟩
    exact h name x y (mem_entries_iff.mp hx) (mem_entries_iff.mp hy)
  · intro h name x y hx hy
    exact h (name, x) (mem_entries_iff.mpr hx) (name, y) (mem_entries_iff.mpr hy) rfl

theorem isEmpty_of_find? {t : Named α} {key : String} {value : α} (h : t.find? key = some value) :
    t.isEmpty = false := by
  have hmem := List.ne_nil_of_mem (mem_entries_iff.mpr h)
  simpa [isEmpty] using hmem

theorem find?_map (t : Named α) (f : String → α → β) (key : String) :
    (t.map f).find? key = (t.find? key).map (f key) := by
  show (t.entries.map fun e => (e.1, f e.1 e.2)).lookup key = (t.entries.lookup key).map (f key)
  induction t.entries with
  | nil => rfl
  | cons e r ih =>
    obtain ⟨k, v⟩ := e
    by_cases hk : key = k
    · simp [hk]
    · have hk' : (key == k) = false := by simpa using hk
      simpa only [List.map_cons, List.lookup_cons, hk'] using ih

/-- Of the values of one name on a list the last counts. -/
theorem find?_insertAll (t : Named α) (l : List (String × α)) (key : String) :
    (t.insertAll l).find? key = (l.reverse.lookup key).or (t.find? key) := by
  induction l generalizing t with
  | nil => rfl
  | cons e r ih =>
    obtain ⟨k, v⟩ := e
    show ((t.insert k v).insertAll r).find? key = _
    rw [ih, find?_insert, List.reverse_cons, List.lookup_append, Option.or_assoc, lookup_cons_ite]
    by_cases hk : key = k
    · simp [hk]
    · simp [hk]

theorem find?_ofList {l : List (String × α)} (h : (l.map Prod.fst).Nodup) (key : String) :
    (ofList l).find? key = l.lookup key := by
  have hrev : (l.reverse.map Prod.fst).Nodup := by
    rw [List.map_reverse]
    exact List.pairwise_reverse.mpr (h.imp Ne.symm)
  rw [ofList, find?_insertAll]
  apply Option.ext
  intro value
  have hnone : ({} : Named α).find? key = none := rfl
  rw [hnone, Option.or_none, ← mem_iff_lookup_eq_some h, ← mem_iff_lookup_eq_some hrev,
    List.mem_reverse]

end Named
end HostVitals
