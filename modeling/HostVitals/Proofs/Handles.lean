import HostVitals.Store

/-! A store seen as a map from keys to states. A handle leads to the slot of one key for good, so
what is written through it is what the key shows, and no other key shows anything of it. -/
namespace HostVitals

namespace Named
variable {α : Type}

theorem exists_find?_of_position? {t : Named α} {key : String} {i : Nat}
    (h : t.position? key = some i) : ∃ a, t.get? i = some a ∧ t.find? key = some a := by
  have hk := position?_eq_some_iff.mp h
  simp only [keys, List.getElem?_map, Option.map_eq_some_iff] at hk
  obtain ⟨e, he, -⟩ := hk
  refine ⟨e.2, by simp [get?, he], ?_⟩
  rw [find?_eq_position?, h]
  simp [get?, he]

theorem position?_inj {t : Named α} {k key : String} {i : Nat} (h : t.position? key = some i) :
    t.position? k = some i ↔ k = key := by
  constructor
  · intro hk
    have hkey := (position?_eq_some_iff.mp hk).symm.trans (position?_eq_some_iff.mp h)
    exact Option.some.inj hkey
  · rintro rfl
    exact h

theorem find?_modifyAt {t : Named α} {key : String} {i : Nat} (h : t.position? key = some i)
    (f : α → α) (k : String) :
    (t.modifyAt i f).find? k = if k = key then (t.find? k).map f else t.find? k := by
  rw [find?_eq_position?, position?_modifyAt, find?_eq_position?]
  by_cases hk : k = key
  · subst hk
    simp [h, get?_modifyAt]
  · cases hp : t.position? k with
    | none => simp
    | some j =>
      have hij : i ≠ j := by
        rintro rfl
        exact hk ((position?_inj h).mp hp)
      simp [hk, get?_modifyAt, hij]

theorem position?_insert_of_not_mem {t : Named α} {key : String} (value : α)
    (h : t.position? key = none) :
    (t.insert key value).position? key = some t.size ∧
      ∀ k i, t.position? k = some i → (t.insert key value).position? k = some i := by
  have hkeys : (t.insert key value).keys = t.keys ++ [key] := by
    simp [keys, entries_insert_of_not_mem value (position?_eq_none_iff.mp h)]
  refine ⟨?_, fun k i hk => ?_⟩
  · rw [position?_eq_some_iff, hkeys]
    simp [keys, size]
  · rw [position?_eq_some_iff] at hk ⊢
    obtain ⟨hi, -⟩ := List.getElem?_eq_some_iff.mp hk
    rw [hkeys, List.getElem?_append_left hi, hk]

end Named

namespace Store
variable {α : Type} {s : Store α} {key : String} {place : Slot}

def Leads (s : Store α) (key : String) (slot : Slot) : Prop :=
  s.slots.position? key = some slot.index

theorem stateAt_eq_state? (h : s.Leads key place) : s.stateAt place = s.state? key := by
  obtain ⟨c, hget, hfind⟩ := Named.exists_find?_of_position? h
  simp [stateAt, cellAt, state?, hget, hfind]

@[simp] theorem leads_modifySlot {other : Slot} {f : Cell (State α) → Cell (State α)} :
    (s.modifySlot other f).Leads key place ↔ s.Leads key place := by
  simp [Leads, modifySlot]

/-- A slot that is changed shows its state under its key and leaves the others alone. -/
theorem state?_modifySlot (h : s.Leads key place) {f : Cell (State α) → Cell (State α)}
    {v : Option (State α)} (hf : ∀ c, (f c).value? = v) (k : String) :
    (s.modifySlot place f).state? k = if k = key then v else s.state? k := by
  obtain ⟨c, -, hfind⟩ := Named.exists_find?_of_position? h
  simp only [state?, modifySlot, Named.find?_modifyAt h]
  by_cases hk : k = key
  · subst hk
    simp [hfind, hf]
  · simp [hk]

theorem leads_slot (s : Store α) (key : String) : (s.slot key).1.Leads key (s.slot key).2 := by
  unfold Store.slot
  cases h : s.slots.position? key with
  | some i => exact h
  | none => exact (Named.position?_insert_of_not_mem {} h).1

/-- Taking a slot moves no other one. -/
theorem Leads.slot (h : s.Leads key place) (k : String) : (s.slot k).1.Leads key place := by
  unfold Store.slot
  cases hk : s.slots.position? k with
  | some i => exact h
  | none => exact (Named.position?_insert_of_not_mem {} hk).2 key place.index h

/-- A new slot is empty, as the key was without one. -/
@[simp] theorem state?_slot (s : Store α) (key k : String) :
    (s.slot key).1.state? k = s.state? k := by
  unfold Store.slot
  cases h : s.slots.position? key with
  | some i => rfl
  | none =>
    simp only [state?, Named.find?_insert]
    by_cases hk : k = key
    · subst hk
      have hn : s.slots.find? k = none := by rw [Named.find?_eq_position?, h]; rfl
      simp [hn, Cell.value?]
    · simp [hk]

theorem Leads.save (h : s.Leads key place) (k : String) (st : State α) :
    (s.save k st).Leads key place := leads_modifySlot.mpr (h.slot k)

theorem Leads.clear (h : s.Leads key place) (k : String) : (s.clear k).Leads key place := by
  unfold Store.clear
  split
  · exact leads_modifySlot.mpr h
  · exact h

theorem state?_save (s : Store α) (key : String) (st : State α) (k : String) :
    (s.save key st).state? k = if k = key then some st else s.state? k := by
  rw [← state?_slot s key k]
  exact state?_modifySlot (f := (·.save st)) (s.leads_slot key) (fun _ => rfl) k

theorem state?_clear (s : Store α) (key k : String) :
    (s.clear key).state? k = if k = key then none else s.state? k := by
  unfold Store.clear
  cases h : s.slots.position? key with
  | some i =>
    have hleads : s.Leads key ⟨i⟩ := h
    exact state?_modifySlot (f := Cell.clear) hleads (fun _ => rfl) k
  | none =>
    by_cases hk : k = key
    · subst hk
      simp [state?, Named.find?_eq_position?, h]
    · simp [hk]

end Store
end HostVitals
