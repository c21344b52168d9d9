import HostVitals.Proofs.Handles
import Mathlib.Data.List.Forall2
import Mathlib.Data.Set.Card

/-! A store in use acts as a map from keys to states: a key shows what was written to it last, by
its name or through any handle taken for it, and nothing if it was cleared since. -/
namespace HostVitals

theorem getD_lookup_single {β : Type} (key k : String) (v d : β) :
    ([(key, v)].lookup k).getD d = if k = key then v else d := by
  rw [lookup_cons_ite]
  split <;> rfl

namespace Named
variable {α : Type}

theorem modifyAt_congr {t : Named α} {i : Nat} {f g : α → α}
    (h : ∀ a, t.get? i = some a → f a = g a) : t.modifyAt i f = t.modifyAt i g := by
  have hentries : (t.entries.modify i fun e => (e.1, f e.2)) =
      t.entries.modify i fun e => (e.1, g e.2) := by
    apply List.ext_getElem?
    intro j
    rw [List.getElem?_modify, List.getElem?_modify]
    by_cases hij : i = j
    · subst hij
      simp only [if_true]
      cases he : t.entries[i]? with
      | none => rfl
      | some e =>
        have hfg := h e.2 (by simp [get?, he])
        simp [hfg]
    · simp [hij]
  unfold modifyAt
  simp only [hentries]

end Named

namespace Store
variable {α : Type} {s : Store α} {key : String}

theorem mem_keys_slot {k : String} (h : k ∈ (s.slot key).1.slots.keys) :
    k ∈ s.slots.keys ∨ k = key := by
  unfold Store.slot at h
  split at h
  · exact .inl h
  · next hn =>
    simpa [Named.keys, Named.entries_insert_of_not_mem {} (Named.position?_eq_none_iff.mp hn)]
      using h

@[simp] theorem keys_saveAt (place : Slot) (st : State α) :
    (s.saveAt place st).slots.keys = s.slots.keys := Named.keys_modifyAt ..

@[simp] theorem keys_clearAt (place : Slot) :
    (s.clearAt place).slots.keys = s.slots.keys := Named.keys_modifyAt ..

@[simp] theorem keys_clear (key : String) : (s.clear key).slots.keys = s.slots.keys := by
  unfold Store.clear
  split
  · exact keys_clearAt _
  · rfl

/-- The keys with a state are as many as the slots that show something. -/
theorem encard_state? (s : Store α) :
    Set.encard {key | (s.state? key).isSome} = s.populated := by
  have hset : {key | (s.state? key).isSome} =
      (((s.slots.entries.filter fun e => e.2.isPresent).map Prod.fst).toFinset : Set String) := by
    ext key
    have hshown : (s.state? key).isSome ↔
        ∃ c, (key, c) ∈ s.slots.entries ∧ c.isPresent = true := by
      simp only [Named.mem_entries_iff, state?, Option.isSome_bind, Cell.isPresent, Cell.value?]
      cases s.slots.find? key <;> simp
    simpa using hshown
  have hnodup : ((s.slots.entries.filter fun e => e.2.isPresent).map Prod.fst).Nodup :=
    List.Nodup.sublist (List.Sublist.map _ List.filter_sublist) s.slots.nodup_keys
  rw [hset, Set.encard_coe_eq_coe_finsetCard, List.toFinset_card_of_nodup hnodup, List.length_map,
    ← List.countP_eq_length_filter]
  rfl

end Store

namespace SharedStore
variable {α : Type} {s : SharedStore α} {reader key : String} {st : State α}

/-- For the key that the slot belongs to, reclaiming is a way of saving. -/
theorem store_reclaimAt (s : SharedStore α) (place : Slot) (st : State α) :
    (s.reclaimAt place st).1.store = s.store.saveAt place st := by
  show Store.mk (s.store.slots.modifyAt place.index fun _ => (s.store.cellAt place).save st) =
    Store.mk (s.store.slots.modifyAt place.index (·.save st))
  congr 1
  apply Named.modifyAt_congr
  intro c hc
  simp [Store.cellAt, hc]

theorem store_hold (s : SharedStore α) (reader key : String) :
    (s.hold reader key).1.store = s.store := by
  unfold hold
  split
  · rfl
  · split <;> rfl

theorem held?_hold (h : s.store.state? key = some st) :
    (s.hold reader key).1.held? reader = some st := by
  obtain ⟨c, hfind, hvalue⟩ := Option.bind_eq_some_iff.mp h
  obtain ⟨p, hp, rfl⟩ := Option.map_eq_some_iff.mp hvalue
  obtain ⟨i, hi, hget⟩ : ∃ i, s.store.slots.position? key = some i ∧
      s.store.slots.get? i = some c := by
    rwa [Named.find?_eq_position?, Option.bind_eq_some_iff] at hfind
  simp [hold, held?, hi, Store.cellAt, hget, hp, Named.find?_insert]

theorem held?_hold_of_ne {other : String} (h : reader ≠ other) (key : String) :
    (s.hold other key).1.held? reader = s.held? reader := by
  unfold hold held?
  split
  · rfl
  · split
    · rw [Named.find?_insert, if_neg h]
    · rfl

/-- A state goes back to its writer only if no reader has that publication of the slot. -/
theorem exists_of_reclaimAt {place : Slot} {back : State α}
    (h : (s.reclaimAt place st).2 = some back) :
    ∃ p, (s.store.cellAt place).current = some p ∧ p.value = back ∧
      ∀ reader q, s.readers.find? reader = some (place, q) → q.number ≠ p.number := by
  obtain ⟨p, hp, hback⟩ := Option.map_eq_some_iff.mp h
  obtain ⟨hcurrent, hfree⟩ := Option.filter_eq_some_iff.mp hp
  refine ⟨p, hcurrent, hback, fun reader q hq hn => ?_⟩
  have hheld : s.isHeld place p.number = true :=
    List.any_eq_true.mpr ⟨_, Named.mem_entries_iff.mpr hq, by simp [hn]⟩
  rw [hheld] at hfree
  cases hfree

end SharedStore

namespace StoreStep
variable {α : Type}

def takes? : StoreStep α → Option String
  | .slot key => some key
  | _ => none

def names? : StoreStep α → Option String
  | .save key _ | .slot key => some key
  | _ => none

def change? (taken : List String) : StoreStep α → Option (String × Option (State α))
  | .save key state => some (key, some state)
  | .clear key => some (key, none)
  | .saveAt handle state | .reclaimAt handle state =>
    taken[handle]?.map fun key => (key, some state)
  | .clearAt handle => taken[handle]?.map fun key => (key, none)
  | .slot _ | .hold _ _ => none

end StoreStep

namespace StoreInUse
variable {α : Type} {s : StoreInUse α} {taken : List String} {key reader : String} {place : Slot}
  {x : StoreStep α}

def changes (taken : List String) : List (StoreStep α) → List (String × Option (State α))
  | [] => []
  | x :: xs => (x.change? taken).toList ++ changes (taken ++ x.takes?.toList) xs

def Tracks (s : StoreInUse α) (taken : List String) : Prop :=
  List.Forall₂ s.store.Leads taken s.handles

theorem Tracks.handle (h : s.Tracks taken) (i : Nat) :
    (taken[i]? = none ∧ s.handles[i]? = none) ∨
      ∃ key place, taken[i]? = some key ∧ s.handles[i]? = some place ∧ s.store.Leads key place := by
  unfold Tracks at h
  generalize s.handles = handles at h ⊢
  induction h generalizing i with
  | nil => exact .inl ⟨rfl, rfl⟩
  | cons hlead _ ih =>
    cases i with
    | zero => exact .inr ⟨_, _, rfl, rfl, hlead⟩
    | succ i => exact ih i

/-- What holds with and without a write holds after one through a handle, be there that handle or
not. -/
theorem through_of {P : SharedStore α → Prop} {f : Slot → SharedStore α} (h : P s.shared)
    (hf : ∀ place, P (f place)) (i : Nat) : P (s.through i f).shared := by
  unfold through
  split
  · exact hf _
  · exact h

theorem handles_through (s : StoreInUse α) (i : Nat) (f : Slot → SharedStore α) :
    (s.through i f).handles = s.handles := by
  unfold through
  split <;> rfl

theorem handles_step (h : x.takes? = none) : (s.step x).handles = s.handles := by
  cases x with
  | slot k => cases h
  | saveAt | reclaimAt | clearAt => exact handles_through ..
  | save | clear | hold => rfl

theorem leads_step (h : s.store.Leads key place) (x : StoreStep α) :
    (s.step x).store.Leads key place := by
  cases x with
  | save k st => exact h.save k st
  | clear k => exact h.clear k
  | slot k => exact h.slot k
  | saveAt i st =>
    exact through_of (P := (·.store.Leads key place)) h (fun _ => Store.leads_modifySlot.mpr h) i
  | reclaimAt i st =>
    refine through_of (P := (·.store.Leads key place)) h (fun other => ?_) i
    rw [SharedStore.store_reclaimAt]
    exact Store.leads_modifySlot.mpr h
  | clearAt i =>
    exact through_of (P := (·.store.Leads key place)) h (fun _ => Store.leads_modifySlot.mpr h) i
  | hold r k =>
    show (s.shared.hold r k).1.store.Leads key place
    rwa [SharedStore.store_hold]

theorem Tracks.step (h : s.Tracks taken) (x : StoreStep α) :
    (s.step x).Tracks (taken ++ x.takes?.toList) := by
  have hkept : List.Forall₂ (s.step x).store.Leads taken s.handles :=
    List.Forall₂.imp (fun _ _ hlead => leads_step hlead x) h
  cases hx : x.takes? with
  | none => rwa [Option.toList_none, List.append_nil, Tracks, handles_step hx]
  | some key =>
    cases x with
    | slot k =>
      obtain rfl : k = key := Option.some.inj hx
      exact List.rel_append hkept (.cons (s.store.leads_slot k) .nil)
    | _ => cases hx

theorem Tracks.state?_through (h : s.Tracks taken) (i : Nat) (f : Slot → SharedStore α)
    (v : Option (State α))
    (hf : ∀ key place, s.store.Leads key place →
      ∀ k, (f place).store.state? k = if k = key then v else s.store.state? k) (k : String) :
    (s.through i f).store.state? k =
      ((taken[i]?.map fun key => (key, v)).toList.lookup k).getD (s.store.state? k) := by
  rcases h.handle i with ⟨hkey, hplace⟩ | ⟨key, place, hkey, hplace, hlead⟩
  · simp [through, hkey, hplace]
  · simp only [through, hkey, hplace]
    exact (hf key place hlead k).trans (getD_lookup_single key k v _).symm

/-- A step does to the map what it says, and nothing to any other key. -/
theorem Tracks.state?_step (h : s.Tracks taken) (x : StoreStep α) (k : String) :
    (s.step x).store.state? k =
      ((x.change? taken).toList.lookup k).getD (s.store.state? k) := by
  cases x with
  | save key st =>
    exact (Store.state?_save s.store key st k).trans (getD_lookup_single key k (some st) _).symm
  | clear key =>
    exact (Store.state?_clear s.store key k).trans (getD_lookup_single key k none _).symm
  | slot key => exact Store.state?_slot s.store key k
  | saveAt i st =>
    exact h.state?_through i _ (some st)
      (fun key place hlead => Store.state?_modifySlot (f := (·.save st)) hlead fun _ => rfl) k
  | reclaimAt i st =>
    refine h.state?_through i _ (some st) (fun key place hlead k => ?_) k
    rw [SharedStore.store_reclaimAt]
    exact Store.state?_modifySlot (f := (·.save st)) hlead (fun _ => rfl) k
  | clearAt i =>
    exact h.state?_through i _ none
      (fun key place hlead => Store.state?_modifySlot (f := Cell.clear) hlead fun _ => rfl) k
  | hold r key =>
    show (s.shared.hold r key).1.store.state? k = s.store.state? k
    rw [SharedStore.store_hold]
    rfl

theorem Tracks.after (h : s.Tracks taken) (steps : List (StoreStep α)) :
    (s.after steps).Tracks (taken ++ steps.filterMap StoreStep.takes?) := by
  induction steps generalizing s taken with
  | nil => simpa [StoreInUse.after] using h
  | cons x xs ih =>
    rw [List.filterMap_eq_flatMap_toList, List.flatMap_cons, ← List.append_assoc,
      ← List.filterMap_eq_flatMap_toList]
    exact ih (h.step x)

theorem Tracks.state?_after (h : s.Tracks taken) (steps : List (StoreStep α)) (k : String) :
    (s.after steps).store.state? k =
      ((changes taken steps).reverse.lookup k).getD (s.store.state? k) := by
  induction steps generalizing s taken with
  | nil => rfl
  | cons x xs ih =>
    have hrest := ih (h.step x)
    rw [h.state?_step] at hrest
    rw [changes, List.reverse_append, List.lookup_append, Option.getD_or]
    have hone : (x.change? taken).toList.reverse = (x.change? taken).toList := by
      cases x.change? taken <;> rfl
    rw [hone]
    exact hrest

/-- A key has a slot only if a step named it. -/
theorem mem_keys_step (h : key ∈ (s.step x).store.slots.keys) :
    key ∈ s.store.slots.keys ∨ x.names? = some key := by
  have hthrough (i : Nat) (f : Slot → SharedStore α)
      (hf : ∀ place, (f place).store.slots.keys = s.store.slots.keys)
      (hm : key ∈ (s.through i f).store.slots.keys) : key ∈ s.store.slots.keys :=
    (through_of (P := (·.store.slots.keys = s.store.slots.keys)) rfl hf i) ▸ hm
  cases x with
  | save k st =>
    have hm : key ∈ (s.store.save k st).slots.keys := h
    rw [Store.save, Store.keys_saveAt] at hm
    exact (Store.mem_keys_slot hm).imp_right fun hk => congrArg some hk.symm
  | clear k => exact .inl (Store.keys_clear (s := s.store) k ▸ h)
  | slot k => exact (Store.mem_keys_slot (s := s.store) h).imp_right fun hk => congrArg some hk.symm
  | saveAt i st => exact .inl (hthrough i _ (fun place => Store.keys_saveAt place st) h)
  | reclaimAt i st =>
    refine .inl (hthrough i _ (fun place => ?_) h)
    rw [SharedStore.store_reclaimAt]
    exact Store.keys_saveAt place st
  | clearAt i => exact .inl (hthrough i _ (fun place => Store.keys_clearAt place) h)
  | hold r k =>
    have hm : key ∈ (s.shared.hold r k).1.store.slots.keys := h
    rw [SharedStore.store_hold] at hm
    exact .inl hm

theorem mem_keys_after (steps : List (StoreStep α)) (h : key ∈ (s.after steps).store.slots.keys) :
    key ∈ s.store.slots.keys ∨ key ∈ steps.filterMap StoreStep.names? := by
  induction steps generalizing s with
  | nil => exact .inl h
  | cons x xs ih =>
    rcases ih h with hm | hm
    · rcases mem_keys_step hm with hm | hname
      · exact .inl hm
      · exact .inr (List.mem_filterMap.mpr ⟨x, List.mem_cons_self, hname⟩)
    · obtain ⟨y, hy, hname⟩ := List.mem_filterMap.mp hm
      exact .inr (List.mem_filterMap.mpr ⟨y, List.mem_cons_of_mem _ hy, hname⟩)

theorem held?_step (h : ∀ key, x ≠ .hold reader key) :
    (s.step x).shared.held? reader = s.shared.held? reader := by
  cases x with
  | saveAt i | reclaimAt i | clearAt i =>
    apply through_of (P := (·.held? reader = s.shared.held? reader)) rfl
    exact fun _ => rfl
  | hold other key =>
    have hne : reader ≠ other := fun hr => h key (hr ▸ rfl)
    exact SharedStore.held?_hold_of_ne hne key
  | save | clear | slot => rfl

theorem held?_after {steps : List (StoreStep α)} (h : ∀ key, .hold reader key ∉ steps) :
    (s.after steps).shared.held? reader = s.shared.held? reader := by
  induction steps generalizing s with
  | nil => rfl
  | cons x xs ih =>
    have hx (key : String) : x ≠ .hold reader key := fun hx => h key (hx ▸ List.mem_cons_self)
    exact (ih fun key hm => h key (List.mem_cons_of_mem _ hm)).trans (held?_step hx)

/-- What a new store shows after these steps. -/
structure ActsAsMap (s : StoreInUse α) (steps : List (StoreStep α)) : Prop where
  shows : ∀ key, s.store.state? key = ((changes [] steps).reverse.lookup key).join
  others : ∀ x key,
    (∀ change, x.change? (steps.filterMap StoreStep.takes?) = some change → change.1 ≠ key) →
    (s.step x).store.state? key = s.store.state? key
  clear_unknown : ∀ key, key ∉ steps.filterMap StoreStep.names? → s.step (.clear key) = s
  /-- The key leads to the slot that a handle taken for it at any time leads to. -/
  handle : ∀ (i : Nat) key, (steps.filterMap StoreStep.takes?)[i]? = some key →
    ∃ slot, s.handles[i]? = some slot ∧ s.store.slot key = (s.store, slot)
  populated : Set.encard {key | (s.store.state? key).isSome} = s.store.populated
  /-- What a reader gets it keeps until it gets something else. -/
  snapshot : ∀ reader key st, s.store.state? key = some st →
    ∀ more, (∀ k, .hold reader k ∉ more) →
      ((s.step (.hold reader key)).after more).shared.held? reader = some st
  reclaims : ∀ place st back, (s.shared.reclaimAt place st).2 = some back →
    ∃ p, (s.store.cellAt place).current = some p ∧ p.value = back ∧
      ∀ reader q, s.shared.readers.find? reader = some (place, q) → q.number ≠ p.number

theorem actsAsMap_after (steps : List (StoreStep α)) :
    (({} : StoreInUse α).after steps).ActsAsMap steps := by
  have hinit : ({} : StoreInUse α).Tracks [] := .nil
  have htracks := hinit.after steps
  rw [List.nil_append] at htracks
  refine ⟨fun key => ?_, fun x key hx => ?_, fun key hkey => ?_, fun i key hkey => ?_,
    Store.encard_state? _, fun reader key st hst more hmore => ?_,
    fun _ _ _ => SharedStore.exists_of_reclaimAt⟩
  · rw [hinit.state?_after]
    cases (changes [] steps).reverse.lookup key <;> rfl
  · rw [htracks.state?_step]
    cases hchange : x.change? (steps.filterMap StoreStep.takes?) with
    | none => rfl
    | some change =>
      exact (getD_lookup_single _ key _ _).trans (if_neg (hx change hchange).symm)
  · have hunknown : key ∉ (({} : StoreInUse α).after steps).store.slots.keys := fun hm =>
      (mem_keys_after steps hm).elim (fun h => nomatch h) hkey
    show StoreInUse.withStore _ (Store.clear _ key) = _
    rw [Store.clear, Named.position?_eq_none_iff.mpr hunknown]
    rfl
  · rcases htracks.handle i with ⟨hnone, -⟩ | ⟨key', place, hkey', hplace, hlead⟩
    · rw [hkey] at hnone
      cases hnone
    · obtain rfl : key = key' := Option.some.inj (hkey.symm.trans hkey')
      refine ⟨place, hplace, ?_⟩
      rw [Store.slot, show Named.position? _ key = some place.index from hlead]
  · rw [held?_after hmore]
    exact SharedStore.held?_hold hst

/-- The handle outlives the state: what it writes later shows under its key. -/
example :
    let s := ({} : StoreInUse Nat).after
      [.slot "load", .save "load" ⟨1, 0⟩, .clear "load", .saveAt 0 ⟨2, 5⟩]
    s.store.state? "load" = some ⟨2, 5⟩ := by
  decide +kernel

end StoreInUse
end HostVitals
