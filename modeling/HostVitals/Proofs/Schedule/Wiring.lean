import HostVitals.Proofs.Schedule.Fresh
import Mathlib.Data.List.Nodup

/-! Loops publish under keys of their own: each has the slot of its key for good, and no two have
the same key. So what one loop does shows under no other key. -/
namespace HostVitals

namespace Loop
variable {σ α : Type} {now : Nat} {cancelled : Bool} {l l' : Loop σ α} {w w' : World σ α}

section finish
variable (l : Loop σ α) (due started now : Nat) (o : Outcome α) (w : World σ α)

theorem finish_store : (l.finish due started now o w).2.store =
    match o.value? with
    | some v => w.store.saveAt l.slot ⟨v, now⟩
    | none => w.store := by
  unfold finish
  cases o.value? <;> rfl

theorem leads_finish {k : String} {place : Slot} (h : w.store.Leads k place) :
    (l.finish due started now o w).2.store.Leads k place := by
  rw [finish_store]
  cases o.value? with
  | none => exact h
  | some v => exact Store.leads_modifySlot.mpr h

/-- A value goes to the key of the loop. -/
theorem state?_finish (h : w.store.Leads l.key l.slot) (k : String) :
    (l.finish due started now o w).2.store.state? k =
      if k = l.key then (o.value?.map (⟨·, now⟩)).or (w.store.state? k) else w.store.state? k := by
  rw [finish_store]
  cases o.value? with
  | none => simp
  | some v =>
    simpa [Store.saveAt] using
      Store.state?_modifySlot (f := (·.save ⟨v, now⟩)) h (fun _ => rfl) k

end finish

theorem Turn.leads (t : l.Turn now cancelled w l' w') {k : String} {place : Slot}
    (h : w.store.Leads k place) : w'.store.Leads k place := by
  cases t with
  | stop waits off => exact h
  | start waits on ripe => exact h
  | spend waits on ripe => exact h
  | @finish due started r runs isOver => exact leads_finish l due started now r.outcome w h

theorem Turn.state?_of_ne (t : l.Turn now cancelled w l' w') (h : w.store.Leads l.key l.slot)
    {k : String} (hk : k ≠ l.key) : w'.store.state? k = w.store.state? k := by
  cases t with
  | stop waits off => rfl
  | start waits on ripe => rfl
  | spend waits on ripe => rfl
  | @finish due started r runs isOver =>
    rw [state?_finish l due started now r.outcome w h, if_neg hk]

theorem Turn.key_eq (t : l.Turn now cancelled w l' w') : l'.key = l.key :=
  congrArg Prod.fst t.identity_eq

theorem key_settle (now : Nat) (cancelled : Bool) (fuel : Nat) (l : Loop σ α) (w : World σ α) :
    (settle now cancelled fuel l w).1.key = l.key :=
  congrArg Prod.fst (identity_settle now cancelled fuel l w)

theorem Turn.slot_eq (t : l.Turn now cancelled w l' w') : l'.slot = l.slot :=
  congrArg (·.2.1) t.identity_eq

end Loop

namespace Scheduler
variable {σ α : Type} {s : Scheduler σ α}

structure Wired (s : Scheduler σ α) : Prop where
  nodup : s.keys.Nodup
  leads : ∀ l ∈ s.loops, s.world.store.Leads l.key l.slot

theorem Wired.eq_of_key_eq (h : s.Wired) {l x : Loop σ α} (hl : l ∈ s.loops) (hx : x ∈ s.loops)
    (hk : x.key = l.key) : x = l := List.inj_on_of_nodup_map h.nodup hx hl hk

theorem Wired.find?_of_mem (h : s.Wired) {l : Loop σ α} (hl : l ∈ s.loops) :
    s.find? l.key = some l := by
  cases hf : s.find? l.key with
  | none => simpa using List.find?_eq_none.mp hf l hl
  | some x =>
    rw [h.eq_of_key_eq hl (mem_of_find? hf) (key_of_find? hf)]

theorem mem_turned_of_nodup (h : s.keys.Nodup) {i : Nat} {l l' x : Loop σ α} {w' : World σ α}
    (hl : s.loops[i]? = some l) (hx : x ∈ (s.turned i l' w').loops) :
    x = l' ∨ x ∈ s.loops ∧ x.key ≠ l.key := by
  obtain ⟨j, hj⟩ := List.mem_iff_getElem?.mp hx
  simp only [turned, List.getElem?_set] at hj
  by_cases hij : i = j
  · subst hij
    obtain ⟨hi, -⟩ := List.getElem?_eq_some_iff.mp hl
    simp only [if_true, hi, Option.some.injEq] at hj
    exact .inl hj.symm
  · simp only [hij, if_false] at hj
    refine .inr ⟨List.mem_of_getElem? hj, fun hk => hij ?_⟩
    have hi : s.keys[i]? = some l.key := by simp [keys, hl]
    have hj' : s.keys[j]? = some l.key := by simp [keys, hj, hk]
    have hlt : i < s.keys.length := (List.getElem?_eq_some_iff.mp hi).1
    exact (List.getElem?_inj hlt h).mp (hi.trans hj'.symm)

theorem keys_armed (s : Scheduler σ α) : s.armed.keys = s.keys := by
  rw [keys, armed, List.map_map]
  rfl

theorem invariant_wired : Invariant (Wired (σ := σ) (α := α)) where
  turn s i l l' w' h hl ht := by
    have hkeys : (s.turned i l' w').keys = s.keys := map_turned hl ht.key_eq
    refine ⟨hkeys ▸ h.nodup, fun x hx => ?_⟩
    rcases mem_turned hx with hx | rfl
    · exact ht.leads (h.leads x hx)
    · rw [ht.key_eq, ht.slot_eq]
      exact ht.leads (h.leads l (List.mem_of_getElem? hl))
  pass s h _ := ⟨h.nodup, h.leads⟩
  arm s h _ := by
    refine ⟨s.keys_armed ▸ h.nodup, fun x hx => ?_⟩
    obtain ⟨l, hl, rfl⟩ := List.mem_map.mp hx
    exact h.leads l hl
  cancel s h _ := ⟨h.nodup, h.leads⟩

theorem wired_withStore (r : Registry (Producer σ α)) (store : Store α) (around : σ) :
    (withStore r store around).Wired where
  nodup := by
    rw [keys_withStore]
    exact r.jobs.nodup_keys
  leads := leads_withStore r store around

theorem Wired.outside (h : s.Wired) {x : Step α} (hx : x.isOutside = true) :
    (s.step x).Wired := by
  cases x with
  | save key value => exact ⟨h.nodup, fun l hl => (h.leads l hl).save key ⟨value, s.now⟩⟩
  | clear key => exact ⟨h.nodup, fun l hl => (h.leads l hl).clear key⟩
  | _ => simp [Step.isOutside] at hx

theorem wired_after (h : s.Wired) (hs : s.Still) (steps : List (Step α)) :
    (s.after steps).Wired :=
  invariant_wired.after h hs steps fun _ _ hx _ h => h.outside hx

/-- What is written to other keys does not show. -/
theorem state?_outside {x : Step α} (hx : x.isOutside = true) {key : String}
    (hk : x.writes key = false) :
    (s.step x).world.store.state? key = s.world.store.state? key := by
  cases x with
  | save k value =>
    have hne : key ≠ k := by
      rintro rfl
      simp [Step.writes] at hk
    exact (Store.state?_save _ _ _ _).trans (if_neg hne)
  | clear k =>
    have hne : key ≠ k := by
      rintro rfl
      simp [Step.writes] at hk
    exact (Store.state?_clear _ _ _).trans (if_neg hne)
  | _ => simp [Step.isOutside] at hx

/-- The answer to a question for a metric that has a loop. -/
theorem current_of_find? (h : s.Wired) {key : String} {l : Loop σ α}
    (hf : s.find? key = some l) :
    s.current key = Current.ofState l.interval s.now (s.world.store.state? key) := by
  have hl := mem_of_find? hf
  simp only [current, hf]
  rw [Store.stateAt_eq_state? (h.leads l hl), key_of_find? hf]

end Scheduler
end HostVitals
