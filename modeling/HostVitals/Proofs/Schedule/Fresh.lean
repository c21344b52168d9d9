import HostVitals.Proofs.Handles
import HostVitals.Proofs.Schedule.Invariant

/-! A schedule that has just been made: a loop for each job, none of which has done anything, with
the slots of their keys. What the jobs are never changes afterwards. -/
namespace HostVitals

theorem Registry.find?_single {π : Type} (key : String) (job : Job π) :
    (Registry.single key job).jobs.find? key = some job := by
  simp [Registry.single, Named.find?, Named.insert, setEntry]

namespace Loop
variable {σ α : Type} {now : Nat} {cancelled : Bool} {l l' : Loop σ α} {w w' : World σ α}

def job (l : Loop σ α) : Job (Producer σ α) := ⟨l.interval, l.producer, l.interval_pos⟩

def identity (l : Loop σ α) : String × Slot × Job (Producer σ α) := (l.key, l.slot, l.job)

structure Fresh (l : Loop σ α) : Prop where
  phase : l.phase = none
  calls : l.calls = 0
  stats : l.stats = {}
  history : l.history = []

theorem Turn.identity_eq (h : l.Turn now cancelled w l' w') : l'.identity = l.identity := by
  cases h <;> rfl

theorem identity_settle (now : Nat) (cancelled : Bool) (fuel : Nat) (l : Loop σ α)
    (w : World σ α) : (settle now cancelled fuel l w).1.identity = l.identity :=
  settle_keeps (P := fun x _ => x.identity = l.identity)
    (fun _ _ _ _ h t => t.identity_eq.trans h) fuel rfl

theorem Turn.phase_ne_none (h : l.Turn now cancelled w l' w') :
    l.phase ≠ none ∧ l'.phase ≠ none := by
  cases h with
  | stop waits off => simp [waits]
  | start waits on ripe => simp [waits, start_phase]
  | spend waits on ripe => simp [waits]
  | finish runs isOver => simp [runs, finish_phase]

end Loop

namespace Scheduler
variable {σ α : Type} {s : Scheduler σ α}

section loopsOf
variable (jobs : List (String × Job (Producer σ α))) (store : Store α)

theorem jobs_loopsOf : (loopsOf jobs store).1.map (fun l => (l.key, l.job)) = jobs := by
  induction jobs generalizing store with
  | nil => rfl
  | cons e jobs ih =>
    simp only [loopsOf, List.map_cons, ih]
    rfl

theorem fresh_loopsOf : ∀ l ∈ (loopsOf jobs store).1, l.Fresh := by
  induction jobs generalizing store with
  | nil => simp [loopsOf]
  | cons e jobs ih =>
    intro l hl
    simp only [loopsOf, List.mem_cons] at hl
    rcases hl with rfl | hl
    · exact ⟨rfl, rfl, rfl, rfl⟩
    · exact ih _ l hl

theorem state?_loopsOf (k : String) : (loopsOf jobs store).2.state? k = store.state? k := by
  induction jobs generalizing store with
  | nil => rfl
  | cons e jobs ih =>
    simp only [loopsOf]
    rw [ih, Store.state?_slot]

theorem leads_loopsOf_of_leads {key : String} {place : Slot} (h : store.Leads key place) :
    (loopsOf jobs store).2.Leads key place := by
  induction jobs generalizing store with
  | nil => exact h
  | cons e jobs ih => exact ih _ (h.slot e.1)

theorem leads_loopsOf :
    ∀ l ∈ (loopsOf jobs store).1, (loopsOf jobs store).2.Leads l.key l.slot := by
  induction jobs generalizing store with
  | nil => simp [loopsOf]
  | cons e jobs ih =>
    intro l hl
    simp only [loopsOf, List.mem_cons] at hl
    rcases hl with rfl | hl
    · exact leads_loopsOf_of_leads jobs _ (store.leads_slot e.1)
    · exact ih _ l hl

end loopsOf

section withStore
variable (r : Registry (Producer σ α)) (store : Store α) (around : σ)

theorem fresh_withStore : ∀ l ∈ (withStore r store around).loops, l.Fresh :=
  fresh_loopsOf r.jobs.entries store

theorem keys_withStore : (withStore r store around).keys = r.jobs.keys := by
  have h := congrArg (List.map Prod.fst) (jobs_loopsOf r.jobs.entries store)
  rw [List.map_map] at h
  exact h

theorem leads_withStore : ∀ l ∈ (withStore r store around).loops,
    (withStore r store around).world.store.Leads l.key l.slot :=
  leads_loopsOf r.jobs.entries store

theorem state?_withStore (k : String) :
    (withStore r store around).world.store.state? k = store.state? k :=
  state?_loopsOf r.jobs.entries store k

theorem still_withStore : (withStore r store around).Still := by
  intro l hl
  simp [Loop.Still, (fresh_withStore r store around l hl).phase]

end withStore

theorem mem_turned {i : Nat} {l' x : Loop σ α} {w' : World σ α}
    (h : x ∈ (s.turned i l' w').loops) : x ∈ s.loops ∨ x = l' := List.mem_or_eq_of_mem_set h

theorem mem_turned_of_mem {i : Nat} {l x : Loop σ α} (l' : Loop σ α) (w' : World σ α)
    (hl : s.loops[i]? = some l) (hx : x ∈ s.loops) :
    l' ∈ (s.turned i l' w').loops ∧ (x = l ∨ x ∈ (s.turned i l' w').loops) := by
  obtain ⟨hi, -⟩ := List.getElem?_eq_some_iff.mp hl
  refine ⟨List.mem_set hi l', ?_⟩
  obtain ⟨j, hj⟩ := List.mem_iff_getElem?.mp hx
  by_cases hij : i = j
  · exact .inl (Option.some.inj (hj.symm.trans (hij ▸ hl)))
  · exact .inr (List.mem_of_getElem? (by rw [turned, List.getElem?_set_ne hij, hj]))

/-- What a turn leaves as it is for the loop is left as it is for all loops. -/
theorem map_turned {β : Type} {f : Loop σ α → β} {i : Nat} {l l' : Loop σ α} {w' : World σ α}
    (hl : s.loops[i]? = some l) (hf : f l' = f l) :
    (s.turned i l' w').loops.map f = s.loops.map f := by
  obtain ⟨hi, rfl⟩ := List.getElem?_eq_some_iff.mp hl
  have hi' : i < (s.loops.map f).length := by simpa using hi
  have hget : (s.loops.map f)[i] = f l' := by rw [List.getElem_map, hf]
  rw [turned, List.map_set, ← hget, List.set_getElem_self]

theorem invariant_identity (ids : List (String × Slot × Job (Producer σ α))) :
    Invariant fun s : Scheduler σ α => s.loops.map Loop.identity = ids where
  turn s i l l' w' h hl ht := (map_turned hl ht.identity_eq).trans h
  pass s h _ := h
  arm s h _ := by
    rw [← h, armed, List.map_map]
    rfl
  cancel s h _ := h

/-- The loops stay those of the same jobs in the same order, each with its slot. -/
theorem identity_after (h : s.Still) (steps : List (Step α)) :
    (s.after steps).loops.map Loop.identity = s.loops.map Loop.identity :=
  (invariant_identity _).after_of_ignores rfl h steps fun _ _ h => h

theorem Still.jobs_after (h : s.Still) (steps : List (Step α)) :
    (s.after steps).loops.map (fun l => (l.key, l.job)) = s.loops.map fun l => (l.key, l.job) := by
  have hids := congrArg (List.map fun i => (i.1, i.2.2)) (identity_after h steps)
  rwa [List.map_map, List.map_map] at hids

theorem jobs_after (r : Registry (Producer σ α)) (store : Store α) (around : σ)
    (steps : List (Step α)) :
    ((withStore r store around).after steps).loops.map (fun l => (l.key, l.job)) =
      r.jobs.entries :=
  ((still_withStore r store around).jobs_after steps).trans (jobs_loopsOf r.jobs.entries store)

theorem find?_map_job (s : Scheduler σ α) (key : String) :
    (s.find? key).map Loop.job = (s.loops.map fun l => (l.key, l.job)).lookup key := by
  unfold find?
  induction s.loops with
  | nil => rfl
  | cons l ls ih =>
    by_cases hk : l.key = key
    · simp [hk]
    · have hk' : (key == l.key) = false := by simpa using Ne.symm hk
      rw [List.map_cons, List.lookup_cons, hk']
      simpa [hk] using ih

theorem key_of_find? {key : String} {l : Loop σ α} (h : s.find? key = some l) : l.key = key := by
  simpa using List.find?_some h

/-- The loop of a registered job is found under its key at any time. -/
theorem exists_find?_after {r : Registry (Producer σ α)} {key : String} {job : Job (Producer σ α)}
    (h : r.jobs.find? key = some job) (store : Store α) (around : σ) (steps : List (Step α)) :
    ∃ l, ((withStore r store around).after steps).find? key = some l ∧ l.key = key ∧
      l.job = job := by
  have hjob := find?_map_job ((withStore r store around).after steps) key
  rw [jobs_after, show r.jobs.entries.lookup key = some job from h] at hjob
  obtain ⟨l, hfind, hl⟩ := Option.map_eq_some_iff.mp hjob
  exact ⟨l, hfind, key_of_find? hfind, hl⟩

theorem mem_of_find? {key : String} {l : Loop σ α} (h : s.find? key = some l) : l ∈ s.loops :=
  List.mem_of_find?_eq_some h

end Scheduler
end HostVitals
