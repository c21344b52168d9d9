import HostVitals.Schedule.Registration
import HostVitals.Proofs.Agent.Jobs

/-! Which calls of a registry are accepted, and that its jobs, the keys that it keeps beside them and
the jobs of a schedule made from it are those of the accepted calls in their order, whatever was
refused between them. -/
namespace HostVitals

namespace RegistryCall
variable {σ α : Type} {l : List (RegistryCall σ α)}

def accept (l : List (RegistryCall σ α)) (c : RegistryCall σ α) : List (RegistryCall σ α) :=
  if c.key ≠ "" ∧ 0 < c.interval ∧ c.key ∉ l.map key then l ++ [c] else l

def accepted (calls : List (RegistryCall σ α)) : List (RegistryCall σ α) := calls.foldl accept []

def order (c : RegistryCall σ α) : Nat × Producer σ α := (c.interval, c.task.toProducer)

theorem nodup_accept (h : (l.map key).Nodup) (c : RegistryCall σ α) :
    ((accept l c).map key).Nodup := by
  unfold accept
  split
  · next hc =>
    rw [List.map_append, List.nodup_append]
    refine ⟨h, by simp, ?_⟩
    rintro k hk k' hk' rfl
    exact hc.2.2 (List.mem_singleton.mp hk' ▸ hk)
  · exact h

theorem nodup_accepted (calls : List (RegistryCall σ α)) : ((accepted calls).map key).Nodup := by
  have hstart : (([] : List (RegistryCall σ α)).map key).Nodup := List.nodup_nil
  exact List.foldlRecOn (motive := fun l => (l.map key).Nodup) calls accept hstart
    fun _ h c _ => nodup_accept h c

end RegistryCall

namespace Registry
open RegistryCall (accept accepted)
variable {σ α π : Type} {r : Registry (Producer σ α)} {calls l : List (RegistryCall σ α)}
  {c : RegistryCall σ α}

theorem contains_iff {r : Registry π} {key : String} :
    r.contains key = true ↔ key ∈ r.jobs.keys := by
  rw [contains, Named.contains, ← not_iff_not, ← Named.position?_eq_none_iff,
    Named.find?_eq_position?]
  cases h : r.jobs.position? key with
  | none => simp
  | some i =>
    obtain ⟨a, ha, -⟩ := Named.exists_find?_of_position? h
    simp [ha]

def Holds (r : Registry (Producer σ α)) (l : List (RegistryCall σ α)) : Prop :=
  r.listing = l.map fun c => (c.key, c.order)

theorem Holds.keys_eq (h : r.Holds l) : r.jobs.keys = l.map RegistryCall.key := by
  have hkeys := congrArg (List.map Prod.fst) h
  rw [listing, List.map_map, List.map_map] at hkeys
  exact hkeys

inductive Called (l : List (RegistryCall σ α)) (c : RegistryCall σ α) :
    Except RegistryError (Registry (Producer σ α)) → Prop where
  | unnamed (unnamed : c.key = "") : Called l c (.error .emptyKey)
  | idle (named : c.key ≠ "") (idle : c.interval = 0) : Called l c (.error (.zeroInterval c.key))
  | known (named : c.key ≠ "") (busy : 0 < c.interval) (known : c.key ∈ l.map RegistryCall.key) :
    Called l c (.error (.duplicateKey c.key))
  | new (named : c.key ≠ "") (busy : 0 < c.interval) (new : c.key ∉ l.map RegistryCall.key)
    {r : Registry (Producer σ α)} (holds : r.Holds (l ++ [c])) : Called l c (.ok r)

theorem Holds.called (h : r.Holds l) (c : RegistryCall σ α) : Called l c (r.call c) := by
  by_cases hkey : c.key = ""
  · have hrefused : r.call c = .error .emptyKey := by simp [call, register, hkey]
    exact hrefused ▸ .unnamed hkey
  · rcases Nat.eq_zero_or_pos c.interval with hidle | hbusy
    · have hrefused : r.call c = .error (.zeroInterval c.key) := by
        simp [call, register, hkey, hidle]
      exact hrefused ▸ .idle hkey hidle
    · by_cases hknown : c.key ∈ l.map RegistryCall.key
      · have hcontains : r.jobs.contains c.key = true :=
          contains_iff.mpr (h.keys_eq ▸ hknown)
        have hrefused : r.call c = .error (.duplicateKey c.key) := by
          simp [call, register, hkey, Nat.ne_of_gt hbusy, hcontains]
        exact hrefused ▸ .known hkey hbusy hknown
      · have hfresh : c.key ∉ r.jobs.keys := h.keys_eq ▸ hknown
        rw [call, register_of_fresh c.task.toProducer hkey hbusy hfresh]
        refine .new hkey hbusy hknown ?_
        have hlisting : r.listing = l.map fun c => (c.key, c.order) := h
        simp only [Holds, listing, Named.entries_insert_of_not_mem _ hfresh] at hlisting ⊢
        rw [List.map_append, List.map_append, hlisting]
        rfl

section Called
variable {a : Except RegistryError (Registry (Producer σ α))}

theorem Called.eq_emptyKey_iff (h : Called l c a) : a = .error .emptyKey ↔ c.key = "" := by
  cases h with
  | unnamed unnamed => simp [unnamed]
  | idle named idle => simp [named]
  | known named busy known => simp [named]
  | new named busy new holds => simp [named]

theorem Called.eq_zeroInterval_iff (h : Called l c a) :
    a = .error (.zeroInterval c.key) ↔ c.key ≠ "" ∧ c.interval = 0 := by
  cases h with
  | unnamed unnamed => simp [unnamed]
  | idle named idle => simp [named, idle]
  | known named busy known => simp [Nat.ne_of_gt busy]
  | new named busy new holds => simp [Nat.ne_of_gt busy]

theorem Called.eq_duplicateKey_iff (h : Called l c a) : a = .error (.duplicateKey c.key) ↔
    c.key ≠ "" ∧ 0 < c.interval ∧ c.key ∈ l.map RegistryCall.key := by
  cases h with
  | unnamed unnamed => simp [unnamed]
  | idle named idle => simp [idle]
  | known named busy known => exact iff_of_true rfl ⟨named, busy, known⟩
  | new named busy new holds => exact iff_of_false nofun fun h => new h.2.2

theorem Called.error_mem {e : RegistryError} (h : Called l c (.error e)) :
    e ∈ [.emptyKey, .zeroInterval c.key, .duplicateKey c.key] := by
  cases h with
  | unnamed unnamed => simp
  | idle named idle => simp
  | known named busy known => simp

theorem Called.accept_eq (h : Called l c a) : accept l c = if a.isOk then l ++ [c] else l := by
  unfold accept
  cases h with
  | unnamed unnamed => simp [unnamed, Except.isOk, Except.toBool]
  | idle named idle => simp [idle, Except.isOk, Except.toBool]
  | known named busy known => simp only [known, not_true, and_false, if_false]; rfl
  | new named busy new holds => rw [if_pos ⟨named, busy, new⟩]; rfl

end Called

theorem Holds.step (h : r.Holds l) (c : RegistryCall σ α) : (r.step c).Holds (accept l c) := by
  have hcalled := h.called c
  rw [hcalled.accept_eq, Registry.step]
  generalize r.call c = a at hcalled ⊢
  cases hcalled with
  | new named busy new holds => exact holds
  | _ => exact h

theorem Holds.after (h : r.Holds l) (calls : List (RegistryCall σ α)) :
    (r.after calls).Holds (calls.foldl accept l) := by
  induction calls generalizing r l with
  | nil => exact h
  | cons c calls ih => exact ih (h.step c)

theorem holds_after (calls : List (RegistryCall σ α)) : (after {} calls).Holds (accepted calls) := by
  have hstart : Holds ({} : Registry (Producer σ α)) [] := rfl
  exact hstart.after calls

end Registry

namespace Ledger
variable {σ α : Type} {b : Ledger (Producer σ α)} {r : Registry (Producer σ α)}
  {c : RegistryCall σ α}

structure Keeps (b : Ledger (Producer σ α)) (r : Registry (Producer σ α)) : Prop where
  jobs : b.jobs = r.jobs.entries
  keys : ∀ key, key ∈ b.keys ↔ key ∈ r.jobs.keys

theorem Keeps.call_error (h : b.Keeps r) {e : RegistryError} (hr : r.call c = .error e) :
    b.call c = (.error e, b) := by
  unfold Registry.call Registry.register at hr
  unfold call register enter
  split at hr
  · next hkey =>
    cases hr
    rw [if_pos hkey]
  · next hkey =>
    rw [if_neg hkey]
    split at hr
    · next hidle =>
      cases hr
      rw [dif_pos hidle]
    · next hbusy =>
      rw [dif_neg hbusy]
      split at hr
      · next hcontains =>
        cases hr
        have hknown := (h.keys c.key).mpr (Registry.contains_iff.mp hcontains)
        simp [hknown]
      · cases hr

theorem Keeps.call_ok (h : b.Keeps r) {r' : Registry (Producer σ α)} (hr : r.call c = .ok r') :
    (b.call c).1 = .ok () ∧ (b.call c).2.Keeps r' := by
  unfold Registry.call Registry.register at hr
  unfold call register enter
  split at hr
  · cases hr
  · next hkey =>
    rw [if_neg hkey]
    split at hr
    · cases hr
    · next hbusy =>
      rw [dif_neg hbusy]
      split at hr
      · cases hr
      · next hcontains =>
        cases hr
        have hfresh : c.key ∉ r.jobs.keys := mt Registry.contains_iff.mpr hcontains
        rw [if_neg (mt (h.keys c.key).mp hfresh)]
        refine ⟨rfl, ?_, fun key => ?_⟩
        · rw [Named.entries_insert_of_not_mem _ hfresh, ← h.jobs]
          rfl
        · rw [Named.mem_keys_insert, ← h.keys key]
          exact List.mem_cons.trans or_comm

theorem Keeps.call_fst (h : b.Keeps r) (c : RegistryCall σ α) :
    (b.call c).1 = (r.call c).map fun _ => () := by
  cases hr : r.call c with
  | error e => rw [h.call_error hr]; rfl
  | ok r' => exact (h.call_ok hr).1

theorem Keeps.step (h : b.Keeps r) (c : RegistryCall σ α) : (b.call c).2.Keeps (r.step c) := by
  rw [Registry.step]
  cases hr : r.call c with
  | error e => rwa [h.call_error hr]
  | ok r' => exact (h.call_ok hr).2

theorem Keeps.after (h : b.Keeps r) (calls : List (RegistryCall σ α)) :
    (b.after calls).Keeps (r.after calls) := by
  induction calls generalizing b r with
  | nil => exact h
  | cons c calls ih => exact ih (h.step c)

theorem keeps_after (calls : List (RegistryCall σ α)) :
    (after {} calls).Keeps (Registry.after {} calls) := by
  have hstart : Keeps ({} : Ledger (Producer σ α)) {} := ⟨rfl, fun _ => Iff.rfl⟩
  exact hstart.after calls

theorem Keeps.fst_eq_error_iff (h : b.Keeps r) {e : RegistryError} :
    (b.call c).1 = .error e ↔ r.call c = .error e := by
  rw [h.call_fst]
  cases r.call c <;> simp [Except.map]

theorem Keeps.isOk_fst (h : b.Keeps r) (c : RegistryCall σ α) :
    (b.call c).1.isOk = (r.call c).isOk := by
  rw [h.call_fst]
  cases r.call c <;> rfl

end Ledger

namespace Scheduler
variable {σ α : Type} {s : Scheduler σ α} {r : Registry (Producer σ α)}
  {l : List (RegistryCall σ α)}

structure TellsJobs (s : Scheduler σ α) (l : List (RegistryCall σ α)) : Prop where
  keys : s.keys = l.map RegistryCall.key
  nodup : s.keys.Nodup
  size : s.size = l.length
  contains : ∀ key, s.contains key = true ↔ key ∈ s.keys
  found : ∀ key, (s.find? key).map (fun x => (x.interval, x.producer)) =
    (l.map fun c => (c.key, c.order)).lookup key
  interval : ∀ key, s.interval? key = ((l.map fun c => (c.key, c.order)).lookup key).map Prod.fst
  byKey : ∀ key, s.byKey.find? key = s.find? key

theorem contains_iff {key : String} : s.contains key = true ↔ key ∈ s.keys := by
  simp [contains, find?, keys]

theorem lookup_loops (loops : List (Loop σ α)) (key : String) :
    (loops.map fun x => (x.key, x)).lookup key = loops.find? fun x => x.key == key := by
  induction loops with
  | nil => rfl
  | cons x loops ih =>
    rw [List.map_cons, lookup_cons_ite, ih, List.find?_cons]
    by_cases hkey : key = x.key
    · simp [hkey]
    · rw [if_neg hkey, beq_false_of_ne (Ne.symm hkey)]

/-- The map beside the list finds the jobs that are in the list. -/
theorem find?_byKey (h : s.keys.Nodup) (key : String) : s.byKey.find? key = s.find? key := by
  have hnodup : ((s.loops.map fun x => (x.key, x)).map Prod.fst).Nodup := by
    rw [List.map_map]
    exact h
  rw [byKey, Named.find?_ofList hnodup, lookup_loops, find?]

theorem tellsJobs_after (h : r.Holds l) (store : Store α) (around : σ) (steps : List (Step α)) :
    ((withStore r store around).after steps).TellsJobs l := by
  have hjobs := jobs_after r store around steps
  have hkeys : ((withStore r store around).after steps).keys = l.map RegistryCall.key := by
    have hfirst := congrArg (List.map Prod.fst) hjobs
    rw [List.map_map] at hfirst
    exact hfirst.trans h.keys_eq
  have hfound (key : String) : (((withStore r store around).after steps).find? key).map
      (fun x => (x.interval, x.producer)) = (l.map fun c => (c.key, c.order)).lookup key := by
    have hlisting : r.listing.lookup key =
        (r.jobs.find? key).map fun job => (job.interval, job.producer) :=
      r.jobs.find?_map (fun _ job => (job.interval, job.producer)) key
    have hfind := find?_map_job ((withStore r store around).after steps) key
    rw [hjobs, ← Named.find?.eq_def] at hfind
    rw [← h, hlisting, ← hfind, Option.map_map]
    rfl
  have hnodup :=
    (wired_after (wired_withStore r store around) (still_withStore r store around) steps).nodup
  refine ⟨hkeys, hnodup, ?_, fun _ => contains_iff, hfound, fun key => ?_, find?_byKey hnodup⟩
  · simpa [keys, size] using congrArg List.length hkeys
  · rw [← hfound, interval?, Option.map_map]
    rfl

end Scheduler

namespace Ledger
open RegistryCall (accepted)
variable {σ α : Type}

structure Records (calls : List (RegistryCall σ α)) (b : Ledger (Producer σ α)) : Prop where
  unnamed_iff : ∀ c, (b.call c).1 = .error .emptyKey ↔ c.key = ""
  idle_iff : ∀ c, (b.call c).1 = .error (.zeroInterval c.key) ↔ c.key ≠ "" ∧ c.interval = 0
  known_iff : ∀ c, (b.call c).1 = .error (.duplicateKey c.key) ↔
    c.key ≠ "" ∧ 0 < c.interval ∧ ∃ d ∈ accepted calls, d.key = c.key
  refused : ∀ c e, (b.call c).1 = .error e →
    e ∈ [.emptyKey, .zeroInterval c.key, .duplicateKey c.key] ∧ (b.call c).2 = b
  /-- The accepted calls are those that were not refused. -/
  accepted_snoc : ∀ c, accepted (calls ++ [c]) =
    if (b.call c).1.isOk then accepted calls ++ [c] else accepted calls
  jobs : b.jobs.map (fun e => (e.1, e.2.interval, e.2.producer)) =
    (accepted calls).map fun c => (c.key, c.interval, c.task.toProducer)
  nodup : ((accepted calls).map RegistryCall.key).Nodup
  contains : ∀ key, b.contains key = true ↔ ∃ d ∈ accepted calls, d.key = key
  size : b.size = (accepted calls).length
  /-- A schedule is made from the registry with these jobs. -/
  scheduled : ∃ r : Registry (Producer σ α), r.jobs.entries = b.jobs ∧ ∀ store around steps,
    ((Scheduler.withStore r store around).after steps).TellsJobs (accepted calls)

end Ledger
end HostVitals
