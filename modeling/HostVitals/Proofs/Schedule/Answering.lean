import HostVitals.Proofs.Report.Reply
import HostVitals.Proofs.Schedule.Wiring

/-! Which questions for a metric can be answered. Nothing bounds an interval from above, so that an
answer goes out of range for some of the intervals that a registry accepts. -/
namespace HostVitals

namespace Scheduler
variable {σ : Type} {s : Scheduler σ Sample} {key : String} {interval : Nat}

def reply (clock : Nat → String) (s : Scheduler σ Sample) (key : String) :
    Except Overflow Reply :=
  (s.current key).bind (Reply.ofCurrent clock key)

/-- What becomes of a question for a key whose job has this interval and whose state is the given
one: which parts of the answer there are, and what it breaks off with otherwise. -/
structure Answers (clock : Nat → String) (s : Scheduler σ Sample) (key : String) (interval : Nat)
    (state : Option (State Sample)) : Prop where
  current_iff : (∃ c, s.current key = .ok c) ↔
    ∀ st, state = some st → st.taken + interval < instantLimit
  reply_iff : (∃ reply, s.reply clock key = .ok reply) ↔ InRange interval state
  error_eq : ∀ e, s.reply clock key = .error e → e = if state.isSome then .instant else .add

theorem answers_of_state (clock : Nat → String) {st : State Sample}
    (h : s.current key = Current.ofState interval s.now (some st)) :
    s.Answers clock key interval (some st) := by
  by_cases hlt : st.taken + interval < instantLimit
  · obtain ⟨c, hc, hshows⟩ := Current.ofState_some_shows s.now hlt
    obtain ⟨reply, hreply, -⟩ := Reply.ofCurrent_repeats clock key interval hshows hlt
    rw [hc] at h
    have hall : s.reply clock key = .ok reply := by
      rw [Scheduler.reply, h]
      exact hreply
    exact ⟨by simp [h, hlt], by simp [hall, InRange, hlt], by simp [hall]⟩
  · rw [Current.ofState_some_of_le s.now (Nat.not_lt.mp hlt)] at h
    have hall : s.reply clock key = .error .instant := by
      rw [Scheduler.reply, h]
      rfl
    exact ⟨by simp [h, hlt], by simp [hall, InRange, hlt], by simp [hall]⟩

theorem answers_of_no_state (clock : Nat → String)
    (h : s.current key = Current.ofState interval s.now none) :
    s.Answers clock key interval none := by
  obtain ⟨c, hc, hshows⟩ := Current.ofState_none_shows Sample interval s.now
  rw [hc] at h
  have hreply : s.reply clock key = Reply.ofCurrent clock key c := by
    rw [Scheduler.reply, h]
    rfl
  by_cases hle : interval ≤ Span.ofSeconds Text.maxU64
  · obtain ⟨reply, hall, -⟩ := Reply.ofCurrent_repeats clock key interval hshows hle
    rw [hall] at hreply
    exact ⟨by simp [h], by simp [hreply, InRange, hle], by simp [hreply]⟩
  · rw [Reply.ofCurrent_of_not_inRange clock key hshows (Nat.not_le.mp hle)] at hreply
    exact ⟨by simp [h], by simp [hreply, InRange, hle], by simp [hreply]⟩

section after
variable (r : Registry (Producer σ Sample)) (store : Store Sample) (around : σ)
  (steps : List (Step Sample))

theorem current_after_of_unregistered (h : r.jobs.find? key = none) :
    ((withStore r store around).after steps).current key = .ok {} := by
  have hjob := find?_map_job ((withStore r store around).after steps) key
  rw [jobs_after, show r.jobs.entries.lookup key = none from h, Option.map_eq_none_iff] at hjob
  simp [current, hjob]

theorem current_after {job : Job (Producer σ Sample)} (h : r.jobs.find? key = some job) :
    let s := (withStore r store around).after steps
    s.current key = Current.ofState job.interval s.now (s.world.store.state? key) := by
  intro s
  have hwired : s.Wired :=
    wired_after (wired_withStore r store around) (still_withStore r store around) steps
  obtain ⟨l, hl, -, rfl⟩ := exists_find?_after h store around steps
  exact current_of_find? hwired hl

end after

/-- A key without a job is always answered. One with a job is answered exactly as long as neither
the instant of its next update nor the seconds to wait go out of range. -/
theorem answers_after (r : Registry (Producer σ Sample)) (store : Store Sample) (around : σ)
    (steps : List (Step Sample)) (clock : Nat → String) (key : String) :
    let s := (withStore r store around).after steps
    match r.jobs.find? key with
    | none => ∃ c reply, s.current key = .ok c ∧ s.reply clock key = .ok reply
    | some job => s.Answers clock key job.interval (s.world.store.state? key) := by
  intro s
  cases hjob : r.jobs.find? key with
  | none =>
    have hcurrent : s.current key = .ok {} :=
      current_after_of_unregistered r store around steps hjob
    exact ⟨_, _, hcurrent, by rw [Scheduler.reply, hcurrent]; rfl⟩
  | some job =>
    have hcurrent : s.current key = _ := current_after r store around steps hjob
    cases hst : s.world.store.state? key with
    | none => exact answers_of_no_state clock (hst ▸ hcurrent)
    | some st => exact answers_of_state clock (hst ▸ hcurrent)

/-- Two intervals that a registry accepts: with the one the reply breaks off before there is a
sample, with the other the question does over a store that has a state already. -/
theorem not_answers_of_long_interval :
    let producer : Producer Unit Sample := fun _ around =>
      (.run { outcome := .value (.filesystem []) }, around)
    let register (interval : Nat) : Except RegistryError (Registry (Producer Unit Sample)) :=
      Registry.register {} "load" interval producer
    let first : Store Sample := ({} : Store Sample).save "load" ⟨.filesystem [], 0⟩
    (∃ r c, register (Span.ofSeconds Text.maxU64 + 1) = .ok r ∧
      (new r ()).current "load" = .ok c ∧
      (new r ()).reply (fun _ => "") "load" = .error .add) ∧
    ∃ r, register (Span.ofSeconds 10000000000000000000) = .ok r ∧
      (withStore r first ()).current "load" = .error .instant := by
  intro producer register first
  constructor
  · let job : Job (Producer Unit Sample) := ⟨Span.ofSeconds Text.maxU64 + 1, producer, by decide⟩
    have hlong : Span.ofSeconds Text.maxU64 < job.interval := by decide
    let c : Current Sample := { scheduleExists := true, retryAfter := job.interval }
    refine ⟨Registry.single "load" job, c, rfl, rfl, ?_⟩
    exact Reply.ofCurrent_of_not_inRange (fun _ => "") "load" (c := c)
      ⟨rfl, rfl, rfl, fun _ => rfl⟩ hlong
  · let job : Job (Producer Unit Sample) :=
      ⟨Span.ofSeconds 10000000000000000000, producer, by decide⟩
    have hcurrent := current_after _ first () [] (Registry.find?_single "load" job)
    refine ⟨Registry.single "load" job, rfl, hcurrent.trans ?_⟩
    exact (congrArg _ (state?_withStore _ first () "load")).trans
      (Current.ofState_some_of_le 0 (by decide))

end Scheduler
end HostVitals
