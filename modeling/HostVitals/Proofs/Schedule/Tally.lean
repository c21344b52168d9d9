import HostVitals.Proofs.Schedule.Log

/-! The statistics of a job are a tally of its log: every run that is over has been counted once, on
the side of the values or on that of the failures. -/
namespace HostVitals

/-- A run ends with a value or with something to record, never with both. -/
theorem Outcome.value_or_error {α : Type} (o : Outcome α) :
    (∃ v, o.value? = some v ∧ o.error? = none) ∨ ∃ e, o.value? = none ∧ o.error? = some e := by
  cases o with
  | value v => exact .inl ⟨v, rfl, rfl⟩
  | failure e => exact .inr ⟨e, rfl, rfl⟩
  | crash => exact .inr ⟨"producer panicked", rfl, rfl⟩

namespace Execution
variable {α : Type} {e : Execution α} {log : List (Execution α)}

def state? (e : Execution α) : Option (State α) :=
  match e.called, e.ended with
  | .run r, some z => r.outcome.value?.map (⟨·, z⟩)
  | _, _ => none

def error? (e : Execution α) : Option String :=
  match e.called, e.ended with
  | .run r, some _ => r.outcome.error?
  | _, _ => none

theorem state?_of_open (h : e.ended = none) : e.state? = none := by
  unfold state?
  rw [h]
  cases e.called <;> rfl

theorem error?_of_open (h : e.ended = none) : e.error? = none := by
  unfold error?
  rw [h]
  cases e.called <;> rfl

/-- A run that is over counts on one side. -/
theorem IsOver.counted (h : e.IsOver) : e.error?.isSome = !e.state?.isSome := by
  obtain ⟨r, z, hc, hz⟩ := h
  rcases r.outcome.value_or_error with ⟨v, hv, he⟩ | ⟨m, hv, he⟩ <;>
    simp [state?, error?, hc, hz, hv, he]

theorem findSome?_cons_eq_or {β : Type} (f : Execution α → Option β) (e : Execution α)
    (log : List (Execution α)) : (e :: log).findSome? f = (f e).or (log.findSome? f) := by
  cases h : f e <;> simp [h]

theorem length_of_over (h : ∀ e ∈ log, e.IsOver) :
    log.countP (·.state?.isSome) + log.countP (·.error?.isSome) = log.length := by
  have herror : log.countP (·.error?.isSome) = log.countP fun e => decide ¬e.state?.isSome :=
    List.countP_congr fun e he => by simp [(h e he).counted]
  rw [herror]
  exact (List.length_eq_countP_add_countP _).symm

/-- The latest run has not come to an end, the others have. -/
theorem length_of_open (he : e.ended = none) (h : ∀ e ∈ log, e.IsOver) :
    (e :: log).countP (·.state?.isSome) + (e :: log).countP (·.error?.isSome) = log.length := by
  rw [List.countP_cons, List.countP_cons, state?_of_open he, error?_of_open he]
  exact length_of_over h

end Execution

namespace Loop
variable {σ α : Type} {now : Nat} {cancelled : Bool} {l l' : Loop σ α} {w w' : World σ α}

/-! What the end of a run counts. -/
section finish
variable (l : Loop σ α) (due taken started now : Nat) (r : Run α) (w : World σ α)

theorem finish_successes : (l.finish due started now r.outcome w).1.stats.successes =
    l.stats.successes +
      if (Execution.state? ⟨taken, started, .run r, some now⟩).isSome then 1 else 0 := by
  rcases r.outcome.value_or_error with ⟨v, hv, he⟩ | ⟨m, hv, he⟩ <;>
    simp [finish, Execution.state?, hv, he, RunStats.recordSuccess, RunStats.recordFailure]

theorem finish_failures : (l.finish due started now r.outcome w).1.stats.failures =
    l.stats.failures +
      if (Execution.error? (α := α) ⟨taken, started, .run r, some now⟩).isSome then 1 else 0 := by
  cases he : r.outcome.error? <;>
    simp [finish, Execution.error?, he, RunStats.recordSuccess, RunStats.recordFailure]

theorem finish_lastError : (l.finish due started now r.outcome w).1.stats.lastError =
    (Execution.error? (α := α) ⟨taken, started, .run r, some now⟩).or l.stats.lastError := by
  cases he : r.outcome.error? <;>
    simp [finish, Execution.error?, he, RunStats.recordSuccess, RunStats.recordFailure]

end finish

structure Counts (l : Loop σ α) (now : Nat) : Prop where
  calls : l.calls = l.history.length
  successes : l.stats.successes = l.history.countP (·.state?.isSome)
  failures : l.stats.failures = l.history.countP (·.error?.isSome)
  lastError : l.stats.lastError = l.history.findSome? Execution.error?
  /-- The order of the log is the order in which the runs come to an end. -/
  ordered : l.history.Pairwise fun later earlier =>
    ∀ z, later.ended = some z → ∃ y, earlier.ended = some y ∧ y ≤ z
  past : ∀ e ∈ l.history, ∀ z, e.ended = some z → z ≤ now

/-- A run that comes to its end has counted for nothing so far. -/
theorem Logged.of_busy {due started : Nat} {r : Run α} (h : l.Logged cancelled)
    (hp : l.phase = some (.busy due started r)) (now : Nat) (o : Outcome α) (w : World σ α) :
    ∃ taken rest, l.history = ⟨taken, started, .run r, none⟩ :: rest ∧ (∀ e ∈ rest, e.IsOver) ∧
      (l.finish due started now o w).1.history = ⟨taken, started, .run r, some now⟩ :: rest := by
  simp only [Logged, hp] at h
  obtain ⟨taken, rest, hh, hover⟩ := h
  refine ⟨taken, rest, hh, hover, ?_⟩
  rw [finish_history, hh]
  rfl

theorem Turn.counts (h : l.Counts now) (hlog : l.Logged cancelled)
    (t : l.Turn now cancelled w l' w') : l'.Counts now := by
  cases t with
  | stop waits off => exact ⟨h.calls, h.successes, h.failures, h.lastError, h.ordered, h.past⟩
  | @start due waits on ripe =>
    have hstate := Execution.state?_of_open (e := ⟨due, now, l.call w, none⟩) rfl
    have herror := Execution.error?_of_open (e := ⟨due, now, l.call w, none⟩) rfl
    constructor
    · rw [start_history, List.length_cons, ← h.calls]
      rfl
    · rw [start_history, List.countP_cons, hstate]
      exact h.successes
    · rw [start_history, List.countP_cons, herror]
      exact h.failures
    · rw [start_history, Execution.findSome?_cons_eq_or, herror]
      exact h.lastError
    · rw [start_history]
      exact List.pairwise_cons.mpr ⟨by simp, h.ordered⟩
    · rw [start_history]
      simpa using h.past
  | spend waits on ripe =>
    exact ⟨h.calls, h.successes, h.failures, h.lastError, h.ordered, h.past⟩
  | @finish due started r runs isOver =>
    obtain ⟨taken, rest, hh, hover, hclosed⟩ := hlog.of_busy runs now r.outcome w
    have hstate := Execution.state?_of_open (e := ⟨taken, started, .run r, none⟩) rfl
    have herror := Execution.error?_of_open (e := ⟨taken, started, .run r, none⟩) rfl
    obtain ⟨hcalls, hsu, hfa, hle, hord, hpast⟩ := h
    simp only [hh, Execution.findSome?_cons_eq_or, List.countP_cons, List.pairwise_cons,
      List.forall_mem_cons, hstate, herror, Option.none_or, Option.isSome_none, Bool.false_eq_true,
      if_false, Nat.add_zero] at hsu hfa hle hord hpast
    constructor
    · rw [finish_calls, hclosed, hcalls, hh, List.length_cons, List.length_cons]
    · rw [finish_successes l due taken started now r w, hclosed, List.countP_cons, hsu]
    · rw [finish_failures l due taken started now r w, hclosed, List.countP_cons, hfa]
    · rw [finish_lastError l due taken started now r w, hclosed, Execution.findSome?_cons_eq_or,
        hle]
    · rw [hclosed]
      refine List.pairwise_cons.mpr ⟨?_, hord.2⟩
      rintro e he z ⟨⟩
      obtain ⟨-, y, -, hy⟩ := hover e he
      exact ⟨y, hy, hpast.2 e he y hy⟩
    · rw [hclosed]
      refine List.forall_mem_cons.mpr ⟨?_, hpast.2⟩
      rintro z ⟨⟩
      exact Nat.le_refl now

/-- At most the latest run has not been counted. -/
theorem Counts.length_le (h : l.Counts now) (hlog : l.Logged cancelled) :
    l.stats.totalRuns ≤ l.history.length ∧ l.history.length ≤ l.stats.totalRuns + 1 := by
  rw [RunStats.totalRuns, h.successes, h.failures]
  unfold Logged at hlog
  split at hlog
  · simp [hlog]
  · rw [Execution.length_of_over hlog]
    omega
  · obtain ⟨due, rest, hh, hover⟩ := hlog
    rw [hh, Execution.length_of_open rfl hover]
    simp
  · rw [Execution.length_of_over hlog]
    omega
  · rcases hlog with ⟨-, hover⟩ | ⟨due, started, rest, hh, hover⟩
    · rw [Execution.length_of_over hover]
      omega
    · rw [hh, Execution.length_of_open rfl hover]
      simp

end Loop

namespace Scheduler
variable {σ α : Type}

structure Counted (s : Scheduler σ α) : Prop where
  logged : s.Logged
  counts : ∀ l ∈ s.loops, l.Counts s.now

theorem invariant_counted : Invariant (Counted (σ := σ) (α := α)) where
  turn s i l l' w' h hl ht := by
    refine ⟨invariant_logged.turn s i l l' w' h.logged hl ht, fun x hx => ?_⟩
    rcases mem_turned hx with hx | rfl
    · exact h.counts x hx
    · have hm := List.mem_of_getElem? hl
      exact ht.counts (h.counts l hm) (h.logged l hm).2
  pass s h _ :=
    { logged := h.logged
      counts := fun l hl =>
        { h.counts l hl with
          past := fun e he z hz => Nat.le_succ_of_le ((h.counts l hl).past e he z hz) } }
  arm s h hr := by
    refine ⟨invariant_logged.arm s h.logged hr, fun x hx => ?_⟩
    obtain ⟨l, hl, rfl⟩ := List.mem_map.mp hx
    obtain ⟨hcalls, hsu, hfa, hle, hord, hpast⟩ := h.counts l hl
    exact ⟨hcalls, hsu, hfa, hle, hord, hpast⟩
  cancel s h hs := ⟨invariant_logged.cancel s h.logged hs, h.counts⟩

theorem counted_after (r : Registry (Producer σ α)) (store : Store α) (around : σ)
    (steps : List (Step α)) : ((withStore r store around).after steps).Counted := by
  refine invariant_counted.after_of_ignores ⟨logged_after r store around [], fun l hl => ?_⟩
    (still_withStore r store around) steps fun s f h => ⟨h.logged, h.counts⟩
  have hf := fresh_withStore r store around l hl
  constructor <;> simp [hf.history, hf.stats, hf.calls]

end Scheduler
end HostVitals
