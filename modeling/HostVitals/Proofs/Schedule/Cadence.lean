import HostVitals.Proofs.Schedule.Grid

/-! A job keeps its cadence: its runs take ticks on the grid from the start of the schedule, one
after the other and as soon as they can, and none is lost while the job is free to take it. -/
namespace HostVitals

namespace Loop
variable {σ α : Type} {now t0 g : Nat} {cancelled : Bool} {l l' : Loop σ α} {w w' : World σ α}

def Covered (l : Loop σ α) (g : Nat) : Prop := ∃ e ∈ l.history, e.Covers g

structure Paced (l : Loop σ α) (t0 now : Nat) : Prop where
  regular : Execution.Regular l.interval t0 l.history
  pending : ∀ d, l.pending? = some d → d = Execution.nextTick l.interval t0 l.history
  /-- The tick is not overdue but by the run before it. -/
  idle : ∀ due, l.phase = some (.idle due) →
    ∃ z, Execution.freeSince t0 l.history = some z ∧ z ≤ now ∧ now ≤ max due z
  busy : ∀ due started r, l.phase = some (.busy due started r) → started ≤ now
  followed : ∀ e ∈ l.history, Cadence.hasNext l.interval e.due e.started = true
  /-- The tick that has none after it was looked at when it was due and the run before it over. -/
  spent : l.phase = some .spent → ∃ z, Execution.freeSince t0 l.history = some z ∧
    max (Execution.nextTick l.interval t0 l.history) z ≤ now ∧
    Cadence.hasNext l.interval (Execution.nextTick l.interval t0 l.history)
      (max (Execution.nextTick l.interval t0 l.history) z) = false

theorem Turn.paced (h : l.Paced t0 now) (hlog : l.Logged cancelled)
    (t : l.Turn now cancelled w l' w') : l'.Paced t0 now := by
  cases t with
  | stop waits off => exact ⟨h.regular, by simp [pending?], by simp, by simp, h.followed, by simp⟩
  | @start due waits on ripe next =>
    obtain ⟨z, hfree, hz, hnow⟩ := h.idle due waits
    have hdue := h.pending due (by simp [pending?, waits])
    refine ⟨⟨hdue, ⟨z, hfree, by show now = max due z; omega⟩, by simp, h.regular⟩, ?_, ?_, ?_,
      List.forall_mem_cons.mpr ⟨next, h.followed⟩, ?_⟩
    · simp only [pending?, start_phase]
      cases l.call w with
      | run r => rintro d ⟨⟩; rfl
      | broken => simp [Phase.ofCall]
    · simp only [start_phase]
      cases l.call w <;> simp [Phase.ofCall]
    · simp only [start_phase]
      cases l.call w <;> simp [Phase.ofCall]
    · simp only [start_phase]
      cases l.call w <;> simp [Phase.ofCall]
  | @spend due waits on ripe last =>
    obtain ⟨z, hfree, hz, hnow⟩ := h.idle due waits
    have hdue := h.pending due (by simp [pending?, waits])
    obtain rfl : now = max due z := by omega
    refine ⟨h.regular, by simp [pending?], by simp, by simp, h.followed, fun _ => ⟨z, hfree, ?_⟩⟩
    rw [← hdue]
    exact ⟨Nat.le_refl _, last⟩
  | @finish due started r runs isOver =>
    have hdue := h.pending due (by simp [pending?, runs])
    have hstarted := h.busy due started r runs
    have hreg := h.regular
    have hfollowed := h.followed
    simp only [Logged, runs] at hlog
    obtain ⟨taken, rest, hh, -⟩ := hlog
    rw [hh] at hdue hreg hfollowed
    obtain ⟨htaken, hstart, -, hrest⟩ := hreg
    refine ⟨?_, ?_, ?_, by simp [finish_phase], ?_, by simp [finish_phase]⟩
    · rw [finish_history, hh]
      refine ⟨htaken, hstart, ?_, hrest⟩
      rintro z ⟨⟩
      exact hstarted
    · rw [finish_history, hh]
      rintro d ⟨⟩
      exact hdue
    · rw [finish_history, hh]
      rintro d ⟨⟩
      exact ⟨now, rfl, Nat.le_refl now, by omega⟩
    · rw [finish_history, hh]
      exact List.forall_mem_cons.mpr (List.forall_mem_cons.mp hfollowed)

theorem Paced.pass (h : l.Paced t0 now) (hs : l.Still now cancelled) : l.Paced t0 (now + 1) where
  regular := h.regular
  pending := h.pending
  idle due hp := by
    obtain ⟨z, hfree, hz, hnow⟩ := h.idle due hp
    have hdue := hs.lt_due hp
    exact ⟨z, hfree, by omega, by omega⟩
  busy due started r hp := Nat.le_succ_of_le (h.busy due started r hp)
  followed := h.followed
  spent hp := by
    obtain ⟨z, hfree, hz, hnone⟩ := h.spent hp
    exact ⟨z, hfree, Nat.le_succ_of_le hz, hnone⟩

theorem Turn.covered (h : l.Covered g) (hg : g < now) (t : l.Turn now cancelled w l' w') :
    l'.Covered g := by
  obtain ⟨e, he, hc⟩ := h
  obtain ⟨e', he', -, hstarted, -, hended⟩ := t.exists_mem_history e he
  refine ⟨e', he', ?_⟩
  unfold Execution.Covers at *
  rw [hstarted]
  refine hc.imp_right fun hc => ⟨hc.1, fun z hz => ?_⟩
  rcases hended with hended | hended
  · exact hc.2 z (hended ▸ hz)
  · rw [hended] at hz
    exact Option.some.inj hz ▸ hg

/-- With nothing left to do, every grid point so far has been taken, but for those that have no
next one if it has come to that. -/
theorem Paced.covered (h : l.Paced t0 now) (hlog : l.Logged false) (hs : l.Still now false)
    (hu : l.Unbroken) (hp : l.phase ≠ none) (k : Nat) (hk : t0 + k * l.interval ≤ now)
    (hnext : l.phase = some .spent → t0 + k * l.interval + l.interval < instantLimit) :
    l.Covered (t0 + k * l.interval) := by
  rcases hlog.alive_or_spent hu hp with halive | hspent
  case inr =>
    obtain ⟨z, hfree, -, hnone⟩ := h.spent hspent
    exact h.regular.exists_covers_of_not_hasNext hfree hnone k (hnext hspent)
  rcases isAlive_iff.mp halive with ⟨due, hph⟩ | ⟨due, started, r, hph⟩
  · have hd := h.pending due (by simp [pending?, hph])
    have hdue := hs.lt_due hph
    exact h.regular.exists_covers_of_lt_nextTick k (by omega)
  · simp only [Logged, hph] at hlog
    obtain ⟨taken, rest, hh, -⟩ := hlog
    have hreg := h.regular
    unfold Covered
    rw [hh] at hreg ⊢
    by_cases hle : t0 + k * l.interval ≤ started
    · exact hreg.exists_covers k hle
    · exact ⟨_, List.mem_cons_self, .inr ⟨Nat.lt_of_not_le hle, by simp⟩⟩

/-- What is promised of the runs of a job with an interval, where the schedule was started at `t0`
and perhaps cancelled. -/
structure KeepsCadence (l : Loop σ α) (t0 now : Nat) (cancel? : Option Nat) : Prop where
  due_on_grid : ∀ e ∈ l.history, ∃ k, e.due = t0 + k * l.interval
  pending_on_grid : ∀ d, l.pending? = some d → ∃ k, d = t0 + k * l.interval
  due_increases : l.history.Pairwise fun later earlier => earlier.due < later.due
  due_lt_pending : ∀ d, l.pending? = some d → ∀ e ∈ l.history, e.due < d
  started_by : ∀ t, t0 ≤ t →
    l.history.countP (fun e => decide (e.started ≤ t)) ≤ (t - t0) / l.interval + 1
  started_since : ∀ e ∈ l.history, t0 ≤ e.started
  apart : l.history.Pairwise fun later earlier =>
    ∃ z, earlier.ended = some z ∧ earlier.started ≤ z ∧ z ≤ later.started
  prompt : ∀ pre e post, l.history = pre ++ e :: post → e.due ≤ e.started ∧
    (e.started = e.due ∨ ∃ f rest, post = f :: rest ∧ f.ended = some e.started)
  /-- A tick with which the clock comes to its end has none after it, and is not taken. -/
  covered : l.Unbroken → ∀ k, t0 + k * l.interval ≤ now →
    (l.phase = some .spent → t0 + k * l.interval + l.interval < instantLimit) →
    (∀ c, cancel? = some c → t0 + k * l.interval < c) → l.Covered (t0 + k * l.interval)
  followed : ∀ e ∈ l.history, e.due + l.interval < instantLimit
  spent : l.phase = some .spent → instantLimit ≤ now + l.interval
  /-- The tick after a run is fixed at its start: after a late one the grid points that have passed
  are left out, and otherwise none is. -/
  next : ∀ pre f post d, l.history = pre ++ f :: post →
    (pre = [] ∧ l.pending? = some d ∨ ∃ pre' e, pre = pre' ++ [e] ∧ e.due = d) →
    (f.due + Cadence.tolerance < f.started → f.started < d ∧ d ≤ f.started + l.interval) ∧
    (f.started ≤ f.due + Cadence.tolerance → d = f.due + l.interval)

theorem Paced.keepsCadence {cancel? : Option Nat} (h : l.Paced t0 now)
    (hc : l.Unbroken → ∀ k, t0 + k * l.interval ≤ now →
      (l.phase = some .spent → t0 + k * l.interval + l.interval < instantLimit) →
      (∀ c, cancel? = some c → t0 + k * l.interval < c) → l.Covered (t0 + k * l.interval)) :
    l.KeepsCadence t0 now cancel? where
  due_on_grid := h.regular.exists_due_eq
  pending_on_grid d hd := by
    obtain ⟨k, -, hk⟩ := h.regular.exists_nextTick_eq
    exact ⟨k, (h.pending d hd).trans hk⟩
  due_increases := h.regular.pairwise_due l.interval_pos
  due_lt_pending d hd e he := by
    rw [h.pending d hd]
    exact h.regular.due_lt_nextTick l.interval_pos e he
  started_by t ht := h.regular.countP_started_le l.interval_pos ht
  started_since e he := by
    obtain ⟨k, hk⟩ := h.regular.exists_due_eq e he
    have := h.regular.due_le_started e he
    omega
  apart := h.regular.pairwise_apart
  prompt pre e post hh := by
    have hreg := h.regular
    rw [hh] at hreg
    exact ⟨hreg.due_le_started e (by simp), hreg.started_eq⟩
  covered := hc
  followed e he := (Cadence.hasNext_iff.mp (h.followed e he)).1
  spent hp := by
    obtain ⟨z, -, hz, hnone⟩ := h.spent hp
    have hlimit := Cadence.limit_le_of_not_hasNext (Nat.le_max_left _ z) hnone
    omega
  next pre f post d hh hd := by
    have hnext : d = Cadence.nextDue l.interval f.due f.started := by
      rcases hd with ⟨rfl, hd⟩ | ⟨pre', e, rfl, rfl⟩
      · rw [h.pending d hd, hh]
        rfl
      · have hreg := h.regular
        rw [hh, List.append_assoc] at hreg
        exact hreg.of_append.1
    rw [hnext]
    have hle := h.regular.due_le_started f (by simp [hh])
    exact ⟨fun hlate => ⟨Cadence.lt_nextDue_of_late l.interval_pos hlate,
      Cadence.nextDue_le hle⟩, Cadence.nextDue_of_timely⟩

end Loop

namespace Scheduler
variable {σ α : Type} {s : Scheduler σ α} {t0 : Nat} {cancel? : Option Nat}

structure CancelledAt (s : Scheduler σ α) (cancel? : Option Nat) : Prop where
  flag : s.cancelled = cancel?.isSome
  past : ∀ c, cancel? = some c → c ≤ s.now

structure Timed (s : Scheduler σ α) (t0 : Nat) (cancel? : Option Nat) : Prop where
  logged : s.Logged
  running : s.running = true
  cancelledAt : s.CancelledAt cancel?
  paced : ∀ l ∈ s.loops, l.Paced t0 s.now
  covered : ∀ l ∈ s.loops, l.Unbroken → ∀ c, cancel? = some c →
    ∀ k, t0 + k * l.interval < c →
      (l.phase = some .spent → t0 + k * l.interval + l.interval < instantLimit) →
      l.Covered (t0 + k * l.interval)

theorem kept_timed (t0 : Nat) (cancel? : Option Nat) :
    Kept fun s : Scheduler σ α => s.Timed t0 cancel? where
  turn s i l l' w' h hl ht := by
    have hm := List.mem_of_getElem? hl
    refine ⟨invariant_logged.turn s i l l' w' h.logged hl ht, h.running,
      ⟨h.cancelledAt.flag, h.cancelledAt.past⟩, fun x hx => ?_, fun x hx => ?_⟩
    · rcases mem_turned hx with hx | rfl
      · exact h.paced x hx
      · exact ht.paced (h.paced l hm) (h.logged l hm).2
    · rcases mem_turned hx with hx | rfl
      · exact h.covered x hx
      · intro hu c hc k hk _
        have hi : x.interval = l.interval := congrArg (·.2.2.interval) ht.identity_eq
        rw [hi] at hk ⊢
        have hpast := h.cancelledAt.past c hc
        have hlive : l.phase ≠ some .spent := by
          intro hp
          have halive := ht.isAlive
          simp [Loop.isAlive, hp] at halive
        exact ht.covered (h.covered l hm (ht.unbroken hu) c hc k hk fun hp => absurd hp hlive)
          (by omega)
  pass s h hs :=
    { logged := h.logged
      running := h.running
      cancelledAt := ⟨h.cancelledAt.flag, fun c hc => Nat.le_succ_of_le (h.cancelledAt.past c hc)⟩
      paced := fun l hl => (h.paced l hl).pass (hs l hl)
      covered := h.covered }

structure Unstarted (s : Scheduler σ α) (cancel? : Option Nat) : Prop where
  running : s.running = false
  cancelledAt : s.CancelledAt cancel?
  fresh : ∀ l ∈ s.loops, l.Fresh

theorem Unstarted.logged (h : s.Unstarted cancel?) : s.Logged := by
  intro l hl
  have hf := h.fresh l hl
  exact ⟨by simp [hf.phase, h.running], by simp [Loop.Logged, hf.phase, hf.history]⟩

theorem kept_unstarted (cancel? : Option Nat) :
    Kept fun s : Scheduler σ α => s.Unstarted cancel? where
  turn _ _ l _ _ h hl ht :=
    absurd (h.fresh l (List.mem_of_getElem? hl)).phase ht.phase_ne_none.1
  pass _ h _ :=
    { running := h.running
      cancelledAt := ⟨h.cancelledAt.flag, fun c hc => Nat.le_succ_of_le (h.cancelledAt.past c hc)⟩
      fresh := h.fresh }

theorem CancelledAt.cancel (h : s.CancelledAt cancel?) :
    ({ s with cancelled := true } : Scheduler σ α).CancelledAt (cancel?.or (some s.now)) where
  flag := by cases cancel? <;> rfl
  past c hc := by
    cases hn : cancel? with
    | none =>
      simp only [hn, Option.none_or, Option.some.injEq] at hc
      exact Nat.le_of_eq hc.symm
    | some d =>
      simp only [hn, Option.some_or, Option.some.injEq] at hc
      exact h.past c (hn.trans (congrArg some hc))

theorem Unstarted.cancel (h : s.Unstarted cancel?) :
    s.cancel.Unstarted (cancel?.or (some s.now)) :=
  (kept_unstarted _).settle ⟨h.running, h.cancelledAt.cancel, h.fresh⟩

theorem Unstarted.run (h : s.Unstarted cancel?) : s.run.Timed s.now cancel? := by
  rw [run_eq_settle_armed h.running]
  refine (kept_timed _ _).settle ⟨invariant_logged.arm s h.logged h.running, rfl,
    ⟨h.cancelledAt.flag, h.cancelledAt.past⟩, fun x hx => ?_, fun x hx hu c hc k hk _ => ?_⟩
  · obtain ⟨l, hl, rfl⟩ := List.mem_map.mp hx
    have hh := (h.fresh l hl).history
    refine ⟨?_, ?_, ?_, by simp, by simp [hh], by simp⟩
    · simp [hh, Execution.Regular]
    · rintro d ⟨⟩
      simp [hh, Execution.nextTick]
    · rintro d ⟨⟩
      exact ⟨s.now, by simp [hh, Execution.freeSince], Nat.le_refl _, Nat.le_max_left _ _⟩
  · have := h.cancelledAt.past c hc
    omega

/-- As long as there is no cancellation, no grid point is lost that has a next one. -/
theorem Timed.covered_now (h : s.Timed t0 none) (hs : s.Still) {l : Loop σ α} (hl : l ∈ s.loops)
    (hu : l.Unbroken) (k : Nat) (hk : t0 + k * l.interval ≤ s.now)
    (hnext : l.phase = some .spent → t0 + k * l.interval + l.interval < instantLimit) :
    l.Covered (t0 + k * l.interval) := by
  have hoff : s.cancelled = false := h.cancelledAt.flag
  have hphase : l.phase ≠ none := fun hp => by simpa [h.running] using (h.logged l hl).1.mp hp
  exact (h.paced l hl).covered (hoff ▸ (h.logged l hl).2) (hoff ▸ hs l hl) hu hphase k hk hnext

theorem Timed.cancel (h : s.Timed t0 cancel?) (hs : s.Still) :
    s.cancel.Timed t0 (cancel?.or (some s.now)) := by
  refine (kept_timed _ _).settle ⟨invariant_logged.cancel s h.logged hs, h.running,
    h.cancelledAt.cancel, h.paced, fun l hl hu c hc k hk hnext => ?_⟩
  cases cancel? with
  | some d => exact h.covered l hl hu c hc k hk hnext
  | none =>
    obtain rfl : s.now = c := Option.some.inj hc
    exact h.covered_now hs hl hu k (Nat.le_of_lt hk) hnext

theorem Timed.run (h : s.Timed t0 cancel?) : s.run.Timed t0 cancel? := by
  simpa [Scheduler.run, h.running] using h

theorem Timed.after (h : s.Timed t0 cancel?) (hs : s.Still) (steps : List (Step α)) :
    (s.after steps).Timed t0 (cancel?.or (s.instantOf? Step.isCancel steps)) := by
  induction steps generalizing s cancel? with
  | nil =>
    rw [instantOf?, Option.or_none]
    exact h
  | cons x xs ih =>
    have hx := still_step hs x
    by_cases hc : x = .cancel
    · subst hc
      have hafter := ih (h.cancel hs) hx
      rw [Option.or_assoc, Option.some_or] at hafter
      exact hafter
    · have hstep : (s.step x).Timed t0 cancel? :=
        (kept_timed t0 cancel?).step h hs x (fun _ => h.run) (fun he => absurd he hc)
          (step_of_ignores (P := fun s => s.Timed t0 cancel?) (fun _ _ h =>
            ⟨h.logged, h.running, ⟨h.cancelledAt.flag, h.cancelledAt.past⟩, h.paced, h.covered⟩) h)
      rw [instantOf?_cons_of_not (Step.isCancel_eq_false hc)]
      exact ih hstep hx

theorem Unstarted.after (h : s.Unstarted cancel?) (hs : s.Still) (steps : List (Step α))
    (hrun : s.instantOf? Step.isRun steps = some t0) :
    (s.after steps).Timed t0 (cancel?.or (s.instantOf? Step.isCancel steps)) := by
  induction steps generalizing s cancel? with
  | nil => simp [instantOf?] at hrun
  | cons x xs ih =>
    have hx := still_step hs x
    by_cases hr : x = .run
    · subst hr
      obtain rfl : s.now = t0 := Option.some.inj hrun
      rw [instantOf?_cons_of_not (x := .run) rfl]
      exact h.run.after hx xs
    · rw [instantOf?_cons_of_not (Step.isRun_eq_false hr)] at hrun
      by_cases hc : x = .cancel
      · subst hc
        have hafter := ih h.cancel hx hrun
        rw [Option.or_assoc, Option.some_or] at hafter
        exact hafter
      · have hstep : (s.step x).Unstarted cancel? :=
          (kept_unstarted cancel?).step h hs x (fun he => absurd he hr) (fun he => absurd he hc)
            (step_of_ignores (P := fun s => s.Unstarted cancel?) (fun _ _ h =>
              ⟨h.running, ⟨h.cancelledAt.flag, h.cancelledAt.past⟩, h.fresh⟩) h)
        rw [instantOf?_cons_of_not (Step.isCancel_eq_false hc)]
        exact ih hstep hx hrun

theorem Timed.keepsCadence (h : s.Timed t0 cancel?) (hs : s.Still) {l : Loop σ α}
    (hl : l ∈ s.loops) : l.KeepsCadence t0 s.now cancel? := by
  refine (h.paced l hl).keepsCadence fun hu k hk hnext hc => ?_
  cases cancel? with
  | some c => exact h.covered l hl hu c rfl k (hc c rfl) hnext
  | none => exact h.covered_now hs hl hu k hk hnext

/-- Whatever is done with a schedule that is started at `t0`, every job keeps its cadence. -/
theorem keepsCadence_after (r : Registry (Producer σ α)) (store : Store α) (around : σ)
    (steps : List (Step α)) {t0 : Nat}
    (hrun : (withStore r store around).instantOf? Step.isRun steps = some t0)
    {key : String} {job : Job (Producer σ α)} (hjob : r.jobs.find? key = some job) :
    let s := (withStore r store around).after steps
    ∃ l, s.find? key = some l ∧ l.job = job ∧ (job.producer.Unfailing → l.Unbroken) ∧
      l.KeepsCadence t0 s.now ((withStore r store around).instantOf? Step.isCancel steps) := by
  intro s
  have hstill := still_withStore r store around
  have hfresh : (withStore r store around).Unstarted none :=
    ⟨rfl, ⟨rfl, by simp⟩, fresh_withStore r store around⟩
  obtain ⟨l, hfind, -, rfl⟩ := exists_find?_after hjob store around steps
  have hm := mem_of_find? hfind
  have htimed := hfresh.after hstill steps hrun
  rw [Option.none_or] at htimed
  exact ⟨l, hfind, rfl, unbroken_after r store around steps l hm,
    htimed.keepsCadence (still_after hstill steps) hm⟩

/-- Every run of this job outlasts the tick after its own. -/
theorem keepsCadence_of_slow_job :
    let job : Job (Producer Unit Nat) :=
      ⟨2, fun n around => (.run { length := 3, outcome := .value n }, around), by decide⟩
    let steps := [.advance 1, .run, .advance 7, .cancel]
    let s := withStore (Registry.single "slow" job) {} ()
    s.instantOf? Step.isRun steps = some 1 ∧ s.instantOf? Step.isCancel steps = some 8 ∧
      ∃ l, (s.after steps).find? "slow" = some l ∧ l.job = job ∧ l.Unbroken ∧
        l.KeepsCadence 1 (s.after steps).now (s.instantOf? Step.isCancel steps) := by
  intro job steps
  have hunfailing : job.producer.Unfailing := fun n around => by simp [job]
  have hrun : (withStore (Registry.single "slow" job) {} ()).instantOf? Step.isRun steps =
      some 1 := by decide +kernel
  obtain ⟨l, hfind, hjob, hunbroken, hkeeps⟩ :=
    keepsCadence_after _ {} () steps hrun (Registry.find?_single "slow" job)
  exact ⟨hrun, by decide +kernel, l, hfind, hjob, hunbroken hunfailing, hkeeps⟩

end Scheduler
end HostVitals
