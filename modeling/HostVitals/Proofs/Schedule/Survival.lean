import HostVitals.Proofs.Schedule.Grid
import HostVitals.Proofs.Schedule.Tally
import HostVitals.Proofs.Schedule.Wiring

/-! What the failures of a job do to it. A run that fails is counted and the next tick is taken as
if nothing had happened; a call that breaks off before there is a run ends the loop, uncounted. But
for that, only a tick that has none after it on the clock is not taken. -/
namespace HostVitals

def Execution.failed {α : Type} (e : Execution α) : Bool :=
  match e.called with
  | .broken => true
  | .run _ => e.error?.isSome

theorem Execution.failed_of_called_ne_broken {α : Type} {e : Execution α}
    (h : e.called ≠ .broken) : e.failed = e.error?.isSome := by
  unfold failed
  cases hc : e.called with
  | run r => rfl
  | broken => exact absurd hc h

theorem Execution.countP_failed {α : Type} {log : List (Execution α)}
    (h : ∀ e ∈ log, e.called ≠ .broken) : log.countP failed = log.countP (·.error?.isSome) :=
  List.countP_congr fun e he => by rw [failed_of_called_ne_broken (h e he)]

namespace Loop
variable {σ α : Type} {now due free : Nat} {cancelled : Bool} {l l' : Loop σ α}
  {w w' : World σ α}

/-- When the next run begins: the tick is due then and the run in progress over. A run that waits
for the cancellation is not over before. -/
def nextStart? (l : Loop σ α) : Option Nat :=
  match l.phase with
  | some (.idle due) => some due
  | some (.busy due started r) =>
    if r.untilCancel then none else some (max due (started + r.length))
  | _ => none

theorem nextStart?_of_isAlive (h : l.isAlive = true) : (∃ t, l.nextStart? = some t) ∨
    ∃ due started r, l.phase = some (.busy due started r) ∧ r.untilCancel = true := by
  rcases isAlive_iff.mp h with ⟨due, hp⟩ | ⟨due, started, r, hp⟩
  · exact .inl ⟨due, by simp [nextStart?, hp]⟩
  · cases hu : r.untilCancel with
    | true => exact .inr ⟨due, started, r, hp, hu⟩
    | false => exact .inl ⟨max due (started + r.length), by simp [nextStart?, hp, hu]⟩

def Took (l : Loop σ α) (due t : Nat) : Prop := ∃ e ∈ l.history, e.due = due ∧ e.started = t

def Reached (l : Loop σ α) (due t : Nat) : Prop :=
  Cadence.hasNext l.interval due t = true ∧ l.Took due t ∨
    Cadence.hasNext l.interval due t = false ∧ l.phase = some .spent

theorem Turn.took {t : Nat} (h : l.Took due t) (turn : l.Turn now cancelled w l' w') :
    l'.Took due t := by
  obtain ⟨e, he, hdue, hstarted⟩ := h
  obtain ⟨e', he', hdue', hstarted', -⟩ := turn.exists_mem_history e he
  exact ⟨e', he', hdue'.trans hdue, hstarted'.trans hstarted⟩

theorem Turn.reached {t : Nat} (h : l.Reached due t) (turn : l.Turn now cancelled w l' w') :
    l'.Reached due t := by
  have hinterval : l'.interval = l.interval := congrArg (·.2.2.interval) turn.identity_eq
  unfold Reached at *
  rw [hinterval]
  rcases h with ⟨hnext, htook⟩ | ⟨-, hspent⟩
  · exact .inl ⟨hnext, turn.took htook⟩
  · have halive := turn.isAlive
    simp [Loop.isAlive, hspent] at halive

inductive Heading (l : Loop σ α) (due free now : Nat) : Prop where
  | runs {started : Nat} {r : Run α} (phase : l.phase = some (.busy due started r))
    (ends : r.untilCancel = false) (length : started + r.length = free) (before : now ≤ free)
  | waits (phase : l.phase = some (.idle due)) (since : free ≤ now) (before : now ≤ max due free)
  | reached (tick : l.Reached due (max due free))

theorem Turn.heading (h : l.Heading due free now) (t : l.Turn now false w l' w') :
    l'.Heading due free now := by
  cases h with
  | @runs started r phase ends length before =>
    cases t with
    | stop waits off => cases off
    | start waits on ripe => simp [phase] at waits
    | spend waits on ripe => simp [phase] at waits
    | @finish due' started' r' runs isOver =>
      obtain ⟨rfl, rfl, rfl⟩ : due = due' ∧ started = started' ∧ r = r' := by
        simpa [phase] using runs
      have hover : started + r.length ≤ now := by simpa [Run.isOver, ends] using isOver
      exact .waits rfl (by omega) (by omega)
  | waits phase since before =>
    cases t with
    | stop waits off => cases off
    | @start due' waits on ripe next =>
      obtain rfl : due' = due := by simpa [phase] using waits.symm
      obtain rfl : now = max due' free := by omega
      exact .reached (.inl ⟨next, _, List.mem_cons_self, rfl, rfl⟩)
    | @spend due' waits on ripe last =>
      obtain rfl : due' = due := by simpa [phase] using waits.symm
      obtain rfl : now = max due' free := by omega
      exact .reached (.inr ⟨last, rfl⟩)
    | finish runs isOver => simp [phase] at runs
  | reached tick => exact .reached (t.reached tick)

theorem Heading.pass (h : l.Heading due free now) (hs : l.Still now false) :
    l.Heading due free (now + 1) := by
  cases h with
  | runs phase ends length before =>
    have hover := hs.lt_end phase ends
    exact .runs phase ends length (by omega)
  | waits phase since before =>
    have hdue := hs.lt_due phase
    exact .waits phase (by omega) (by omega)
  | reached tick => exact .reached tick

theorem Heading.reached_of_still (h : l.Heading due free now) (hs : l.Still now false)
    (hle : max due free ≤ now) : l.Reached due (max due free) := by
  cases h with
  | runs phase ends length before =>
    have hover := hs.lt_end phase ends
    omega
  | waits phase since before =>
    have hdue := hs.lt_due phase
    omega
  | reached tick => exact tick

theorem exists_heading (hs : l.Still now false) {t : Nat} (ht : l.nextStart? = some t) :
    ∃ due free, l.pending? = some due ∧ t = max due free ∧ l.Heading due free now ∧ now < t := by
  unfold nextStart? at ht
  unfold pending?
  cases hp : l.phase with
  | none => simp [hp] at ht
  | some p =>
    cases p with
    | idle due =>
      obtain rfl : due = t := by simpa [hp] using ht
      have hdue := hs.lt_due hp
      exact ⟨due, now, rfl, by omega, .waits hp (Nat.le_refl now) (by omega), hdue⟩
    | busy due started r =>
      cases hu : r.untilCancel with
      | true => simp [hp, hu] at ht
      | false =>
        obtain rfl : max due (started + r.length) = t := by simpa [hp, hu] using ht
        have hover := hs.lt_end hp hu
        exact ⟨due, started + r.length, rfl, rfl, .runs hp hu rfl (by omega), by omega⟩
    | ended => simp [hp] at ht
    | spent => simp [hp] at ht

end Loop

namespace Scheduler
variable {σ α : Type} {s : Scheduler σ α} {key : String} {l : Loop σ α}

theorem kept_heading (key : String) (due free : Nat) : Kept fun s : Scheduler σ α =>
    s.cancelled = false ∧ ∃ l ∈ s.loops, l.key = key ∧ l.Heading due free s.now where
  turn s i l l' w' h hl ht := by
    obtain ⟨hoff, x, hx, hk, hh⟩ := h
    obtain ⟨hm', hor⟩ := mem_turned_of_mem l' w' hl hx
    refine ⟨hoff, ?_⟩
    rcases hor with rfl | hm
    · exact ⟨_, hm', ht.key_eq.trans hk, (hoff ▸ ht).heading hh⟩
    · exact ⟨x, hm, hk, hh⟩
  pass s h hs := by
    obtain ⟨hoff, x, hx, hk, hh⟩ := h
    exact ⟨hoff, x, hx, hk, hh.pass (hoff ▸ hs x hx)⟩

/-- A loop comes to its next tick when it should. -/
theorem next_start (hs : s.Still) (hoff : s.cancelled = false) (hl : l ∈ s.loops) {t : Nat}
    (ht : l.nextStart? = some t) : s.now < t ∧ ∃ due, l.pending? = some due ∧
      ∃ l' ∈ (s.advance (t - s.now)).loops, l'.key = l.key ∧ l'.Reached due t := by
  obtain ⟨due, free, hdue, rfl, hh, hlt⟩ := Loop.exists_heading (hoff ▸ hs l hl) ht
  refine ⟨hlt, due, hdue, ?_⟩
  have hstill : (s.advance (max due free - s.now)).Still := still_step hs (.advance _)
  obtain ⟨hoff', l', hl', hk, hh'⟩ :=
    (kept_heading l.key due free).advance ⟨hoff, l, hl, rfl, hh⟩ hs (max due free - s.now)
  refine ⟨l', hl', hk, hh'.reached_of_still (hoff' ▸ hstill l' hl') ?_⟩
  rw [advance_now hs]
  omega

theorem kept_running (b : Bool) : Kept fun s : Scheduler σ α => s.running = b where
  turn _ _ _ _ _ h _ _ := h
  pass _ h _ := h

theorem running_step (hs : s.Still) (x : Step α) :
    (s.step x).running = (s.running || x.isRun) := by
  by_cases hx : x = .run
  · subst hx
    cases hr : s.running with
    | true => simp [step, run, hr]
    | false =>
      show s.run.running = true
      rw [run_eq_settle_armed hr]
      rfl
  · rw [Step.isRun_eq_false hx, Bool.or_false]
    exact (kept_running s.running).step rfl hs x (fun he => absurd he hx) (fun _ => rfl)
      (step_of_ignores (P := fun t => t.running = s.running) (fun _ _ h => h) rfl)

/-- A schedule runs once it has been started. -/
theorem running_after_iff (hs : s.Still) (steps : List (Step α)) :
    (s.after steps).running = true ↔ s.running = true ∨ .run ∈ steps := by
  induction steps generalizing s with
  | nil => simp [after]
  | cons x xs ih =>
    have hrun : x.isRun = true ↔ .run = x := by cases x <;> simp [Step.isRun]
    show ((s.step x).after xs).running = true ↔ _
    rw [ih (still_step hs x), running_step hs, Bool.or_eq_true, hrun, List.mem_cons, or_assoc]

theorem kept_uncancelled : Kept fun s : Scheduler σ α => s.cancelled = false where
  turn _ _ _ _ _ h _ _ := h
  pass _ h _ := h

theorem run_cancelled (s : Scheduler σ α) : s.run.cancelled = s.cancelled := by
  unfold run
  split <;> rfl

theorem cancelled_after (hs : s.Still) (hoff : s.cancelled = false) {steps : List (Step α)}
    (h : .cancel ∉ steps) : (s.after steps).cancelled = false := by
  induction steps generalizing s with
  | nil => exact hoff
  | cons x xs ih =>
    rw [List.mem_cons, not_or] at h
    refine ih (still_step hs x) (kept_uncancelled.step hoff hs x (fun _ => ?_)
      (fun hx => absurd hx.symm h.1) (step_of_ignores (P := fun s => s.cancelled = false)
        (fun _ _ h => h) hoff)) h.2
    rw [run_cancelled, hoff]

/-- A loop that does not go on stays as it is. -/
theorem invariant_dead (hdead : l.isAlive = false) :
    Invariant fun s : Scheduler σ α => s.running = true ∧ l ∈ s.loops where
  turn s i x l' w' h hx ht := by
    refine ⟨h.1, (mem_turned_of_mem l' w' hx h.2).2.resolve_left ?_⟩
    rintro rfl
    simp [ht.isAlive] at hdead
  pass s h _ := h
  arm s h hr := by simp [h.1] at hr
  cancel s h _ := h

def LimitReached (s : Scheduler σ α) : Prop :=
  ∀ l ∈ s.loops, l.phase = some .spent → instantLimit ≤ s.now + l.interval

theorem invariant_limitReached : Invariant (LimitReached (σ := σ) (α := α)) where
  turn s i l l' w' h hl ht x hx hp := by
    rcases mem_turned hx with hx | rfl
    · exact h x hx hp
    · cases ht with
      | stop waits off => simp at hp
      | start waits on ripe =>
        rw [Loop.start_phase] at hp
        cases hcall : l.call s.world <;> simp [hcall, Phase.ofCall] at hp
      | spend waits on ripe last => exact Cadence.limit_le_of_not_hasNext ripe last
      | finish runs isOver => simp [Loop.finish_phase] at hp
  pass s h _ l hl hp := by
    have hlimit := h l hl hp
    show _ ≤ s.now + 1 + _
    omega
  arm s h _ x hx hp := by
    obtain ⟨l, hl, rfl⟩ := List.mem_map.mp hx
    simp at hp
  cancel s h _ := h

/-- The job goes on: it takes its next tick if there is one after it, unless its run waits for the
cancellation, and all of its failures have been counted. -/
structure Survives (s : Scheduler σ α) (l : Loop σ α) : Prop where
  alive : l.isAlive = true
  next : (∃ t due l', l.nextStart? = some t ∧ s.now < t ∧ l.pending? = some due ∧
    (s.advance (t - s.now)).find? l.key = some l' ∧ l'.Reached due t) ∨
      ∃ due started r, l.phase = some (.busy due started r) ∧ r.untilCancel = true
  recorded : l.stats.failures = l.history.countP Execution.failed

structure Perishes (s : Scheduler σ α) (l : Loop σ α) : Prop where
  ended : l.phase = some .ended
  unrecorded : l.stats.failures + 1 = l.history.countP Execution.failed
  for_good : ∀ more, (s.after more).find? l.key = some l

/-- The job is over for good because the clock has no room for the tick after the one it came to;
all of its failures have been counted. -/
structure OutOfTime (s : Scheduler σ α) (l : Loop σ α) : Prop where
  limit : instantLimit ≤ s.now + l.interval
  recorded : l.stats.failures = l.history.countP Execution.failed
  for_good : ∀ more, (s.after more).find? l.key = some l

structure Underway (s : Scheduler σ α) : Prop where
  still : s.Still
  wired : s.Wired
  counted : s.Counted
  limitReached : s.LimitReached
  running : s.running = true
  uncancelled : s.cancelled = false

theorem underway_after (r : Registry (Producer σ α)) (store : Store α) (around : σ)
    {steps : List (Step α)} (hrun : .run ∈ steps) (hcancel : .cancel ∉ steps) :
    ((withStore r store around).after steps).Underway where
  still := still_after (still_withStore r store around) steps
  wired := wired_after (wired_withStore r store around) (still_withStore r store around) steps
  counted := counted_after r store around steps
  limitReached := by
    refine invariant_limitReached.after_of_ignores (fun l hl hp => ?_)
      (still_withStore r store around) steps fun _ _ h => h
    simp [(fresh_withStore r store around l hl).phase] at hp
  running := (running_after_iff (still_withStore r store around) steps).mpr (.inr hrun)
  uncancelled := cancelled_after (still_withStore r store around) rfl hcancel

theorem Underway.phase_ne_none (h : s.Underway) (hl : l ∈ s.loops) : l.phase ≠ none := by
  intro hp
  have hoff := (h.counted.logged l hl).1.mp hp
  simp [h.running] at hoff

theorem Underway.logged (h : s.Underway) (hl : l ∈ s.loops) : l.Logged false :=
  h.uncancelled ▸ (h.counted.logged l hl).2

theorem Underway.isAlive_iff (h : s.Underway) (hl : l ∈ s.loops) :
    l.isAlive = true ↔ l.Unbroken ∧ l.phase ≠ some .spent := by
  constructor
  · intro halive
    refine ⟨(h.logged hl).unbroken_of_isAlive halive, fun hp => ?_⟩
    simp [Loop.isAlive, hp] at halive
  · rintro ⟨hu, hp⟩
    exact ((h.logged hl).alive_or_spent hu (h.phase_ne_none hl)).resolve_right hp

theorem Underway.failures_eq (h : s.Underway) (hl : l ∈ s.loops) (hu : l.Unbroken) :
    l.stats.failures = l.history.countP Execution.failed := by
  rw [(h.counted.counts l hl).failures, Execution.countP_failed hu]

theorem Underway.find?_after_of_dead (h : s.Underway) (hl : l ∈ s.loops)
    (hdead : l.isAlive = false) (more : List (Step α)) : (s.after more).find? l.key = some l := by
  have hmore := (invariant_dead hdead).after_of_ignores ⟨h.running, hl⟩ h.still more
    fun _ _ h => h
  exact (wired_after h.wired h.still more).find?_of_mem hmore.2

theorem Underway.survives (h : s.Underway) (hl : l ∈ s.loops) (hu : l.Unbroken)
    (hp : l.phase ≠ some .spent) : s.Survives l := by
  have halive := (h.isAlive_iff hl).mpr ⟨hu, hp⟩
  refine ⟨halive, ?_, h.failures_eq hl hu⟩
  rcases Loop.nextStart?_of_isAlive halive with ⟨t, ht⟩ | hwaits
  · obtain ⟨hlt, due, hdue, l', hl', hk, htook⟩ := next_start h.still h.uncancelled hl ht
    have hfind := (invariant_wired.advance h.wired h.still (t - s.now)).find?_of_mem hl'
    exact .inl ⟨t, due, l', ht, hlt, hdue, hk ▸ hfind, htook⟩
  · exact .inr hwaits

theorem Underway.perishes (h : s.Underway) (hl : l ∈ s.loops) (hu : ¬ l.Unbroken) :
    s.Perishes l := by
  have hdead : ¬ l.isAlive = true := fun ha => hu ((h.isAlive_iff hl).mp ha).1
  have hended := (Loop.ended_or_spent hdead (h.phase_ne_none hl)).resolve_right fun hp =>
    hu ((h.logged hl).unbroken_of_spent hp)
  refine ⟨hended, ?_, h.find?_after_of_dead hl (by simpa using hdead)⟩
  have hlog := h.logged hl
  have hfailures := (h.counted.counts l hl).failures
  simp only [Loop.Logged, hended, Bool.false_eq_true, false_and, false_or] at hlog
  obtain ⟨due, started, rest, hh, hover⟩ := hlog
  have hrest := Execution.countP_failed fun e he => (hover e he).called_ne_broken
  rw [hh] at hfailures ⊢
  rw [List.countP_cons_of_pos (by rfl), hrest, hfailures,
    List.countP_cons_of_neg (by simp [Execution.error?])]

theorem Underway.outOfTime (h : s.Underway) (hl : l ∈ s.loops)
    (hp : l.phase = some .spent) : s.OutOfTime l where
  limit := h.limitReached l hl hp
  recorded := h.failures_eq hl ((h.logged hl).unbroken_of_spent hp)
  for_good := h.find?_after_of_dead hl (by simp [Loop.isAlive, hp])

/-- Once the schedule runs and as long as it is not cancelled, a job goes on exactly if no call of
its producer has broken off, up to the end of the clock. -/
theorem survival_after (r : Registry (Producer σ α)) (store : Store α) (around : σ)
    (steps : List (Step α)) (hrun : .run ∈ steps) (hcancel : .cancel ∉ steps) {key : String}
    {job : Job (Producer σ α)} (hjob : r.jobs.find? key = some job) :
    let s := (withStore r store around).after steps
    ∃ l, s.find? key = some l ∧ l.job = job ∧ (job.producer.Unfailing → l.Unbroken) ∧
      (l.Unbroken → l.phase ≠ some .spent → s.Survives l) ∧ (¬ l.Unbroken → s.Perishes l) ∧
      (l.phase = some .spent → s.OutOfTime l) ∧
      (s.isDone = true ↔ ∀ l ∈ s.loops, ¬ l.Unbroken ∨ l.phase = some .spent) := by
  intro s
  have hs : s.Underway := underway_after r store around hrun hcancel
  obtain ⟨l, hfind, -, rfl⟩ := exists_find?_after hjob store around steps
  have hm := mem_of_find? hfind
  refine ⟨l, hfind, rfl, unbroken_after r store around steps l hm, hs.survives hm,
    hs.perishes hm, hs.outOfTime hm, ?_⟩
  simp only [isDone, hs.running, Bool.true_and, Bool.not_eq_true', List.any_eq_false]
  refine forall₂_congr fun x hx => ?_
  rw [hs.isAlive_iff hx, not_and_or, not_not]

/-- A job that fails again and again goes on. -/
theorem survival_after_of_crashing_job :
    let job : Job (Producer Unit Nat) :=
      ⟨2, fun _ around => (.run { length := 1, outcome := .crash }, around), by decide⟩
    let steps := [.run, .advance 6]
    let s := (withStore (Registry.single "crash" job) {} ()).after steps
    .run ∈ steps ∧ .cancel ∉ steps ∧ s.isDone = false ∧
      ∃ l, s.find? "crash" = some l ∧ l.job = job ∧ s.Survives l := by
  intro job steps
  have hrun : .run ∈ steps := List.mem_cons_self
  have hcancel : .cancel ∉ steps := by simp [steps]
  have hunfailing : job.producer.Unfailing := fun n around => by simp [job]
  obtain ⟨l, hfind, hjob, hunbroken, hsurvives, -⟩ :=
    survival_after _ {} () steps hrun hcancel (Registry.find?_single "crash" job)
  have hlive : l.phase ≠ some .spent := by
    intro hp
    have halive : (((withStore (Registry.single "crash" job) {} ()).after steps).find?
        "crash").map (·.isAlive) = some true := by decide +kernel
    simp [hfind, Loop.isAlive, hp] at halive
  exact ⟨hrun, hcancel, by decide +kernel, l, hfind, hjob,
    hsurvives (hunbroken hunfailing) hlive⟩

/-- A job whose second call breaks off is over, and the schedule with it. -/
theorem not_survives_of_broken_call :
    let job : Job (Producer Unit Nat) :=
      ⟨2, fun n around => (if n = 0 then .run { outcome := .value 7 } else .broken, around),
        by decide⟩
    let s := (withStore (Registry.single "die" job) {} ()).after [.run, .advance 3]
    s.running = true ∧ s.cancelled = false ∧ s.isDone = true ∧
      (s.find? "die").map (·.isAlive) = some false ∧
      (s.find? "die").map (·.stats.failures) = some 0 ∧
      (s.find? "die").map (·.history.countP Execution.failed) = some 1 := by
  decide +kernel

end Scheduler
end HostVitals
