import HostVitals.Proofs.Schedule.Following

/-! Jobs do not influence each other: a schedule of many jobs, each of which keeps what it remembers
to itself, is under each key the schedule of that job alone. -/
namespace HostVitals
variable {τ α : Type}

def Job.map {π ρ : Type} (job : Job π) (f : π → ρ) : Job ρ :=
  ⟨job.interval, f job.producer, job.interval_pos⟩

def Registry.keeping (r : Registry (Producer τ α)) : Registry (Producer (String → τ) α) where
  jobs := r.jobs.map fun key job => job.map (.keeping key)

namespace Scheduler

structure Follows (s : Scheduler (String → τ) α) (key : String) (t : Scheduler τ α) : Prop where
  now : s.now = t.now
  running : s.running = t.running
  cancelled : s.cancelled = t.cancelled
  wired : s.Wired
  spares : ∀ x ∈ s.loops, x.producer.Spares x.key
  alone : ∃ l l', s.find? key = some l ∧ l.key = key ∧ t.loops = [l'] ∧
    l.Follows s.world l' t.world

namespace Follows
variable {s : Scheduler (String → τ) α} {t : Scheduler τ α} {key : String}

theorem confined (h : s.Follows key t) : ∀ x ∈ s.loops, x.Confined s.world :=
  fun x hx => ⟨h.wired.leads x hx, h.spares x hx⟩

theorem spares_of_identity_eq (h : s.Follows key t) {s' : Scheduler (String → τ) α}
    (hi : s'.loops.map Loop.identity = s.loops.map Loop.identity) :
    ∀ x ∈ s'.loops, x.producer.Spares x.key := by
  intro x hx
  have hm := List.mem_map_of_mem (f := Loop.identity) hx
  rw [hi] at hm
  obtain ⟨y, hy, he⟩ := List.mem_map.mp hm
  have hk : y.key = x.key := congrArg Prod.fst he
  have hp : y.producer = x.producer := congrArg (·.2.2.producer) he
  rw [← hk, ← hp]
  exact h.spares y hy

theorem settle (h : s.Follows key t) : s.settle.Follows key t.settle := by
  obtain ⟨l, l', hf, rfl, ht, hl⟩ := h.alone
  obtain ⟨l₁, hf₁, hl₁⟩ :=
    follows_settleLoops hl h.wired.nodup hf h.confined s.now s.cancelled
  have hloops : t.settle.loops =
      [(Loop.settle s.now s.cancelled (Loop.turnsAt s.now) l' t.world).1] := by
    simp only [Scheduler.settle, ht, settleLoops, h.now, h.cancelled]
  have hworld : t.settle.world =
      (Loop.settle s.now s.cancelled (Loop.turnsAt s.now) l' t.world).2 := by
    simp only [Scheduler.settle, ht, settleLoops, h.now, h.cancelled]
  exact ⟨h.now, h.running, h.cancelled, invariant_wired.settle h.wired,
    h.spares_of_identity_eq ((invariant_identity _).settle rfl), l₁, _, hf₁,
    by simpa using List.find?_some hf₁, hloops, hworld ▸ hl₁⟩

theorem pass (h : s.Follows key t) : s.pass.Follows key t.pass := by
  have hnext : ({ s with now := s.now + 1 } : Scheduler (String → τ) α).Follows key
      { t with now := t.now + 1 } :=
    ⟨congrArg (· + 1) h.now, h.running, h.cancelled, ⟨h.wired.nodup, h.wired.leads⟩, h.spares,
      h.alone⟩
  exact hnext.settle

theorem advance (h : s.Follows key t) (hs : s.Still) (ht : t.Still) (span : Nat) :
    (s.advance span).Follows key (t.advance span) := by
  rw [advance_eq_iterate hs, advance_eq_iterate ht]
  induction span with
  | zero => exact h
  | succ n ih =>
    rw [Function.iterate_succ_apply', Function.iterate_succ_apply']
    exact ih.pass

theorem cancel (h : s.Follows key t) : s.cancel.Follows key t.cancel := by
  have hoff : ({ s with cancelled := true } : Scheduler (String → τ) α).Follows key
      { t with cancelled := true } :=
    ⟨h.now, h.running, rfl, ⟨h.wired.nodup, h.wired.leads⟩, h.spares, h.alone⟩
  exact hoff.settle

theorem armed (h : s.Follows key t) (hr : s.running = false) : s.armed.Follows key t.armed := by
  obtain ⟨l, l', hf, hk, ht, hl⟩ := h.alone
  refine ⟨h.now, rfl, h.cancelled, invariant_wired.arm s h.wired hr,
    h.spares_of_identity_eq ((invariant_identity _).arm s rfl hr),
    { l with phase := some (.idle s.now) }, { l' with phase := some (.idle t.now) }, ?_, hk, ?_, ?_⟩
  · rw [find?, Scheduler.armed, List.find?_map]
    exact congrArg (Option.map fun l : Loop (String → τ) α =>
      { l with phase := some (.idle s.now) }) hf
  · simp [Scheduler.armed, ht]
  · exact { hl with phase := by rw [h.now] }

theorem run (h : s.Follows key t) : s.run.Follows key t.run := by
  cases hr : s.running with
  | true =>
    have hr' : t.running = true := h.running ▸ hr
    simpa [Scheduler.run, hr, hr'] using h
  | false =>
    have hr' : t.running = false := h.running ▸ hr
    rw [run_eq_settle_armed hr, run_eq_settle_armed hr']
    exact (h.armed hr).settle

theorem withStoreChanged (h : s.Follows key t) (f g : Store α → Store α)
    (hleads : ∀ k place, s.world.store.Leads k place → (f s.world.store).Leads k place)
    (hl : ∀ (l : Loop (String → τ) α) (l' : Loop τ α), l.key = key →
      l.Follows s.world l' t.world → l.Follows { s.world with store := f s.world.store }
        l' { t.world with store := g t.world.store }) :
    (s.withStoreChanged f).Follows key (t.withStoreChanged g) := by
  obtain ⟨l, l', hf, hk, ht, hfollows⟩ := h.alone
  exact ⟨h.now, h.running, h.cancelled,
    ⟨h.wired.nodup, fun x hx => hleads x.key x.slot (h.wired.leads x hx)⟩, h.spares, l, l', hf, hk,
    ht, hl l l' hk hfollows⟩

/-- A step about the job, or about all, is taken by both. -/
theorem step_of_concerns (h : s.Follows key t) (hs : s.Still) (ht : t.Still) {x : Step α}
    (hx : x.isWait = false) (hc : x.concerns key = true) :
    (s.step x).Follows key (t.step x) := by
  cases x with
  | run => exact h.run
  | advance span => exact h.advance hs ht span
  | cancel => exact h.cancel
  | wait span => simp [Step.isWait] at hx
  | query k => exact h
  | save k v =>
    obtain rfl : k = key := by simpa [Step.concerns] using hc
    refine h.withStoreChanged (·.save k ⟨v, s.now⟩) (·.save k ⟨v, t.now⟩)
      (fun _ _ hl => hl.save k _) fun l l' hk hl => ?_
    subst hk
    rw [← h.now]
    exact hl.save _
  | clear k =>
    obtain rfl : k = key := by simpa [Step.concerns] using hc
    refine h.withStoreChanged (·.clear k) (·.clear k) (fun _ _ hl => hl.clear k)
      fun l l' hk hl => ?_
    subst hk
    exact hl.clear

/-- A step about another job goes unnoticed. -/
theorem step_of_not_concerns (h : s.Follows key t) {x : Step α} (hc : x.concerns key = false) :
    (s.step x).Follows key t := by
  cases x with
  | query k => exact h
  | save k v =>
    have hk : k ≠ key := by simpa [Step.concerns] using hc
    exact h.withStoreChanged (·.save k ⟨v, s.now⟩) id (fun _ _ hl => hl.save k _)
      fun l l' hkey hl => hl.save_of_ne (hkey ▸ hk) _
  | clear k =>
    have hk : k ≠ key := by simpa [Step.concerns] using hc
    exact h.withStoreChanged (·.clear k) id (fun _ _ hl => hl.clear k)
      fun l l' hkey hl => hl.clear_of_ne (hkey ▸ hk)
  | _ => simp [Step.concerns] at hc

theorem after (h : s.Follows key t) (hs : s.Still) (ht : t.Still) {steps : List (Step α)}
    (hsteps : ∀ x ∈ steps, x.isWait = false) :
    (s.after steps).Follows key (t.after (steps.filter (·.concerns key))) := by
  induction steps generalizing s t with
  | nil => exact h
  | cons x xs ih =>
    rw [List.forall_mem_cons] at hsteps
    cases hc : x.concerns key with
    | true =>
      rw [List.filter_cons_of_pos hc]
      exact ih (h.step_of_concerns hs ht hsteps.1 hc) (still_step hs x) (still_step ht x) hsteps.2
    | false =>
      rw [List.filter_cons_of_neg (by simp [hc])]
      exact ih (h.step_of_not_concerns hc) (still_step hs x) ht hsteps.2

theorem find?_alone (h : s.Follows key t) : ∃ l l', s.find? key = some l ∧
    t.find? key = some l' ∧ l.Follows s.world l' t.world := by
  obtain ⟨l, l', hf, hk, ht, hl⟩ := h.alone
  exact ⟨l, l', hf, by simp [find?, ht, ← hl.key, hk], hl⟩

theorem stateAt_eq {l : Loop (String → τ) α} {l' : Loop τ α} (h : l.Follows s.world l' t.world) :
    s.world.store.stateAt l.slot = t.world.store.stateAt l'.slot := by
  rw [Store.stateAt_eq_state? h.leads, Store.stateAt_eq_state? h.leads', h.state]

theorem current (h : s.Follows key t) : s.current key = t.current key := by
  obtain ⟨l, l', hf, hf', hl⟩ := h.find?_alone
  simp only [Scheduler.current, hf, hf', hl.interval, h.now, stateAt_eq hl]

theorem answers (h : s.Follows key t) (hs : s.Still) (ht : t.Still) {steps : List (Step α)}
    (hsteps : ∀ x ∈ steps, x.isWait = false) :
    s.answers key steps = t.answers key (steps.filter (·.concerns key)) := by
  induction steps generalizing s t with
  | nil => rfl
  | cons x xs ih =>
    rw [List.forall_mem_cons] at hsteps
    cases hc : x.concerns key with
    | true =>
      have hrest := ih (h.step_of_concerns hs ht hsteps.1 hc) (still_step hs x) (still_step ht x)
        hsteps.2
      rw [List.filter_cons_of_pos hc]
      cases x with
      | query k =>
        obtain rfl : k = key := by simpa [Step.concerns] using hc
        simp only [Scheduler.answers, if_true, h.current]
        exact congrArg _ hrest
      | _ => exact hrest
    | false =>
      have hrest := ih (h.step_of_not_concerns hc) (still_step hs x) ht hsteps.2
      rw [List.filter_cons_of_neg (by simp [hc])]
      cases x with
      | query k =>
        have hk : k ≠ key := by simpa [Step.concerns] using hc
        rw [Scheduler.answers, if_neg hk]
        exact hrest
      | save k v => exact hrest
      | clear k => exact hrest
      | _ => simp [Step.concerns] at hc

end Follows

structure View (α : Type) where
  now : Nat
  phase : Option (Phase α)
  calls : Nat
  stats : RunStats
  history : List (Execution α)
  state : Option (State α)
  summary : JobSummary

def view? {σ : Type} (s : Scheduler σ α) (key : String) : Option (View α) :=
  (s.find? key).map fun l =>
    { now := s.now
      phase := l.phase
      calls := l.calls
      stats := l.stats
      history := l.history
      state := s.world.store.state? key
      summary := s.summaryOf l }

theorem Follows.view? {s : Scheduler (String → τ) α} {t : Scheduler τ α} {key : String}
    (h : s.Follows key t) : ∃ v, s.view? key = some v ∧ t.view? key = some v := by
  obtain ⟨l, l', hf, hf', hl⟩ := h.find?_alone
  have hk : l.key = key := by simpa using List.find?_some hf
  have hstate := hl.state
  rw [hk] at hstate
  refine ⟨_, by rw [Scheduler.view?, hf, Option.map_some], ?_⟩
  rw [Scheduler.view?, hf', Option.map_some]
  simp only [summaryOf, Follows.stateAt_eq hl, hl.phase, hl.calls, hl.stats, hl.history, hl.key,
    hl.interval, h.now, hstate]

theorem spares_withStore (r : Registry (Producer τ α)) (store : Store α) (memory : String → τ) :
    ∀ x ∈ (withStore r.keeping store memory).loops, x.producer.Spares x.key := by
  intro x hx
  have hm : (x.key, x.job) ∈ r.keeping.jobs.entries := by
    rw [← jobs_after r.keeping store memory []]
    exact List.mem_map_of_mem (f := fun l : Loop (String → τ) α => (l.key, l.job)) hx
  obtain ⟨⟨k, job⟩, -, he⟩ := List.mem_map.mp hm
  have hk : k = x.key := congrArg Prod.fst he
  have hp : Producer.keeping k job.producer = x.producer := congrArg (·.2.producer) he
  rw [← hk, ← hp]
  exact Producer.spares_keeping k job.producer

theorem follows_withStore (r : Registry (Producer τ α)) (store : Store α) (memory : String → τ)
    {key : String} {job : Job (Producer τ α)} (hjob : r.jobs.find? key = some job) :
    (withStore r.keeping store memory).Follows key
      (withStore (Registry.single key job) store (memory key)) := by
  have hjob' : r.keeping.jobs.find? key = some (job.map (.keeping key)) := by
    rw [Registry.keeping, Named.find?_map, hjob]
    rfl
  obtain ⟨l, hf, rfl, hl⟩ := exists_find?_after hjob' store memory []
  have hm := mem_of_find? hf
  have hfresh := fresh_withStore r.keeping store memory l hm
  refine ⟨rfl, rfl, rfl, wired_withStore r.keeping store memory,
    spares_withStore r store memory, l, _, hf, rfl, rfl, ?_⟩
  exact
    { key := rfl
      interval := congrArg Job.interval hl
      producer := congrArg Job.producer hl
      phase := hfresh.phase
      calls := hfresh.calls
      stats := hfresh.stats
      history := hfresh.history
      own := rfl
      state := by rw [state?_withStore, state?_withStore]
      leads := leads_withStore r.keeping store memory l hm
      leads' := leads_withStore (Registry.single l.key job) store (memory l.key) _
        List.mem_cons_self }

/-- Whatever is done with a schedule but waiting, a job shows under its key what it would show if it
were the only one. -/
theorem view?_after_eq_alone (r : Registry (Producer τ α)) (store : Store α)
    (memory : String → τ) {key : String} {job : Job (Producer τ α)}
    (hjob : r.jobs.find? key = some job) (steps : List (Step α))
    (hsteps : ∀ x ∈ steps, x.isWait = false) :
    let whole := withStore r.keeping store memory
    let alone := withStore (Registry.single key job) store (memory key)
    let own := steps.filter (·.concerns key)
    (∃ v, (whole.after steps).view? key = some v ∧ (alone.after own).view? key = some v) ∧
      whole.answers key steps = alone.answers key own := by
  intro whole alone own
  have hfollows : whole.Follows key alone := follows_withStore r store memory hjob
  have hwhole := still_withStore r.keeping store memory
  have halone := still_withStore (Registry.single key job) store (memory key)
  exact ⟨(hfollows.after hwhole halone hsteps).view?, hfollows.answers hwhole halone hsteps⟩

/-- Another job that never comes back, and then one that breaks off, change nothing for this one. -/
theorem view?_after_eq_alone_of_two_jobs :
    let job : Job (Producer Nat Nat) :=
      ⟨2, fun n own => (.run { length := n, outcome := .value own }, own + n), by decide⟩
    let other : Job (Producer Nat Nat) :=
      ⟨1, fun n own => (if n = 0 then .run { untilCancel := true, outcome := .crash } else .broken,
        own), by decide⟩
    let r : Registry (Producer Nat Nat) :=
      { jobs := (Registry.single "stuck" other).jobs.insert "load" job }
    let steps := [.run, .advance 5, .save "stuck" 1, .query "load", .cancel]
    let own := [.run, .advance 5, .query "load", .cancel]
    r.jobs.find? "load" = some job ∧ (∀ x ∈ steps, x.isWait = false) ∧
      (withStore r.keeping {} (fun _ => 3)).answers "load" steps =
        (withStore (Registry.single "load" job) {} 3).answers "load" own := by
  intro job other r steps own
  have hjob : r.jobs.find? "load" = some job := rfl
  have hsteps : ∀ x ∈ steps, x.isWait = false := by decide
  exact ⟨hjob, hsteps, (view?_after_eq_alone r {} (fun _ => 3) hjob steps hsteps).2⟩

end Scheduler
end HostVitals
