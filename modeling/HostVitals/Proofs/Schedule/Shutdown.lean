import HostVitals.Proofs.Schedule.Survival

/-! What a cancellation leaves of a schedule: the runs in progress, each to its own end, and nothing
after them. Once the last of them is over the schedule is done, and it stays as it is. -/
namespace HostVitals

def RunStats.recorded (s : RunStats) (ms : Binary64) : Option String → RunStats
  | none => s.recordSuccess ms
  | some e => s.recordFailure ms e

def Run.endAfter {α : Type} (r : Run α) (started off : Nat) : Nat := max off (started + r.length)

namespace Loop
variable {σ α : Type} {now off : Nat} {first : Option (State α)} {l l' l'' : Loop σ α}
  {w w' : World σ α}

def inProgress? (l : Loop σ α) : Option (Nat × Run α) :=
  match l.phase with
  | some (.busy _ started r) => some (started, r)
  | _ => none

theorem inProgress?_of_busy {due started : Nat} {r : Run α}
    (h : l.phase = some (.busy due started r)) : l.inProgress? = some (started, r) := by
  simp [inProgress?, h]

theorem inProgress?_of_idle {due : Nat} (h : l.phase = some (.idle due)) :
    l.inProgress? = none := by
  simp [inProgress?, h]

theorem exists_busy_of_inProgress? {started : Nat} {r : Run α}
    (h : l.inProgress? = some (started, r)) : ∃ due, l.phase = some (.busy due started r) := by
  unfold inProgress? at h
  split at h
  · rename_i due started' r' hp
    obtain ⟨rfl, rfl⟩ : started' = started ∧ r' = r := by simpa using h
    exact ⟨due, hp⟩
  · cases h

theorem finish_stats (l : Loop σ α) (due started now : Nat) (o : Outcome α) (w : World σ α) :
    (l.finish due started now o w).1.stats =
      l.stats.recorded (Span.toMillis (now - started)) o.error? := by
  cases he : o.error? <;> simp [finish, he, RunStats.recorded]

theorem Still.isAlive_eq_false (h : l.Still now true) (hp : l.inProgress? = none) :
    l.isAlive = false := by
  unfold Still inProgress? isAlive at *
  cases hph : l.phase with
  | none => rfl
  | some p => cases p <;> simp [hph] at h hp ⊢

theorem Still.lt_endAfter {started : Nat} {r : Run α} (h : l.Still now true) (off : Nat)
    (hp : l.inProgress? = some (started, r)) : now < r.endAfter started off := by
  obtain ⟨due, hph⟩ := exists_busy_of_inProgress? hp
  have hopen : now < started + r.length := by simpa [Still, hph, Run.isOver] using h
  exact Nat.lt_of_lt_of_le hopen (Nat.le_max_right _ _)

inductive WindsDown (l : Loop σ α) (off now : Nat) (l' : Loop σ α) : Prop where
  | rests (before : l.inProgress? = none) (after : l'.inProgress? = none)
      (calls : l'.calls = l.calls) (stats : l'.stats = l.stats) (history : l'.history = l.history)
  | runs {started : Nat} {r : Run α} (before : l.inProgress? = some (started, r))
      (same : l' = l) (since : off ≤ now) (ahead : now ≤ r.endAfter started off)
  | ended {started : Nat} {r : Run α} (before : l.inProgress? = some (started, r))
      (after : l'.inProgress? = none) (reached : r.endAfter started off ≤ now)
      (calls : l'.calls = l.calls)
      (stats : l'.stats = l.stats.recorded (Span.toMillis (r.endAfter started off - started))
        r.outcome.error?)
      (history : l'.history = Execution.closeLatest (r.endAfter started off) l.history)

theorem windsDown_refl (l : Loop σ α) (now : Nat) : l.WindsDown now now l := by
  cases hp : l.inProgress? with
  | none => exact .rests hp hp rfl rfl rfl
  | some p => exact .runs hp rfl (Nat.le_refl now) (Nat.le_max_left _ _)

/-- A run that is over by now, and was not before, is so from now on. -/
theorem endAfter_eq_of_isOver {started : Nat} {r : Run α} (since : off ≤ now)
    (ahead : now ≤ r.endAfter started off) (isOver : r.isOver started now true = true) :
    r.endAfter started off = now := by
  have hlength : started + r.length ≤ now := by simpa [Run.isOver] using isOver
  unfold Run.endAfter at ahead ⊢
  omega

theorem Turn.windsDown (h : l.WindsDown off now l') (t : l'.Turn now true w l'' w') :
    l.WindsDown off now l'' := by
  cases t with
  | stop waits off =>
    have hidle := inProgress?_of_idle waits
    cases h with
    | rests before after calls stats history => exact .rests before rfl calls stats history
    | runs before same since ahead =>
      rw [same, before] at hidle
      cases hidle
    | ended before after reached calls stats history =>
      exact .ended before rfl reached calls stats history
  | start waits on ripe => cases on
  | spend waits on ripe => cases on
  | @finish due started r runs isOver =>
    have hbusy := inProgress?_of_busy runs
    cases h with
    | rests before after calls stats history => simp [after] at hbusy
    | @runs started' r' before same since ahead =>
      obtain rfl := same.symm
      obtain ⟨rfl, rfl⟩ : started = started' ∧ r = r' := by simpa [before] using hbusy.symm
      have hend := endAfter_eq_of_isOver since ahead isOver
      refine .ended before rfl (Nat.le_of_eq hend) rfl ?_ ?_
      · rw [finish_stats, hend]
      · rw [finish_history, hend]
    | ended before after reached calls stats history => simp [after] at hbusy

theorem WindsDown.pass (h : l.WindsDown off now l') (hs : l'.Still now true) :
    l.WindsDown off (now + 1) l' := by
  cases h with
  | rests before after calls stats history => exact .rests before after calls stats history
  | @runs started r before same since ahead =>
    have hend := (same ▸ hs).lt_endAfter off before
    exact .runs before same (by omega) (by omega)
  | ended before after reached calls stats history =>
    exact .ended before after (Nat.le_succ_of_le reached) calls stats history

def lastShown (l l' : Loop σ α) (off : Nat) (first : Option (State α)) : Option (State α) :=
  match l.inProgress?, l'.inProgress? with
  | some (started, r), none => (r.outcome.value?.map (⟨·, r.endAfter started off⟩)).or first
  | _, _ => first

theorem lastShown_self (l : Loop σ α) (off : Nat) (first : Option (State α)) :
    l.lastShown l off first = first := by
  unfold lastShown
  cases l.inProgress? <;> rfl

theorem Turn.lastShown (h : l.WindsDown off now l') (t : l'.Turn now true w l'' w')
    (hleads : w.store.Leads l'.key l'.slot)
    (hs : w.store.state? l'.key = l.lastShown l' off first) :
    w'.store.state? l'.key = l.lastShown l'' off first := by
  cases t with
  | stop waits off =>
    have hidle := inProgress?_of_idle waits
    rw [hs]
    unfold Loop.lastShown
    rw [hidle]
    rfl
  | start waits on ripe => cases on
  | spend waits on ripe => cases on
  | @finish due started r runs isOver =>
    have hbusy := inProgress?_of_busy runs
    cases h with
    | rests before after calls stats history => simp [after] at hbusy
    | @runs started' r' before same since ahead =>
      obtain rfl := same.symm
      obtain ⟨rfl, rfl⟩ : started = started' ∧ r = r' := by simpa [before] using hbusy.symm
      have hend := endAfter_eq_of_isOver since ahead isOver
      have hafter : (l.finish due started now r.outcome w).1.inProgress? = none := rfl
      simp only [Loop.lastShown, before] at hs
      rw [state?_finish l due started now r.outcome w hleads, if_pos rfl, hs]
      simp only [Loop.lastShown, before, hafter, hend]
    | ended before after reached calls stats history => simp [after] at hbusy

end Loop

namespace Scheduler
variable {σ α : Type} {s t : Scheduler σ α} {l : Loop σ α} {off : Nat}
  {first : Option (State α)} {quiet : Prop} {key : String} {x : Step α}

theorem Invariant.after_cancel {P : Scheduler σ α → Prop} (h : Invariant P)
    (hp : P { s with cancelled := true }) (hs : s.Still) (more : List (Step α))
    (outside : ∀ x ∈ more, x.isOutside = true → ∀ t, P t → P (t.step x)) :
    P (s.after (.cancel :: more)) :=
  h.after (s := s.cancel) (h.settle hp) (still_step hs .cancel) more outside

theorem Invariant.after_cancel_of_ignores {P : Scheduler σ α → Prop} (h : Invariant P)
    (hp : P { s with cancelled := true }) (hs : s.Still) (more : List (Step α))
    (ignores : ∀ t f, P t → P (t.withStoreChanged f)) : P (s.after (.cancel :: more)) :=
  h.after_cancel hp hs more fun _ _ hx _ ht => step_of_ignores ignores ht hx

structure WindsDown (t : Scheduler σ α) (l : Loop σ α) (off : Nat) (first : Option (State α))
    (quiet : Prop) : Prop where
  wired : t.Wired
  logged : t.Logged
  cancelled : t.cancelled = true
  loop : ∃ l' ∈ t.loops, l'.key = l.key ∧ l.WindsDown off t.now l' ∧
    (quiet → t.world.store.state? l.key = l.lastShown l' off first)

theorem invariant_windsDown (l : Loop σ α) (off : Nat) (first : Option (State α)) (quiet : Prop) :
    Invariant fun t : Scheduler σ α => t.WindsDown l off first quiet where
  turn t i x x' w' h hx ht := by
    have hm := List.mem_of_getElem? hx
    have hleads := h.wired.leads x hm
    obtain ⟨l', hl', hk, hdown, hshown⟩ := h.loop
    refine ⟨invariant_wired.turn t i x x' w' h.wired hx ht,
      invariant_logged.turn t i x x' w' h.logged hx ht, h.cancelled, ?_⟩
    obtain ⟨hnew, hor⟩ := mem_turned_of_mem x' w' hx hl'
    have ht' := h.cancelled ▸ ht
    by_cases hkey : x.key = l.key
    · obtain rfl := h.wired.eq_of_key_eq hl' hm (hkey.trans hk.symm)
      refine ⟨x', hnew, ht.key_eq.trans hk, ht'.windsDown hdown, fun hq => ?_⟩
      have hs := hshown hq
      rw [← hk] at hs ⊢
      exact ht'.lastShown hdown hleads hs
    · have hne : l' ≠ x := by
        rintro rfl
        exact hkey hk
      refine ⟨l', hor.resolve_left hne, hk, hdown, fun hq => ?_⟩
      exact (ht.state?_of_ne hleads (Ne.symm hkey)).trans (hshown hq)
  pass t h hs := by
    obtain ⟨l', hl', hk, hdown, hshown⟩ := h.loop
    exact ⟨⟨h.wired.nodup, h.wired.leads⟩, h.logged, h.cancelled, l', hl', hk,
      hdown.pass (h.cancelled ▸ hs l' hl'), hshown⟩
  arm t h hr := by
    obtain ⟨l', hl', hk, hdown, hshown⟩ := h.loop
    have hnone : l'.inProgress? = none := by
      simp [Loop.inProgress?, (h.logged l' hl').1.mpr hr]
    refine ⟨invariant_wired.arm t h.wired hr, invariant_logged.arm t h.logged hr, h.cancelled,
      { l' with phase := some (.idle t.now) }, List.mem_map_of_mem hl', hk, ?_, fun hq => ?_⟩
    · cases hdown with
      | rests before after calls stats history => exact .rests before rfl calls stats history
      | runs before same since ahead => simp [same, before] at hnone
      | ended before after reached calls stats history =>
        exact .ended before rfl reached calls stats history
    · refine (hshown hq).trans ?_
      unfold Loop.lastShown
      rw [hnone]
      rfl
  cancel t h hs :=
    ⟨⟨h.wired.nodup, h.wired.leads⟩, invariant_logged.cancel t h.logged hs, rfl, h.loop⟩

theorem WindsDown.outside (h : t.WindsDown l off first quiet) (hx : x.isOutside = true)
    (hq : quiet → x.writes l.key = false) : (t.step x).WindsDown l off first quiet := by
  obtain ⟨l', hl', hk, hdown, hshown⟩ := h.loop
  obtain ⟨hlogged, hcancelled, hmem, hnow⟩ := step_of_ignores
    (P := fun u => u.Logged ∧ u.cancelled = true ∧ l' ∈ u.loops ∧ l.WindsDown off u.now l')
    (fun _ _ h => h) ⟨h.logged, h.cancelled, hl', hdown⟩ hx
  exact ⟨h.wired.outside hx, hlogged, hcancelled, l', hmem, hk, hnow,
    fun hquiet => (state?_outside hx (hq hquiet)).trans (hshown hquiet)⟩

theorem windsDown_after (hw : s.Wired) (hlog : s.Logged) (hs : s.Still) (hl : l ∈ s.loops)
    (more : List (Step α)) :
    (s.after (.cancel :: more)).WindsDown l s.now (s.world.store.state? l.key)
      (∀ x ∈ more, x.writes l.key = false) := by
  have hstart : ({ s with cancelled := true } : Scheduler σ α).WindsDown l s.now
      (s.world.store.state? l.key) (∀ x ∈ more, x.writes l.key = false) :=
    ⟨⟨hw.nodup, hw.leads⟩, invariant_logged.cancel s hlog hs, rfl, l, hl, rfl,
      l.windsDown_refl s.now, fun _ => (l.lastShown_self s.now _).symm⟩
  exact (invariant_windsDown l s.now _ _).after_cancel hstart hs more
    fun x hx ho t ht => ht.outside ho fun hquiet => hquiet x hx

/-- What is left to a job of `s` by the time of `t` if the schedule is cancelled in between: its run
in progress goes on to its end, which is counted, noted and published, and that is all. A run that
waits for the cancellation ends with it. -/
structure WoundDown (s t : Scheduler σ α) (quiet : Prop) (l l' : Loop σ α) : Prop where
  calls : l'.calls = l.calls
  resting : l.inProgress? = none → l'.isAlive = false ∧ l'.stats = l.stats ∧
    l'.history = l.history ∧
    (quiet → t.world.store.state? l.key = s.world.store.state? l.key)
  running : ∀ started r, l.inProgress? = some (started, r) → t.now < r.endAfter started s.now →
    l' = l ∧ (quiet → t.world.store.state? l.key = s.world.store.state? l.key)
  ended : ∀ started r, l.inProgress? = some (started, r) → r.endAfter started s.now ≤ t.now →
    l'.isAlive = false ∧
    l'.stats = l.stats.recorded (Span.toMillis (r.endAfter started s.now - started))
      r.outcome.error? ∧
    l'.history = Execution.closeLatest (r.endAfter started s.now) l.history ∧
    (quiet → t.world.store.state? l.key =
      (r.outcome.value?.map (⟨·, r.endAfter started s.now⟩)).or (s.world.store.state? l.key))

theorem WindsDown.woundDown (h : t.WindsDown l s.now (s.world.store.state? l.key) quiet)
    (hs : t.Still) : ∃ l', t.find? l.key = some l' ∧ s.WoundDown t quiet l l' := by
  obtain ⟨l', hl', hk, hdown, hshown⟩ := h.loop
  have hstill := h.cancelled ▸ hs l' hl'
  refine ⟨l', hk ▸ h.wired.find?_of_mem hl', ?_⟩
  unfold Loop.lastShown at hshown
  cases hdown with
  | rests before after calls stats history =>
    simp only [before] at hshown
    have hdead := hstill.isAlive_eq_false after
    exact ⟨calls, fun _ => ⟨hdead, stats, history, hshown⟩, by simp [before], by simp [before]⟩
  | @runs started r before same since ahead =>
    obtain rfl := same.symm
    simp only [before] at hshown
    have hlt := hstill.lt_endAfter s.now before
    refine ⟨rfl, by simp [before], fun _ _ _ _ => ⟨rfl, hshown⟩, fun started' r' hp hle => ?_⟩
    obtain ⟨rfl, rfl⟩ : started = started' ∧ r = r' := by simpa [before] using hp
    omega
  | @ended started r before after reached calls stats history =>
    simp only [before, after] at hshown
    refine ⟨calls, by simp [before], fun started' r' hp hlt => ?_, fun started' r' hp _ => ?_⟩
    · obtain ⟨rfl, rfl⟩ : started = started' ∧ r = r' := by simpa [before] using hp
      omega
    · obtain ⟨rfl, rfl⟩ : started = started' ∧ r = r' := by simpa [before] using hp
      exact ⟨hstill.isAlive_eq_false after, stats, history, hshown⟩

theorem invariant_uncalled (around : σ) : Invariant fun t : Scheduler σ α =>
    t.cancelled = true ∧ t.world.around = around where
  turn t i x x' w' h hx ht := by
    refine ⟨h.1, Eq.trans ?_ h.2⟩
    cases ht with
    | stop waits off => rfl
    | start waits on ripe => simp [h.1] at on
    | spend waits on ripe => rfl
    | @finish due started r runs isOver =>
      exact Loop.finish_around x due started t.now r.outcome t.world
  pass _ h _ := h
  arm _ h _ := h
  cancel _ h _ := ⟨rfl, h.2⟩

/-- A cancellation that comes before the start leaves nothing to begin. -/
theorem invariant_neverCalled : Invariant fun t : Scheduler σ α => t.cancelled = true ∧
    ∀ l ∈ t.loops, l.calls = 0 ∧ l.history = [] ∧ l.inProgress? = none where
  turn t i x x' w' h hx ht := by
    refine ⟨h.1, fun y hy => ?_⟩
    rcases mem_turned hy with hy | rfl
    · exact h.2 y hy
    · have hbefore := h.2 x (List.mem_of_getElem? hx)
      cases ht with
      | stop waits off => exact ⟨hbefore.1, hbefore.2.1, rfl⟩
      | start waits on ripe => simp [h.1] at on
      | spend waits on ripe => simp [h.1] at on
      | finish runs isOver => simp [Loop.inProgress?_of_busy runs] at hbefore
  pass _ h _ := h
  arm t h _ := by
    refine ⟨h.1, fun y hy => ?_⟩
    obtain ⟨l, hl, rfl⟩ := List.mem_map.mp hy
    exact ⟨(h.2 l hl).1, (h.2 l hl).2.1, rfl⟩
  cancel _ h _ := ⟨rfl, h.2⟩

theorem isDone_iff : s.isDone = true ↔ s.running = true ∧ ∀ l ∈ s.loops, l.isAlive = false := by
  simp [isDone]

/-- Without a loop that is left, nothing is done any more. -/
theorem invariant_done (hs : s.isDone = true) (Q : World σ α → Prop) :
    Invariant fun t : Scheduler σ α => t.running = true ∧ t.loops = s.loops ∧ Q t.world where
  turn t i x x' w' h hx ht := by
    have hdead := (isDone_iff.mp hs).2 x (h.2.1 ▸ List.mem_of_getElem? hx)
    simp [ht.isAlive] at hdead
  pass _ h _ := h
  arm t h hr := by simp [h.1] at hr
  cancel _ h _ := h

theorem isDone_after (hs : s.Still) (hd : s.isDone = true) (more : List (Step α)) :
    (s.after more).isDone = true ∧ (s.after more).loops = s.loops := by
  obtain ⟨hr, hloops, -⟩ := (invariant_done hd fun _ => True).after_of_ignores
    ⟨(isDone_iff.mp hd).1, rfl, trivial⟩ hs more fun _ _ h => h
  exact ⟨isDone_iff.mpr ⟨hr, hloops ▸ (isDone_iff.mp hd).2⟩, hloops⟩

theorem step_of_isDone (hs : s.Still) (hd : s.isDone = true) (hx : x.isOutside = false) :
    (s.step x).loops = s.loops ∧ (s.step x).world = s.world := by
  have hinv := invariant_done hd (· = s.world)
  have hstart := And.intro (isDone_iff.mp hd).1 (And.intro (Eq.refl s.loops) (Eq.refl s.world))
  exact (hinv.step hstart hs x (fun _ => hinv.run hstart)
    (fun _ => hinv.settle (hinv.cancel s hstart hs)) (fun ho => by simp [hx] at ho)).2

theorem wait_of_isDone (hd : s.isDone = true) (span : Nat) : s.wait span = (s, true) := by
  simp [wait, waitUntil, hd]

/-- What is promised of the end of a schedule; `begun` says whether it has been started. -/
structure ShutsDown (s : Scheduler σ α) (begun : Prop) : Prop where
  no_call : ∀ more, (s.after (.cancel :: more)).world.around = s.world.around
  winds_down : ∀ more, ∀ l ∈ s.loops, ∃ l', (s.after (.cancel :: more)).find? l.key = some l' ∧
    s.WoundDown (s.after (.cancel :: more)) (∀ x ∈ more, x.writes l.key = false) l l'
  never_called : ¬ begun → ∀ more, ∀ l ∈ (s.after (.cancel :: more)).loops,
    l.calls = 0 ∧ l.history = []
  run_again : begun → s.run = s
  cancel_again : s.cancelled = true → s.cancel = s
  wait_iff : ∀ span, (s.wait span).2 = true ↔
    begun ∧ ∃ n ≤ span - 1, ∀ l ∈ (s.advance n).loops, l.isAlive = false
  wait_first : ∀ span, s.Waited span (s.wait span)
  stays_done : ∀ span, (s.wait span).2 = true → ∀ more,
    let t := s.after (.wait span :: more)
    (∀ again, t.wait again = (t, true)) ∧ t.loops = (s.wait span).1.loops ∧
      ∀ x : Step α, x.isOutside = false → (t.step x).loops = t.loops ∧ (t.step x).world = t.world

/-- However a schedule is started, used and cancelled, its end is clean. -/
theorem shutsDown_after (r : Registry (Producer σ α)) (store : Store α) (around : σ)
    (steps : List (Step α)) :
    ((withStore r store around).after steps).ShutsDown (.run ∈ steps) := by
  have hfresh := still_withStore r store around
  generalize hs : (withStore r store around).after steps = s
  have hstill : s.Still := hs ▸ still_after hfresh steps
  have hwired : s.Wired := hs ▸ wired_after (wired_withStore r store around) hfresh steps
  have hcounted : s.Counted := hs ▸ counted_after r store around steps
  have hbegun : s.running = true ↔ .run ∈ steps := by
    rw [← hs, running_after_iff hfresh]
    simp [withStore]
  have hcancel : s.cancel.Still := still_step hstill .cancel
  constructor
  case no_call =>
    intro more
    exact ((invariant_uncalled s.world.around).after_cancel_of_ignores ⟨rfl, rfl⟩ hstill more
      fun _ _ h => h).2
  case winds_down =>
    intro more l hl
    exact (windsDown_after hwired hcounted.logged hstill hl more).woundDown
      (still_after hcancel more)
  case never_called =>
    intro hnever more l hl
    have hoff : s.running = false := by simpa [hnever] using hbegun
    have hstart : ∀ l ∈ s.loops, l.calls = 0 ∧ l.history = [] ∧ l.inProgress? = none := by
      intro l hl
      obtain ⟨hnone, hlog⟩ := hcounted.logged l hl
      have hphase := hnone.mpr hoff
      simp only [Loop.Logged, hphase] at hlog
      have hcalls := (hcounted.counts l hl).calls
      rw [hlog] at hcalls
      exact ⟨hcalls, hlog, by simp [Loop.inProgress?, hphase]⟩
    obtain ⟨-, hnone⟩ := invariant_neverCalled.after_cancel_of_ignores ⟨rfl, hstart⟩ hstill more
      fun _ _ h => h
    exact ⟨(hnone l hl).1, (hnone l hl).2.1⟩
  case run_again =>
    intro h
    simp [run, hbegun.mpr h]
  case cancel_again =>
    intro h
    rw [cancel, ← h]
    exact settle_of_still hstill
  case wait_iff =>
    intro span
    rw [(waited_wait hstill span).snd_iff]
    have hdone (n : Nat) : (s.advance n).isDone = true ↔
        .run ∈ steps ∧ ∀ l ∈ (s.advance n).loops, l.isAlive = false := by
      have hrunning : (s.advance n).running = s.running :=
        (running_step hstill (.advance n)).trans (Bool.or_false _)
      rw [isDone_iff, hrunning, hbegun]
    simp only [hdone]
    constructor
    · rintro ⟨n, hn, h, hl⟩
      exact ⟨h, n, hn, hl⟩
    · rintro ⟨h, n, hn, hl⟩
      exact ⟨n, hn, h, hl⟩
  case wait_first => exact waited_wait hstill
  case stays_done =>
    intro span hd more t
    have hend : (s.wait span).1.isDone = true := (waited_wait hstill span).isDone hd
    have hwait : (s.wait span).1.Still := still_step hstill (.wait span)
    obtain ⟨hdone, hloops⟩ := isDone_after hwait hend more
    exact ⟨wait_of_isDone hdone, hloops, fun x hx =>
      step_of_isDone (still_after hwait more) hdone hx⟩

/-- The run that is in progress at the cancellation is published at its own end and is the last. -/
example :
    let job : Job (Producer Unit Nat) :=
      ⟨2, fun _ around => (.run { length := 3, outcome := .value 7 }, around), by decide⟩
    let s := (withStore (Registry.single "load" job) {} ()).after
      [.run, .advance 1, .cancel, .advance 9]
    s.world.store.state? "load" = some ⟨7, 3⟩ ∧ s.loops.map (·.calls) = [1] ∧
      (s.wait 0).2 = true := by
  decide +kernel

end Scheduler
end HostVitals
