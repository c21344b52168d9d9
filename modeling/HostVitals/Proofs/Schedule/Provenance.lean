import HostVitals.Proofs.Schedule.Tally
import HostVitals.Proofs.Schedule.Wiring

/-! Where the state of a metric comes from: as long as nobody else writes to the store, it can be
read off the log of the job, as the statistics always can. -/
namespace HostVitals

namespace Loop
variable {σ α : Type} {now : Nat} {cancelled : Bool} {l l' : Loop σ α} {w w' : World σ α}
  {first : Option (State α)}

/-- What the end of a run publishes. -/
theorem finish_state? (l : Loop σ α) (due taken started now : Nat) (r : Run α) (w : World σ α)
    (h : w.store.Leads l.key l.slot) :
    (l.finish due started now r.outcome w).2.store.state? l.key =
      (Execution.state? ⟨taken, started, .run r, some now⟩).or (w.store.state? l.key) := by
  rw [state?_finish l due started now r.outcome w h, if_pos rfl]
  rfl

/-- The latest run that ended with a value tells what a key shows; before there is one, what the
key showed at first. -/
def Shows (l : Loop σ α) (first shown : Option (State α)) : Prop :=
  shown = (l.history.findSome? Execution.state?).or first

theorem Turn.shows (h : l.Shows first (w.store.state? l.key)) (hlog : l.Logged cancelled)
    (hleads : w.store.Leads l.key l.slot) (t : l.Turn now cancelled w l' w') :
    l'.Shows first (w'.store.state? l.key) := by
  unfold Shows at *
  cases t with
  | stop waits off => exact h
  | @start due waits on ripe =>
    rw [start_history, Execution.findSome?_cons_eq_or, Execution.state?_of_open rfl]
    exact h
  | spend waits on ripe => exact h
  | @finish due started r runs isOver =>
    obtain ⟨taken, rest, hh, -, hclosed⟩ := hlog.of_busy runs now r.outcome w
    rw [hh, Execution.findSome?_cons_eq_or, Execution.state?_of_open rfl, Option.none_or] at h
    rw [finish_state? l due taken started now r w hleads, hclosed,
      Execution.findSome?_cons_eq_or, h, Option.or_assoc]

end Loop

namespace Scheduler
variable {σ α : Type} {s : Scheduler σ α} {key : String}

structure ShowingAt (s : Scheduler σ α) (key : String) (first : Option (State α)) : Prop where
  wired : s.Wired
  logged : s.Logged
  shows : ∀ l ∈ s.loops, l.key = key → l.Shows first (s.world.store.state? key)

theorem invariant_showingAt (key : String) (first : Option (State α)) :
    Invariant fun s : Scheduler σ α => s.ShowingAt key first where
  turn s i l l' w' h hl ht := by
    have hm := List.mem_of_getElem? hl
    have hleads := h.wired.leads l hm
    refine ⟨invariant_wired.turn s i l l' w' h.wired hl ht,
      invariant_logged.turn s i l l' w' h.logged hl ht, fun x hx hk => ?_⟩
    rcases mem_turned_of_nodup h.wired.nodup hl hx with rfl | ⟨hx, hne⟩
    · rw [ht.key_eq] at hk
      subst hk
      exact ht.shows (h.shows l hm rfl) (h.logged l hm).2 hleads
    · show x.Shows first (w'.store.state? key)
      rw [ht.state?_of_ne hleads (hk ▸ hne)]
      exact h.shows x hx hk
  pass s h _ := ⟨⟨h.wired.nodup, h.wired.leads⟩, h.logged, h.shows⟩
  arm s h hr := by
    refine ⟨invariant_wired.arm s h.wired hr, invariant_logged.arm s h.logged hr,
      fun x hx hk => ?_⟩
    obtain ⟨l, hl, rfl⟩ := List.mem_map.mp hx
    exact h.shows l hl hk
  cancel s h hs :=
    ⟨⟨h.wired.nodup, h.wired.leads⟩, invariant_logged.cancel s h.logged hs, h.shows⟩

/-- As long as nobody else writes to the key. -/
theorem ShowingAt.after {first : Option (State α)} (h : s.ShowingAt key first) (hs : s.Still)
    {steps : List (Step α)} (hsteps : ∀ x ∈ steps, x.writes key = false) :
    (s.after steps).ShowingAt key first := by
  refine (invariant_showingAt key first).after h hs steps fun x hx ho t ht => ?_
  have hloops : (t.step x).loops = t.loops :=
    step_of_ignores (P := fun u => u.loops = t.loops) (fun _ _ h => h) rfl ho
  refine ⟨ht.wired.outside ho, step_of_ignores (fun _ _ h => h) ht.logged ho, fun y hy hk => ?_⟩
  rw [state?_outside ho (hsteps x hx)]
  exact ht.shows y (hloops ▸ hy) hk

structure Showing (s : Scheduler σ α) (first : String → Option (State α)) : Prop where
  wired : s.Wired
  logged : s.Logged
  shows : ∀ l ∈ s.loops, l.Shows (first l.key) (s.world.store.state? l.key)

theorem showing_iff {first : String → Option (State α)} :
    s.Showing first ↔ ∀ key, s.ShowingAt key (first key) where
  mp h _ := ⟨h.wired, h.logged, fun l hl hk => hk ▸ h.shows l hl⟩
  mpr h := ⟨(h "").wired, (h "").logged, fun l hl => (h l.key).shows l hl rfl⟩

theorem invariant_showing (first : String → Option (State α)) :
    Invariant fun s : Scheduler σ α => s.Showing first := by
  simp only [showing_iff]
  exact Invariant.forall fun key => invariant_showingAt key (first key)

theorem showing_withStore (r : Registry (Producer σ α)) (store : Store α) (around : σ) :
    (withStore r store around).Showing store.state? where
  wired := wired_withStore r store around
  logged := logged_after r store around []
  shows l hl := by
    simp [Loop.Shows, (fresh_withStore r store around l hl).history, state?_withStore]

structure ShownSince (s : Scheduler σ α) (key : String) (successes : Nat)
    (shown : Option (State α)) : Prop where
  wired : s.Wired
  shown : ∀ l ∈ s.loops, l.key = key →
    l.stats.successes = successes ∧ s.world.store.state? key = shown ∨
      successes < l.stats.successes ∧ (s.world.store.state? key).isSome

theorem invariant_shownSince (key : String) (successes : Nat) (shown : Option (State α)) :
    Invariant fun s : Scheduler σ α => s.ShownSince key successes shown where
  turn s i l l' w' h hl ht := by
    have hm := List.mem_of_getElem? hl
    have hleads := h.wired.leads l hm
    refine ⟨invariant_wired.turn s i l l' w' h.wired hl ht, fun x hx hk => ?_⟩
    show _ ∧ w'.store.state? key = shown ∨ _ ∧ (w'.store.state? key).isSome
    rcases mem_turned_of_nodup h.wired.nodup hl hx with rfl | ⟨hx, hne⟩
    · rw [ht.key_eq] at hk
      have hbefore := h.shown l hm hk
      subst hk
      cases ht with
      | stop waits off => exact hbefore
      | start waits on ripe => exact hbefore
      | spend waits on ripe => exact hbefore
      | @finish due started r runs isOver =>
        rw [Loop.finish_state? l due due started s.now r s.world hleads,
          Loop.finish_successes l due due started s.now r s.world]
        cases Execution.state? ⟨due, started, .run r, some s.now⟩ with
        | none => simpa using hbefore
        | some st =>
          have hle := hbefore.imp And.left And.left
          refine .inr ⟨?_, rfl⟩
          simp only [Option.isSome_some, if_true]
          omega
    · rw [ht.state?_of_ne hleads (hk ▸ hne)]
      exact h.shown x hx hk
  pass s h _ := ⟨⟨h.wired.nodup, h.wired.leads⟩, h.shown⟩
  arm s h hr := by
    refine ⟨invariant_wired.arm s h.wired hr, fun x hx hk => ?_⟩
    obtain ⟨l, hl, rfl⟩ := List.mem_map.mp hx
    exact h.shown l hl hk
  cancel s h _ := ⟨⟨h.wired.nodup, h.wired.leads⟩, h.shown⟩

/-- A key to which nobody else writes. -/
theorem shownSince_after (hw : s.Wired) (hs : s.Still) {l : Loop σ α} (hl : l ∈ s.loops)
    {more : List (Step α)} (hmore : ∀ x ∈ more, x.writes l.key = false) :
    (s.after more).ShownSince l.key l.stats.successes (s.world.store.state? l.key) := by
  have hstart : s.ShownSince l.key l.stats.successes (s.world.store.state? l.key) := by
    refine ⟨hw, fun x hx hkey => .inl ?_⟩
    rw [hw.eq_of_key_eq hl hx hkey]
    exact ⟨rfl, rfl⟩
  refine (invariant_shownSince _ _ _).after hstart hs more fun x hx ho t ht => ?_
  have hloops : (t.step x).loops = t.loops :=
    step_of_ignores (P := fun u => u.loops = t.loops) (fun _ _ h => h) rfl ho
  refine ⟨ht.wired.outside ho, fun y hy hkey => ?_⟩
  rw [state?_outside ho (hmore x hx)]
  exact ht.shown y (hloops ▸ hy) hkey

/-- What a key shows lasts until a run of its job ends with a value, and never goes away. -/
theorem state?_after_more (hw : s.Wired) (hs : s.Still) {l l' : Loop σ α} (hl : l ∈ s.loops)
    {more : List (Step α)} (hmore : ∀ x ∈ more, x.isOutside = false)
    (hl' : l' ∈ (s.after more).loops) (hk : l'.key = l.key) :
    (l'.stats.successes = l.stats.successes →
      (s.after more).world.store.state? l.key = s.world.store.state? l.key) ∧
    ((s.world.store.state? l.key).isSome →
      ((s.after more).world.store.state? l.key).isSome) := by
  have hsince := shownSince_after hw hs hl fun x hx => Step.writes_of_inside (hmore x hx) l.key
  rcases hsince.shown l' hl' hk with ⟨-, hsame⟩ | ⟨hlt, hnow⟩
  · exact ⟨fun _ => hsame, fun hsome => by rwa [hsame]⟩
  · exact ⟨fun he => by omega, fun _ => hnow⟩

/-- As long as nobody else writes to the store, what a job shows and counts is what its log tells,
and from then on it shows the same until a run of its own ends with a value. -/
theorem accounts_after (r : Registry (Producer σ α)) (store : Store α) (around : σ)
    (steps : List (Step α)) (hsteps : ∀ x ∈ steps, x.isOutside = false) {key : String}
    {job : Job (Producer σ α)} (hjob : r.jobs.find? key = some job) :
    let s := (withStore r store around).after steps
    let shown := s.world.store.state? key
    ∃ l, s.find? key = some l ∧ l.job = job ∧
      l.Shows (store.state? key) shown ∧
      s.current key = Current.ofState l.interval s.now shown ∧
      l.Counts s.now ∧
      l.stats.totalRuns ≤ l.history.length ∧ l.history.length ≤ l.stats.totalRuns + 1 ∧
      ∀ more : List (Step α), (∀ x ∈ more, x.isOutside = false) →
        ∃ l', (s.after more).find? key = some l' ∧
          (l'.stats.successes = l.stats.successes →
            (s.after more).world.store.state? key = shown) ∧
          (shown.isSome → ((s.after more).world.store.state? key).isSome) := by
  intro s shown
  have hstill := still_withStore r store around
  have hshowing : s.Showing store.state? :=
    (invariant_showing _).after_of_untouched (showing_withStore r store around) hstill hsteps
  have hcounted : s.Counted := counted_after r store around steps
  obtain ⟨l, hfind, rfl, hl⟩ := exists_find?_after hjob store around steps
  have hm := mem_of_find? hfind
  obtain ⟨hlow, hhigh⟩ := (hcounted.counts l hm).length_le (hcounted.logged l hm).2
  refine ⟨l, hfind, hl, hshowing.shows l hm, current_of_find? hshowing.wired hfind,
    hcounted.counts l hm, hlow, hhigh, fun more hmore => ?_⟩
  obtain ⟨l', hfind', hk', -⟩ := exists_find?_after hjob store around (steps ++ more)
  rw [after_append] at hfind'
  exact ⟨l', hfind', state?_after_more hshowing.wired (still_after hstill steps) hm hmore
    (mem_of_find? hfind') hk'⟩

/-- A job that publishes once and fails from then on, over a store with an older state. -/
theorem accounts_after_of_failing_job :
    let job : Job (Producer Unit Nat) :=
      ⟨2, fun n around => (.run { outcome := if n = 0 then .value 7 else .crash }, around),
        by decide⟩
    let first : Store Nat := ({} : Store Nat).save "load" ⟨5, 0⟩
    let steps := [.advance 1, .run, .advance 3]
    let s := (withStore (Registry.single "load" job) first ()).after steps
    (∀ x ∈ steps, x.isOutside = false) ∧ s.world.store.state? "load" = some ⟨7, 1⟩ ∧
      ∃ l, s.find? "load" = some l ∧ l.job = job ∧
        l.Shows (first.state? "load") (s.world.store.state? "load") ∧ l.Counts s.now := by
  intro job first steps
  have hsteps : ∀ x ∈ steps, x.isOutside = false := by decide
  obtain ⟨l, hfind, hjob, hshows, -, hcounts, -⟩ :=
    accounts_after _ first () steps hsteps (Registry.find?_single "load" job)
  exact ⟨hsteps, by decide +kernel, l, hfind, hjob, hshows, hcounts⟩

end Scheduler
end HostVitals
