import HostVitals.Proofs.Schedule.Provenance

/-! How fresh the answers are. No instant in the store lies ahead of the clock, so the time until
the next update is due and the age of the latest state always come to one interval. -/
namespace HostVitals

structure Current.Tells {α : Type} (c : Current α) (interval now age : Nat) (st : State α) :
    Prop where
  state : c.state = some st
  scheduleExists : c.scheduleExists = true
  stateExists : c.stateExists = true
  retryAfter : c.retryAfter = st.taken + interval - now
  le_interval : c.retryAfter ≤ interval
  retryAfter_add_age : age ≤ interval → c.retryAfter + age = interval
  isStale_iff : c.isStale = true ↔ interval ≤ age

theorem Current.exists_ofState {α : Type} {interval now : Nat} {st : State α}
    (hpast : st.taken ≤ now) (hlimit : st.taken + interval < instantLimit) :
    ∃ c, ofState interval now (some st) = .ok c ∧ c.Tells interval now (now - st.taken) st := by
  refine ⟨_, if_pos hlimit, rfl, rfl, rfl, rfl, ?_, ?_, ?_⟩
  · show st.taken + interval - now ≤ interval
    omega
  · show _ → st.taken + interval - now + _ = interval
    omega
  · show (true && st.taken + interval - now == 0) = true ↔ _
    rw [Bool.true_and, beq_iff_eq]
    omega

namespace Loop
variable {σ α : Type} {now : Nat} {cancelled : Bool} {l l' : Loop σ α} {w w' : World σ α}

/-- What a turn publishes is taken at the instant of the turn. -/
theorem Turn.state?_cases (t : l.Turn now cancelled w l' w') (h : w.store.Leads l.key l.slot)
    (k : String) : w'.store.state? k = w.store.state? k ∨
      ∃ v, w'.store.state? k = some ⟨v, now⟩ := by
  cases t with
  | stop waits off => exact .inl rfl
  | start waits on ripe => exact .inl rfl
  | spend waits on ripe => exact .inl rfl
  | @finish due started r runs isOver =>
    rw [state?_finish l due started now r.outcome w h]
    by_cases hk : k = l.key
    · cases r.outcome.value? with
      | none => simp
      | some v => exact .inr ⟨v, by simp [hk]⟩
    · exact .inl (if_neg hk)

end Loop

namespace Scheduler
variable {σ α : Type} {s : Scheduler σ α} {key : String}

structure Past (s : Scheduler σ α) (key : String) : Prop where
  wired : s.Wired
  taken_le : ∀ st, s.world.store.state? key = some st → st.taken ≤ s.now

theorem invariant_past (key : String) : Invariant fun s : Scheduler σ α => s.Past key where
  turn s i l l' w' h hl ht := by
    refine ⟨invariant_wired.turn s i l l' w' h.wired hl ht, fun st hst => ?_⟩
    have hst : w'.store.state? key = some st := hst
    have hleads := h.wired.leads l (List.mem_of_getElem? hl)
    rcases ht.state?_cases hleads key with hsame | ⟨v, hnew⟩
    · exact h.taken_le st (hsame.symm.trans hst)
    · obtain rfl := Option.some.inj (hnew.symm.trans hst)
      exact Nat.le_refl s.now
  pass s h _ := ⟨⟨h.wired.nodup, h.wired.leads⟩,
    fun st hst => Nat.le_succ_of_le (h.taken_le st hst)⟩
  arm s h hr := ⟨invariant_wired.arm s h.wired hr, h.taken_le⟩
  cancel s h _ := ⟨⟨h.wired.nodup, h.wired.leads⟩, h.taken_le⟩

theorem Past.outside (h : s.Past key) {x : Step α} (hx : x.isOutside = true) :
    (s.step x).Past key := by
  refine ⟨h.wired.outside hx, fun st hst => ?_⟩
  cases x with
  | save k value =>
    have hsave := (Store.state?_save s.world.store k ⟨value, s.now⟩ key).symm.trans hst
    split at hsave
    · obtain rfl := Option.some.inj hsave
      exact Nat.le_refl s.now
    · exact h.taken_le st hsave
  | clear k =>
    have hclear := (Store.state?_clear s.world.store k key).symm.trans hst
    split at hclear
    · cases hclear
    · exact h.taken_le st hclear
  | _ => simp [Step.isOutside] at hx

theorem past_after (h : s.Past key) (hs : s.Still) (steps : List (Step α)) :
    (s.after steps).Past key :=
  (invariant_past key).after h hs steps fun _ _ hx _ h => h.outside hx

theorem now_le_after (hs : s.Still) (steps : List (Step α)) : s.now ≤ (s.after steps).now := by
  have hclock : Invariant fun t : Scheduler σ α => s.now ≤ t.now :=
    { turn := fun _ _ _ _ _ h _ _ => h
      pass := fun _ h _ => Nat.le_succ_of_le h
      arm := fun _ h _ => h
      cancel := fun _ h _ => h }
  exact hclock.after_of_ignores (Nat.le_refl _) hs steps fun _ _ h => h

def successes? (s : Scheduler σ α) (key : String) : Option Nat :=
  (s.find? key).map (·.stats.successes)

theorem exists_mem_after (hs : s.Still) {l : Loop σ α} (hl : l ∈ s.loops)
    (steps : List (Step α)) : ∃ l' ∈ (s.after steps).loops, l'.key = l.key := by
  have hid : l.identity ∈ (s.after steps).loops.map Loop.identity := by
    rw [identity_after hs]
    exact List.mem_map_of_mem hl
  obtain ⟨l', hl', hsame⟩ := List.mem_map.mp hid
  exact ⟨l', hl', congrArg Prod.fst hsame⟩

/-- Until its job or somebody else publishes, a key shows the same or, once cleared, nothing. -/
theorem state?_step_unpublished (hw : s.Wired) (hs : s.Still) {l l' : Loop σ α} (hl : l ∈ s.loops)
    (hk : l.key = key) {x : Step α} (hx : ∀ v, x ≠ .save key v) (hl' : l' ∈ (s.step x).loops)
    (hk' : l'.key = key) :
    l.stats.successes ≤ l'.stats.successes ∧ (l'.stats.successes = l.stats.successes →
      (s.step x).world.store.state? key = s.world.store.state? key ∨
        x = .clear key ∧ (s.step x).world.store.state? key = none) := by
  by_cases hclear : x = .clear key
  · subst hclear
    obtain rfl := hw.eq_of_key_eq hl hl' (hk'.trans hk.symm)
    refine ⟨Nat.le_refl _, fun _ => .inr ⟨rfl, ?_⟩⟩
    exact (Store.state?_clear _ _ _).trans (if_pos rfl)
  · subst hk
    have hquiet : ∀ y ∈ [x], y.writes l.key = false := by
      simpa using Step.writes_eq_false hx hclear
    rcases (shownSince_after hw hs hl hquiet).shown l' hl' hk' with ⟨hcount, hstate⟩ | ⟨hlt, -⟩
    · exact ⟨Nat.le_of_eq hcount.symm, fun _ => .inl hstate⟩
    · exact ⟨Nat.le_of_lt hlt, fun he => absurd he (Nat.ne_of_gt hlt)⟩

theorem state?_after_unpublished (hw : s.Wired) (hs : s.Still) {l l' : Loop σ α}
    (hl : l ∈ s.loops) (hk : l.key = key) {more : List (Step α)}
    (hmore : ∀ v, .save key v ∉ more) (hl' : l' ∈ (s.after more).loops) (hk' : l'.key = key) :
    l.stats.successes ≤ l'.stats.successes ∧ (l'.stats.successes = l.stats.successes →
      (s.after more).world.store.state? key = s.world.store.state? key ∨
        .clear key ∈ more ∧ (s.after more).world.store.state? key = none) := by
  induction more generalizing s l with
  | nil =>
    obtain rfl := hw.eq_of_key_eq hl hl' (hk'.trans hk.symm)
    exact ⟨Nat.le_refl _, fun _ => .inl rfl⟩
  | cons x xs ih =>
    have hx (v : α) : x ≠ .save key v := fun h => hmore v (h ▸ List.mem_cons_self)
    have hxs (v : α) : .save key v ∉ xs := fun h => hmore v (List.mem_cons_of_mem x h)
    obtain ⟨m, hm, hkm⟩ := exists_mem_after hs hl [x]
    obtain ⟨hfirst, hone⟩ := state?_step_unpublished hw hs hl hk hx hm (hkm.trans hk)
    obtain ⟨hrest, hall⟩ := ih (wired_after hw hs [x]) (still_step hs x) hm (hkm.trans hk) hxs hl'
    refine ⟨Nat.le_trans hfirst hrest, fun he => ?_⟩
    -- no run of the job has published, neither in the first step nor in the others
    have hm₁ : m.stats.successes = l.stats.successes := by omega
    rcases hall (he.trans hm₁.symm) with hsame | ⟨hclear, hnone⟩
    · rcases hone hm₁ with hkept | ⟨rfl, hnone⟩
      · exact .inl (hsame.trans hkept)
      · exact .inr ⟨List.mem_cons_self, hsame.trans hnone⟩
    · exact .inr ⟨List.mem_cons_of_mem x hclear, hnone⟩

/-- The loop of a key goes on with the same job. -/
theorem exists_find?_of_find? (hs : s.Still) {l : Loop σ α} (hf : s.find? key = some l)
    (more : List (Step α)) : ∃ l', (s.after more).find? key = some l' ∧ l'.job = l.job := by
  have hjob := find?_map_job (s.after more) key
  rw [hs.jobs_after, ← find?_map_job, hf] at hjob
  exact Option.map_eq_some_iff.mp hjob

theorem of_mem_summaries (hw : s.Wired) {l : Loop σ α} (hl : l ∈ s.loops) {summary : JobSummary}
    (hm : summary ∈ s.summaries) (hk : summary.key = l.key) :
    summary.interval = l.interval ∧
      summary.age = (s.world.store.state? l.key).map (s.now - ·.taken) := by
  obtain ⟨x, hx, rfl⟩ := List.mem_map.mp hm
  obtain rfl := hw.eq_of_key_eq hl hx hk
  refine ⟨rfl, ?_⟩
  rw [← Store.stateAt_eq_state? (hw.leads x hx)]
  rfl

structure TellsFreshness (s : Scheduler σ α) (key : String) (interval : Nat) : Prop where
  unset : s.world.store.state? key = none →
    s.current key = .ok { scheduleExists := true, retryAfter := interval }
  past : ∀ st, s.world.store.state? key = some st → st.taken ≤ s.now
  told : ∀ st, s.world.store.state? key = some st → st.taken + interval < instantLimit →
    ∃ c age, s.current key = .ok c ∧ c.Tells interval s.now age st ∧
      (∃ summary ∈ s.summaries, summary.key = key) ∧
      ∀ summary ∈ s.summaries, summary.key = key →
        summary.interval = interval ∧ summary.age = some age
  /-- Between two writes time runs off, to the nanosecond. Without a write the key can only be
  cleared. -/
  lapses : ∀ st c, s.world.store.state? key = some st → s.current key = .ok c →
    ∀ more, (∀ v, .save key v ∉ more) →
      let t := s.after more
      t.successes? key = s.successes? key →
        (∃ c', t.current key = .ok c' ∧ c'.state = some st ∧ s.now ≤ t.now ∧
          c'.retryAfter = c.retryAfter - (t.now - s.now)) ∨
        .clear key ∈ more ∧ t.current key = .ok { scheduleExists := true, retryAfter := interval }

theorem Past.tellsFreshness (h : s.Past key) (hs : s.Still) {l : Loop σ α}
    (hf : s.find? key = some l) : s.TellsFreshness key l.interval := by
  obtain rfl := key_of_find? hf
  have hl := mem_of_find? hf
  have hcurrent := current_of_find? h.wired hf
  constructor
  case unset =>
    intro hnone
    rw [hcurrent, hnone]
    rfl
  case past => exact h.taken_le
  case told =>
    intro st hst hlimit
    obtain ⟨c, hc, htells⟩ := Current.exists_ofState (h.taken_le st hst) hlimit
    refine ⟨c, s.now - st.taken, ?_, htells, ⟨_, List.mem_map_of_mem hl, rfl⟩,
      fun summary hm hk => ?_⟩
    · rw [hcurrent, hst, hc]
    · rw [(of_mem_summaries h.wired hl hm hk).2, hst]
      exact ⟨(of_mem_summaries h.wired hl hm hk).1, rfl⟩
  case lapses =>
    intro st c hst hc more hmore t hcount
    have hclock : s.now ≤ t.now := now_le_after hs more
    obtain ⟨l', hf', hjob⟩ := exists_find?_of_find? hs hf more
    have hinterval : l'.interval = l.interval := congrArg Job.interval hjob
    have hsame : l'.stats.successes = l.stats.successes := by
      simpa [successes?, t, hf, hf'] using hcount
    have hnow := current_of_find? (wired_after h.wired hs more) hf'
    rw [hcurrent, hst, Current.ofState] at hc
    split at hc
    · next hlimit =>
      obtain rfl := Except.ok.inj hc
      have hshown := state?_after_unpublished h.wired hs hl rfl hmore (mem_of_find? hf')
        (key_of_find? hf')
      rcases hshown.2 hsame with hkept | ⟨hclear, hnone⟩
      · rw [hkept, hst, hinterval] at hnow
        refine .inl ⟨_, hnow.trans (if_pos hlimit), rfl, hclock, ?_⟩
        show st.taken + l.interval - t.now = st.taken + l.interval - s.now - (t.now - s.now)
        omega
      · rw [hnone, hinterval] at hnow
        exact .inr ⟨hclear, hnow⟩
    · cases hc

def madeAt (start : Nat) (r : Registry (Producer σ α)) (store : Store α) (around : σ) :
    Scheduler σ α := { withStore r store around with now := start }

/-- Whatever is done with a schedule, the answers for its keys are fresh to the nanosecond, and a
key without a job has no answer, be there a state of it or not. -/
theorem freshness_after (start : Nat) (r : Registry (Producer σ α)) (store : Store α) (around : σ)
    (steps : List (Step α)) (key : String)
    (hfirst : ∀ st, store.state? key = some st → st.taken ≤ start) :
    let s := (madeAt start r store around).after steps
    match r.jobs.find? key with
    | none => s.current key =
        .ok { state := none, scheduleExists := false, stateExists := false, retryAfter := 0 }
    | some job => s.TellsFreshness key job.interval := by
  intro s
  have hstill : (madeAt start r store around).Still := fun l hl => by
    simp [Loop.Still, (fresh_withStore r store around l hl).phase]
  have hwired := wired_withStore r store around
  have hpast : (madeAt start r store around).Past key :=
    ⟨⟨hwired.nodup, hwired.leads⟩,
      fun st hst => hfirst st ((state?_withStore r store around key).symm.trans hst)⟩
  have hjob : (s.find? key).map Loop.job = r.jobs.find? key := by
    rw [find?_map_job, hstill.jobs_after]
    exact congrArg (List.lookup key) (jobs_loopsOf r.jobs.entries store)
  cases hr : r.jobs.find? key with
  | none =>
    rw [hr, Option.map_eq_none_iff] at hjob
    simp [current, hjob]
  | some job =>
    rw [hr] at hjob
    obtain ⟨l, hl, rfl⟩ := Option.map_eq_some_iff.mp hjob
    exact (past_after hpast hstill steps).tellsFreshness (still_after hstill steps) hl

/-- A job over a store with a state that is older than the schedule. -/
theorem freshness_after_of_preloaded_job :
    let job : Job (Producer Unit Nat) :=
      ⟨4, fun _ around => (.run { length := 9, outcome := .crash }, around), by decide⟩
    let first : Store Nat := ({} : Store Nat).save "load" ⟨5, 1⟩
    let s := (madeAt 2 (Registry.single "load" job) first ()).after [.run, .advance 1]
    (∀ st, first.state? "load" = some st → st.taken ≤ 2) ∧ s.TellsFreshness "load" 4 ∧
      ∃ c, s.current "load" = .ok c ∧ c.retryAfter = 2 := by
  intro job first s
  have hfirst : ∀ st, first.state? "load" = some st → st.taken ≤ 2 := by
    intro st hst
    obtain rfl : (⟨5, 1⟩ : State Nat) = st := Option.some.inj hst
    decide
  have hall := freshness_after 2 (Registry.single "load" job) first () [.run, .advance 1] "load"
    hfirst
  rw [Registry.find?_single] at hall
  have hst : s.world.store.state? "load" = some ⟨5, 1⟩ := by decide +kernel
  have hnow : s.now = 3 := by decide +kernel
  obtain ⟨c, age, hc, htells, -⟩ := hall.told _ hst (by decide)
  refine ⟨hfirst, hall, c, hc, ?_⟩
  rw [htells.retryAfter, hnow]
  rfl

end Scheduler
end HostVitals
