import HostVitals.Proofs.Schedule.Cadence
import HostVitals.Proofs.Schedule.Provenance

/-! Jobs whose runs end in the same way at every call, however long each takes. From the end of its
first run on, what such a job shows and records is what that run has told. -/
namespace HostVitals

theorem findSome?_of_forall_eq {β γ : Type} {f : β → Option γ} {l : List β} {found : Option γ}
    (hl : ∃ x ∈ l, f x = found) (h : ∀ x ∈ l, f x = none ∨ f x = found) :
    l.findSome? f = found := by
  induction l with
  | nil => simp at hl
  | cons x rest ih =>
    rw [List.forall_mem_cons] at h
    cases hx : f x with
    | some y => simp [hx, h.1.resolve_left (by simp [hx]) ▸ hx]
    | none =>
      rw [List.findSome?_cons_of_isNone (by simp [hx])]
      obtain ⟨z, hz, hfound⟩ := hl
      rcases List.mem_cons.mp hz with rfl | hz
      · rw [← hfound, hx, List.findSome?_eq_none_iff]
        intro z hz
        rcases h.2 z hz with hnone | hsame
        · exact hnone
        · exact hsame.trans (hfound.symm.trans hx)
      · exact ih ⟨z, hz, hfound⟩ h.2

def Called.Gives {α : Type} (c : Called α) (o : Outcome α) (bound : Nat) : Prop :=
  ∃ n ≤ bound, c = .run { length := n, outcome := o }

namespace Loop
variable {σ α : Type} {now t0 bound : Nat} {cancelled : Bool} {l l' : Loop σ α} {w w' : World σ α}
  {o : Outcome α}

def Repeats (l : Loop σ α) (o : Outcome α) (bound : Nat) : Prop :=
  ∀ e ∈ l.history, e.called.Gives o bound

theorem Repeats.unbroken (h : l.Repeats o bound) : l.Unbroken := by
  intro e he
  obtain ⟨n, -, hcalled⟩ := h e he
  simp [hcalled]

theorem Turn.repeats (h : l.Repeats o bound) (hcall : (l.call w).Gives o bound)
    (t : l.Turn now cancelled w l' w') : l'.Repeats o bound := by
  cases t with
  | stop waits off => exact h
  | start waits on ripe => exact List.forall_mem_cons.mpr ⟨hcall, h⟩
  | spend waits on ripe => exact h
  | finish runs isOver =>
    intro e he
    have hcalled := List.mem_map_of_mem (f := Execution.called) he
    rw [finish_history, Execution.map_called_closeLatest] at hcalled
    obtain ⟨e', he', heq⟩ := List.mem_map.mp hcalled
    exact heq ▸ h e' he'

theorem Turn.history_ne_nil (h : l.history ≠ []) (t : l.Turn now cancelled w l' w') :
    l'.history ≠ [] := by
  obtain ⟨e, he⟩ := List.exists_mem_of_ne_nil _ h
  obtain ⟨e', he', -⟩ := t.exists_mem_history e he
  exact List.ne_nil_of_mem he'

/-- The first run is over when it has had its time. -/
theorem Repeats.exists_isOver (h : l.Repeats o bound) (hlog : l.Logged cancelled)
    (hpaced : l.Paced t0 now) (hstill : l.Still now cancelled) (hbegun : l.history ≠ [])
    (hlong : t0 + bound ≤ now) : ∃ e ∈ l.history, e.IsOver := by
  obtain ⟨e, he⟩ := List.exists_mem_of_ne_nil _ hbegun
  cases hphase : l.phase with
  | none =>
    simp only [Logged, hphase] at hlog
    exact absurd hlog hbegun
  | some p =>
    cases p with
    | idle due =>
      simp only [Logged, hphase] at hlog
      exact ⟨e, he, hlog e he⟩
    | spent =>
      simp only [Logged, hphase] at hlog
      exact ⟨e, he, hlog e he⟩
    | ended =>
      simp only [Logged, hphase] at hlog
      rcases hlog with ⟨-, hover⟩ | ⟨due, started, rest, hhistory, -⟩
      · exact ⟨e, he, hover e he⟩
      · exact absurd rfl (h.unbroken ⟨due, started, .broken, none⟩ (by simp [hhistory]))
    | busy due started r =>
      simp only [Logged, hphase] at hlog
      obtain ⟨taken, rest, hhistory, hover⟩ := hlog
      cases rest with
      | cons f rest => exact ⟨f, by simp [hhistory], hover f List.mem_cons_self⟩
      | nil =>
        -- the run that is going on is the first, so it began with the schedule
        obtain ⟨n, hn, hcalled⟩ := h ⟨taken, started, .run r, none⟩ (by simp [hhistory])
        obtain rfl : r = { length := n, outcome := o } := Called.run.inj hcalled
        have hend := hstill.lt_end hphase rfl
        have hregular := hpaced.regular
        rw [hhistory] at hregular
        obtain ⟨htaken, ⟨z, hz, hstarted⟩, -⟩ := hregular
        have hdue : taken = t0 := htaken
        have hfree : t0 = z := Option.some.inj hz
        simp only at hend hstarted
        omega

/-- What is told by a log of runs that all end in the same way, once one of them is over. -/
theorem Repeats.told (h : l.Repeats o bound) (hover : ∃ e ∈ l.history, e.IsOver) :
    (l.history.findSome? Execution.state?).map (·.value) = o.value? ∧
      l.history.findSome? Execution.error? = o.error? := by
  have hrun (e : Execution α) (he : e ∈ l.history) :
      (e.state?.map (·.value) = if e.ended.isSome then o.value? else none) ∧
      e.error? = if e.ended.isSome then o.error? else none := by
    obtain ⟨n, -, hcalled⟩ := h e he
    cases hz : e.ended with
    | none => simp [Execution.state?_of_open hz, Execution.error?_of_open hz]
    | some z => cases hv : o.value? <;> simp [Execution.state?, Execution.error?, hcalled, hz, hv]
  obtain ⟨e, he, r, z, -, hz⟩ := hover
  have hone := hrun e he
  simp only [hz, Option.isSome_some, if_true] at hone
  rw [List.map_findSome?]
  refine ⟨findSome?_of_forall_eq ⟨e, he, hone.1⟩ fun x hx => ?_,
    findSome?_of_forall_eq ⟨e, he, hone.2⟩ fun x hx => ?_⟩
  · rw [Function.comp_apply, (hrun x hx).1]
    split
    · exact .inr rfl
    · exact .inl rfl
  · rw [(hrun x hx).2]
    split
    · exact .inr rfl
    · exact .inl rfl

theorem Counts.exists_isOver (h : l.Counts now) (hran : 0 < l.stats.totalRuns) :
    ∃ e ∈ l.history, e.IsOver := by
  by_contra! hnone
  have hopen : ∀ e ∈ l.history, e.state? = none ∧ e.error? = none := by
    intro e he
    cases hc : e.called with
    | broken => simp [Execution.state?, Execution.error?, hc]
    | run r =>
      cases hz : e.ended with
      | none => exact ⟨Execution.state?_of_open hz, Execution.error?_of_open hz⟩
      | some z => exact absurd ⟨r, z, hc, hz⟩ (hnone e he)
  rw [RunStats.totalRuns, h.successes, h.failures,
    List.countP_eq_zero.mpr fun e he => by simp [(hopen e he).1],
    List.countP_eq_zero.mpr fun e he => by simp [(hopen e he).2]] at hran
  simp at hran

/-- The statistics tell whether a run is over. -/
theorem Counts.totalRuns_pos (h : l.Counts now) {e : Execution α} (he : e ∈ l.history)
    (hover : e.IsOver) : 0 < l.stats.totalRuns := by
  rw [RunStats.totalRuns, h.successes, h.failures]
  have hcounted := hover.counted
  cases hs : e.state?.isSome with
  | true =>
    have hpos : 0 < l.history.countP (·.state?.isSome) := List.countP_pos_iff.mpr ⟨e, he, hs⟩
    exact Nat.add_pos_left hpos _
  | false =>
    have hpos : 0 < l.history.countP (·.error?.isSome) :=
      List.countP_pos_iff.mpr ⟨e, he, by rw [hcounted, hs]; rfl⟩
    exact Nat.add_pos_right _ hpos

end Loop

namespace Scheduler
variable {σ α : Type} {s : Scheduler σ α} {I : σ → Prop} {out : String → Outcome α} {bound : Nat}

structure Repeating (I : σ → Prop) (out : String → Outcome α) (bound : Nat) (s : Scheduler σ α) :
    Prop where
  around : I s.world.around
  calls : ∀ l ∈ s.loops, ∀ n around, I around →
    (l.producer n around).1.Gives (out l.key) bound ∧ I (l.producer n around).2
  repeats : ∀ l ∈ s.loops, l.Repeats (out l.key) bound

theorem invariant_repeating : Invariant (Repeating (σ := σ) I out bound) where
  turn s i l l' w' h hl ht := by
    have hm := List.mem_of_getElem? hl
    have hproducer : l'.producer = l.producer := congrArg (·.2.2.producer) ht.identity_eq
    obtain ⟨hcall, haround⟩ := h.calls l hm l.calls s.world.around h.around
    refine ⟨?_, fun x hx => ?_, fun x hx => ?_⟩
    · cases ht with
      | stop waits off => exact h.around
      | start waits on ripe => exact haround
      | spend waits on ripe => exact h.around
      | @finish due started r runs isOver =>
        have hsame := Loop.finish_around l due started s.now r.outcome s.world
        exact hsame ▸ h.around
    · cases mem_turned hx with
      | inl hx => exact h.calls x hx
      | inr hx =>
        rw [hx, hproducer, ht.key_eq]
        exact h.calls l hm
    · cases mem_turned hx with
      | inl hx => exact h.repeats x hx
      | inr hx =>
        rw [hx, ht.key_eq]
        exact ht.repeats (h.repeats l hm) hcall
  pass s h _ := ⟨h.around, h.calls, h.repeats⟩
  arm s h _ := by
    refine ⟨h.around, fun x hx => ?_, fun x hx => ?_⟩
    · obtain ⟨l, hl, rfl⟩ := List.mem_map.mp hx
      exact h.calls l hl
    · obtain ⟨l, hl, rfl⟩ := List.mem_map.mp hx
      exact h.repeats l hl
  cancel s h _ := ⟨h.around, h.calls, h.repeats⟩

theorem Repeating.after (h : s.Repeating I out bound) (hs : s.Still) (steps : List (Step α)) :
    (s.after steps).Repeating I out bound :=
  invariant_repeating.after_of_ignores h hs steps fun _ _ h => ⟨h.around, h.calls, h.repeats⟩

theorem invariant_begun : Invariant fun s : Scheduler σ α =>
    ∀ l ∈ s.loops, l.interval < instantLimit → l.history ≠ [] where
  turn s i l l' w' h hl ht x hx hlimit := by
    cases mem_turned hx with
    | inl hx => exact h x hx hlimit
    | inr hx =>
      have hinterval : l'.interval = l.interval := congrArg (·.2.2.interval) ht.identity_eq
      rw [hx, hinterval] at hlimit
      rw [hx]
      exact ht.history_ne_nil (h l (List.mem_of_getElem? hl) hlimit)
  pass s h _ := h
  arm s h _ x hx := by
    obtain ⟨l, hl, rfl⟩ := List.mem_map.mp hx
    exact h l hl
  cancel s h _ := h

/-- The start of the schedule takes the first tick of every job that has a second one. -/
theorem begun_run (h : s.Unstarted none) (hnow : s.now = 0)
    (hrepeating : s.run.Repeating I out bound) :
    ∀ l ∈ s.run.loops, l.interval < instantLimit → l.history ≠ [] := by
  intro l hl hlimit
  have hrun := run_eq_settle_armed h.running
  have hstill : s.run.Still := by
    rw [hrun]
    exact still_settle _
  have hstart : s.run.now = s.now := by
    rw [hrun]
    rfl
  -- the first tick is due at once, and no tick is lost
  obtain ⟨e, he, -⟩ := h.run.covered_now hstill hl (hrepeating.repeats l hl).unbroken 0
    (by simp [hstart]) (fun _ => by simpa [hnow] using hlimit)
  exact List.ne_nil_of_mem he

/-- What a job shows and records of which every run ends in the same way: nothing until its first
run is over, and the same from then on. Where the clock has no second tick, there is no run. -/
structure Told (s : Scheduler σ α) (l : Loop σ α) (o : Outcome α) (bound : Nat)
    (first : Option (State α)) : Prop where
  told : 0 < l.stats.totalRuns → l.stats.lastError = o.error? ∧
    (s.world.store.state? l.key).map (·.value) = o.value?.or (first.map (·.value))
  untold : l.stats.totalRuns = 0 → l.stats.lastError = none ∧ s.world.store.state? l.key = first
  finished : l.interval < instantLimit → bound ≤ s.now → 0 < l.stats.totalRuns
  never : instantLimit ≤ l.interval → l.stats.totalRuns = 0

theorem told_after_run (r : Registry (Producer σ α)) (store : Store α) (around : σ)
    (hstart : (withStore r store around).Repeating I out bound) {steps : List (Step α)}
    (hsteps : ∀ x ∈ steps, x.isOutside = false) :
    let s := (withStore r store around).after (.run :: steps)
    ∀ l ∈ s.loops, s.Told l (out l.key) bound (store.state? l.key) := by
  intro s l hl
  have hstill := still_withStore r store around
  have hinside : ∀ x ∈ Step.run :: steps, x.isOutside = false :=
    List.forall_mem_cons.mpr ⟨rfl, hsteps⟩
  have hunstarted : (withStore r store around).Unstarted none :=
    ⟨rfl, ⟨rfl, nofun⟩, fresh_withStore r store around⟩
  have hfirst : (withStore r store around).run.Still := still_step hstill .run
  have hrepeats : l.Repeats (out l.key) bound := (hstart.after hstill (.run :: steps)).repeats l hl
  have hpaced := (hunstarted.run.after hfirst steps).paced l hl
  have hshowing : s.Showing store.state? :=
    (invariant_showing _).after_of_untouched (showing_withStore r store around) hstill hinside
  have hcounts := (counted_after r store around (.run :: steps)).counts l hl
  -- the statistics and the store follow the log, so it is enough to know what the log tells
  constructor
  case told =>
    intro hran
    obtain ⟨hvalue, herror⟩ := hrepeats.told (hcounts.exists_isOver hran)
    refine ⟨hcounts.lastError.trans herror, ?_⟩
    rw [hshowing.shows l hl, ← hvalue]
    cases l.history.findSome? Execution.state? <;> rfl
  case untold =>
    intro hran
    rw [RunStats.totalRuns, Nat.add_eq_zero_iff, hcounts.successes, hcounts.failures,
      List.countP_eq_zero, List.countP_eq_zero] at hran
    refine ⟨hcounts.lastError.trans (List.findSome?_eq_none_iff.mpr fun e he => by
      simpa using hran.2 e he), ?_⟩
    rw [hshowing.shows l hl, List.findSome?_eq_none_iff.mpr fun e he => by simpa using hran.1 e he,
      Option.none_or]
  case finished =>
    intro hlimit hlong
    have hbegun : l.history ≠ [] := invariant_begun.after_of_ignores
      (begun_run hunstarted rfl (hstart.after hstill [.run])) hfirst steps (fun _ _ h => h)
      l hl hlimit
    obtain ⟨e, he, hover⟩ := hrepeats.exists_isOver (hshowing.logged l hl).2 hpaced
      (still_after hstill (.run :: steps) l hl) hbegun (by
        show 0 + bound ≤ s.now
        omega)
    exact hcounts.totalRuns_pos he hover
  case never =>
    intro hlimit
    have hnone : l.history = [] := by
      rw [List.eq_nil_iff_forall_not_mem]
      intro e he
      have hnext := (Cadence.hasNext_iff.mp (hpaced.followed e he)).1
      omega
    simp [RunStats.totalRuns, hcounts.successes, hcounts.failures, hnone]

end Scheduler
end HostVitals
