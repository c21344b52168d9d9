import HostVitals.Proofs.Schedule.Fresh

/-! The log of a loop agrees with what the loop is doing: at most its latest run is not over, and
that is so only while it is going on or where the call for it broke off. -/
namespace HostVitals

def Execution.IsOver {α : Type} (e : Execution α) : Prop :=
  ∃ r z, e.called = .run r ∧ e.ended = some z

theorem Execution.IsOver.called_ne_broken {α : Type} {e : Execution α} (h : e.IsOver) :
    e.called ≠ .broken := by
  obtain ⟨r, z, hc, -⟩ := h
  simp [hc]

theorem Execution.map_called_closeLatest {α : Type} (now : Nat) (log : List (Execution α)) :
    (closeLatest now log).map (·.called) = log.map (·.called) := by
  cases log <;> rfl

def Producer.Unfailing {σ α : Type} (p : Producer σ α) : Prop := ∀ n s, (p n s).1 ≠ .broken

namespace Loop
variable {σ α : Type} {now : Nat} {cancelled : Bool} {l l' : Loop σ α} {w w' : World σ α}

/-- What the log shows in each phase. A loop ends in a cancellation or in a call; one that has no
next tick left has not called its producer for it. -/
def Logged (l : Loop σ α) (cancelled : Bool) : Prop :=
  match l.phase with
  | none => l.history = []
  | some (.idle _) => ∀ e ∈ l.history, e.IsOver
  | some (.busy _ started r) => ∃ due rest,
      l.history = ⟨due, started, .run r, none⟩ :: rest ∧ ∀ e ∈ rest, e.IsOver
  | some .spent => ∀ e ∈ l.history, e.IsOver
  | some .ended => (cancelled = true ∧ ∀ e ∈ l.history, e.IsOver) ∨ ∃ due started rest,
      l.history = ⟨due, started, .broken, none⟩ :: rest ∧ ∀ e ∈ rest, e.IsOver

def Unbroken (l : Loop σ α) : Prop := ∀ e ∈ l.history, e.called ≠ .broken

theorem Turn.logged (h : l.Logged cancelled) (t : l.Turn now cancelled w l' w') :
    l'.Logged cancelled := by
  cases t with
  | stop waits off =>
    simp only [Logged, waits] at h
    exact .inl ⟨off, h⟩
  | @start due waits on ripe =>
    simp only [Logged, waits] at h
    simp only [Logged, start_phase, start_history]
    cases l.call w with
    | run r => exact ⟨due, l.history, rfl, h⟩
    | broken => exact .inr ⟨due, now, l.history, rfl, h⟩
  | spend waits on ripe =>
    simp only [Logged, waits] at h
    exact h
  | @finish due started r runs isOver =>
    simp only [Logged, runs] at h
    obtain ⟨due', rest, hh, hrest⟩ := h
    simp only [Logged, finish_phase, finish_history, hh, Execution.closeLatest]
    intro e he
    rcases List.mem_cons.mp he with rfl | he
    · exact ⟨r, now, rfl, rfl⟩
    · exact hrest e he

/-- What is in the log stays there; only the end of a run is added to it. -/
theorem Turn.exists_mem_history (t : l.Turn now cancelled w l' w') :
    ∀ e ∈ l.history, ∃ e' ∈ l'.history, e'.due = e.due ∧ e'.started = e.started ∧
      e'.called = e.called ∧ (e'.ended = e.ended ∨ e'.ended = some now) := by
  intro e he
  cases t with
  | stop waits off => exact ⟨e, he, rfl, rfl, rfl, .inl rfl⟩
  | start waits on ripe => exact ⟨e, List.mem_cons_of_mem _ he, rfl, rfl, rfl, .inl rfl⟩
  | spend waits on ripe => exact ⟨e, he, rfl, rfl, rfl, .inl rfl⟩
  | finish runs isOver =>
    rw [finish_history]
    cases hh : l.history with
    | nil => simp [hh] at he
    | cons f rest =>
      rw [hh] at he
      rcases List.mem_cons.mp he with rfl | he
      · exact ⟨_, List.mem_cons_self, rfl, rfl, rfl, .inr rfl⟩
      · exact ⟨e, List.mem_cons_of_mem _ he, rfl, rfl, rfl, .inl rfl⟩

theorem Turn.unbroken (t : l.Turn now cancelled w l' w') (h : l'.Unbroken) : l.Unbroken := by
  intro e he
  obtain ⟨e', he', -, -, hcalled, -⟩ := t.exists_mem_history e he
  exact hcalled ▸ h e' he'

theorem Turn.unbroken_of_unfailing (t : l.Turn now cancelled w l' w') (h : l.Unbroken)
    (hp : l.producer.Unfailing) : l'.Unbroken := by
  cases t with
  | stop waits off => exact h
  | start waits on ripe => exact List.forall_mem_cons.mpr ⟨hp l.calls w.around, h⟩
  | spend waits on ripe => exact h
  | finish runs isOver =>
    intro e he
    have hc := List.mem_map_of_mem (f := Execution.called) he
    rw [finish_history, Execution.map_called_closeLatest] at hc
    obtain ⟨e', he', heq⟩ := List.mem_map.mp hc
    exact heq ▸ h e' he'

/-- A cancellation takes nothing back. -/
theorem Logged.cancel (h : l.Logged cancelled) : l.Logged true := by
  unfold Logged at *
  split at h
  · exact h
  · exact h
  · exact h
  · exact h
  · exact h.imp_left fun h => ⟨rfl, h.2⟩

theorem Logged.unbroken_of_spent (h : l.Logged cancelled) (hp : l.phase = some .spent) :
    l.Unbroken := by
  simp only [Logged, hp] at h
  exact fun e he => (h e he).called_ne_broken

/-- A loop that is going on has not seen a call break off. -/
theorem Logged.unbroken_of_isAlive (h : l.Logged cancelled) (ha : l.isAlive = true) :
    l.Unbroken := by
  rcases isAlive_iff.mp ha with ⟨due, hp⟩ | ⟨due, started, r, hp⟩
  · simp only [Logged, hp] at h
    exact fun e he => (h e he).called_ne_broken
  · simp only [Logged, hp] at h
    obtain ⟨taken, rest, hh, hrest⟩ := h
    unfold Unbroken
    rw [hh]
    exact List.forall_mem_cons.mpr ⟨by simp, fun e he => (hrest e he).called_ne_broken⟩

/-- Without a cancellation, nothing ends a loop but a call that breaks off and the end of the
clock. -/
theorem Logged.alive_or_spent (h : l.Logged false) (hu : l.Unbroken) (hs : l.phase ≠ none) :
    l.isAlive = true ∨ l.phase = some .spent := by
  by_cases halive : l.isAlive = true
  · exact .inl halive
  rcases ended_or_spent halive hs with hended | hspent
  · simp only [Logged, hended, Bool.false_eq_true, false_and, false_or] at h
    obtain ⟨due, started, rest, hh, -⟩ := h
    exact absurd rfl (hu ⟨due, started, .broken, none⟩ (by simp [hh]))
  · exact .inr hspent

end Loop

namespace Scheduler
variable {σ α : Type}

def Logged (s : Scheduler σ α) : Prop :=
  ∀ l ∈ s.loops, (l.phase = none ↔ s.running = false) ∧ l.Logged s.cancelled

theorem invariant_logged : Invariant (Logged (σ := σ) (α := α)) where
  turn s i l l' w' h hl ht x hx := by
    rcases mem_turned hx with hx | rfl
    · exact h x hx
    · have hm := List.mem_of_getElem? hl
      obtain ⟨hbefore, hafter⟩ := ht.phase_ne_none
      have hr : ¬ s.running = false := fun hr => hbefore ((h l hm).1.mpr hr)
      exact ⟨by simp [hafter, turned, hr], ht.logged (h l hm).2⟩
  pass s h _ := h
  arm s h hr x hx := by
    obtain ⟨l, hl, rfl⟩ := List.mem_map.mp hx
    have hlog := (h l hl).2
    simp only [Loop.Logged, (h l hl).1.mpr hr] at hlog
    exact ⟨by simp [armed], by simp [Loop.Logged, hlog]⟩
  cancel s h _ x hx := ⟨(h x hx).1, (h x hx).2.cancel⟩

theorem logged_after (r : Registry (Producer σ α)) (store : Store α) (around : σ)
    (steps : List (Step α)) : ((withStore r store around).after steps).Logged := by
  refine invariant_logged.after_of_ignores (fun l hl => ?_) (still_withStore r store around) steps
    fun s f h => h
  have hf := fresh_withStore r store around l hl
  exact ⟨by simp [hf.phase, withStore], by simp [Loop.Logged, hf.phase, hf.history]⟩

theorem invariant_unbroken : Invariant fun s : Scheduler σ α =>
    ∀ l ∈ s.loops, l.producer.Unfailing → l.Unbroken where
  turn s i l l' w' h hl ht x hx hp := by
    rcases mem_turned hx with hx | rfl
    · exact h x hx hp
    · have hproducer : x.producer = l.producer := congrArg (·.2.2.producer) ht.identity_eq
      rw [hproducer] at hp
      exact ht.unbroken_of_unfailing (h l (List.mem_of_getElem? hl) hp) hp
  pass s h _ := h
  arm s h _ x hx := by
    obtain ⟨l, hl, rfl⟩ := List.mem_map.mp hx
    exact h l hl
  cancel s h _ := h

theorem unbroken_after (r : Registry (Producer σ α)) (store : Store α) (around : σ)
    (steps : List (Step α)) : ∀ l ∈ ((withStore r store around).after steps).loops,
      l.producer.Unfailing → l.Unbroken := by
  refine invariant_unbroken.after_of_ignores (fun l hl _ => ?_) (still_withStore r store around)
    steps fun _ _ h => h
  simp [Loop.Unbroken, (fresh_withStore r store around l hl).history]

end Scheduler
end HostVitals
