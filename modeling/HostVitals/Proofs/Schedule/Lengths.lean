import HostVitals.Proofs.Schedule.Tally

/-! What the log of a job tells of its producer: each run is what the call with its number gave, and
a run that does not wait for the cancellation is over exactly when its length has passed. -/
namespace HostVitals

namespace Execution
variable {σ α : Type} {p : Producer σ α} {log : List (Execution α)}

def CallsOf (p : Producer σ α) : List (Execution α) → Prop
  | [] => True
  | e :: r => (∃ around, e.called = (p r.length around).1) ∧ CallsOf p r

theorem CallsOf.closeLatest (h : CallsOf p log) (now : Nat) :
    CallsOf p (closeLatest now log) := by
  cases log with
  | nil => exact h
  | cons e r => exact h

def EndsInTime (e : Execution α) : Prop :=
  ∀ r z, e.called = .run r → r.untilCancel = false → e.ended = some z → z = e.started + r.length

end Execution

namespace Loop
variable {σ α : Type} {now : Nat} {cancelled : Bool} {l l' : Loop σ α} {w w' : World σ α}

structure KeepsLengths (l : Loop σ α) (now : Nat) : Prop where
  ended : ∀ e ∈ l.history, e.EndsInTime
  busy : ∀ due started r, l.phase = some (.busy due started r) → r.untilCancel = false →
    now ≤ started + r.length

theorem Turn.keepsLengths (h : l.KeepsLengths now) (hlog : l.Logged cancelled)
    (t : l.Turn now cancelled w l' w') : l'.KeepsLengths now := by
  cases t with
  | stop waits off => exact ⟨h.ended, nofun⟩
  | @start due waits on ripe =>
    refine ⟨List.forall_mem_cons.mpr ⟨nofun, h.ended⟩, ?_⟩
    rw [start_phase]
    cases l.call w with
    | run r =>
      rintro - - - ⟨⟩ -
      exact Nat.le_add_right now _
    | broken => nofun
  | spend waits on ripe => exact ⟨h.ended, nofun⟩
  | @finish due started r runs isOver =>
    obtain ⟨taken, rest, hh, -, hclosed⟩ := hlog.of_busy runs now r.outcome w
    have hover := h.ended
    rw [hh, List.forall_mem_cons] at hover
    refine ⟨?_, nofun⟩
    rw [hclosed]
    refine List.forall_mem_cons.mpr ⟨?_, hover.2⟩
    rintro r' z hcalled hfree hz
    obtain rfl : r = r' := Called.run.inj hcalled
    obtain rfl : now = z := Option.some.inj hz
    have hle := h.busy due started r runs hfree
    have hge : started + r.length ≤ now := by
      simp only [Run.isOver, Bool.and_eq_true, decide_eq_true_eq] at isOver
      exact isOver.1
    exact Nat.le_antisymm hle hge

theorem KeepsLengths.pass (h : l.KeepsLengths now) (hs : l.Still now cancelled) :
    l.KeepsLengths (now + 1) where
  ended := h.ended
  busy _ _ _ hp hfree := hs.lt_end hp hfree

theorem Turn.callsOf (h : Execution.CallsOf l.producer l.history)
    (hcount : l.calls = l.history.length) (t : l.Turn now cancelled w l' w') :
    Execution.CallsOf l'.producer l'.history := by
  cases t with
  | stop waits off => exact h
  | start waits on ripe => exact ⟨⟨w.around, by rw [← hcount]; rfl⟩, h⟩
  | spend waits on ripe => exact h
  | finish runs isOver => exact h.closeLatest now

end Loop

namespace Scheduler
variable {σ α : Type}

structure Telling (s : Scheduler σ α) : Prop where
  counted : s.Counted
  lengths : ∀ l ∈ s.loops, l.KeepsLengths s.now
  calls : ∀ l ∈ s.loops, Execution.CallsOf l.producer l.history

theorem invariant_telling : Invariant (Telling (σ := σ) (α := α)) where
  turn s i l l' w' h hl ht := by
    have hm := List.mem_of_getElem? hl
    refine ⟨invariant_counted.turn s i l l' w' h.counted hl ht, fun x hx => ?_, fun x hx => ?_⟩
    · rcases mem_turned hx with hx | rfl
      · exact h.lengths x hx
      · exact ht.keepsLengths (h.lengths l hm) (h.counted.logged l hm).2
    · rcases mem_turned hx with hx | rfl
      · exact h.calls x hx
      · exact ht.callsOf (h.calls l hm) (h.counted.counts l hm).calls
  pass s h hs := ⟨invariant_counted.pass s h.counted hs,
    fun l hl => (h.lengths l hl).pass (hs l hl), h.calls⟩
  arm s h hr := by
    refine ⟨invariant_counted.arm s h.counted hr, fun x hx => ?_, fun x hx => ?_⟩
    · obtain ⟨l, hl, rfl⟩ := List.mem_map.mp hx
      exact ⟨(h.lengths l hl).ended, nofun⟩
    · obtain ⟨l, hl, rfl⟩ := List.mem_map.mp hx
      exact h.calls l hl
  cancel s h hs := ⟨invariant_counted.cancel s h.counted hs, h.lengths, h.calls⟩

theorem telling_after (r : Registry (Producer σ α)) (store : Store α) (around : σ)
    (steps : List (Step α)) : ((withStore r store around).after steps).Telling := by
  have hfresh := fresh_withStore r store around
  refine invariant_telling.after_of_ignores ?_ (still_withStore r store around) steps
    fun _ _ h => ⟨⟨h.counted.logged, h.counted.counts⟩, h.lengths, h.calls⟩
  refine ⟨counted_after r store around [], fun l hl => ⟨?_, ?_⟩, fun l hl => ?_⟩
  · simp [(hfresh l hl).history]
  · simp [(hfresh l hl).phase]
  · simp [(hfresh l hl).history, Execution.CallsOf]

end Scheduler
end HostVitals
