import HostVitals.Schedule.Loop

/-! What one turn of a loop can do, and that the turns of one instant come to an end within the
number that a loop is given for them. -/
namespace HostVitals

theorem Cadence.lt_nextDue {interval : Nat} (h : 0 < interval) (due now : Nat) :
    due < nextDue interval due now := by
  unfold nextDue
  have hmod : (now - due) % interval < interval := Nat.mod_lt _ h
  split <;> omega

namespace Loop
variable {σ α : Type} {now : Nat} {cancelled : Bool} {l l' : Loop σ α} {w w' : World σ α}

/-- A turn: a loop that waits for a tick stops, takes it or has no next one, and one that runs ends
its run. -/
inductive Turn (now : Nat) (cancelled : Bool) (l : Loop σ α) (w : World σ α) :
    Loop σ α → World σ α → Prop where
  | stop {due : Nat} (waits : l.phase = some (.idle due)) (off : cancelled = true) :
    Turn now cancelled l w { l with phase := some .ended } w
  | start {due : Nat} (waits : l.phase = some (.idle due)) (on : cancelled = false)
    (ripe : due ≤ now) (next : Cadence.hasNext l.interval due now = true) :
    Turn now cancelled l w (l.start due now w).1 (l.start due now w).2
  | spend {due : Nat} (waits : l.phase = some (.idle due)) (on : cancelled = false)
    (ripe : due ≤ now) (last : Cadence.hasNext l.interval due now = false) :
    Turn now cancelled l w { l with phase := some .spent } w
  | finish {due started : Nat} {r : Run α} (runs : l.phase = some (.busy due started r))
    (isOver : r.isOver started now cancelled = true) :
    Turn now cancelled l w (l.finish due started now r.outcome w).1
      (l.finish due started now r.outcome w).2

def Still (l : Loop σ α) (now : Nat) (cancelled : Bool) : Prop :=
  match l.phase with
  | none | some .ended | some .spent => True
  | some (.idle due) => cancelled = false ∧ now < due
  | some (.busy _ started r) => r.isOver started now cancelled = false

theorem Still.lt_due {due : Nat} (h : l.Still now cancelled)
    (hp : l.phase = some (.idle due)) : now < due := by
  simp only [Still, hp] at h
  exact h.2

theorem Still.lt_end {due started : Nat} {r : Run α} (h : l.Still now cancelled)
    (hp : l.phase = some (.busy due started r)) (hu : r.untilCancel = false) :
    now < started + r.length := by
  simpa [Still, hp, Run.isOver, hu] using h

theorem turn?_eq_none_iff : l.turn? now cancelled w = none ↔ l.Still now cancelled := by
  unfold turn? Still
  cases hp : l.phase with
  | none => simp
  | some p =>
    cases p with
    | idle due =>
      cases cancelled with
      | true => simp
      | false =>
        by_cases hd : due ≤ now
        · cases hn : Cadence.hasNext l.interval due now <;> simp [hn, hd]
        · simp [hd, Nat.lt_of_not_le hd]
    | busy due started r => simp
    | ended => simp
    | spent => simp

theorem turn_of_turn? (h : l.turn? now cancelled w = some (l', w')) :
    l.Turn now cancelled w l' w' := by
  unfold turn? at h
  cases hp : l.phase with
  | none => simp [hp] at h
  | some p =>
    cases p with
    | idle due =>
      cases hc : cancelled with
      | true =>
        simp only [hp, hc, if_true, Option.some.injEq, Prod.mk.injEq] at h
        obtain ⟨rfl, rfl⟩ := h
        exact .stop hp rfl
      | false =>
        simp only [hp, hc, Bool.false_eq_true, if_false] at h
        split at h
        · next hd =>
          cases hn : Cadence.hasNext l.interval due now with
          | true =>
            simp only [hn, if_true] at h
            obtain ⟨rfl, rfl⟩ := Prod.ext_iff.mp (Option.some.inj h)
            exact .start hp rfl hd hn
          | false =>
            simp only [hn, Bool.false_eq_true, if_false, Option.some.injEq, Prod.mk.injEq] at h
            obtain ⟨rfl, rfl⟩ := h
            exact .spend hp rfl hd hn
        · cases h
    | busy due started r =>
      simp only [hp] at h
      split at h
      · next ho =>
        obtain ⟨rfl, rfl⟩ := Prod.ext_iff.mp (Option.some.inj h)
        exact .finish hp ho
      · cases h
    | ended => simp [hp] at h
    | spent => simp [hp] at h

def pending? (l : Loop σ α) : Option Nat :=
  match l.phase with
  | some (.idle due) | some (.busy due _ _) => some due
  | _ => none

theorem isAlive_iff : l.isAlive = true ↔ (∃ due, l.phase = some (.idle due)) ∨
    ∃ due started r, l.phase = some (.busy due started r) := by
  unfold isAlive
  cases l.phase with
  | none => simp
  | some p => cases p <;> simp

theorem Turn.isAlive (t : l.Turn now cancelled w l' w') : l.isAlive = true := by
  cases t with
  | stop waits off => simp [Loop.isAlive, waits]
  | start waits on ripe => simp [Loop.isAlive, waits]
  | spend waits on ripe => simp [Loop.isAlive, waits]
  | finish runs isOver => simp [Loop.isAlive, runs]

theorem ended_or_spent (h : ¬ l.isAlive = true) (hp : l.phase ≠ none) :
    l.phase = some .ended ∨ l.phase = some .spent := by
  unfold isAlive at h
  cases hph : l.phase with
  | none => exact absurd hph hp
  | some p =>
    cases p with
    | idle due => simp [hph] at h
    | busy due started r => simp [hph] at h
    | ended => exact .inl rfl
    | spent => exact .inr rfl

/-! Starting and ending a run. -/
section fields
variable (l : Loop σ α) (due started now : Nat) (o : Outcome α) (w : World σ α)

@[simp] theorem finish_key : (l.finish due started now o w).1.key = l.key := rfl
@[simp] theorem finish_calls : (l.finish due started now o w).1.calls = l.calls := rfl

@[simp] theorem finish_around : (l.finish due started now o w).2.around = w.around := by
  unfold finish
  cases o.value? <;> rfl

def call (l : Loop σ α) (w : World σ α) : Called α := (l.producer l.calls w.around).1

theorem start_phase : (l.start due now w).1.phase =
    some (.ofCall (Cadence.nextDue l.interval due now) now (l.call w)) := rfl

theorem start_history : (l.start due now w).1.history =
    ⟨due, now, l.call w, none⟩ :: l.history := rfl

theorem finish_phase : (l.finish due started now o w).1.phase = some (.idle due) := rfl

theorem finish_history : (l.finish due started now o w).1.history =
    Execution.closeLatest now l.history := rfl

end fields

/-- More turns than are left at an instant, counted from the ticks that are due by then. -/
def turnsLeft (l : Loop σ α) (now : Nat) : Nat :=
  match l.phase with
  | none | some .ended | some .spent => 0
  | some (.idle due) => 2 * (now + 1 - due) + 1
  | some (.busy due _ _) => 2 * (now + 1 - due) + 2

theorem turnsLeft_le (l : Loop σ α) (now : Nat) : l.turnsLeft now ≤ turnsAt now := by
  unfold turnsLeft turnsAt
  split <;> omega

theorem Turn.turnsLeft_lt (h : l.Turn now cancelled w l' w') :
    l'.turnsLeft now < l.turnsLeft now := by
  cases h with
  | stop waits off => simp [turnsLeft, waits]
  | spend waits on ripe => simp [turnsLeft, waits]
  | @start due waits on ripe =>
    have hnext := Cadence.lt_nextDue l.interval_pos due now
    simp only [turnsLeft, waits, start_phase]
    cases l.call w with
    | run r => simp only [Phase.ofCall]; omega
    | broken => simp only [Phase.ofCall]; omega
  | finish runs isOver => simp [turnsLeft, runs, finish_phase]

theorem settle_succ_of_turn? {fuel : Nat} (h : l.turn? now cancelled w = some (l', w')) :
    settle now cancelled (fuel + 1) l w = settle now cancelled fuel l' w' := by
  simp [settle, h]

theorem settle_of_still (h : l.Still now cancelled) (fuel : Nat) :
    settle now cancelled fuel l w = (l, w) := by
  cases fuel with
  | zero => rfl
  | succ fuel => simp [settle, turn?_eq_none_iff.mpr h]

/-- What every turn keeps, all turns of an instant keep. -/
theorem settle_keeps {P : Loop σ α → World σ α → Prop}
    (turn : ∀ l w l' w', P l w → l.Turn now cancelled w l' w' → P l' w') (fuel : Nat)
    (h : P l w) : P (settle now cancelled fuel l w).1 (settle now cancelled fuel l w).2 := by
  induction fuel generalizing l w with
  | zero => exact h
  | succ fuel ih =>
    cases ht : l.turn? now cancelled w with
    | none => simpa [settle, ht] using h
    | some p =>
      rw [settle_succ_of_turn? ht]
      exact ih (turn l w p.1 p.2 h (turn_of_turn? ht))

theorem still_settle_of_le {fuel : Nat} (h : l.turnsLeft now ≤ fuel) :
    (settle now cancelled fuel l w).1.Still now cancelled := by
  induction fuel generalizing l w with
  | zero =>
    have hn : l.turn? now cancelled w = none := by
      cases ht : l.turn? now cancelled w with
      | none => rfl
      | some p => exact absurd (turn_of_turn? ht).turnsLeft_lt (by omega)
    exact turn?_eq_none_iff.mp hn
  | succ fuel ih =>
    cases ht : l.turn? now cancelled w with
    | none =>
      rw [settle_of_still (turn?_eq_none_iff.mp ht)]
      exact turn?_eq_none_iff.mp ht
    | some p =>
      rw [settle_succ_of_turn? ht]
      have hlt := (turn_of_turn? ht).turnsLeft_lt
      exact ih (by omega)

/-- The turns that a loop is given are enough. -/
theorem still_settle (l : Loop σ α) (w : World σ α) (now : Nat) (cancelled : Bool) :
    (settle now cancelled (turnsAt now) l w).1.Still now cancelled :=
  still_settle_of_le (turnsLeft_le l now)

/-- Once still, a loop stays so until it next has something to do. -/
theorem still_iff_next? (h : l.Still now cancelled) (later : Nat) :
    l.Still later cancelled ↔ ∀ t, l.next? cancelled = some t → later < t := by
  unfold Still at *
  unfold next?
  cases hp : l.phase with
  | none => simp
  | some p =>
    cases p with
    | idle due =>
      simp only [hp] at h
      simp [h.1]
    | busy due started r =>
      simp only [hp] at h
      cases hu : r.untilCancel <;> cases cancelled <;> simp [Run.isOver, hu]
    | ended => simp
    | spent => simp

end Loop
end HostVitals
