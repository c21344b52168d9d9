import HostVitals.Proofs.Schedule.Log
import Mathlib.Tactic.Ring
import Mathlib.Algebra.Order.Group.Nat

/-! Ticks on a grid, and the log of a loop that takes them as soon as it can: what follows for its
runs from the rule for the next tick alone. -/
namespace HostVitals

namespace Cadence
variable {interval due now : Nat}

theorem nextDue_of_late (h : due + tolerance < now) :
    nextDue interval due now = now + interval - (now - due) % interval := if_pos h

theorem nextDue_of_timely (h : now ≤ due + tolerance) :
    nextDue interval due now = due + interval := if_neg (by omega)

theorem nextDue_le (h : due ≤ now) : nextDue interval due now ≤ now + interval := by
  unfold nextDue
  split <;> omega

theorem lt_nextDue_of_late (hpos : 0 < interval) (h : due + tolerance < now) :
    now < nextDue interval due now := by
  have hmod : (now - due) % interval < interval := Nat.mod_lt _ hpos
  rw [nextDue_of_late h]
  omega

/-- The tick after one on the grid is on the grid, farther on. -/
theorem exists_nextDue_eq {t0 k : Nat} (hdue : due = t0 + k * interval) (h : due ≤ now) :
    ∃ m, k < m ∧ nextDue interval due now = t0 + m * interval := by
  by_cases hlate : due + tolerance < now
  · refine ⟨k + ((now - due) / interval + 1), Nat.lt_add_of_pos_right (Nat.succ_pos _), ?_⟩
    have hsplit := Nat.mod_add_div (now - due) interval
    have hgrid : t0 + (k + ((now - due) / interval + 1)) * interval =
        due + interval * ((now - due) / interval) + interval := by
      rw [hdue]
      ring
    rw [nextDue_of_late hlate, hgrid]
    omega
  · refine ⟨k + 1, by omega, ?_⟩
    rw [nextDue_of_timely (by omega), hdue]
    ring

/-- The tick rule holds for a tick as long as the sum it takes is an instant. -/
theorem hasNext_iff : hasNext interval due now = true ↔
    due + interval < instantLimit ∧ (due + tolerance < now → now + interval < instantLimit) := by
  unfold hasNext
  split <;> simp <;> omega

theorem limit_le_of_not_hasNext (h : due ≤ now) (hnone : hasNext interval due now = false) :
    instantLimit ≤ now + interval := by
  unfold hasNext at hnone
  split at hnone <;> simp at hnone <;> omega

/-- Two grid points are an interval apart. -/
theorem add_interval_le_of_lt {t0 j k : Nat} (h : t0 + j * interval < t0 + k * interval) :
    t0 + j * interval + interval ≤ t0 + k * interval := by
  have hjk : j < k := Nat.lt_of_mul_lt_mul_right (Nat.lt_of_add_lt_add_left h)
  have := Nat.mul_le_mul_right interval hjk
  rw [Nat.succ_mul] at this
  omega

end Cadence

namespace Execution
variable {α : Type} {interval t0 : Nat} {e f : Execution α} {log : List (Execution α)}

def nextTick (interval t0 : Nat) : List (Execution α) → Nat
  | [] => t0
  | e :: _ => Cadence.nextDue interval e.due e.started

def freeSince (t0 : Nat) : List (Execution α) → Option Nat
  | [] => some t0
  | e :: _ => e.ended

/-- The log of a loop started at `t0`: each run takes the next tick, as soon as the tick is due and
the run before is over. -/
def Regular (interval t0 : Nat) : List (Execution α) → Prop
  | [] => True
  | e :: r => e.due = nextTick interval t0 r ∧
    (∃ z, freeSince t0 r = some z ∧ e.started = max e.due z) ∧
    (∀ z, e.ended = some z → e.started ≤ z) ∧ Regular interval t0 r

def Covers (e : Execution α) (g : Nat) : Prop :=
  e.started = g ∨ e.started < g ∧ ∀ z, e.ended = some z → g < z

namespace Regular

theorem of_append {pre post : List (Execution α)} (h : Regular interval t0 (pre ++ post)) :
    Regular interval t0 post := by
  induction pre with
  | nil => exact h
  | cons e pre ih => exact ih h.2.2.2

theorem due_le_started (h : Regular interval t0 log) : ∀ e ∈ log, e.due ≤ e.started := by
  intro e he
  obtain ⟨pre, post, rfl⟩ := List.append_of_mem he
  obtain ⟨-, ⟨z, -, hs⟩, -⟩ := h.of_append
  omega

theorem started_le_ended (h : Regular interval t0 log) :
    ∀ e ∈ log, ∀ z, e.ended = some z → e.started ≤ z := by
  intro e he
  obtain ⟨pre, post, rfl⟩ := List.append_of_mem he
  exact h.of_append.2.2.1

/-- Each tick taken uses up at least one grid point. -/
theorem exists_nextTick_eq (h : Regular interval t0 log) :
    ∃ k, log.length ≤ k ∧ nextTick interval t0 log = t0 + k * interval := by
  induction log with
  | nil => exact ⟨0, by simp, by simp [nextTick]⟩
  | cons e r ih =>
    obtain ⟨k, hk, hnext⟩ := ih h.2.2.2
    obtain ⟨m, hm, hdue⟩ := Cadence.exists_nextDue_eq (h.1.trans hnext)
      (h.due_le_started e (by simp))
    exact ⟨m, by simp only [List.length_cons]; omega, hdue⟩

theorem exists_due_eq (h : Regular interval t0 log) :
    ∀ e ∈ log, ∃ k, e.due = t0 + k * interval := by
  intro e he
  obtain ⟨pre, post, rfl⟩ := List.append_of_mem he
  obtain ⟨hdue, -, -, hpost⟩ := h.of_append
  obtain ⟨k, -, hk⟩ := hpost.exists_nextTick_eq
  exact ⟨k, hdue.trans hk⟩

theorem due_lt_nextTick (hpos : 0 < interval) (h : Regular interval t0 log) :
    ∀ e ∈ log, e.due < nextTick interval t0 log := by
  induction log with
  | nil => simp
  | cons e r ih =>
    intro f hf
    have he : e.due < nextTick interval t0 (e :: r) := Cadence.lt_nextDue hpos e.due e.started
    rcases List.mem_cons.mp hf with rfl | hf
    · exact he
    · have hlt := ih h.2.2.2 f hf
      rw [← h.1] at hlt
      omega

theorem pairwise_due (hpos : 0 < interval) (h : Regular interval t0 log) :
    log.Pairwise fun later earlier => earlier.due < later.due := by
  induction log with
  | nil => exact .nil
  | cons e r ih =>
    refine List.pairwise_cons.mpr ⟨fun f hf => ?_, ih h.2.2.2⟩
    rw [h.1]
    exact h.2.2.2.due_lt_nextTick hpos f hf

/-- A run is over before any later one begins. -/
theorem pairwise_apart (h : Regular interval t0 log) :
    log.Pairwise fun later earlier =>
      ∃ z, earlier.ended = some z ∧ earlier.started ≤ z ∧ z ≤ later.started := by
  induction log with
  | nil => exact .nil
  | cons e r ih =>
    obtain ⟨-, ⟨z, hfree, hs⟩, -, hr⟩ := h
    have hz : z ≤ e.started := by omega
    cases r with
    | nil => simp
    | cons f r =>
      have hrest := ih hr
      refine List.pairwise_cons.mpr ⟨fun g hg => ?_, hrest⟩
      have hf : f.started ≤ z := hr.2.2.1 z hfree
      rcases List.mem_cons.mp hg with rfl | hg
      · exact ⟨z, hfree, hf, hz⟩
      · obtain ⟨y, hy, hle, hyf⟩ := (List.pairwise_cons.mp hrest).1 g hg
        exact ⟨y, hy, hle, by omega⟩

/-- As many runs as grid points begin by an instant, at most. -/
theorem countP_started_le (hpos : 0 < interval) (h : Regular interval t0 log) {t : Nat}
    (ht : t0 ≤ t) :
    log.countP (fun e => decide (e.started ≤ t)) ≤ (t - t0) / interval + 1 := by
  induction log with
  | nil => simp
  | cons e r ih =>
    by_cases hs : e.started ≤ t
    · -- the runs before took a grid point each, all of them before the one of `e`
      obtain ⟨k, hk, hnext⟩ := h.2.2.2.exists_nextTick_eq
      have hdue : t0 + k * interval ≤ t := by
        rw [← hnext, ← h.1]
        exact (h.due_le_started e (by simp)).trans hs
      have hkt : k ≤ (t - t0) / interval := (Nat.le_div_iff_mul_le hpos).mpr (by omega)
      have hlen := List.countP_le_length (p := fun e : Execution α => decide (e.started ≤ t))
        (l := e :: r)
      simp only [List.length_cons] at hlen
      omega
    · rw [List.countP_cons_of_neg (by simpa using hs)]
      exact ih h.2.2.2

/-- A run begins when its tick is due, unless the run before kept it waiting to its end. -/
theorem started_eq {pre post : List (Execution α)} (h : Regular interval t0 (pre ++ e :: post)) :
    e.started = e.due ∨ ∃ f rest, post = f :: rest ∧ f.ended = some e.started := by
  obtain ⟨hdue, ⟨z, hfree, hs⟩, -⟩ := h.of_append
  cases post with
  | nil =>
    have hz : z = t0 := (Option.some.inj hfree).symm
    have hd : e.due = t0 := hdue
    exact .inl (by omega)
  | cons f rest =>
    by_cases hz : z ≤ e.due
    · exact .inl (by omega)
    · exact .inr ⟨f, rest, rfl, by rw [hs, Nat.max_eq_right (by omega)]; exact hfree⟩

/-- No grid point up to the start of the latest run is lost. -/
theorem exists_covers (h : Regular interval t0 (e :: log)) (k : Nat)
    (hk : t0 + k * interval ≤ e.started) : ∃ f ∈ e :: log, f.Covers (t0 + k * interval) := by
  induction log generalizing e with
  | nil =>
    obtain ⟨hdue, ⟨z, hfree, hs⟩, -⟩ := h
    have hz : z = t0 := (Option.some.inj hfree).symm
    have hd : e.due = t0 := hdue
    exact ⟨e, by simp, .inl (by omega)⟩
  | cons f r ih =>
    by_cases hf : t0 + k * interval ≤ f.started
    · obtain ⟨x, hx, hc⟩ := ih h.2.2.2 hf
      exact ⟨x, List.mem_cons_of_mem e hx, hc⟩
    obtain ⟨m, hm⟩ := h.exists_due_eq e (by simp)
    obtain ⟨hdue, ⟨z, hfree, hs⟩, -, hr⟩ := h
    by_cases hz : t0 + k * interval < z
    · exact ⟨f, by simp, .inr ⟨by omega, fun y hy => by
        rwa [← Option.some.inj (hfree.symm.trans hy)]⟩⟩
    · refine ⟨e, by simp, .inl ?_⟩
      by_contra hne
      -- the grid point would lie between the start of `f` and the tick right after it
      have hlt : t0 + k * interval < t0 + m * interval := by omega
      have hgap := Cadence.add_interval_le_of_lt hlt
      have hnext : e.due ≤ f.started + interval :=
        hdue ▸ Cadence.nextDue_le (hr.due_le_started f (by simp))
      omega

/-- No grid point before the next tick is lost. -/
theorem exists_covers_of_lt_nextTick (h : Regular interval t0 log) (k : Nat)
    (hk : t0 + k * interval < nextTick interval t0 log) :
    ∃ f ∈ log, f.Covers (t0 + k * interval) := by
  cases log with
  | nil =>
    simp only [nextTick] at hk
    omega
  | cons e r =>
    by_cases hle : t0 + k * interval ≤ e.started
    · exact h.exists_covers k hle
    · -- the next tick is the first grid point after the start of `e`
      obtain ⟨m, -, hm⟩ := h.exists_nextTick_eq
      have hgap := Cadence.add_interval_le_of_lt (hm ▸ hk)
      have hnext : nextTick interval t0 (e :: r) ≤ e.started + interval :=
        Cadence.nextDue_le (h.due_le_started e (by simp))
      omega

/-- Where the next tick has none after it, no grid point is lost that has one. -/
theorem exists_covers_of_not_hasNext (h : Regular interval t0 log) {z : Nat}
    (hfree : freeSince t0 log = some z)
    (hnone : Cadence.hasNext interval (nextTick interval t0 log)
      (max (nextTick interval t0 log) z) = false) (k : Nat)
    (hk : t0 + k * interval + interval < instantLimit) :
    ∃ f ∈ log, f.Covers (t0 + k * interval) := by
  by_cases hlt : t0 + k * interval < nextTick interval t0 log
  · exact h.exists_covers_of_lt_nextTick k hlt
  -- the tick is late, and the run before it goes on beyond the grid point
  have hlimit := Cadence.limit_le_of_not_hasNext (Nat.le_max_left _ z) hnone
  have hz : t0 + k * interval < z := by omega
  cases log with
  | nil =>
    obtain rfl : t0 = z := Option.some.inj hfree
    omega
  | cons e r =>
    by_cases hle : t0 + k * interval ≤ e.started
    · exact h.exists_covers k hle
    · refine ⟨e, by simp, .inr ⟨Nat.lt_of_not_le hle, fun y hy => ?_⟩⟩
      rwa [← Option.some.inj (hfree.symm.trans hy)]

end Regular
end Execution
end HostVitals
