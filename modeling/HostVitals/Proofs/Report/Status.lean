import HostVitals.Proofs.Report.Reply
import Mathlib.Order.Bounds.Basic

/-! What becomes of an answer for a metric, whatever its parts are and whether they fit together. The
status is decided by the schedule and then by the state; the time to wait is told where there is no
state, in the fewest whole seconds that are enough. -/
namespace HostVitals.Reply

variable {wait wait' n n' : Nat} {clock : Nat → String} {key : String} {c c' : Current Sample}
  {r r' : Reply}

theorem retrySeconds_eq_ok (h : retrySeconds wait = .ok n) :
    n = max (Span.wholeSeconds wait + if Span.subNanos wait = 0 then 0 else 1) 1 := by
  by_cases hle : wait ≤ Span.ofSeconds Text.maxU64
  · have hmax := h.symm.trans (if_pos (wholeSeconds_add_le_iff.mpr hle))
    exact Except.ok.inj hmax
  · cases h.symm.trans (retrySeconds_of_lt (Nat.not_le.mp hle))

/-- Fewer seconds would not be enough, but one is told even if there is nothing to wait for. -/
theorem isLeast_retrySeconds (h : retrySeconds wait = .ok n) :
    IsLeast {n | 1 ≤ n ∧ wait ≤ Span.ofSeconds n} n := by
  rw [retrySeconds_eq_ok h]
  constructor
  · exact ⟨Nat.le_max_right _ _, wholeSeconds_add_le_iff.mp (Nat.le_max_left _ _)⟩
  · rintro k ⟨hone, hk⟩
    exact Nat.max_le.mpr ⟨wholeSeconds_add_le_iff.mpr hk, hone⟩

theorem retrySeconds_mono (hle : wait ≤ wait') (h : retrySeconds wait = .ok n)
    (h' : retrySeconds wait' = .ok n') : n ≤ n' := by
  obtain ⟨hone, henough⟩ := (isLeast_retrySeconds h').1
  exact (isLeast_retrySeconds h).2 ⟨hone, Nat.le_trans hle henough⟩

structure Tells (r : Reply) (c : Current Sample) : Prop where
  unknown_iff : r.status = 404 ↔ c.scheduleExists = false
  waiting_iff : r.status = 503 ↔ c.scheduleExists = true ∧ c.state = none
  given_iff : r.status = 200 ↔ c.scheduleExists = true ∧ c.state ≠ none
  retryAfter_iff : (∃ n, r.retryAfter = some n) ↔ r.status = 503
  retryAfter : ∀ n, r.retryAfter = some n → r.field? "retry_after_seconds" = some (.nat n) ∧
    IsLeast {n | 1 ≤ n ∧ c.retryAfter ≤ Span.ofSeconds n} n
  sample : r.status = 200 → ∃ st, c.state = some st ∧ r.field? "value" = some st.value.document
  stale : r.status = 200 → ∃ stale, r.field? "stale" = some (.bool stale) ∧
    (stale = true ↔ c.stateExists = true ∧ c.retryAfter = 0)

theorem ofCurrent_tells_unknown (h : c.scheduleExists = false) :
    ∃ r, ofCurrent clock key c = .ok r ∧ r.Tells c := by
  refine ⟨_, by rw [ofCurrent, h]; rfl, ?_⟩
  constructor
  case unknown_iff => exact iff_of_true rfl h
  case waiting_iff => exact iff_of_false (by rintro ⟨⟩) (by simp [h])
  case given_iff => exact iff_of_false (by rintro ⟨⟩) (by simp [h])
  case retryAfter_iff => exact iff_of_false (by rintro ⟨_, ⟨⟩⟩) (by rintro ⟨⟩)
  case retryAfter => rintro _ ⟨⟩
  case sample => rintro ⟨⟩
  case stale => rintro ⟨⟩

theorem ofCurrent_tells_waiting (h : c.scheduleExists = true) (hstate : c.state = none)
    (hn : retrySeconds c.retryAfter = .ok n) :
    ∃ r, ofCurrent clock key c = .ok r ∧ r.Tells c := by
  refine ⟨_, by simp only [ofCurrent, h, hstate, hn]; rfl, ?_⟩
  constructor
  case unknown_iff => exact iff_of_false (by rintro ⟨⟩) (by simp [h])
  case waiting_iff => exact iff_of_true rfl ⟨h, hstate⟩
  case given_iff => exact iff_of_false (by rintro ⟨⟩) (by simp [hstate])
  case retryAfter_iff => exact iff_of_true ⟨n, rfl⟩ rfl
  case retryAfter =>
    rintro _ ⟨⟩
    exact ⟨rfl, isLeast_retrySeconds hn⟩
  case sample => rintro ⟨⟩
  case stale => rintro ⟨⟩

theorem ofCurrent_tells_given (h : c.scheduleExists = true) {st : State Sample}
    (hstate : c.state = some st) : ∃ r, ofCurrent clock key c = .ok r ∧ r.Tells c := by
  refine ⟨_, by rw [ofCurrent, h, hstate]; rfl, ?_⟩
  constructor
  case unknown_iff => exact iff_of_false (by rintro ⟨⟩) (by simp [h])
  case waiting_iff => exact iff_of_false (by rintro ⟨⟩) (by simp [hstate])
  case given_iff => exact iff_of_true rfl ⟨h, by simp [hstate]⟩
  case retryAfter_iff => exact iff_of_false (by rintro ⟨_, ⟨⟩⟩) (by rintro ⟨⟩)
  case retryAfter => rintro _ ⟨⟩
  case sample => exact fun _ => ⟨st, hstate, rfl⟩
  case stale => exact fun _ => ⟨c.isStale, rfl, by simp [Current.isStale]⟩

theorem ofCurrent_tells (clock : Nat → String) (key : String)
    (h : c.retryAfter ≤ Span.ofSeconds Text.maxU64) :
    ∃ r, ofCurrent clock key c = .ok r ∧ r.Tells c := by
  cases hschedule : c.scheduleExists with
  | false => exact ofCurrent_tells_unknown hschedule
  | true =>
    cases hstate : c.state with
    | none =>
      obtain ⟨n, hn⟩ := retrySeconds_of_le h
      exact ofCurrent_tells_waiting hschedule hstate hn
    | some st => exact ofCurrent_tells_given hschedule hstate

/-- Seconds that are told are those of the wait. -/
theorem retrySeconds_of_ofCurrent (h : ofCurrent clock key c = .ok r)
    (hn : r.retryAfter = some n) : retrySeconds c.retryAfter = .ok n := by
  cases hschedule : c.scheduleExists with
  | false =>
    rw [ofCurrent, hschedule] at h
    cases h
    cases hn
  | true =>
    cases hstate : c.state with
    | some st =>
      rw [ofCurrent, hschedule, hstate] at h
      cases h
      cases hn
    | none =>
      cases hwait : retrySeconds c.retryAfter with
      | error e =>
        simp only [ofCurrent, hschedule, hstate, hwait] at h
        cases h
      | ok k =>
        simp only [ofCurrent, hschedule, hstate, hwait] at h
        cases h
        cases hn
        rfl

/-- Every answer with a wait that can be told has a reply that tells it, and a longer wait is never
told in fewer seconds. -/
theorem answer_told (clock : Nat → String) (key : String) (c : Current Sample)
    (h : c.retryAfter ≤ Span.ofSeconds Text.maxU64) :
    ∃ r, ofCurrent clock key c = .ok r ∧ r.Tells c ∧
      ∀ clock' key' c' r', ofCurrent clock' key' c' = .ok r' → c.retryAfter ≤ c'.retryAfter →
        ∀ n n', r.retryAfter = some n → r'.retryAfter = some n' → n ≤ n' := by
  obtain ⟨r, hr, htells⟩ := ofCurrent_tells clock key h
  refine ⟨r, hr, htells, ?_⟩
  intro clock' key' c' r' hr' hle n n' hn hn'
  exact retrySeconds_mono hle (retrySeconds_of_ofCurrent hr hn) (retrySeconds_of_ofCurrent hr' hn')

/-- An answer that says that there is a state but has none. -/
theorem answer_told_without_state :
    let c : Current Sample :=
      { scheduleExists := true, stateExists := true, retryAfter := Span.ofMillis 5001 }
    c.retryAfter ≤ Span.ofSeconds Text.maxU64 ∧
      ∃ r, ofCurrent (fun _ => "") "load" c = .ok r ∧ r.status = 503 ∧ r.retryAfter = some 6 := by
  intro c
  have hle : c.retryAfter ≤ Span.ofSeconds Text.maxU64 := by decide
  obtain ⟨r, hr, htells, -⟩ := answer_told (fun _ => "") "load" c hle
  have hstatus := htells.waiting_iff.mpr ⟨rfl, rfl⟩
  obtain ⟨n, hn⟩ := htells.retryAfter_iff.mpr hstatus
  obtain ⟨-, hleast⟩ := htells.retryAfter n hn
  have hsix : IsLeast {n | 1 ≤ n ∧ c.retryAfter ≤ Span.ofSeconds n} 6 := by
    refine ⟨⟨by decide, by decide⟩, fun k hk => ?_⟩
    have henough : 5001 * 1000000 ≤ k * 1000000000 := hk.2
    omega
  exact ⟨hle, r, hr, hstatus, by rw [hn, hleast.unique hsix]⟩

end HostVitals.Reply
