import HostVitals.Proofs.Schedule.Cadence
import HostVitals.Proofs.Schedule.Lengths
import HostVitals.Proofs.Schedule.Provenance

/-! Jobs whose runs take no longer than an interval. Each run begins at its own grid point and
publishes when its length has passed, so it can be told beforehand what a question is answered at
any instant, and how far the hint is from the next publication. -/
namespace HostVitals

def Producer.Takes {σ α : Type} (p : Producer σ α) (length : Nat → Nat) : Prop :=
  ∀ n around, ∃ v, (p n around).1 = .run { length := length n, outcome := .value v }

def Cadence.published (interval t0 : Nat) (length : Nat → Nat) (n : Nat) : Nat :=
  t0 + n * interval + length n

namespace Cadence
variable {interval t0 now : Nat} {length : Nat → Nat}

theorem published_succ (interval t0 : Nat) (length : Nat → Nat) (n : Nat) :
    published interval t0 length (n + 1) = t0 + n * interval + interval + length (n + 1) := by
  unfold published
  ring

theorem published_mono (hle : ∀ n, length n ≤ interval) :
    Monotone (published interval t0 length) := by
  refine monotone_nat_of_le_succ fun n => ?_
  have hn := hle n
  rw [published_succ]
  unfold published
  omega

/-- From the first publication on, every instant is between two of them. -/
theorem exists_published_le (hpos : 0 < interval) (h : published interval t0 length 0 ≤ now) :
    ∃ n, published interval t0 length n ≤ now ∧ now < published interval t0 length (n + 1) := by
  by_contra! hnone
  have hall (n : Nat) : published interval t0 length n ≤ now := by
    induction n with
    | zero => exact h
    | succ n ih => exact hnone n ih
  have hfar : now + 1 ≤ (now + 1) * interval := Nat.le_mul_of_pos_right _ hpos
  have hlast := hall (now + 1)
  unfold published at hlast
  omega

end Cadence

namespace Execution
variable {σ α : Type} {interval t0 now n : Nat} {length : Nat → Nat} {p : Producer σ α}
  {e : Execution α} {log : List (Execution α)}

def onTime (interval t0 : Nat) (length : Nat → Nat) (now n : Nat) (v : α) : Execution α where
  due := t0 + n * interval
  started := t0 + n * interval
  called := .run { length := length n, outcome := .value v }
  ended :=
    if Cadence.published interval t0 length n ≤ now then
      some (Cadence.published interval t0 length n)
    else none

def OnTime (interval t0 : Nat) (length : Nat → Nat) : List (Execution α) → Prop
  | [] => True
  | e :: r => (e.due = t0 + r.length * interval ∧ e.started = e.due ∧
      (∃ v, e.called = .run { length := length r.length, outcome := .value v }) ∧
      ∀ z, e.ended = some z → z = Cadence.published interval t0 length r.length) ∧
    OnTime interval t0 length r

namespace OnTime

theorem nextTick_eq (h : OnTime interval t0 length log) :
    nextTick interval t0 log = t0 + log.length * interval := by
  cases log with
  | nil => simp [nextTick]
  | cons e r =>
    obtain ⟨⟨hdue, hstarted, -⟩, -⟩ := h
    rw [nextTick, hstarted, Cadence.nextDue_of_timely (Nat.le_add_right _ _), hdue,
      List.length_cons]
    ring

theorem freeSince_le (h : OnTime interval t0 length log) (hle : ∀ n, length n ≤ interval) {z : Nat}
    (hz : freeSince t0 log = some z) : z ≤ t0 + log.length * interval := by
  cases log with
  | nil =>
    obtain rfl : t0 = z := Option.some.inj hz
    exact Nat.le_add_right _ _
  | cons e r =>
    have hlength := hle r.length
    rw [h.1.2.2.2 z hz, Cadence.published, List.length_cons, Nat.succ_mul]
    omega

end OnTime

/-- The next tick is never late, and the run before it is over by then. -/
theorem Regular.onTime (h : Regular interval t0 log) (hcalls : CallsOf p log)
    (hends : ∀ e ∈ log, e.EndsInTime) (hp : p.Takes length) (hle : ∀ n, length n ≤ interval) :
    OnTime interval t0 length log := by
  induction log with
  | nil => trivial
  | cons e r ih =>
    obtain ⟨htick, ⟨z, hfree, hstart⟩, -, hrest⟩ := h
    obtain ⟨⟨around, hcalled⟩, hcalls⟩ := hcalls
    rw [List.forall_mem_cons] at hends
    have hr := ih hrest hcalls hends.2
    have hdue : e.due = t0 + r.length * interval := htick.trans hr.nextTick_eq
    have hstarted : e.started = e.due := by
      have hz := hr.freeSince_le hle hfree
      omega
    obtain ⟨v, hv⟩ := hp r.length around
    refine ⟨⟨hdue, hstarted, ⟨v, hcalled.trans hv⟩, fun z hz => ?_⟩, hr⟩
    rw [hends.1 _ z (hcalled.trans hv) rfl hz, hstarted, hdue]
    rfl

namespace OnTime

theorem nth (h : OnTime interval t0 length log) (he : log.reverse[n]? = some e) :
    e.due = t0 + n * interval ∧ e.started = e.due ∧
      (∃ v, e.called = .run { length := length n, outcome := .value v }) ∧
      ∀ z, e.ended = some z → z = Cadence.published interval t0 length n := by
  induction log with
  | nil => simp at he
  | cons f r ih =>
    rw [List.reverse_cons] at he
    by_cases hn : n < r.length
    · rw [List.getElem?_append_left (by simpa using hn)] at he
      exact ih h.2 he
    · rw [List.getElem?_append_right (by simpa using hn), List.length_reverse,
        List.getElem?_singleton] at he
      obtain rfl : n = r.length := by
        by_contra hne
        rw [if_neg (by omega)] at he
        cases he
      obtain rfl : f = e := by simpa using he
      exact h.1

theorem mem_called (h : OnTime interval t0 length log) :
    ∀ e ∈ log, ∃ r, e.called = .run r ∧ r.untilCancel = false := by
  induction log with
  | nil => simp
  | cons f r ih =>
    obtain ⟨⟨-, -, ⟨v, hv⟩, -⟩, hrest⟩ := h
    exact List.forall_mem_cons.mpr ⟨⟨_, hv, rfl⟩, ih hrest⟩

/-- The later runs publish after the next one, so they have not published yet. -/
theorem findSome?_state? (h : OnTime interval t0 length log) (hle : ∀ n, length n ≤ interval)
    (hpast : ∀ e ∈ log, ∀ z, e.ended = some z → z ≤ now)
    (hnext : now < Cadence.published interval t0 length (n + 1)) {v : α}
    (hn : Cadence.published interval t0 length n ≤ now)
    (he : log.reverse[n]? = some (onTime interval t0 length now n v)) :
    log.findSome? state? = some ⟨v, Cadence.published interval t0 length n⟩ := by
  induction log with
  | nil => simp at he
  | cons f r ih =>
    rw [List.forall_mem_cons] at hpast
    rw [List.reverse_cons] at he
    rw [findSome?_cons_eq_or]
    by_cases hlt : n < r.length
    · have hopen : f.ended = none := by
        rw [Option.eq_none_iff_forall_ne_some]
        intro z hz
        have hmono : Cadence.published interval t0 length (n + 1) ≤
            Cadence.published interval t0 length r.length := Cadence.published_mono hle hlt
        have hz' := h.1.2.2.2 z hz
        have := hpast.1 z hz
        omega
      rw [List.getElem?_append_left (by simpa using hlt)] at he
      rw [state?_of_open hopen, Option.none_or]
      exact ih h.2 hpast.2 he
    · rw [List.getElem?_append_right (by simpa using hlt), List.length_reverse,
        List.getElem?_singleton] at he
      split at he
      · obtain rfl := Option.some.inj he
        simp [state?, onTime, hn, Outcome.value?]
      · cases he

end OnTime
end Execution

namespace Loop
variable {σ α : Type} {t0 now n : Nat} {length : Nat → Nat} {l : Loop σ α}

def nthRun? (l : Loop σ α) (n : Nat) : Option (Execution α) := l.history.reverse[n]?

structure Timely (l : Loop σ α) (t0 : Nat) (length : Nat → Nat) (now : Nat) : Prop where
  onTime : Execution.OnTime l.interval t0 length l.history
  le_interval : ∀ n, length n ≤ l.interval
  past : ∀ e ∈ l.history, ∀ z, e.ended = some z → z ≤ now
  begun : ∀ n, n < l.history.length ↔
    t0 + n * l.interval ≤ now ∧ t0 + n * l.interval + l.interval < instantLimit
  unended : ∀ n e, l.nthRun? n = some e → e.ended = none →
    now < Cadence.published l.interval t0 length n

theorem mem_of_nthRun? {e : Execution α} (h : l.nthRun? n = some e) : e ∈ l.history :=
  List.mem_reverse.mp (List.mem_of_getElem? h)

theorem exists_nthRun?_of_lt (h : n < l.history.length) : ∃ e, l.nthRun? n = some e :=
  ⟨_, List.getElem?_eq_getElem (by simpa using h)⟩

/-- Which runs have begun, where the tick after them is still to come or has none after it. -/
theorem Paced.begun (h : l.Paced t0 now) (hon : Execution.OnTime l.interval t0 length l.history)
    (hstarted : ∀ e ∈ l.history, e.started ≤ now)
    (hnext : now < t0 + l.history.length * l.interval ∨
      instantLimit ≤ t0 + l.history.length * l.interval + l.interval) (n : Nat) :
    n < l.history.length ↔
      t0 + n * l.interval ≤ now ∧ t0 + n * l.interval + l.interval < instantLimit := by
  constructor
  · intro hn
    obtain ⟨e, he⟩ := exists_nthRun?_of_lt hn
    obtain ⟨hdue, hstart, -⟩ := hon.nth he
    have hmem := mem_of_nthRun? he
    have hbegun := hstarted e hmem
    have hlimit := (Cadence.hasNext_iff.mp (h.followed e hmem)).1
    omega
  · rintro ⟨hbegun, hlimit⟩
    by_contra hn
    have hgrid := Nat.mul_le_mul_right l.interval (Nat.not_lt.mp hn)
    omega

/-- A loop whose runs are all over. -/
theorem Paced.timely_of_over (h : l.Paced t0 now) (hover : ∀ e ∈ l.history, e.IsOver)
    (hon : Execution.OnTime l.interval t0 length l.history) (hle : ∀ n, length n ≤ l.interval)
    (hpast : ∀ e ∈ l.history, ∀ z, e.ended = some z → z ≤ now)
    (hnext : now < t0 + l.history.length * l.interval ∨
      instantLimit ≤ t0 + l.history.length * l.interval + l.interval) :
    l.Timely t0 length now := by
  refine ⟨hon, hle, hpast, h.begun hon (fun e he => ?_) hnext, fun n e he hopen => ?_⟩
  · obtain ⟨-, z, -, hz⟩ := hover e he
    exact Nat.le_trans (h.regular.started_le_ended e he z hz) (hpast e he z hz)
  · obtain ⟨-, z, -, hz⟩ := hover e (mem_of_nthRun? he)
    rw [hz] at hopen
    cases hopen

/-- A loop that waits for its next tick waits for the grid point after its runs. -/
theorem Paced.lt_of_idle {due : Nat} (h : l.Paced t0 now) (hs : l.Still now false)
    (hp : l.phase = some (.idle due)) (hon : Execution.OnTime l.interval t0 length l.history) :
    now < t0 + l.history.length * l.interval := by
  have hlt := hs.lt_due hp
  rwa [h.pending due (by simp [pending?, hp]), hon.nextTick_eq] at hlt

/-- A loop on time is not late for the tick that has none after it. -/
theorem Paced.limit_le_of_spent (h : l.Paced t0 now) (hp : l.phase = some .spent)
    (hon : Execution.OnTime l.interval t0 length l.history) (hle : ∀ n, length n ≤ l.interval) :
    instantLimit ≤ t0 + l.history.length * l.interval + l.interval := by
  obtain ⟨z, hfree, -, hnone⟩ := h.spent hp
  have hz := hon.freeSince_le hle hfree
  rw [hon.nextTick_eq, Nat.max_eq_left hz] at hnone
  exact Cadence.limit_le_of_not_hasNext (Nat.le_refl _) hnone

/-- A loop that is busy has only the latest run to end. -/
theorem Paced.timely_of_busy {due due' started : Nat} {r : Run α} {rest : List (Execution α)}
    (h : l.Paced t0 now) (hs : l.Still now false) (hp : l.phase = some (.busy due started r))
    (hh : l.history = ⟨due', started, .run r, none⟩ :: rest) (hover : ∀ e ∈ rest, e.IsOver)
    (hon : Execution.OnTime l.interval t0 length l.history) (hle : ∀ n, length n ≤ l.interval)
    (hpast : ∀ e ∈ l.history, ∀ z, e.ended = some z → z ≤ now) : l.Timely t0 length now := by
  have hstarted := h.busy due started r hp
  have hhead := hon
  rw [hh] at hhead
  obtain ⟨⟨hdue, hstart, ⟨v, hv⟩, -⟩, -⟩ := hhead
  obtain rfl : r = { length := length rest.length, outcome := .value v } := Called.run.inj hv
  have hend := hs.lt_end hp rfl
  have hlength := hle rest.length
  simp only at hdue hstart hend
  refine ⟨hon, hle, hpast, h.begun hon (fun e he => ?_) (.inl ?_), fun n e he hopen => ?_⟩
  · have hmem := he
    rw [hh, List.mem_cons] at hmem
    rcases hmem with rfl | hmem
    · exact hstarted
    · obtain ⟨-, z, -, hz⟩ := hover e hmem
      exact Nat.le_trans (h.regular.started_le_ended e he z hz) (hpast e he z hz)
  · rw [hh, List.length_cons, Nat.succ_mul]
    omega
  · obtain ⟨hdue', hstart', ⟨v', hv'⟩, -⟩ := hon.nth he
    have hmem := mem_of_nthRun? he
    rw [hh, List.mem_cons] at hmem
    rcases hmem with rfl | hmem
    · have hrun := congrArg Run.length (Called.run.inj hv')
      simp only at hdue' hrun
      unfold Cadence.published
      omega
    · obtain ⟨-, z, -, hz⟩ := hover e hmem
      rw [hz] at hopen
      cases hopen

theorem Paced.timely (h : l.Paced t0 now) (hlog : l.Logged false) (hs : l.Still now false)
    (hphase : l.phase ≠ none) (hon : Execution.OnTime l.interval t0 length l.history)
    (hle : ∀ n, length n ≤ l.interval)
    (hpast : ∀ e ∈ l.history, ∀ z, e.ended = some z → z ≤ now) : l.Timely t0 length now := by
  have hunbroken : l.Unbroken := by
    intro e he
    obtain ⟨r, hr, -⟩ := hon.mem_called e he
    simp [hr]
  rcases hlog.alive_or_spent hunbroken hphase with halive | hspent
  case inr =>
    simp only [Logged, hspent] at hlog
    exact h.timely_of_over hlog hon hle hpast (.inr (h.limit_le_of_spent hspent hon hle))
  rcases isAlive_iff.mp halive with ⟨due, hp⟩ | ⟨due, started, r, hp⟩
  · simp only [Logged, hp] at hlog
    exact h.timely_of_over hlog hon hle hpast (.inl (h.lt_of_idle hs hp hon))
  · simp only [Logged, hp] at hlog
    obtain ⟨taken, rest, hh, hover⟩ := hlog
    exact h.timely_of_busy hs hp hh hover hon hle hpast

namespace Timely

theorem nthRun?_eq_none (h : l.Timely t0 length now)
    (hn : now < t0 + n * l.interval ∨ instantLimit ≤ t0 + n * l.interval + l.interval) :
    l.nthRun? n = none := by
  have hlength : l.history.length ≤ n := by
    by_contra hlt
    have hbegun := (h.begun n).mp (Nat.not_le.mp hlt)
    omega
  rw [nthRun?, List.getElem?_eq_none]
  simpa using hlength

theorem exists_nthRun? (h : l.Timely t0 length now) (hn : t0 + n * l.interval ≤ now)
    (hlimit : t0 + n * l.interval + l.interval < instantLimit) :
    ∃ v, l.nthRun? n = some (Execution.onTime l.interval t0 length now n v) := by
  obtain ⟨e, he⟩ := exists_nthRun?_of_lt ((h.begun n).mpr ⟨hn, hlimit⟩)
  obtain ⟨hdue, hstarted, ⟨v, hv⟩, hended⟩ := h.onTime.nth he
  refine ⟨v, he.trans (congrArg some ?_)⟩
  have hend : e.ended = if Cadence.published l.interval t0 length n ≤ now then
      some (Cadence.published l.interval t0 length n) else none := by
    cases hz : e.ended with
    | none => rw [if_neg (Nat.not_le.mpr (h.unended n e he hz))]
    | some z =>
      have hpast := h.past e (List.mem_reverse.mp (List.mem_of_getElem? he)) z hz
      rw [← hended z hz, if_pos hpast]
  cases e
  simp only at hdue hstarted hv hend
  subst hstarted hdue hv hend
  rfl

theorem findSome?_state? (h : l.Timely t0 length now)
    (hn : Cadence.published l.interval t0 length n ≤ now)
    (hnext : now < Cadence.published l.interval t0 length (n + 1))
    (hlimit : t0 + n * l.interval + l.interval < instantLimit) :
    ∃ v, l.nthRun? n = some (Execution.onTime l.interval t0 length now n v) ∧
      l.history.findSome? Execution.state? =
        some ⟨v, Cadence.published l.interval t0 length n⟩ := by
  have hbegun : t0 + n * l.interval ≤ now := Nat.le_trans (Nat.le_add_right _ _) hn
  obtain ⟨v, hv⟩ := h.exists_nthRun? hbegun hlimit
  exact ⟨v, hv, h.onTime.findSome?_state? h.le_interval h.past hnext hn hv⟩

end Timely
end Loop

/-- The answer between the `n`-th publication of a job that is never late and the next one. The hint
misses the next publication by as much as the next run is longer or shorter than the last one; after
runs of one length it is exact. -/
structure Current.Hints {α : Type} (c : Current α) (interval t0 : Nat) (length : Nat → Nat)
    (now n : Nat) (v : α) : Prop where
  state : c.state = some ⟨v, Cadence.published interval t0 length n⟩
  scheduleExists : c.scheduleExists = true
  stateExists : c.stateExists = true
  retryAfter : c.retryAfter = Cadence.published interval t0 length n + interval - now
  missing : c.retryAfter ≠ 0 →
    ((Cadence.published interval t0 length (n + 1) - now : Nat) : Int) - c.retryAfter =
      (length (n + 1) : Int) - length n
  isStale_iff : c.isStale = true ↔ Cadence.published interval t0 length n + interval ≤ now
  exact : length (n + 1) = length n →
    c.retryAfter = Cadence.published interval t0 length (n + 1) - now ∧ c.isStale = false

theorem Current.exists_hints {α : Type} {interval t0 now n : Nat} {length : Nat → Nat} (v : α)
    (hnext : now < Cadence.published interval t0 length (n + 1))
    (hlimit : Cadence.published interval t0 length n + interval < instantLimit) :
    ∃ c, ofState interval now (some ⟨v, Cadence.published interval t0 length n⟩) = .ok c ∧
      c.Hints interval t0 length now n v := by
  have hsucc := Cadence.published_succ interval t0 length n
  have hpublished : Cadence.published interval t0 length n = t0 + n * interval + length n := rfl
  refine ⟨_, if_pos hlimit, rfl, rfl, rfl, rfl, fun hpositive => ?_, ?_, fun heven => ?_⟩
  · simp only at hpositive ⊢
    omega
  · simp only [Current.isStale, Bool.true_and, beq_iff_eq]
    omega
  · simp only [Current.isStale, Bool.true_and, beq_eq_false_iff_ne]
    omega

namespace Scheduler
variable {σ α : Type}

def nthRun? (s : Scheduler σ α) (key : String) (n : Nat) : Option (Execution α) :=
  (s.find? key).bind (·.nthRun? n)

/-- What is promised of a job in a schedule that was started at `t0`, where the `n`-th run takes
`length n` and ends with a value. There is a run for each grid point that has a next one. -/
structure Punctual (s : Scheduler σ α) (key : String) (interval t0 : Nat)
    (length : Nat → Nat) : Prop where
  runs : ∀ n, t0 + n * interval ≤ s.now → t0 + n * interval + interval < instantLimit →
    ∃ v, s.nthRun? key n = some (.onTime interval t0 length s.now n v)
  none_ahead : ∀ n, s.now < t0 + n * interval ∨ instantLimit ≤ t0 + n * interval + interval →
    s.nthRun? key n = none
  between : Cadence.published interval t0 length 0 ≤ s.now →
    ∃ n, Cadence.published interval t0 length n ≤ s.now ∧
      s.now < Cadence.published interval t0 length (n + 1)
  answered : ∀ n, Cadence.published interval t0 length n ≤ s.now →
    s.now < Cadence.published interval t0 length (n + 1) →
    t0 + n * interval + interval < instantLimit →
    ∃ v, s.nthRun? key n = some (.onTime interval t0 length s.now n v) ∧
      if Cadence.published interval t0 length n + interval < instantLimit then
        ∃ c, s.current key = .ok c ∧ c.Hints interval t0 length s.now n v
      else s.current key = .error .instant

/-- In a schedule that is not cancelled, a job whose runs fit into its interval is punctual to the
nanosecond, whatever the other jobs do. -/
theorem punctual_after (r : Registry (Producer σ α)) (store : Store α) (around : σ)
    (steps : List (Step α)) {t0 : Nat}
    (hrun : (withStore r store around).instantOf? Step.isRun steps = some t0)
    (hcancel : ∀ x ∈ steps, x.isCancel = false) {key : String} {job : Job (Producer σ α)}
    (hjob : r.jobs.find? key = some job) (hwrites : ∀ x ∈ steps, x.writes key = false)
    {length : Nat → Nat} (hp : job.producer.Takes length) (hle : ∀ n, length n ≤ job.interval) :
    ((withStore r store around).after steps).Punctual key job.interval t0 length := by
  have hstill := still_withStore r store around
  have hunstarted : (withStore r store around).Unstarted none :=
    ⟨rfl, ⟨rfl, nofun⟩, fresh_withStore r store around⟩
  have htimed := hunstarted.after hstill steps hrun
  rw [Option.none_or, instantOf?_eq_none hcancel] at htimed
  have htelling := telling_after r store around steps
  have hshowing := (showing_iff.mp (showing_withStore r store around) key).after hstill hwrites
  have hquiet := still_after hstill steps
  obtain ⟨l, hfind, rfl, rfl⟩ := exists_find?_after hjob store around steps
  generalize (withStore r store around).after steps = s at *
  have hl := mem_of_find? hfind
  have hoff : s.cancelled = false := htimed.cancelledAt.flag
  -- the log is on time because each run takes the next tick and ends when its length has passed
  have htimely : l.Timely t0 length s.now := by
    have hpaced := htimed.paced l hl
    refine hpaced.timely (hoff ▸ (htimed.logged l hl).2) (hoff ▸ hquiet l hl) (fun hphase => ?_)
      ?_ hle (htelling.counted.counts l hl).past
    · simpa [htimed.running] using (htimed.logged l hl).1.mp hphase
    · exact hpaced.regular.onTime (htelling.calls l hl) (htelling.lengths l hl).ended hp hle
  have hnth (n : Nat) : s.nthRun? l.key n = l.nthRun? n := by simp [nthRun?, hfind]
  constructor
  case runs =>
    intro n hn hlimit
    rw [hnth]
    exact htimely.exists_nthRun? hn hlimit
  case none_ahead =>
    intro n hn
    rw [hnth]
    exact htimely.nthRun?_eq_none hn
  case between => exact Cadence.exists_published_le l.interval_pos
  case answered =>
    intro n hn hnext hlimit
    obtain ⟨v, hv, hstate⟩ := htimely.findSome?_state? hn hnext hlimit
    refine ⟨v, (hnth n).trans hv, ?_⟩
    rw [current_of_find? hshowing.wired hfind, hshowing.shows l hl rfl, hstate, Option.some_or]
    split
    · next hsum => exact Current.exists_hints v hnext hsum
    · next hsum => exact if_neg hsum

/-- Runs that take the whole interval and runs that are over soon, in turn: between a soon one and a
long one the sample goes stale. -/
theorem punctual_after_of_uneven_job :
    let length : Nat → Nat := fun n => if n % 2 = 0 then 4 else 1
    let job : Job (Producer Unit Nat) :=
      ⟨4, fun n around => (.run { length := length n, outcome := .value n }, around), by decide⟩
    let steps := [.advance 1, .run, .save "other" 3, .advance 10]
    let s := withStore (Registry.single "load" job) {} ()
    s.instantOf? Step.isRun steps = some 1 ∧ job.producer.Takes length ∧ (∀ n, length n ≤ 4) ∧
      (s.after steps).Punctual "load" 4 1 length ∧
      ∃ c, (s.after steps).current "load" = .ok c ∧ c.state = some ⟨1, 6⟩ ∧ c.isStale = true := by
  intro length job steps s
  have hrun : s.instantOf? Step.isRun steps = some 1 := by decide +kernel
  have htakes : job.producer.Takes length := fun n _ => ⟨n, rfl⟩
  have hle (n : Nat) : length n ≤ 4 := by
    simp only [length]
    split <;> omega
  have hpunctual : (s.after steps).Punctual "load" 4 1 length :=
    punctual_after _ {} () steps hrun (by decide) (Registry.find?_single "load" job) (by decide)
      htakes hle
  have hnow : (s.after steps).now = 11 := by decide +kernel
  refine ⟨hrun, htakes, hle, hpunctual, ?_⟩
  obtain ⟨v, hv, hanswer⟩ := hpunctual.answered 1 (by rw [hnow]; decide) (by rw [hnow]; decide)
    (by decide)
  obtain ⟨c, hc, hhints⟩ := hanswer
  have hvalue : v = 1 := by
    have hlog : ((s.after steps).nthRun? "load" 1).bind Execution.state? = some ⟨1, 6⟩ := by
      decide +kernel
    rw [hv, hnow] at hlog
    exact congrArg State.value (Option.some.inj hlog)
  subst hvalue
  exact ⟨c, hc, hhints.state, hhints.isStale_iff.mpr (by rw [hnow]; decide)⟩

/-- With an interval beyond the range of instants not even the first run begins. -/
theorem not_punctual_of_long_interval : ¬ ∀ (job : Job (Producer Unit Nat)) (length : Nat → Nat)
    (steps : List (Step Nat)) (t0 : Nat),
    let s := withStore (Registry.single "load" job) {} ()
    s.instantOf? Step.isRun steps = some t0 → (∀ x ∈ steps, x.isCancel = false) →
    (∀ x ∈ steps, x.writes "load" = false) → job.producer.Takes length →
    (∀ n, length n ≤ job.interval) →
    ∀ n, Cadence.published job.interval t0 length n ≤ (s.after steps).now →
      (s.after steps).now < Cadence.published job.interval t0 length (n + 1) →
      ∃ v c, (s.after steps).nthRun? "load" n =
          some (.onTime job.interval t0 length (s.after steps).now n v) ∧
        (s.after steps).current "load" = .ok c ∧
        c.state = some ⟨v, Cadence.published job.interval t0 length n⟩ := by
  intro h
  let job : Job (Producer Unit Nat) :=
    ⟨Span.ofSeconds 10000000000000000000,
      fun n around => (.run { outcome := .value n }, around), by decide⟩
  have htakes : job.producer.Takes fun _ => 0 := fun n _ => ⟨n, rfl⟩
  have hle : ∀ n, (fun _ => 0 : Nat → Nat) n ≤ job.interval := fun _ => Nat.zero_le _
  have hnext : ((withStore (Registry.single "load" job) {} ()).after [.run]).now <
      Cadence.published job.interval 0 (fun _ => 0) (0 + 1) := by decide +kernel
  obtain ⟨v, c, hrun, -⟩ := h job (fun _ => 0) [.run] 0 rfl (by decide) (by decide) htakes hle 0
    (by decide) hnext
  have hnone : (((withStore (Registry.single "load" job) {} ()).after [.run]).nthRun?
      "load" 0).isSome = false := by decide +kernel
  rw [hrun] at hnone
  cases hnone

end Scheduler
end HostVitals
