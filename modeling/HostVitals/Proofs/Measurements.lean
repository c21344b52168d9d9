import HostVitals.RunStats
import Mathlib.Data.List.Induction

/-! Statistics of runs as a fold over what has been recorded. The counters count, the latest run and
the latest failure are kept, and least and greatest duration are found whatever the order: a duration
that is not a number moves neither, unless it is the first. -/
namespace HostVitals

namespace Binary64
variable {x y v : Binary64} {rank : Binary64 → Int} {values values' : List Binary64}

theorem lt_iff : x.lt y = true ↔ x.isNaN = false ∧ y.isNaN = false ∧ x.rank < y.rank := by
  simp [lt, and_assoc]

def Ties (x y : Binary64) : Prop :=
  x.isNaN = false ∧ y.isNaN = false ∧ x.lt y = false ∧ y.lt x = false

structure IsLowest (rank : Binary64 → Int) (values : List Binary64) (x : Binary64) : Prop where
  mem : x ∈ values
  isNaN : x.isNaN = false
  le : ∀ v ∈ values, v.isNaN = false → rank x ≤ rank v

theorem isLowest_single (h : x.isNaN = false) : IsLowest rank [x] x where
  mem := List.mem_singleton_self x
  isNaN := h
  le _ hv _ := Int.le_of_eq (congrArg rank (List.mem_singleton.mp hv).symm)

/-- A further value takes the place of the lowest one if it is a number that ranks lower. -/
theorem IsLowest.snoc (h : IsLowest rank values x) {lower : Bool}
    (hlower : lower = true ↔ v.isNaN = false ∧ rank v < rank x) :
    IsLowest rank (values ++ [v]) (if lower then v else x) := by
  by_cases hl : lower = true
  · obtain ⟨hnumber, hlt⟩ := hlower.mp hl
    rw [if_pos hl]
    refine ⟨by simp, hnumber, fun w hw hw' => ?_⟩
    cases List.mem_append.mp hw with
    | inl hold => exact Int.le_trans (Int.le_of_lt hlt) (h.le w hold hw')
    | inr hnew => exact Int.le_of_eq (congrArg rank (List.mem_singleton.mp hnew).symm)
  · rw [if_neg hl]
    refine ⟨List.mem_append_left _ h.mem, h.isNaN, fun w hw hw' => ?_⟩
    cases List.mem_append.mp hw with
    | inl hold => exact h.le w hold hw'
    | inr hnew =>
      obtain rfl := List.mem_singleton.mp hnew
      exact Int.not_lt.mp fun hlt => hl (hlower.mpr ⟨hw', hlt⟩)

def numbers (values : List Binary64) : List Binary64 := values.filter fun v => !v.isNaN

theorem mem_numbers : v ∈ numbers values ↔ v ∈ values ∧ v.isNaN = false := by
  simp [numbers]

theorem IsLowest.rank_le (h : IsLowest rank values x) (h' : IsLowest rank values' y)
    (hsub : numbers values' ⊆ numbers values) : rank x ≤ rank y := by
  have hy := mem_numbers.mp (hsub (mem_numbers.mpr ⟨h'.mem, h'.isNaN⟩))
  exact h.le y hy.1 hy.2

theorem IsLowest.rank_eq (h : IsLowest rank values x) (h' : IsLowest rank values' y)
    (hperm : (numbers values).Perm (numbers values')) : rank x = rank y :=
  Int.le_antisymm (h.rank_le h' hperm.symm.subset) (h'.rank_le h hperm.subset)

theorem ties_of_rank_eq (hx : x.isNaN = false) (hy : y.isNaN = false) (h : x.rank = y.rank) :
    Ties x y := by
  simp [Ties, lt, hx, hy, h]

end Binary64

open Binary64

namespace RunningStat
variable {s : RunningStat} {v : Binary64} {values values' : List Binary64}

def ofValues (values : List Binary64) : RunningStat := values.foldl add {}

theorem ofValues_snoc (values : List Binary64) (v : Binary64) :
    ofValues (values ++ [v]) = (ofValues values).add v := by
  rw [ofValues, List.foldl_append]
  rfl

theorem count_add (s : RunningStat) (v : Binary64) : (s.add v).count = s.count + 1 := by
  unfold add
  split
  case isTrue h => rw [h]
  case isFalse => rfl

theorem last_add (s : RunningStat) (v : Binary64) : (s.add v).last = v := by
  unfold add
  split <;> rfl

theorem count_ofValues (values : List Binary64) : (ofValues values).count = values.length := by
  induction values using List.reverseRecOn with
  | nil => rfl
  | append_singleton values v ih => rw [ofValues_snoc, count_add, ih, List.length_append]; rfl

theorem min_add (h : s.count ≠ 0) : (s.add v).min = if v.lt s.min then v else s.min := by
  rw [add, if_neg h]

theorem max_add (h : s.count ≠ 0) : (s.add v).max = if s.max.lt v then v else s.max := by
  rw [add, if_neg h]

theorem count_ofValues_ne_zero (first : Binary64) (rest : List Binary64) :
    (ofValues (first :: rest)).count ≠ 0 := by
  rw [count_ofValues]
  exact Nat.succ_ne_zero _

def NumberFirst (values : List Binary64) : Prop :=
  ∃ first rest, values = first :: rest ∧ first.isNaN = false

theorem isLowest_min (h : NumberFirst values) :
    IsLowest Binary64.rank values (ofValues values).min := by
  obtain ⟨first, rest, rfl, hfirst⟩ := h
  -- from the end, as the values come in
  induction rest using List.reverseRecOn with
  | nil => exact isLowest_single hfirst
  | append_singleton rest v ih =>
    rw [← List.cons_append, ofValues_snoc, min_add (count_ofValues_ne_zero first rest)]
    refine ih.snoc ?_
    simp [lt_iff, ih.isNaN]

/-- The greatest value is lowest in the reverse order. -/
theorem isLowest_max (h : NumberFirst values) :
    IsLowest (fun x => -x.rank) values (ofValues values).max := by
  obtain ⟨first, rest, rfl, hfirst⟩ := h
  induction rest using List.reverseRecOn with
  | nil => exact isLowest_single hfirst
  | append_singleton rest v ih =>
    rw [← List.cons_append, ofValues_snoc, max_add (count_ofValues_ne_zero first rest)]
    refine ih.snoc ?_
    simp [lt_iff, ih.isNaN]

theorem not_lt_min (h : NumberFirst values) (hv : v ∈ values) :
    v.lt (ofValues values).min = false := by
  refine Bool.eq_false_iff.mpr fun hlt => ?_
  obtain ⟨hnumber, -, hrank⟩ := lt_iff.mp hlt
  exact Int.not_le.mpr hrank ((isLowest_min h).le v hv hnumber)

theorem not_max_lt (h : NumberFirst values) (hv : v ∈ values) :
    (ofValues values).max.lt v = false := by
  refine Bool.eq_false_iff.mpr fun hlt => ?_
  obtain ⟨-, hnumber, hrank⟩ := lt_iff.mp hlt
  exact Int.not_le.mpr hrank (Int.neg_le_neg_iff.mp ((isLowest_max h).le v hv hnumber))

theorem ties_min (h : NumberFirst values) (h' : NumberFirst values')
    (hperm : (numbers values).Perm (numbers values')) :
    Ties (ofValues values).min (ofValues values').min :=
  ties_of_rank_eq (isLowest_min h).isNaN (isLowest_min h').isNaN
    ((isLowest_min h).rank_eq (isLowest_min h') hperm)

theorem ties_max (h : NumberFirst values) (h' : NumberFirst values')
    (hperm : (numbers values).Perm (numbers values')) :
    Ties (ofValues values).max (ofValues values').max :=
  ties_of_rank_eq (isLowest_max h).isNaN (isLowest_max h').isNaN
    (Int.neg_inj.mp ((isLowest_max h).rank_eq (isLowest_max h') hperm))

end RunningStat

inductive RunRecord where
  | success (ms : Binary64)
  | failure (ms : Binary64) (error : String)

namespace RunRecord

def ms : RunRecord → Binary64
  | success ms => ms
  | failure ms _ => ms

def error? : RunRecord → Option String
  | success _ => none
  | failure _ error => some error

end RunRecord

namespace RunStats

def record (s : RunStats) : RunRecord → RunStats
  | .success ms => s.recordSuccess ms
  | .failure ms error => s.recordFailure ms error

def after (calls : List RunRecord) : RunStats := calls.foldl record {}

theorem after_snoc (calls : List RunRecord) (c : RunRecord) :
    after (calls ++ [c]) = (after calls).record c := by
  rw [after, List.foldl_append]
  rfl

/-- What one record changes, in all of the parts. -/
theorem record_eq (s : RunStats) (c : RunRecord) : s.record c =
    { successes := s.successes + if c.error?.isNone then 1 else 0
      failures := s.failures + if c.error?.isSome then 1 else 0
      durations := s.durations.add c.ms
      lastError := c.error?.or s.lastError } := by
  cases c <;> rfl

theorem successes_after (calls : List RunRecord) :
    (after calls).successes = calls.countP fun c => c.error?.isNone := by
  induction calls using List.reverseRecOn with
  | nil => rfl
  | append_singleton calls c ih =>
    rw [after_snoc, record_eq, ih, List.countP_append, List.countP_singleton]

theorem failures_after (calls : List RunRecord) :
    (after calls).failures = calls.countP fun c => c.error?.isSome := by
  induction calls using List.reverseRecOn with
  | nil => rfl
  | append_singleton calls c ih =>
    rw [after_snoc, record_eq, ih, List.countP_append, List.countP_singleton]

theorem durations_after (calls : List RunRecord) :
    (after calls).durations = RunningStat.ofValues (calls.map RunRecord.ms) := by
  induction calls using List.reverseRecOn with
  | nil => rfl
  | append_singleton calls c ih =>
    rw [after_snoc, record_eq, ih, List.map_append, List.map_singleton, RunningStat.ofValues_snoc]

theorem lastError_after (calls : List RunRecord) :
    (after calls).lastError = calls.reverse.findSome? RunRecord.error? := by
  induction calls using List.reverseRecOn with
  | nil => rfl
  | append_singleton calls c ih =>
    rw [after_snoc, record_eq, ih, List.reverse_append]
    cases h : c.error? <;> simp [h]

theorem totalRuns_after (calls : List RunRecord) : (after calls).totalRuns = calls.length := by
  have hfailed : (calls.countP fun c => c.error?.isSome) =
      calls.countP fun c => decide ¬c.error?.isNone = true :=
    List.countP_congr fun c _ => by cases c <;> simp [RunRecord.error?]
  rw [totalRuns, successes_after, failures_after, hfailed]
  exact (List.length_eq_countP_add_countP _).symm

structure Tallies (calls : List RunRecord) (s : RunStats) : Prop where
  successes : s.successes = calls.countP fun c => c.error?.isNone
  failures : s.failures = calls.countP fun c => c.error?.isSome
  totalRuns : s.totalRuns = s.successes + s.failures
  samples : s.durations.count = s.totalRuns
  last : ∀ earlier c, calls = earlier ++ [c] → s.durations.last = c.ms
  lastError : s.lastError = calls.reverse.findSome? RunRecord.error?
  /-- Successes leave the latest failure as it is. -/
  kept : ∀ later : List RunRecord, (∀ c ∈ later, c.error? = none) →
    (after (calls ++ later)).lastError = s.lastError
  bounds : RunningStat.NumberFirst (calls.map RunRecord.ms) →
    s.durations.min ∈ calls.map RunRecord.ms ∧ s.durations.max ∈ calls.map RunRecord.ms ∧
    ∀ v ∈ calls.map RunRecord.ms, v.lt s.durations.min = false ∧ s.durations.max.lt v = false
  /-- Neither the order of the numbers among the durations nor what is no number makes a difference
  to the least and the greatest. -/
  order : ∀ other : List RunRecord, RunningStat.NumberFirst (calls.map RunRecord.ms) →
    RunningStat.NumberFirst (other.map RunRecord.ms) →
    (numbers (other.map RunRecord.ms)).Perm (numbers (calls.map RunRecord.ms)) →
    Ties (after other).durations.min s.durations.min ∧
      Ties (after other).durations.max s.durations.max
  blank : calls = [] → s.successes = 0 ∧ s.failures = 0 ∧ s.totalRuns = 0 ∧
    s.durations.count = 0 ∧ s.lastError = none ∧
    ∀ v ∈ [s.durations.last, s.durations.avg, s.durations.max, s.durations.min], v = .zero

theorem tallies_after (calls : List RunRecord) : Tallies calls (after calls) where
  successes := successes_after calls
  failures := failures_after calls
  totalRuns := rfl
  samples := by rw [durations_after, RunningStat.count_ofValues, totalRuns_after, List.length_map]
  last earlier c h := by rw [h, after_snoc, record_eq, RunningStat.last_add]
  lastError := lastError_after calls
  kept later h := by
    have hnone : later.reverse.findSome? RunRecord.error? = none := by
      simpa [List.findSome?_eq_none_iff] using h
    rw [lastError_after, lastError_after, List.reverse_append, List.findSome?_append, hnone,
      Option.none_or]
  bounds h := by
    rw [durations_after]
    exact ⟨(RunningStat.isLowest_min h).mem, (RunningStat.isLowest_max h).mem,
      fun v hv => ⟨RunningStat.not_lt_min h hv, RunningStat.not_max_lt h hv⟩⟩
  order other h h' hperm := by
    rw [durations_after, durations_after]
    exact ⟨RunningStat.ties_min h' h hperm, RunningStat.ties_max h' h hperm⟩
  blank h := by
    subst h
    exact ⟨rfl, rfl, rfl, rfl, rfl, by simp [after, RunningStat.avg]⟩

/-- Three runs, one with a duration that is not a number, and two of them the other way round. -/
theorem tallies_after_of_reordered :
    let calls : List RunRecord :=
      [.success (.ofNat 2), .failure .nan "read failed", .success (.ofNat 6)]
    let other : List RunRecord := [.failure (.ofNat 6) "late", .success (.ofNat 2)]
    RunningStat.NumberFirst (calls.map RunRecord.ms) ∧
      RunningStat.NumberFirst (other.map RunRecord.ms) ∧
      (after calls).lastError = some "read failed" ∧
      Ties (after other).durations.min (after calls).durations.min ∧
      Ties (after other).durations.max (after calls).durations.max := by
  intro calls other
  have h : RunningStat.NumberFirst (calls.map RunRecord.ms) := ⟨_, _, rfl, by decide +kernel⟩
  have h' : RunningStat.NumberFirst (other.map RunRecord.ms) := ⟨_, _, rfl, by decide +kernel⟩
  have htallies := tallies_after calls
  exact ⟨h, h', htallies.lastError, htallies.order other h h' (by decide +kernel)⟩

end RunStats
end HostVitals
