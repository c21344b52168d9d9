import HostVitals.Proofs.Report.Series
import HostVitals.Schedule.Step

/-! What the numbers about the program itself have come to after lists of summaries have been shown
to it: a counter is the greatest total so far, a gauge the latest value that there was. -/
namespace HostVitals

inductive Verdict where
  | success | failure
deriving DecidableEq, Repr

namespace Verdict

def name : Verdict → String
  | success => "success"
  | failure => "failure"

def count : Verdict → RunStats → Nat
  | success, s => s.successes
  | failure, s => s.failures

def total : Verdict → JobSummary → Nat
  | success, j => j.successes
  | failure, j => j.failures

theorem total_summary (v : Verdict) (s : RunStats) (key : String) (interval : Nat)
    (age : Option Nat) : v.total (s.summary key interval age) = v.count s := by
  cases v <;> rfl

end Verdict

namespace Report

def upTo (count : Option Nat) (total : Nat) : Nat := count.getD 0 + (total - count.getD 0)

def latest {α : Type} (_ : Option α) (value : α) : α := value

theorem foldl_upTo (l : List Nat) (count : Option Nat) :
    l.foldl (fun count total => some (upTo count total)) count = (count.toList ++ l).max? := by
  induction l generalizing count with
  | nil => cases count <;> rfl
  | cons total rest ih =>
    rw [List.foldl_cons, ih]
    cases count with
    | none => simp [upTo]
    | some n =>
      have hmax : n + (total - n) = max n total := by omega
      rw [upTo, Option.getD_some, hmax]
      rfl

theorem foldl_latest {α : Type} (l : List α) (shown : Option α) :
    l.foldl (fun shown value => some (latest shown value)) shown = l.getLast?.or shown := by
  induction l generalizing shown with
  | nil => rfl
  | cons value rest ih =>
    rw [List.foldl_cons, ih, List.getLast?_cons]
    cases rest.getLast? <;> rfl

/-- The greatest of some numbers is the greatest if they are counted once more. -/
theorem max?_append_self {l : List Nat} (count : Option Nat) :
    ((count.toList ++ l).max?.toList ++ l).max? = (count.toList ++ l).max? := by
  cases h : (count.toList ++ l).max? with
  | none =>
    have hl : l = [] := (List.append_eq_nil_iff.mp (List.max?_eq_none_iff.mp h)).2
    simp [hl]
  | some m =>
    have hle := (List.max?_eq_some_iff.mp h).2
    refine List.max?_eq_some_iff.mpr ⟨List.mem_cons_self, fun b hb => ?_⟩
    cases hb with
    | head => exact Nat.le_refl m
    | tail _ hmem => exact hle b (List.mem_append_right _ hmem)

namespace Telemetry
variable {α β : Type} {t : Telemetry} {jobs jobs' : List JobSummary}

theorem runLabels_inj {k k' o o' : String} : runLabels k o = runLabels k' o' ↔ k = k' ∧ o = o' := by
  simp [runLabels]

structure Feeds (family : Telemetry → Series α) (f : Option α → β → α)
    (shown : JobSummary → List (Labels × β)) (names : List String) : Prop where
  start : family {} = []
  step : ∀ t j, family (t.refreshJob j) = (family t).takeIn f (shown j)
  nodup : ∀ j, ((shown j).map Prod.fst).Nodup
  names : ∀ j, ∀ e ∈ shown j, e.1.map Prod.fst = names
  own : ∀ j, ∀ e ∈ shown j, e.1.lookup "key" = some j.key

namespace Feeds
variable {family : Telemetry → Series α} {f : Option α → β → α}
  {shown : JobSummary → List (Labels × β)} {names : List String} (h : Feeds family f shown names)
include h

theorem refresh (t : Telemetry) (jobs : List JobSummary) :
    family (t.refresh jobs) = (family t).takeIn f (jobs.flatMap shown) := by
  induction jobs generalizing t with
  | nil => rfl
  | cons j rest ih =>
    have hrest : family (t.refresh (j :: rest)) = _ := ih (t.refreshJob j)
    rw [hrest, h.step, List.flatMap_cons, Series.takeIn_append]

theorem proper (jobs : List JobSummary) : (family (({} : Telemetry).refresh jobs)).Proper names := by
  rw [h.refresh, h.start]
  refine Series.proper_takeIn f ⟨List.nodup_nil, by simp [Series.keys]⟩ fun e he => ?_
  obtain ⟨j, -, hj⟩ := List.mem_flatMap.mp he
  exact h.names j e hj

theorem own_of_mem {k : Labels} (hk : k ∈ (jobs.flatMap shown).map Prod.fst) :
    ∃ j ∈ jobs, k.lookup "key" = some j.key := by
  obtain ⟨e, he, rfl⟩ := List.mem_map.mp hk
  obtain ⟨j, hj, hej⟩ := List.mem_flatMap.mp he
  exact ⟨j, hj, h.own j e hej⟩

/-- Jobs with keys of their own show each series one value at most. -/
theorem nodup_flatMap (hkeys : (jobs.map (·.key)).Nodup) :
    ((jobs.flatMap shown).map Prod.fst).Nodup := by
  induction jobs with
  | nil => exact List.nodup_nil
  | cons j rest ih =>
    obtain ⟨hj, hrest⟩ := List.nodup_cons.mp hkeys
    rw [List.flatMap_cons, List.map_append, List.nodup_append]
    refine ⟨h.nodup j, ih hrest, fun k hk k' hk' heq => hj ?_⟩
    obtain ⟨e, he, rfl⟩ := List.mem_map.mp hk
    obtain ⟨j', hj', hown'⟩ := h.own_of_mem hk'
    have hown := h.own j e he
    rw [heq, hown'] at hown
    have hsame : j'.key = j.key := Option.some.inj hown
    exact List.mem_map.mpr ⟨j', hj', hsame⟩

theorem find?_of_not_mem {key : String} (hkey : key ∉ jobs.map (·.key)) {k : Labels}
    (hk : k.lookup "key" = some key) (t : Telemetry) :
    (family (t.refresh jobs)).find? k = (family t).find? k := by
  rw [h.refresh, Series.find?_takeIn_of_not_mem]
  intro hmem
  obtain ⟨j, hj, hown⟩ := h.own_of_mem hmem
  rw [hk] at hown
  exact hkey (Option.some.inj hown ▸ List.mem_map_of_mem hj)

theorem find?_of_perm (hperm : jobs.Perm jobs') (hkeys : (jobs.map (·.key)).Nodup)
    (t : Telemetry) (k : Labels) :
    (family (t.refresh jobs)).find? k = (family (t.refresh jobs')).find? k := by
  rw [h.refresh, h.refresh]
  exact Series.find?_takeIn_of_perm f _ (hperm.flatMap_right shown) (h.nodup_flatMap hkeys) k

/-- Jobs that are shown once more change nothing. -/
theorem again (hf : ∀ (l : List β) (o : Option α), l.foldl (fun o value => some (f o value))
      (l.foldl (fun o value => some (f o value)) o) = l.foldl (fun o value => some (f o value)) o)
    {t : Telemetry} (ht : ((family (t.refresh jobs)).keys).Nodup) :
    family ((t.refresh jobs).refresh jobs) = family (t.refresh jobs) := by
  rw [h.refresh] at ht
  rw [h.refresh, h.refresh, Series.takeIn_takeIn f ht hf]

end Feeds

def runsOf (j : JobSummary) : List (Labels × Nat) :=
  [(runLabels j.key "success", j.successes), (runLabels j.key "failure", j.failures)]

def gaugeOf (value : JobSummary → Option Binary64) (j : JobSummary) : List (Labels × Binary64) :=
  (value j).toList.map fun v => (keyLabel j.key, v)

theorem feeds_runs : Feeds runs upTo runsOf ["key", "outcome"] where
  start := rfl
  step _ _ := rfl
  nodup j := by simp [runsOf, runLabels_inj]
  names j e he := by
    simp only [runsOf, List.mem_cons, List.not_mem_nil, or_false] at he
    cases he with
    | inl h => rw [h]; rfl
    | inr h => rw [h]; rfl
  own j e he := by
    simp only [runsOf, List.mem_cons, List.not_mem_nil, or_false] at he
    cases he with
    | inl h => rw [h]; rfl
    | inr h => rw [h]; rfl

theorem feeds_gauge {family : Telemetry → Series Binary64} {value : JobSummary → Option Binary64}
    (start : family {} = [])
    (step : ∀ t j, family (t.refreshJob j) = match value j with
      | some v => (family t).set (keyLabel j.key) v
      | none => family t) : Feeds family latest (gaugeOf value) ["key"] where
  start := start
  step t j := by
    rw [step, gaugeOf]
    cases value j <;> rfl
  nodup j := by
    unfold gaugeOf
    cases value j <;> simp
  names j e he := by
    obtain ⟨v, -, rfl⟩ := List.mem_map.mp he
    rfl
  own j e he := by
    obtain ⟨v, -, rfl⟩ := List.mem_map.mp he
    rfl

theorem feeds_durations :
    Feeds durations latest (gaugeOf fun j => some (j.lastMs.div (.ofNat 1000))) ["key"] :=
  feeds_gauge rfl fun _ _ => rfl

theorem feeds_intervals :
    Feeds intervals latest (gaugeOf fun j => some (Span.toSeconds j.interval)) ["key"] :=
  feeds_gauge rfl fun _ _ => rfl

theorem feeds_ages : Feeds ages latest (gaugeOf fun j => j.age.map Span.toSeconds) ["key"] := by
  refine feeds_gauge rfl fun t j => ?_
  unfold refreshJob
  cases j.age <;> rfl

theorem valuesOf_runs (key : String) (v : Verdict) (jobs : List JobSummary) :
    Series.valuesOf (runLabels key v.name) (jobs.flatMap runsOf) =
      (jobs.filter (·.key == key)).map v.total := by
  induction jobs with
  | nil => rfl
  | cons j rest ih =>
    have hhead : Series.valuesOf (runLabels key v.name) (runsOf j) =
        if j.key = key then [v.total j] else [] := by
      cases v <;> by_cases hk : j.key = key <;>
        simp [Series.valuesOf, runsOf, runLabels, Verdict.name, Verdict.total, hk]
    rw [List.flatMap_cons, Series.valuesOf_append, hhead, ih]
    by_cases hk : j.key = key <;> simp [hk]

theorem valuesOf_gauge (key : String) (value : JobSummary → Option Binary64)
    (jobs : List JobSummary) :
    Series.valuesOf (keyLabel key) (jobs.flatMap (gaugeOf value)) =
      (jobs.filter (·.key == key)).filterMap value := by
  induction jobs with
  | nil => rfl
  | cons j rest ih =>
    have hhead : Series.valuesOf (keyLabel key) (gaugeOf value j) =
        if j.key = key then (value j).toList else [] := by
      cases hv : value j <;> by_cases hk : j.key = key <;>
        simp [Series.valuesOf, gaugeOf, keyLabel, hv, hk]
    rw [List.flatMap_cons, Series.valuesOf_append, hhead, ih]
    by_cases hk : j.key = key
    · cases hv : value j <;> simp [hk, hv]
    · simp [hk]

structure JobNumbers where
  counter : Verdict → Option Nat
  duration : Option Binary64
  interval : Option Binary64
  age : Option Binary64

def numbers (t : Telemetry) (key : String) : JobNumbers where
  counter v := t.runs.find? (runLabels key v.name)
  duration := t.durations.find? (keyLabel key)
  interval := t.intervals.find? (keyLabel key)
  age := t.ages.find? (keyLabel key)

theorem counter_refresh (t : Telemetry) (jobs : List JobSummary) (key : String) (v : Verdict) :
    ((t.refresh jobs).numbers key).counter v =
      (((t.numbers key).counter v).toList ++ (jobs.filter (·.key == key)).map v.total).max? := by
  have hfind : ((t.refresh jobs).numbers key).counter v =
      (t.refresh jobs).runs.find? (runLabels key v.name) := rfl
  rw [hfind, feeds_runs.refresh, Series.find?_takeIn, valuesOf_runs, foldl_upTo]
  rfl

theorem age_refresh (t : Telemetry) (jobs : List JobSummary) (key : String) :
    ((t.refresh jobs).numbers key).age =
      ((jobs.filter (·.key == key)).filterMap fun j => j.age.map Span.toSeconds).getLast?.or
        (t.numbers key).age := by
  have hfind : ((t.refresh jobs).numbers key).age = (t.refresh jobs).ages.find? (keyLabel key) := rfl
  rw [hfind, feeds_ages.refresh, Series.find?_takeIn, valuesOf_gauge, foldl_latest]
  rfl

def after (t : Telemetry) (lists : List (List JobSummary)) : Telemetry := lists.foldl refresh t

theorem after_eq_refresh (t : Telemetry) (lists : List (List JobSummary)) :
    t.after lists = t.refresh lists.flatten := by
  induction lists generalizing t with
  | nil => rfl
  | cons jobs rest ih =>
    have hrest : t.after (jobs :: rest) = (t.refresh jobs).after rest := rfl
    rw [hrest, ih, List.flatten_cons]
    exact List.foldl_append.symm

theorem numbers_of_not_mem {key : String} (h : key ∉ jobs.map (·.key)) (t : Telemetry) :
    (t.refresh jobs).numbers key = t.numbers key := by
  have hruns (v : Verdict) : (runLabels key v.name).lookup "key" = some key := rfl
  have hkey : (keyLabel key).lookup "key" = some key := rfl
  simp only [numbers, JobNumbers.mk.injEq, funext_iff]
  exact ⟨fun v => feeds_runs.find?_of_not_mem h (hruns v) t,
    feeds_durations.find?_of_not_mem h hkey t, feeds_intervals.find?_of_not_mem h hkey t,
    feeds_ages.find?_of_not_mem h hkey t⟩

theorem numbers_of_perm (hperm : jobs.Perm jobs') (h : (jobs.map (·.key)).Nodup) (t : Telemetry)
    (key : String) : (t.refresh jobs).numbers key = (t.refresh jobs').numbers key := by
  simp only [numbers, JobNumbers.mk.injEq, funext_iff]
  exact ⟨fun v => feeds_runs.find?_of_perm hperm h t _, feeds_durations.find?_of_perm hperm h t _,
    feeds_intervals.find?_of_perm hperm h t _, feeds_ages.find?_of_perm hperm h t _⟩

def IsReached (t : Telemetry) : Prop := ∃ jobs, t = ({} : Telemetry).refresh jobs

theorem IsReached.refresh (h : t.IsReached) (jobs : List JobSummary) : (t.refresh jobs).IsReached := by
  obtain ⟨before, rfl⟩ := h
  exact ⟨before ++ jobs, List.foldl_append.symm⟩

theorem IsReached.after (h : t.IsReached) (lists : List (List JobSummary)) :
    (t.after lists).IsReached := by
  rw [after_eq_refresh]
  exact h.refresh lists.flatten

section family
variable {family : Telemetry → Series α} {f : Option α → β → α}
  {shown : JobSummary → List (Labels × β)} {names : List String}

theorem IsReached.proper (h : t.IsReached) (hfeeds : Feeds family f shown names) :
    (family t).Proper names := by
  obtain ⟨jobs, rfl⟩ := h
  exact hfeeds.proper jobs

theorem IsReached.perm (h : t.IsReached) (hfeeds : Feeds family f shown names)
    (hperm : jobs.Perm jobs') (hkeys : (jobs.map (·.key)).Nodup) :
    (family (t.refresh jobs)).Perm (family (t.refresh jobs')) :=
  Series.perm_of_find?_eq ((h.refresh jobs).proper hfeeds).nodup
    ((h.refresh jobs').proper hfeeds).nodup (hfeeds.find?_of_perm hperm hkeys t)

end family

theorem IsReached.again (h : t.IsReached) (jobs : List JobSummary) :
    (t.refresh jobs).refresh jobs = t.refresh jobs := by
  have hupTo (l : List Nat) (o : Option Nat) : l.foldl (fun o value => some (upTo o value))
      (l.foldl (fun o value => some (upTo o value)) o) =
        l.foldl (fun o value => some (upTo o value)) o := by
    simp only [foldl_upTo, max?_append_self]
  have hlatest (l : List Binary64) (o : Option Binary64) :
      l.foldl (fun o value => some (latest o value))
        (l.foldl (fun o value => some (latest o value)) o) =
        l.foldl (fun o value => some (latest o value)) o := by
    simp only [foldl_latest]
    cases l.getLast? <;> rfl
  -- `again` on each of the four families, and the families are all there is
  have hreached := h.refresh jobs
  have hruns := feeds_runs.again hupTo (hreached.proper feeds_runs).nodup
  have hdurations := feeds_durations.again hlatest (hreached.proper feeds_durations).nodup
  have hintervals := feeds_intervals.again hlatest (hreached.proper feeds_intervals).nodup
  have hages := feeds_ages.again hlatest (hreached.proper feeds_ages).nodup
  generalize (t.refresh jobs).refresh jobs = u at *
  generalize t.refresh jobs = u' at *
  cases u
  cases u'
  simp only at hruns hdurations hintervals hages
  rw [hruns, hdurations, hintervals, hages]

theorem IsReached.encode_eq (h : t.IsReached) (hperm : jobs.Perm jobs')
    (hkeys : (jobs.map (·.key)).Nodup) : (t.refresh jobs).encode = (t.refresh jobs').encode := by
  have hreached := h.refresh jobs
  have hcounts := (hreached.proper feeds_runs).map Binary64.ofNat
  unfold encode
  rw [family_eq_of_perm (hreached.proper feeds_durations) (h.perm feeds_durations hperm hkeys),
    family_eq_of_perm (hreached.proper feeds_intervals) (h.perm feeds_intervals hperm hkeys),
    family_eq_of_perm hcounts ((h.perm feeds_runs hperm hkeys).map _),
    family_eq_of_perm (hreached.proper feeds_ages) (h.perm feeds_ages hperm hkeys)]

theorem filter_key_of_mem {j : JobSummary} (hkeys : (jobs.map (·.key)).Nodup) (hj : j ∈ jobs) :
    jobs.filter (·.key == j.key) = [j] := by
  have hother {i i' : JobSummary} {rest : List JobSummary} (hi : i.key ∉ rest.map (·.key))
      (hi' : i' ∈ rest) : i'.key ≠ i.key :=
    fun heq => hi (List.mem_map.mpr ⟨i', hi', heq⟩)
  induction jobs with
  | nil => cases hj
  | cons i rest ih =>
    obtain ⟨hi, hrest⟩ := List.nodup_cons.mp hkeys
    cases hj with
    | head =>
      have hnone : rest.filter (·.key == j.key) = [] :=
        List.filter_eq_nil_iff.mpr fun i' hi' => by simpa using hother hi hi'
      simp [hnone]
    | tail _ hmem =>
      have hne : i.key ≠ j.key := (hother hi hmem).symm
      simp [hne, ih hrest hmem]

def latestAge? (jobs : List JobSummary) (key : String) : Option Nat :=
  ((jobs.filter (·.key == key)).filterMap (·.age)).getLast?

theorem age_refresh_latest (t : Telemetry) (jobs : List JobSummary) (key : String) :
    ((t.refresh jobs).numbers key).age =
      ((latestAge? jobs key).map Span.toSeconds).or (t.numbers key).age := by
  rw [age_refresh, latestAge?, ← List.getLast?_map, List.map_filterMap]

theorem latestAge?_append (jobs jobs' : List JobSummary) (key : String) :
    latestAge? (jobs ++ jobs') key = (latestAge? jobs' key).or (latestAge? jobs key) := by
  rw [latestAge?, List.filter_append, List.filterMap_append, List.getLast?_append]
  rfl

theorem latestAge?_of_mem {j : JobSummary} (hkeys : (jobs.map (·.key)).Nodup) (hj : j ∈ jobs) :
    latestAge? jobs j.key = j.age := by
  rw [latestAge?, filter_key_of_mem hkeys hj]
  cases hage : j.age <;> simp [hage]

theorem latestAge?_eq_none_iff {key : String} :
    latestAge? jobs key = none ↔ ∀ i ∈ jobs, i.key = key → i.age = none := by
  simp [latestAge?]

/-- The age that is shown of a job is that of its state. Without a state it is the age that the job
was last shown with, and so out of date unless it never had one. -/
theorem age_after (earlier : List (List JobSummary)) {j : JobSummary}
    (hkeys : (jobs.map (·.key)).Nodup) (hj : j ∈ jobs) :
    let shown := ((({} : Telemetry).after (earlier ++ [jobs])).numbers j.key).age
    shown = (j.age.or (latestAge? earlier.flatten j.key)).map Span.toSeconds ∧
      (shown = j.age.map Span.toSeconds ↔
        j.age.isSome ∨ ∀ i ∈ earlier.flatten, i.key = j.key → i.age = none) := by
  intro shown
  have hshown : shown = (j.age.or (latestAge? earlier.flatten j.key)).map Span.toSeconds := by
    have hstart : (({} : Telemetry).numbers j.key).age = none := rfl
    have hflatten : (earlier ++ [jobs]).flatten = earlier.flatten ++ jobs := by simp
    have hdef : shown = ((({} : Telemetry).after (earlier ++ [jobs])).numbers j.key).age := rfl
    rw [hdef, after_eq_refresh, hflatten, age_refresh_latest, hstart, Option.or_none,
      latestAge?_append, latestAge?_of_mem hkeys hj]
  refine ⟨hshown, ?_⟩
  rw [hshown, ← latestAge?_eq_none_iff]
  cases j.age with
  | some a => simp
  | none => simp

/-- A job that has lost its state, beside one that keeps its own. -/
theorem age_after_of_two_jobs :
    let job (key : String) (age : Option Nat) : JobSummary := ({} : RunStats).summary key 1 age
    let earlier := [[job "load" (some 3), job "memory" none]]
    let jobs := [job "load" none, job "memory" (some 5)]
    (jobs.map (·.key)).Nodup ∧ job "load" none ∈ jobs ∧
      ((({} : Telemetry).after (earlier ++ [jobs])).numbers "load").age =
        some (Span.toSeconds 3) ∧
      ((({} : Telemetry).after (earlier ++ [jobs])).numbers "memory").age =
        some (Span.toSeconds 5) := by
  intro job earlier jobs
  have hkeys : (jobs.map (·.key)).Nodup := by decide
  have hload : job "load" none ∈ jobs := List.mem_cons_self
  have hmemory : job "memory" (some 5) ∈ jobs := List.mem_cons_of_mem _ List.mem_cons_self
  obtain ⟨hlost, -⟩ := age_after earlier hkeys hload
  obtain ⟨hkept, -⟩ := age_after earlier hkeys hmemory
  exact ⟨hkeys, hload, hlost, hkept⟩

/-- A state that is cleared is shown with its age all the same. -/
theorem not_current_of_cleared_state :
    let job : Job (Producer Unit Nat) :=
      ⟨2, fun _ around => (.run { outcome := .value 7 }, around), by decide⟩
    let s := (Scheduler.new (Registry.single "load" job) ()).after [.run, .advance 1]
    let cleared := s.clear "load"
    cleared.summaries.map (·.key) = ["load"] ∧ cleared.summaries.map (·.age) = [none] ∧
      ((({} : Telemetry).after [s.summaries, cleared.summaries]).numbers "load").age.isSome := by
  decide +kernel

end Telemetry
end Report
end HostVitals
