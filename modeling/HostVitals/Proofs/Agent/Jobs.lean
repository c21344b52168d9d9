import HostVitals.Agent
import HostVitals.Proofs.Request
import HostVitals.Proofs.Schedule.Wiring
import HostVitals.Settings.Validation

/-! The jobs of an agent: one for each metric that is enabled, in the order of the metrics and with
the intervals of the settings, whatever becomes of the agent. -/
namespace HostVitals

namespace MetricKind

theorem ofName?_name (k : MetricKind) : ofName? k.name = some k := by
  cases k <;> decide

theorem name_inj {k k' : MetricKind} (h : k.name = k'.name) : k = k' := by
  have hsome := ofName?_name k'
  rw [← h, ofName?_name k] at hsome
  exact Option.some.inj hsome

theorem name_ne_empty (k : MetricKind) : k.name ≠ "" := by
  cases k <;> decide

end MetricKind

namespace Registry
variable {π : Type}

theorem register_of_fresh {r : Registry π} {key : String} {interval : Nat} (producer : π)
    (hkey : key ≠ "") (hpos : 0 < interval) (hfresh : key ∉ r.jobs.keys) :
    r.register key interval producer =
      .ok { jobs := r.jobs.insert key ⟨interval, producer, hpos⟩ } := by
  have hcontains : r.jobs.contains key = false := by
    simp [Named.contains, Named.find?_eq_position?, Named.position?_eq_none_iff.mpr hfresh]
  simp [register, hkey, Nat.ne_of_gt hpos, hcontains]

def listing (r : Registry π) : List (String × Nat × π) :=
  r.jobs.entries.map fun e => (e.1, e.2.interval, e.2.producer)

end Registry

namespace Settings
variable {π : Type} {s : Settings} {files : FileTree}

def intervals (s : Settings) : List (String × Nat) :=
  s.enabled.map fun k => (k.name, Span.ofSeconds (s.interval k))

def listing (s : Settings) (producer : MetricKind → π) : List (String × Nat × π) :=
  s.enabled.map fun k => (k.name, Span.ofSeconds (s.interval k), producer k)

theorem names_intervals (s : Settings) :
    s.intervals.map Prod.fst = s.enabled.map MetricKind.name := by
  rw [intervals, List.map_map]
  rfl

theorem empty_not_mem_intervals (s : Settings) : "" ∉ s.intervals.map Prod.fst := by
  rw [names_intervals]
  intro hmem
  obtain ⟨k, -, hname⟩ := List.mem_map.mp hmem
  exact k.name_ne_empty hname

theorem interval_pos_of_validate (h : s.validate files = .ok ()) {k : MetricKind}
    (hk : k ∈ s.enabled) : 0 < Span.ofSeconds (s.interval k) := by
  unfold validate at h
  split at h
  · cases h
  · split at h
    · cases h
    · rename_i hnone
      have hinterval : s.interval k ≠ 0 := by
        simpa using List.find?_eq_none.mp hnone k hk
      unfold Span.ofSeconds Span.perSecond
      omega

theorem nodup_enabled (s : Settings) : s.enabled.Nodup :=
  List.Nodup.sublist List.filter_sublist (by decide)

theorem exists_registry (producer : MetricKind → π) {l : List MetricKind} (hnodup : l.Nodup)
    (hpos : ∀ k ∈ l, 0 < Span.ofSeconds (s.interval k)) {r : Registry π}
    (hfresh : ∀ k ∈ l, k.name ∉ r.jobs.keys) :
    ∃ r', l.foldlM (fun r k => r.register k.name (Span.ofSeconds (s.interval k)) (producer k)) r =
        .ok r' ∧
      r'.listing = r.listing ++ l.map fun k =>
        (k.name, Span.ofSeconds (s.interval k), producer k) := by
  induction l generalizing r with
  | nil => exact ⟨r, rfl, by simp⟩
  | cons k rest ih =>
    obtain ⟨hk, hrest⟩ := List.nodup_cons.mp hnodup
    have hname := hfresh k List.mem_cons_self
    have hregister := Registry.register_of_fresh (producer k) k.name_ne_empty
      (hpos k List.mem_cons_self) hname
    rw [List.foldlM_cons, hregister]
    obtain ⟨r', hr', hlisting⟩ := ih hrest (fun k' hk' => hpos k' (List.mem_cons_of_mem _ hk'))
      (r := { jobs := r.jobs.insert k.name _ }) fun k' hk' hmem => by
        cases Named.mem_keys_insert.mp hmem with
        | inl hold => exact hfresh k' (List.mem_cons_of_mem _ hk') hold
        | inr hsame => exact hk (MetricKind.name_inj hsame ▸ hk')
    refine ⟨r', hr', ?_⟩
    rw [hlisting, Registry.listing, Named.entries_insert_of_not_mem _ hname]
    simp [Registry.listing]

/-- Settings in which each metric that is enabled has an interval give it a job. -/
theorem registry_of_pos (producer : MetricKind → π)
    (hpos : ∀ k ∈ s.enabled, 0 < Span.ofSeconds (s.interval k)) :
    ∃ r, s.registry producer = .ok r ∧ r.listing = s.listing producer := by
  obtain ⟨r, hr, hlisting⟩ := exists_registry producer s.nodup_enabled hpos (r := {})
    (fun _ _ => List.not_mem_nil)
  exact ⟨r, hr, hlisting⟩

end Settings

namespace Agent
variable {a : Agent} {jobs : List (String × Nat)}

/-- Whoever asks changes nothing but the numbers about the agent itself. -/
theorem get_snd (clock : Nat → String) (a : Agent) (page : Page) :
    (a.get clock page).2 = { a with telemetry := (a.get clock page).2.telemetry } := by
  cases page <;> rfl

theorem serve_snd (clock : Nat → String) (a : Agent) (path : String) :
    (a.serve clock path).2 = { a with telemetry := (a.serve clock path).2.telemetry } := by
  unfold serve
  split
  · split
    · exact a.get_snd clock _
    · rfl
  · rfl
  · rfl

theorem settings_step (clock : Nat → String) (a : Agent) (x : AgentStep) :
    (a.step clock x).settings = a.settings := by
  cases x with
  | schedule x => rfl
  | host files volumes uname => rfl
  | ask path => rw [step, serve_snd]

theorem settings_after (clock : Nat → String) (a : Agent) (steps : List AgentStep) :
    (a.after clock steps).settings = a.settings := by
  induction steps generalizing a with
  | nil => rfl
  | cons x steps ih => exact (ih (a.step clock x)).trans (a.settings_step clock x)

theorem settings_new {s : Settings} {probe : Probe} {uptime : Nat}
    (h : new s probe uptime = .ok a) : a.settings = s := by
  unfold new at h
  cases hr : s.registry producer with
  | error e =>
    rw [hr] at h
    cases h
  | ok r =>
    rw [hr] at h
    cases h
    rfl

/-- At its path a page says what there is to say. -/
theorem serve_path (clock : Nat → String) {page : Page} (h : page ≠ .metric "")
    (hon : a.settings.serves page = true) : a.serve clock page.path = a.get clock page := by
  rw [serve, Request.target_path h]
  exact if_pos hon

/-- A page that the settings have left out is not found at its path. -/
theorem serve_path_of_off (clock : Nat → String) {page : Page}
    (hoff : a.settings.serves page = false) :
    a.serve clock page.path = (.ok Reply.notFound, a) := by
  have hpage : page ≠ .metric "" := by
    rintro rfl
    cases hoff
  rw [serve, Request.target_path hpage]
  exact if_neg (by simp [hoff])

structure Schedules (a : Agent) (jobs : List (String × Nat)) : Prop where
  wired : a.scheduler.Wired
  still : a.scheduler.Still
  jobs_eq : a.scheduler.loops.map (fun l => (l.key, l.interval)) = jobs

theorem schedules_new {s : Settings} {files : FileTree} (h : s.validate files = .ok ())
    (probe : Probe) (uptime : Nat) :
    ∃ a, new s probe uptime = .ok a ∧ a.Schedules s.intervals := by
  obtain ⟨r, hr, hlisting⟩ := Settings.registry_of_pos (s := s) producer fun k hk =>
    Settings.interval_pos_of_validate h hk
  refine ⟨_, by rw [new, hr]; rfl, Scheduler.wired_withStore r {} probe,
    Scheduler.still_withStore r {} probe, ?_⟩
  have hjobs := congrArg (List.map fun e => (e.1, e.2.interval))
    (Scheduler.jobs_after r {} probe [])
  have hintervals := congrArg (List.map fun e => (e.1, e.2.1)) hlisting
  rw [Registry.listing, Settings.listing, List.map_map, List.map_map] at hintervals
  rw [List.map_map] at hjobs
  exact hjobs.trans hintervals

/-- The loop of a metric that is enabled. -/
theorem Schedules.exists_find? {s : Settings} (h : a.Schedules s.intervals) {k : MetricKind}
    (hk : k ∈ s.enabled) : ∃ l, a.scheduler.find? k.name = some l ∧ l.key = k.name ∧
      l.interval = Span.ofSeconds (s.interval k) := by
  have hjob : (k.name, Span.ofSeconds (s.interval k)) ∈ s.intervals := List.mem_map_of_mem hk
  rw [← h.jobs_eq] at hjob
  obtain ⟨l, hl, hlk⟩ := List.mem_map.mp hjob
  obtain ⟨hkey, hinterval⟩ := Prod.mk.inj hlk
  exact ⟨l, hkey ▸ h.wired.find?_of_mem hl, hkey, hinterval⟩

theorem Schedules.step (h : a.Schedules jobs) (clock : Nat → String) (x : AgentStep) :
    (a.step clock x).Schedules jobs := by
  cases x with
  | schedule x =>
    refine ⟨Scheduler.wired_after h.wired h.still [x], Scheduler.still_step h.still x, ?_⟩
    have hjobs := congrArg (List.map fun e => (e.1, e.2.interval)) (h.still.jobs_after [x])
    rw [List.map_map, List.map_map] at hjobs
    exact hjobs.trans h.jobs_eq
  | host files volumes uname => exact ⟨⟨h.wired.nodup, h.wired.leads⟩, h.still, h.jobs_eq⟩
  | ask path =>
    rw [Agent.step, serve_snd]
    exact ⟨h.wired, h.still, h.jobs_eq⟩

theorem Schedules.after (h : a.Schedules jobs) (clock : Nat → String) (steps : List AgentStep) :
    (a.after clock steps).Schedules jobs := by
  induction steps generalizing a with
  | nil => exact h
  | cons x steps ih => exact ih (h.step clock x)

end Agent
end HostVitals
