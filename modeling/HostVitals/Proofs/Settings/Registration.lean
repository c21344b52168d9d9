import HostVitals.Proofs.Agent.Jobs

/-! The check of settings and the registration of their jobs, which look at the collectors each in
its own way, agree on them: what passes the check can be registered, and a metric without an
interval is named by both. -/
namespace HostVitals
namespace Settings
variable {π : Type} {s : Settings} {files : FileTree} {producer : MetricKind → π}

def idle? (s : Settings) : Option MetricKind :=
  MetricKind.all.find? fun k => s.isEnabled k && s.interval k == 0

theorem idle?_eq_find? (s : Settings) :
    s.idle? = s.enabled.find? fun k => s.interval k == 0 := by
  rw [idle?, enabled, List.find?_filter]
  congr 1
  funext k
  simp only [Bool.decide_and, Bool.decide_eq_true]

theorem mem_enabled {k : MetricKind} : k ∈ s.enabled ↔ s.isEnabled k = true := by
  have hall : k ∈ MetricKind.all := by cases k <;> decide
  simp [enabled, hall]

theorem idle?_eq_none_iff : s.idle? = none ↔ ∀ k ∈ s.enabled, 0 < s.interval k := by
  rw [idle?_eq_find?, List.find?_eq_none]
  simp [Nat.pos_iff_ne_zero]

theorem ofSeconds_pos_iff {n : Nat} : 0 < Span.ofSeconds n ↔ 0 < n := by
  unfold Span.ofSeconds Span.perSecond
  omega

/-- Registration stops at the first metric without an interval. -/
theorem registry_of_idle {l : List MetricKind} (hnodup : l.Nodup) {r : Registry π}
    (hfresh : ∀ k ∈ l, k.name ∉ r.jobs.keys) {idle : MetricKind}
    (hidle : l.find? (fun k => s.interval k == 0) = some idle) :
    l.foldlM (fun r k => r.register k.name (Span.ofSeconds (s.interval k)) (producer k)) r =
      .error (.zeroInterval idle.name) := by
  induction l generalizing r with
  | nil => cases hidle
  | cons k rest ih =>
    obtain ⟨hk, hrest⟩ := List.nodup_cons.mp hnodup
    rw [List.foldlM_cons]
    by_cases hzero : s.interval k = 0
    · have hsame : k = idle := by simpa [hzero] using hidle
      have hregister : r.register k.name (Span.ofSeconds (s.interval k)) (producer k) =
          .error (.zeroInterval k.name) := by
        simp [Registry.register, k.name_ne_empty, hzero, Span.ofSeconds]
      rw [hregister, hsame]
      rfl
    · have hpos := ofSeconds_pos_iff.mpr (Nat.pos_of_ne_zero hzero)
      rw [Registry.register_of_fresh (producer k) k.name_ne_empty hpos
        (hfresh k List.mem_cons_self)]
      refine ih hrest (fun k' hk' hmem => ?_) (by simpa [hzero] using hidle)
      cases Named.mem_keys_insert.mp hmem with
      | inl hold => exact hfresh k' (List.mem_cons_of_mem _ hk') hold
      | inr hsame => exact hk (MetricKind.name_inj hsame ▸ hk')

theorem registry_of_idle? {k : MetricKind} (h : s.idle? = some k) :
    s.registry producer = .error (.zeroInterval k.name) :=
  registry_of_idle s.nodup_enabled (fun _ _ => List.not_mem_nil) (s.idle?_eq_find? ▸ h)

theorem registry_of_no_idle (h : s.idle? = none) (producer : MetricKind → π) :
    ∃ r, s.registry producer = .ok r ∧ r.listing = s.listing producer :=
  registry_of_pos producer fun k hk => ofSeconds_pos_iff.mpr (idle?_eq_none_iff.mp h k hk)

/-- A registration that goes well has exactly the jobs of the metrics that are enabled. -/
theorem listing_of_registry {r : Registry π} (h : s.registry producer = .ok r) :
    r.listing = s.listing producer := by
  cases hidle : s.idle? with
  | some k =>
    rw [registry_of_idle? hidle] at h
    cases h
  | none =>
    obtain ⟨r', hr', hlisting⟩ := registry_of_no_idle hidle producer
    rw [hr'] at h
    cases h
    exact hlisting

/-- Each job of the settings is that of a metric that is enabled. -/
theorem producer_of_registry {r : Registry π} {key : String} {job : Job π}
    (h : s.registry producer = .ok r) (hjob : r.jobs.find? key = some job) :
    ∃ k ∈ s.enabled, key = k.name ∧ job.producer = producer k := by
  have hmem : (key, job.interval, job.producer) ∈ r.listing :=
    List.mem_map_of_mem (Named.mem_entries_iff.mpr hjob)
  rw [listing_of_registry h] at hmem
  obtain ⟨k, hk, hsame⟩ := List.mem_map.mp hmem
  simp only [Prod.mk.injEq] at hsame
  exact ⟨k, hk, hsame.1.symm, hsame.2.2.symm⟩

theorem enabled_ne_nil_of_validate (h : s.validate files = .ok ()) : s.enabled ≠ [] := by
  intro hnil
  simp [validate, hnil] at h

theorem validate_of_idle? {k : MetricKind} (h : s.idle? = some k) :
    s.validate files = .error (.zeroInterval k) := by
  rw [idle?_eq_find?] at h
  have hne : s.enabled ≠ [] := List.ne_nil_of_mem (List.mem_of_find?_eq_some h)
  simp [validate, hne, h]

def withCollectors (s : Settings) (c : MetricKind → CollectorSettings) : Settings :=
  { s with collectors := c }

structure EnablesSame (s s' : Settings) : Prop where
  enabled : ∀ k, s'.isEnabled k = s.isEnabled k
  interval : ∀ k, s.isEnabled k = true → s'.interval k = s.interval k

theorem foldlM_register_congr {l : List MetricKind} {interval interval' : MetricKind → Nat}
    (h : ∀ k ∈ l, interval' k = interval k) (r : Registry π) :
    l.foldlM (fun r k => r.register k.name (interval' k) (producer k)) r =
      l.foldlM (fun r k => r.register k.name (interval k) (producer k)) r := by
  induction l generalizing r with
  | nil => rfl
  | cons k rest ih =>
    rw [List.foldlM_cons, List.foldlM_cons, h k List.mem_cons_self]
    exact bind_congr fun r' => ih (fun k' hk' => h k' (List.mem_cons_of_mem _ hk')) r'

namespace EnablesSame
variable {s' : Settings}

theorem enabled_eq (h : s.EnablesSame s') : s'.enabled = s.enabled := by
  rw [Settings.enabled, Settings.enabled, funext h.enabled]

theorem idle?_eq (h : s.EnablesSame s') : s'.idle? = s.idle? := by
  have hsame (k : MetricKind) :
      (s'.isEnabled k && s'.interval k == 0) = (s.isEnabled k && s.interval k == 0) := by
    rw [h.enabled]
    cases hk : s.isEnabled k with
    | false => rfl
    | true => rw [h.interval k hk]
  rw [idle?, idle?, funext hsame]

theorem registry_eq (h : s.EnablesSame s') (producer : MetricKind → π) :
    s'.registry producer = s.registry producer := by
  rw [registry, registry, h.enabled_eq]
  exact foldlM_register_congr
    (fun k hk => congrArg Span.ofSeconds (h.interval k (mem_enabled.mp hk))) {}

theorem validate_eq {c : MetricKind → CollectorSettings} (h : s.EnablesSame (s.withCollectors c))
    (files : FileTree) : (s.withCollectors c).validate files = s.validate files := by
  have hidle := h.idle?_eq
  rw [idle?_eq_find?, idle?_eq_find?] at hidle
  rw [validate, validate, hidle, h.enabled_eq]
  rfl

end EnablesSame

/-- How the check of settings and the registration of their jobs stand to each other. -/
structure Registers (s : Settings) (files : FileTree) (producer : MetricKind → π) : Prop where
  usable : s.validate files = .ok () → s.enabled ≠ [] ∧ (∀ k ∈ s.enabled, 0 < s.interval k) ∧
    ∃ r, s.registry producer = .ok r ∧ r.listing = s.enabled.map fun k =>
      (k.name, Span.ofSeconds (s.interval k), producer k)
  /-- Only a metric that is enabled and has no interval stands in the way. -/
  fails_iff : (∃ e, s.registry producer = .error e) ↔
    ∃ k, s.isEnabled k = true ∧ s.interval k = 0
  named : ∀ e, s.registry producer = .error e → ∃ k, s.idle? = some k ∧ e = .zeroInterval k.name ∧
    s.validate files = .error (.zeroInterval k)
  disabled : ∀ c, s.EnablesSame (s.withCollectors c) →
    (s.withCollectors c).validate files = s.validate files ∧
    (s.withCollectors c).registry producer = s.registry producer

/-- What passes the check gives a job to each metric that is enabled, in order, and nothing but a
metric without an interval makes the registration fail, for which the check refuses it too. -/
theorem registers (s : Settings) (files : FileTree) (producer : MetricKind → π) :
    s.Registers files producer where
  usable h := by
    have hpos : ∀ k ∈ s.enabled, 0 < s.interval k := fun k hk =>
      ofSeconds_pos_iff.mp (interval_pos_of_validate h hk)
    exact ⟨enabled_ne_nil_of_validate h, hpos, registry_of_no_idle (idle?_eq_none_iff.mpr hpos) _⟩
  fails_iff := by
    cases hidle : s.idle? with
    | some k =>
      have hk := List.find?_some hidle
      simp only [Bool.and_eq_true, beq_iff_eq] at hk
      exact iff_of_true ⟨_, registry_of_idle? hidle⟩ ⟨k, hk⟩
    | none =>
      obtain ⟨r, hr, -⟩ := registry_of_no_idle hidle producer
      refine iff_of_false (fun ⟨e, he⟩ => ?_) fun ⟨k, hk, hzero⟩ => ?_
      · rw [hr] at he
        cases he
      · have hpos := idle?_eq_none_iff.mp hidle k (mem_enabled.mpr hk)
        omega
  named e h := by
    cases hidle : s.idle? with
    | some k =>
      rw [registry_of_idle? hidle] at h
      cases h
      exact ⟨k, rfl, rfl, validate_of_idle? hidle⟩
    | none =>
      obtain ⟨r, hr, -⟩ := registry_of_no_idle hidle producer
      rw [hr] at h
      cases h
  disabled c h := ⟨h.validate_eq files, h.registry_eq producer⟩

end Settings
end HostVitals
