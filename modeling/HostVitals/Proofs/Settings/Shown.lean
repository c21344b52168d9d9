import HostVitals.Proofs.Document.Shown
import HostVitals.Settings.Reader

/-! Settings are read back from whatever shows their document. -/
namespace HostVitals.Settings

open Document

variable {α ρ : Type} {shape : α → Shape α} {names : List String} {spared : Bool} {r : ρ} {a : α}
  {s : Settings}

theorem fits_truth {v : Option Bool} {put : Option Bool → ρ → ρ} (hput : put none r = r) :
    Fits shape { names, spared, take := fun a r => (shape a).truth?.map fun v => put v r }
      (.opt .bool v) r (put v r) where
  take a ha := by simp [ha.truth?]
  keep hv := by
    cases v with
    | none => exact hput
    | some b => cases hv

theorem fits_text {v : Option String} {put : Option String → ρ → ρ} (hput : put none r = r) :
    Fits shape { names, spared, take := fun a r => (shape a).text?.map fun v => put v r }
      (.opt .text v) r (put v r) where
  take a ha := by simp [ha.text?]
  keep hv := by
    cases v with
    | none => exact hput
    | some t => cases hv

theorem fits_natural {limit : Nat} {v : Option Nat} {put : Option Nat → ρ → ρ}
    (hv : ∀ n ∈ v, n ≤ limit) (hput : put none r = r) :
    Fits shape { names, spared, take := fun a r => ((shape a).natural? limit).map fun v => put v r }
      (.opt .nat v) r (put v r) where
  take a ha := by simp [ha.natural? hv]
  keep hv := by
    cases v with
    | none => exact hput
    | some n => cases hv

theorem fits_record {β : Type} {fields : List (Field α β)} {entries : List (String × Document)}
    {start v : β} {put : β → ρ → ρ} (hfills : Fills shape fields 0 entries start v) :
    Fits shape
      { names, spared, take := fun a r => ((shape a).record fields start).map fun v => put v r }
      (.table entries) r (put v r) where
  take a ha := by simp [hfills.record ha]
  keep hv := by cases hv

structure InRange (s : Settings) : Prop where
  port : ∀ n ∈ s.port, n ≤ Text.maxU16
  shutdown : ∀ n ∈ s.shutdownTimeout, n ≤ Text.maxU64
  interval : ∀ k, ∀ n ∈ (s.collectors k).interval, n ≤ Text.maxU64

theorem fills_collector {c : CollectorSettings} (hc : ∀ n ∈ c.interval, n ≤ Text.maxU64) :
    Fills shape (collectorFields shape) 0
      [("enabled", .opt .bool c.enabled), ("interval_seconds", .opt .nat c.interval)] {} c :=
  .cons rfl rfl (fits_truth rfl) <| .cons rfl rfl (fits_natural hc rfl) .nil

theorem fills_collectors (hs : s.InRange) :
    Fills shape (collectorsFields shape) 0
      (MetricKind.all.map fun k => (k.name, collectorDocument (s.collectors k)))
      (fun _ => {}) s.collectors := by
  have hone (k : MetricKind) (f : MetricKind → CollectorSettings) :
      Fits shape { names := [k.name], spared := true, take := fun a f =>
          ((shape a).record (collectorFields shape) {}).map fun c => setCollector k c f }
        (collectorDocument (s.collectors k)) f (setCollector k (s.collectors k) f) :=
    fits_record (fills_collector (hs.interval k))
  have hall : (MetricKind.all.foldl (fun f k => setCollector k (s.collectors k) f) fun _ => {}) =
      s.collectors := by
    funext k
    cases k <;> rfl
  rw [← hall]
  exact .cons rfl rfl (hone _ _) <| .cons rfl rfl (hone _ _) <| .cons rfl rfl (hone _ _) <|
    .cons rfl rfl (hone _ _) <| .cons rfl rfl (hone _ _) <| .cons rfl rfl (hone _ _) <|
    .cons rfl rfl (hone _ _) <| .cons rfl rfl (hone _ _) <| .cons rfl rfl (hone _ _) .nil

/-- Each field of settings takes the value of its own that stands in their document. -/
theorem ofShape_of_shows (hs : s.InRange) (ha : Shows shape s.document a) :
    ofShape shape (shape a) = some s := by
  have hcollectors (r : Settings) :
      Fits shape { names := ["collectors"], spared := true, take := fun a r => do
          return { r with collectors := ← (shape a).record (collectorsFields shape) fun _ => {} } }
        (.table (MetricKind.all.map fun k => (k.name, collectorDocument (s.collectors k)))) r
        { r with collectors := s.collectors } := {
    take := fun a ha => by simp [(fills_collectors hs).record ha]
    keep := nofun }
  refine Fills.record (?_ : Fills shape (fields shape) 0 _ {} s) ha
  exact .cons rfl rfl (fits_natural hs.port rfl) <| .cons rfl rfl (fits_text rfl) <|
    .cons rfl rfl (fits_truth rfl) <| .cons rfl rfl (fits_truth rfl) <|
    .cons rfl rfl (fits_text rfl) <| .cons rfl rfl (fits_natural hs.shutdown rfl) <|
    .cons rfl rfl (fits_truth rfl) <| .cons rfl rfl (fits_text rfl) <|
    .cons rfl rfl (fits_text rfl) <| .cons rfl rfl (hcollectors _) .nil

def keys : List String :=
  ["port", "bind", "enable_health", "enable_telemetry", "log_level", "shutdown_timeout_seconds",
    "enable_tls", "tls_cert_path", "tls_key_path", "collectors", "enabled", "interval_seconds"] ++
    MetricKind.all.map MetricKind.name

theorem simple_nat {limit : Nat} {isKey : String → Prop} {v : Option Nat}
    (hv : ∀ n ∈ v, n ≤ limit) : Simple limit isKey (.opt .nat v) := by
  cases v with
  | none => trivial
  | some n => exact ⟨n, hv n rfl, rfl⟩

/-- The document of settings has single values, and numbers within their ranges, under known names. -/
theorem simple_document {isKey : String → Prop} (hkeys : ∀ k ∈ keys, isKey k) (hs : s.InRange) :
    Simple Text.maxU64 isKey s.document := by
  have hport : ∀ n ∈ s.port, n ≤ Text.maxU64 := fun n hn =>
    Nat.le_trans (hs.port n hn) (by decide)
  have hbool (v : Option Bool) : Simple Text.maxU64 isKey (.opt .bool v) := by
    cases v <;> trivial
  have htext (v : Option String) : Simple Text.maxU64 isKey (.opt .text v) := by
    cases v <;> trivial
  have hcollector (k : MetricKind) :
      Simple Text.maxU64 isKey (collectorDocument (s.collectors k)) :=
    ⟨nofun, hkeys _ (by simp [keys]), hbool _, hkeys _ (by simp [keys]),
      simple_nat (hs.interval k), trivial⟩
  have hcollectors (ks : List MetricKind) : SimpleAll Text.maxU64 isKey
      (ks.map fun k => (k.name, collectorDocument (s.collectors k))) := by
    induction ks with
    | nil => trivial
    | cons k ks ih =>
      have hname : k.name ∈ keys := by cases k <;> simp [keys, MetricKind.all, MetricKind.name]
      exact ⟨hkeys _ hname, hcollector k, ih⟩
  simp only [document, Simple, SimpleAll, ne_eq, reduceCtorEq, not_false_eq_true, true_and, hbool,
    htext, simple_nat hport, simple_nat hs.shutdown, hcollectors, and_true]
  simp [hkeys, keys, MetricKind.all]

end HostVitals.Settings
