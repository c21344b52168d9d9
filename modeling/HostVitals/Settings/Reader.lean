import HostVitals.Format
import HostVitals.Json.Reader
import HostVitals.Settings.Basic
import HostVitals.Toml.Reader
import HostVitals.Yaml.Reader

/-! Settings read from a text in any of the formats. -/
namespace HostVitals.Settings

section Fields
variable {α : Type} (shape : α → Shape α)

def collectorFields : List (Field α CollectorSettings) := [
  { names := ["enabled"]
    take := fun a c => (shape a).truth?.map fun v => { c with enabled := v } },
  { names := ["interval_seconds", "interval"]
    take := fun a c => ((shape a).natural? Text.maxU64).map fun v => { c with interval := v } }]

def setCollector (k : MetricKind) (c : CollectorSettings) (f : MetricKind → CollectorSettings) :
    MetricKind → CollectorSettings :=
  fun j => if j = k then c else f j

def collectorsFields : List (Field α (MetricKind → CollectorSettings)) :=
  MetricKind.all.map fun k => {
    names := [k.name]
    take := fun a f =>
      ((shape a).record (collectorFields shape) {}).map fun c => setCollector k c f
    spared := true }

def fields : List (Field α Settings) := [
  { names := ["port"]
    take := fun a s => ((shape a).natural? Text.maxU16).map fun v => { s with port := v } },
  { names := ["bind"]
    take := fun a s => (shape a).text?.map fun v => { s with bind := v } },
  { names := ["enable_health", "enable-health"]
    take := fun a s => (shape a).truth?.map fun v => { s with health := v } },
  { names := ["enable_telemetry", "enable-telemetry"]
    take := fun a s => (shape a).truth?.map fun v => { s with telemetry := v } },
  { names := ["log_level", "log-level"]
    take := fun a s => (shape a).text?.map fun v => { s with logLevel := v } },
  { names := ["shutdown_timeout_seconds", "shutdown-timeout-seconds"]
    take := fun a s =>
      ((shape a).natural? Text.maxU64).map fun v => { s with shutdownTimeout := v } },
  { names := ["enable_tls", "enable-tls"]
    take := fun a s => (shape a).truth?.map fun v => { s with tls := v } },
  { names := ["tls_cert_path", "tls-cert-path"]
    take := fun a s => (shape a).text?.map fun v => { s with certificate := v } },
  { names := ["tls_key_path", "tls-key-path"]
    take := fun a s => (shape a).text?.map fun v => { s with key := v } },
  { names := ["collectors"]
    take := fun a s => do
      return { s with collectors := ← (shape a).record (collectorsFields shape) fun _ => {} }
    spared := true }]

def ofShape (root : Shape α) : Option Settings := root.record (fields shape) {}

end Fields

def parse (format : Format) (text : String) : Option Settings :=
  let s := text.toList
  match format with
  | .json => (Json.read s).bind fun n => ofShape Json.Node.shape n.shape
  | .toml => (Toml.read s).bind fun n => ofShape Toml.Node.shape n.shape
  | .yaml => (Yaml.read s).bind fun d => ofShape d.shape d.rootShape

end HostVitals.Settings
