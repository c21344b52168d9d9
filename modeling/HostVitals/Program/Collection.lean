import HostVitals.Collect.Sample
import HostVitals.Format
import HostVitals.Program.Basic
import HostVitals.Report.JobTable
import HostVitals.Settings.Basic

/-! The command that takes one sample of each metric and prints them all. -/
namespace HostVitals.Program

def wanted (s : Settings) : Option String → Except Failure (List MetricKind)
  | none => .ok s.enabled
  | some name =>
    match MetricKind.ofName? name with
    | some k => .ok [k]
    | none => .error (.unknownMetric name)

def sampleAll : List MetricKind → Probe → Except Fault (List (MetricKind × Except Fault Sample))
  | [], _ => .ok []
  | k :: ks, probe =>
    let (r, probe) := k.collect.run probe
    match r with
    | .error f =>
      if f.breaksOff then .error f
      else (sampleAll ks probe).map ((k, .error f) :: ·)
    | .ok s => (sampleAll ks probe).map ((k, .ok s) :: ·)

def note (took : MetricKind → String) (k : MetricKind) : Except Fault Sample → String
  | .ok _ => "✅ " ++ Text.padRight 12 k.name ++ " collected in " ++ took k ++ " ms\n"
  | .error f => "❌ " ++ Text.padRight 12 k.name ++ " failed: " ++ f.message ++ "\n"

def samplesDocument (results : List (MetricKind × Except Fault Sample)) : Document :=
  let samples := results.filterMap fun e => e.2.toOption.map fun s => (e.1.name, s.document)
  .table (samples.mergeSort fun a b => decide (a.1 ≤ b.1))

def allFailed (results : List (MetricKind × Except Fault Sample)) : Bool :=
  !results.isEmpty && results.all fun e => !e.2.isOk

def collect (took : MetricKind → String) (probe : Probe) (s : Settings) (key : Option String)
    (format : Format) : Effects :=
  let files := probe.files
  match wanted s key with
  | .error e => { files, result := .error e }
  | .ok kinds =>
    match sampleAll kinds probe with
    | .error f => { files, result := .error (.broken f) }
    | .ok results => {
        out := format.render (samplesDocument results) ++ "\n"
        err := String.join (results.map fun e => note took e.1 e.2)
        files
        result := if allFailed results then .error .nothingCollected else .ok () }

end HostVitals.Program
