import HostVitals.RunStats
import HostVitals.Span

/-! Numbers about the program itself in the text format of Prometheus. A series is told apart by its
labels; a counter follows the totals that are shown to it and never goes back, a gauge takes the
latest value. -/
namespace HostVitals.Report

abbrev Series (α : Type) := List (List (String × String) × α)

namespace Series
variable {α : Type}

def find? (s : Series α) (labels : List (String × String)) : Option α := s.lookup labels

def set (s : Series α) (labels : List (String × String)) (value : α) : Series α :=
  match s with
  | [] => [(labels, value)]
  | (l, v) :: r => if l = labels then (l, value) :: r else (l, v) :: set r labels value

end Series

structure Telemetry where
  runs : Series Nat := []
  durations : Series Binary64 := []
  ages : Series Binary64 := []
  intervals : Series Binary64 := []

namespace Telemetry

def keyLabel (key : String) : List (String × String) := [("key", key)]

def runLabels (key outcome : String) : List (String × String) :=
  [("key", key), ("outcome", outcome)]

def raise (s : Series Nat) (labels : List (String × String)) (total : Nat) : Series Nat :=
  let count := (s.find? labels).getD 0
  s.set labels (count + (total - count))

def refreshJob (t : Telemetry) (j : JobSummary) : Telemetry :=
  let key := keyLabel j.key
  { runs := raise (raise t.runs (runLabels j.key "success") j.successes)
      (runLabels j.key "failure") j.failures
    durations := t.durations.set key (j.lastMs.div (.ofNat 1000))
    intervals := t.intervals.set key (Span.toSeconds j.interval)
    ages := match j.age with
      | some a => t.ages.set key (Span.toSeconds a)
      | none => t.ages }

def refresh (t : Telemetry) (jobs : List JobSummary) : Telemetry := jobs.foldl refreshJob t

def labelChar (c : Char) : String :=
  if c = '\\' then "\\\\" else if c = '\n' then "\\n" else if c = '"' then "\\\"" else String.ofList [c]

def labelText (s : String) : String := String.join (s.toList.map labelChar)

def seriesText (name : String) (labels : List (String × String)) : String :=
  name ++ "\x7b" ++
    String.intercalate "," (labels.map fun l => l.1 ++ "=\"" ++ labelText l.2 ++ "\"") ++ "\x7d "

def sampleLine (name : String) (labels : List (String × String)) (value : Binary64) : String :=
  seriesText name labels ++ Binary64.plain.render value ++ "\n"

def labelsLe (a b : List (String × String)) : Bool :=
  match a, b with
  | [], _ => true
  | _ :: _, [] => false
  | x :: xs, y :: ys => if x.2 = y.2 then labelsLe xs ys else decide (x.2 < y.2)

def family (name help kind : String) (s : Series Binary64) : String :=
  if s.isEmpty then ""
  else "# HELP " ++ name ++ " " ++ help ++ "\n# TYPE " ++ name ++ " " ++ kind ++ "\n" ++
    String.join ((s.mergeSort fun a b => labelsLe a.1 b.1).map fun e => sampleLine name e.1 e.2)

def encode (t : Telemetry) : String :=
  family "telemetry_agent_job_duration_seconds" "Duration of the last collector execution"
      "gauge" t.durations ++
    family "telemetry_agent_job_interval_seconds" "Configured collector interval" "gauge"
      t.intervals ++
    family "telemetry_agent_job_runs_total" "Collector executions by outcome" "counter"
      (t.runs.map fun e => (e.1, .ofNat e.2)) ++
    family "telemetry_agent_metric_age_seconds" "Seconds since the last successful sample"
      "gauge" t.ages

end Telemetry
end HostVitals.Report
