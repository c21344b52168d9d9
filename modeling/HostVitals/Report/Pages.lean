import HostVitals.Report.JobTable
import HostVitals.Report.Reply
import HostVitals.Settings.Basic
import HostVitals.Yaml.Printer

/-! The pages for people: the start page, the health of the collectors and the settings. -/
namespace HostVitals.Report

def footer : String :=
  "Project: https://github.com/cansp-dev/herakles-telemetry-agent — " ++
    "More info: https://www.herakles.now — Support: exporter@herakles.now"

def clockText (seconds : Nat) : String :=
  toString (seconds / 3600) ++ "h " ++ toString (seconds % 3600 / 60) ++ "m " ++
    toString (seconds % 60) ++ "s"

def uptimeText (seconds : Nat) : String :=
  let hours := (Binary64.ofNat seconds).div (.ofNat 3600)
  if hours.lt (.ofNat 1) then Binary64.fixed 1 (hours.mul (.ofNat 60)) ++ " minutes"
  else if hours.lt (.ofNat 24) then Binary64.fixed 1 hours ++ " hours"
  else Binary64.fixed 1 (hours.div (.ofNat 24)) ++ " days"

def rootPage (s : Settings) (uptime : Nat) (jobs : List (String × Nat)) : String :=
  "HERAKLES TELEMETRY AGENT v0.1.0\nUptime: " ++ clockText uptime ++
    "\n\nENDPOINTS\n---------\n" ++
    "/metrics           registered metrics and their freshness (JSON)\n" ++
    "/metrics/\x7bkey\x7d     latest sample of one metric (JSON)\n" ++
    "/config            effective configuration\n" ++
    (if s.health.getD true then "/health            collector statistics\n" else "") ++
    (if s.telemetry.getD true then "/telemetry         agent self-metrics (Prometheus)\n"
      else "") ++
    "\nMETRICS\n-------\n" ++
    String.join (jobs.map fun j =>
      Text.padRight 18 j.1 ++ " every " ++ toString (Span.wholeSeconds j.2) ++ "s\n") ++
    "\n" ++ footer ++ "\n"

def missingCount (jobs : List JobSummary) : Nat := (jobs.filter fun j => j.age.isNone).length

def healthReply (uptime : Nat) (jobs : List JobSummary) : Reply :=
  let missing := missingCount jobs
  let message := if missing = 0 then "OK"
    else toString missing ++ " of " ++ toString jobs.length ++ " collectors have no sample yet"
  Reply.plain (if missing = 0 then 200 else 503)
    (message ++ "\n\nUptime: " ++ uptimeText uptime ++ "\n\n" ++ jobTable jobs ++ "\n" ++ footer)

def settingsPage (s : Settings) : String :=
  Yaml.render s.document ++ "\n# " ++ footer ++ "\n"

end HostVitals.Report
