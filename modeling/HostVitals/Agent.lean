import HostVitals.Report.Pages
import HostVitals.Report.Telemetry
import HostVitals.Request
import HostVitals.Schedule.Step

/-! The agent: a schedule of collectors on a host, and the replies to those who ask. -/
namespace HostVitals

structure Agent where
  settings : Settings
  scheduler : Scheduler Probe Sample
  telemetry : Report.Telemetry := {}
  /-- Seconds since the start; they do not follow the schedule's clock. -/
  uptime : Nat

namespace Agent

def outcomeOf : Except Fault Sample → Outcome Sample
  | .ok s => .value s
  | .error f => .failure (if f.breaksOff then crashReport f.message else f.message)

def pause (k : MetricKind) (probe : Probe) : Nat :=
  match k with
  | .cpu => Collecting.cpuPause probe
  | _ => 0

def producer (k : MetricKind) : Producer Probe Sample := fun _ probe =>
  let (r, after) := k.collect.run probe
  (.run { length := pause k probe, outcome := outcomeOf r }, after)

def new (s : Settings) (probe : Probe) (uptime : Nat) : Except RegistryError Agent := do
  let registry ← s.registry producer
  return { settings := s, scheduler := Scheduler.new registry probe, uptime }

def withHost (a : Agent) (files : FileTree) (volumes : List (String × VolumeCounts))
    (uname : Option Uname) : Agent :=
  let world := a.scheduler.world
  { a with scheduler := { a.scheduler with
      world := { world with around := { world.around with files, volumes, uname } } } }

def listing (clock : Nat → String) (a : Agent) : Except Overflow (List Document) :=
  a.scheduler.keys.mapM fun key => do
    let c ← a.scheduler.current key
    return Reply.listingRow clock key ((a.scheduler.interval? key).getD 0) c

/-- What there is to say on a page, whether or not the page is served. Only the numbers about the
agent itself change by being asked for. -/
def get (clock : Nat → String) (a : Agent) : Page → Except Overflow Reply × Agent
  | .root =>
    let jobs := a.scheduler.loops.map fun l => (l.key, l.interval)
    (.ok (Reply.plain 200 (Report.rootPage a.settings a.uptime jobs)), a)
  | .metrics => ((a.listing clock).map fun rows => Reply.json 200 (.list rows), a)
  | .metric key => ((a.scheduler.current key).bind (Reply.ofCurrent clock key), a)
  | .health => (.ok (Report.healthReply a.uptime a.scheduler.summaries), a)
  | .config => (.ok (Reply.plain 200 (Report.settingsPage a.settings)), a)
  | .telemetry =>
    let telemetry := a.telemetry.refresh a.scheduler.summaries
    let body := Reply.Body.text telemetry.encode
    (.ok { status := 200, contentType := "text/plain; version=0.0.4", body },
      { a with telemetry })

end Agent

def Settings.serves (s : Settings) : Page → Bool
  | .health => s.health.getD true
  | .telemetry => s.telemetry.getD true
  | _ => true

inductive AgentStep where
  | schedule (x : Step Sample)
  | host (files : FileTree) (volumes : List (String × VolumeCounts)) (uname : Option Uname)
  | ask (path : String)

namespace Agent

def serve (clock : Nat → String) (a : Agent) (path : String) : Except Overflow Reply × Agent :=
  match Request.target path with
  | .page page => if a.settings.serves page then a.get clock page else (.ok Reply.notFound, a)
  | .undecodable => (.ok Reply.undecodable, a)
  | .nowhere => (.ok Reply.notFound, a)

def step (clock : Nat → String) (a : Agent) : AgentStep → Agent
  | .schedule x => { a with scheduler := a.scheduler.step x }
  | .host files volumes uname => a.withHost files volumes uname
  | .ask path => (a.serve clock path).2

def after (clock : Nat → String) (a : Agent) (steps : List AgentStep) : Agent :=
  steps.foldl (step clock) a

end Agent
end HostVitals
