import HostVitals.Host.Probe
import HostVitals.Proc.Counters

/-! General facts about the host, and its pressure totals. -/
namespace HostVitals

structure HostFacts where
  uptime : Binary64
  counters : HostCounters
  entropy : Option Nat
  openFiles : Option Nat
  maxFiles : Option Nat
  uname : Option Uname

namespace Collecting

def openFiles : Collecting (Option (Nat × Nat)) := do
  match ← directory "/proc/self/fd" with
  | .error _ => return none
  | .ok names =>
    match ← fileOrNone "/proc/self/limits" with
    | none => return none
    | some text => return some (names.length, parseOpenFilesLimit text)

def facts : Collecting HostFacts := do
  let uptimeText ← file "/proc/uptime"
  let counters ← ofExcept (HostCounters.parse (← file "/proc/stat"))
  let entropy := (← fileOrNone "/proc/sys/kernel/random/entropy_avail").bind fun text =>
    Text.u64? (Text.trim text)
  let fds ← openFiles
  let uptime ← ofExcept (parseUptime uptimeText)
  return {
    uptime, counters, entropy
    openFiles := fds.map (·.1)
    maxFiles := fds.map (·.2)
    uname := (← get).uname }

def pressureOf (resource : String) : Collecting (Option Nat) := do
  return (← fileOrNone ("/proc/pressure/" ++ resource)).bind Pressure.someTotal

def pressure : Collecting Pressure := do
  let cpu ← pressureOf "cpu"
  let memory ← pressureOf "memory"
  let io ← pressureOf "io"
  if cpu.isNone && memory.isNone && io.isNone then throw .noPressure
  return { cpu, memory, io }

end Collecting
end HostVitals
