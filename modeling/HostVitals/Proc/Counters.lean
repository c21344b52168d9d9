import HostVitals.Fault
import HostVitals.Text.Blank

/-! Figures about the host as a whole: load averages from `/proc/loadavg`, the uptime from
`/proc/uptime`, counters from `/proc/stat`, the limit of open files from `/proc/self/limits`, and the
times in which some task had to wait for a resource from the files below `/proc/pressure`. -/
namespace HostVitals

structure LoadAverage where
  one : Binary64
  five : Binary64
  fifteen : Binary64

namespace LoadAverage

def readAverage (window : String) (field : List Char) : Except Fault Binary64 :=
  (Binary64.read field).mapError (.loadAverage window)

def parse (text : List Char) : Except Fault LoadAverage :=
  match Text.words text with
  | a :: b :: c :: _ => do
    let one ← readAverage "1min" a
    let five ← readAverage "5min" b
    let fifteen ← readAverage "15min" c
    return { one, five, fifteen }
  | fields => .error (.loadFields fields.length)

end LoadAverage

def parseUptime (text : List Char) : Except Fault Binary64 :=
  match Text.words text with
  | [] => .error .noUptime
  | first :: _ => (Binary64.read first).mapError .uptime

structure HostCounters where
  bootTime : Nat
  contextSwitches : Nat
  forks : Nat
deriving DecidableEq, Repr

namespace HostCounters

structure Found where
  bootTime : Option Nat := none
  contextSwitches : Option Nat := none
  forks : Option Nat := none

def counter (value : List Char) : Option Nat := Text.u64? (Text.trim value)

def Found.addLine (f : Found) (line : List Char) : Found :=
  match Text.stripStart "btime ".toList line with
  | some v => { f with bootTime := counter v }
  | none =>
    match Text.stripStart "ctxt ".toList line with
    | some v => { f with contextSwitches := counter v }
    | none =>
      match Text.stripStart "processes ".toList line with
      | some v => { f with forks := counter v }
      | none => f

def parse (text : List Char) : Except Fault HostCounters :=
  match (Text.lines text).foldl Found.addLine {} with
  | ⟨some bootTime, some contextSwitches, some forks⟩ =>
    .ok { bootTime, contextSwitches, forks }
  | _ => .error .counters

end HostCounters

def parseOpenFilesLimit (text : List Char) : Nat :=
  (do
    let line ← (Text.lines text).find? (Text.startsWith "Max open files".toList)
    let hard ← (Text.words line)[4]?
    Text.u64? hard).getD 1024

structure Pressure where
  cpu : Option Nat
  memory : Option Nat
  io : Option Nat
deriving DecidableEq, Repr

namespace Pressure

def someTotal (text : List Char) : Option Nat := do
  let line ← (Text.lines text).find? (Text.startsWith "some".toList)
  let total ← (Text.words line).findSome? (Text.stripStart "total=".toList)
  Text.u64? total

def seconds (micros : Nat) : Binary64 := .div (.ofNat micros) (.ofNat 1000000)

end Pressure

end HostVitals
