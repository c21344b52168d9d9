import HostVitals.Fault
import HostVitals.Named
import HostVitals.Text.Blank

/-! Where processor time went, from `/proc/stat`: counters of ticks for all cores together (`cpu`)
and for each, and the shares of the time between two snapshots. -/
namespace HostVitals

structure CoreTicks where
  user : Nat
  nice : Nat
  system : Nat
  idle : Nat
  iowait : Nat
  irq : Nat
  softirq : Nat
  steal : Nat
deriving DecidableEq, Repr

abbrev CpuSnapshot := Named CoreTicks

structure CoreShares where
  elapsed : Nat
  usage : Nat
  idle : Nat
  iowait : Nat
  steal : Nat
deriving DecidableEq, Repr

namespace CoreTicks

def sum (c : CoreTicks) : Nat :=
  c.user + c.nice + c.system + c.idle + c.iowait + c.irq + c.softirq + c.steal

def idleSum (c : CoreTicks) : Nat := c.idle + c.iowait

def checked (n : Nat) : Except Fault Nat :=
  if n ≤ Text.maxU64 then .ok n else .error (.overflow .add)

def total (c : CoreTicks) : Except Fault Nat := checked c.sum

def idleTotal (c : CoreTicks) : Except Fault Nat := checked c.idleSum

def ofLine (line : List Char) : Option (String × CoreTicks) :=
  let fields := Text.words line
  if Text.startsWith "cpu".toList line && 8 ≤ fields.length then
    let counter (i : Nat) : Nat := ((fields[i]?).bind Text.u64?).getD 0
    some (String.ofList (fields.headD []),
      ⟨counter 1, counter 2, counter 3, counter 4, counter 5, counter 6, counter 7, counter 8⟩)
  else none

end CoreTicks

namespace CpuSnapshot

def read (text : List Char) : CpuSnapshot :=
  Named.ofList ((Text.lines text).filterMap CoreTicks.ofLine)

def parse (text : List Char) : Except Fault CpuSnapshot :=
  let cores := read text
  if cores.isEmpty then .error .noCpu else .ok cores

end CpuSnapshot

namespace CoreShares

/-- The shares of one core; none if no ticks have passed. A counter that went back counts as
unchanged. -/
def between (before now : CoreTicks) : Except Fault (Option CoreShares) := do
  let elapsed := (← now.total) - (← before.total)
  if elapsed = 0 then return none
  let resting := (← now.idleTotal) - (← before.idleTotal)
  return some {
    elapsed
    usage := elapsed - resting
    idle := now.idle - before.idle
    iowait := now.iowait - before.iowait
    steal := now.steal - before.steal }

def ofCores (before : CpuSnapshot) : List (String × CoreTicks) →
    Except Fault (List (String × CoreShares))
  | [] => .ok []
  | (name, now) :: rest => do
    let one ← match before.find? name with
      | some then_ => between then_ now
      | none => pure none
    let others ← ofCores before rest
    return match one with
      | some s => (name, s) :: others
      | none => others

def ofSnapshots (before now : CpuSnapshot) : Except Fault (Named CoreShares) :=
  (ofCores before now.entries).map Named.ofList

def ratio (s : CoreShares) (ticks : Nat) : Binary64 := .div (.ofNat ticks) (.ofNat s.elapsed)

end CoreShares
end HostVitals
