import HostVitals.Host.Probe

/-! Processor shares since the call before. -/
namespace HostVitals

namespace CpuBaseline

def isSet (b : CpuBaseline) : Bool := !b.poisoned && b.previous.isSome

def update (b : CpuBaseline) (now : CpuSnapshot) :
    Except Fault (Option (Named CoreShares)) × CpuBaseline :=
  if b.poisoned then (.error .lockPoisoned, b)
  else
    match b.previous with
    | none => (.ok none, { b with previous := some now })
    | some before =>
      match CoreShares.ofSnapshots before now with
      | .error e => (.error e, { b with poisoned := true })
      | .ok shares =>
        (.ok (if shares.isEmpty then none else some shares), { b with previous := some now })

end CpuBaseline

namespace Collecting

def cpuSnapshot : Collecting CpuSnapshot := do
  ofExcept (CpuSnapshot.parse (← file "/proc/stat"))

def updateBaseline (now : CpuSnapshot) : Collecting (Option (Named CoreShares)) := do
  let p ← get
  let (r, baseline) := p.baseline.update now
  set { p with baseline }
  ofExcept r

def takeBaseline : Collecting Unit := do
  discard <| updateBaseline (← cpuSnapshot)

def cpuPause (p : Probe) : Nat :=
  if p.baseline.isSet then 0 else if (takeBaseline.run p).1.isOk then p.window else 0

def cpuShares : Collecting (Named CoreShares) := do
  unless (← get).baseline.isSet do takeBaseline
  match ← updateBaseline (← cpuSnapshot) with
  | some shares => return shares
  | none => throw .noElapsed

end Collecting
end HostVitals
