import HostVitals.Host.Probe
import HostVitals.Proc.Mounts

/-! Usage of the mounted filesystems. -/
namespace HostVitals

structure VolumeUsage where
  mount : Mount
  size : Nat
  available : Nat
  used : Nat
  filesTotal : Nat
  filesFree : Nat
deriving DecidableEq, Repr

namespace VolumeUsage

def bytes (fragmentSize blocks : Nat) : Except Fault Nat :=
  if fragmentSize * blocks ≤ Text.maxU64 then .ok (fragmentSize * blocks)
  else .error (.overflow .multiply)

def ofCounts (mount : Mount) (v : VolumeCounts) : Except Fault VolumeUsage := do
  let size ← bytes v.fragmentSize v.blocks
  let free ← bytes v.fragmentSize v.blocksFree
  let available ← bytes v.fragmentSize v.blocksAvailable
  return {
    mount, size, available
    used := size - free
    filesTotal := v.files
    filesFree := v.filesFree }

def ofMounts (volumes : List (String × VolumeCounts)) : List Mount → Except Fault (List VolumeUsage)
  | [] => .ok []
  | m :: rest =>
    match volumes.lookup m.point with
    | none => ofMounts volumes rest
    | some v => do
      let usage ← ofCounts m v
      return usage :: (← ofMounts volumes rest)

end VolumeUsage

namespace Collecting

def volumes : Collecting (List VolumeUsage) := do
  let mounts := Mount.parse (← file "/proc/mounts")
  ofExcept (VolumeUsage.ofMounts (← get).volumes mounts)

end Collecting
end HostVitals
