import HostVitals.Fault
import HostVitals.Named
import HostVitals.Text.Blank

/-! Counters of block devices, from `/proc/diskstats`. -/
namespace HostVitals

structure DiskStats where
  readsCompleted : Nat
  readsMerged : Nat
  sectorsRead : Nat
  timeReadingMs : Nat
  writesCompleted : Nat
  writesMerged : Nat
  sectorsWritten : Nat
  timeWritingMs : Nat
  iosInProgress : Nat
  timeIoMs : Nat
  weightedTimeIoMs : Nat
deriving DecidableEq, Repr

namespace DiskStats

def sectorSize : Nat := 512

def bytesOfSectors (n : Nat) : Except Fault Nat :=
  if n * sectorSize ≤ Text.maxU64 then .ok (n * sectorSize) else .error (.overflow .multiply)

def readBytes (d : DiskStats) : Except Fault Nat := bytesOfSectors d.sectorsRead

def writtenBytes (d : DiskStats) : Except Fault Nat := bytesOfSectors d.sectorsWritten

def isIgnored (device : List Char) : Bool :=
  Text.startsWith "loop".toList device || Text.startsWith "ram".toList device

def ofLine (line : List Char) : Option (String × DiskStats) :=
  match Text.words line with
  | _ :: _ :: device :: a :: b :: c :: d :: e :: f :: g :: h :: i :: j :: k :: _ =>
    if isIgnored device then none
    else
      let n (w : List Char) : Nat := (Text.u64? w).getD 0
      some (String.ofList device, ⟨n a, n b, n c, n d, n e, n f, n g, n h, n i, n j, n k⟩)
  | _ => none

def parse (text : List Char) : Named DiskStats :=
  Named.ofList ((Text.lines text).filterMap ofLine)

end DiskStats
end HostVitals
