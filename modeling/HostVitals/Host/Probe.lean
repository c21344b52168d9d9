import HostVitals.Host.FileTree
import HostVitals.Proc.Cpu
import HostVitals.Span

/-! The host as collectors see it: its files, the usage of its filesystems, its identification, and
the processor snapshot that is kept from one call to the next. -/
namespace HostVitals

structure VolumeCounts where
  fragmentSize : Nat
  blocks : Nat
  blocksFree : Nat
  blocksAvailable : Nat
  files : Nat
  filesFree : Nat
deriving DecidableEq, Repr

structure Uname where
  sysname : String
  release : String
  version : String
  machine : String
deriving DecidableEq, Repr

/-- The snapshot that the next one is compared with. Work that breaks off while it holds the lock
leaves the lock poisoned for good. -/
structure CpuBaseline where
  previous : Option CpuSnapshot := none
  poisoned : Bool := false

structure Probe where
  files : FileTree := {}
  volumes : List (String × VolumeCounts) := []
  uname : Option Uname := none
  baseline : CpuBaseline := {}
  /-- How far the clock moves on between two looks at the processors in one call. -/
  window : Nat := 0

def Probe.baselineWindow : Nat := Span.ofMillis 250

instance : Inhabited Probe := ⟨{}⟩

abbrev Collecting (α : Type) := ExceptT Fault (StateM Probe) α

namespace Collecting

def run {α : Type} (c : Collecting α) (p : Probe) : Except Fault α × Probe := StateT.run c p

def file? (path : String) : Collecting (Except IoError String) := do
  let p ← get
  let (r, files) := p.files.read path
  set { p with files }
  return r

def file (path : String) : Collecting (List Char) := do
  match ← file? path with
  | .ok s => return s.toList
  | .error e => throw (.unreadable path e)

def fileOrNone (path : String) : Collecting (Option (List Char)) := do
  return ((← file? path).toOption).map String.toList

def directory (path : String) : Collecting (Except IoError (List String)) := do
  return (← get).files.list path

end Collecting
end HostVitals
