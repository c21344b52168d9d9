/-! The metrics that can be sampled. -/
namespace HostVitals

inductive MetricKind where
  | cpu | memory | load | network | disk | filesystem | thermal | system | pressure
deriving DecidableEq, Repr

namespace MetricKind

def all : List MetricKind :=
  [cpu, memory, load, network, disk, filesystem, thermal, system, pressure]

def name : MetricKind → String
  | cpu => "cpu"
  | memory => "memory"
  | load => "load"
  | network => "network"
  | disk => "disk"
  | filesystem => "filesystem"
  | thermal => "thermal"
  | system => "system"
  | pressure => "pressure"

def defaultInterval : MetricKind → Nat
  | cpu | load => 5
  | memory | network | disk | pressure => 10
  | thermal | system => 30
  | filesystem => 60

def ofName? (s : String) : Option MetricKind := all.find? fun k => k.name == s

def unknownMessage (s : String) : String := "Unknown metric '" ++ s ++ "'"

end MetricKind

end HostVitals
