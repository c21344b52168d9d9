import HostVitals.Text.Blank

/-! The table of mounted filesystems, `/proc/mounts`. -/
namespace HostVitals

structure Mount where
  device : String
  point : String
  fstype : String
deriving DecidableEq, Repr

namespace Mount

def pseudoTypes : List String :=
  ["proc", "sysfs", "devpts", "devtmpfs", "tmpfs", "cgroup", "cgroup2", "pstore", "bpf", "debugfs",
    "tracefs", "fusectl", "configfs", "securityfs", "hugetlbfs", "mqueue", "autofs", "binfmt_misc",
    "overlay", "squashfs"]

def systemPoints : List String := ["/proc", "/sys", "/dev", "/run"]

def isSkipped (fstype point : String) : Bool :=
  pseudoTypes.contains fstype ||
    systemPoints.any fun p => Text.startsWith p.toList point.toList

def ofLine (line : List Char) : Option Mount :=
  match Text.words line with
  | device :: point :: fstype :: _ =>
    let m : Mount := ⟨String.ofList device, String.ofList point, String.ofList fstype⟩
    if isSkipped m.fstype m.point then none else some m
  | _ => none

def parse (text : List Char) : List Mount := (Text.lines text).filterMap ofLine

end Mount
end HostVitals
