import HostVitals.Collect.CpuUsage
import HostVitals.Collect.Facts
import HostVitals.Collect.Temperatures
import HostVitals.Collect.Volumes
import HostVitals.Document
import HostVitals.MetricKind
import HostVitals.Proc.Counters
import HostVitals.Proc.Disk
import HostVitals.Proc.Memory
import HostVitals.Proc.Network

/-! What a sample of each metric holds, and how it is taken. -/
namespace HostVitals

inductive Sample where
  | cpu (cores : Named CoreShares)
  | memory (info : MemoryInfo)
  | load (averages : LoadAverage)
  | network (interfaces : Named InterfaceStats)
  | disk (devices : Named DiskStats)
  | filesystem (volumes : List VolumeUsage)
  | thermal (sensors : Named Binary64)
  | system (facts : HostFacts)
  | pressure (totals : Pressure)

namespace Sample
open Document

def kind : Sample → MetricKind
  | cpu _ => .cpu
  | memory _ => .memory
  | load _ => .load
  | network _ => .network
  | disk _ => .disk
  | filesystem _ => .filesystem
  | thermal _ => .thermal
  | system _ => .system
  | pressure _ => .pressure

def byName {α : Type} (f : α → Document) (t : Named α) : Document :=
  .table (t.entries.map fun e => (e.1, f e.2))

def coreDocument (s : CoreShares) : Document :=
  .table [("usage", .number (s.ratio s.usage)), ("idle", .number (s.ratio s.idle)),
    ("iowait", .number (s.ratio s.iowait)), ("steal", .number (s.ratio s.steal))]

def memoryDocument (m : MemoryInfo) : Document :=
  .table [("total_bytes", nat m.total), ("available_bytes", nat m.available),
    ("cached_bytes", nat m.cached), ("buffers_bytes", nat m.buffers),
    ("swap_total_bytes", nat m.swapTotal), ("swap_free_bytes", nat m.swapFree)]

def loadDocument (l : LoadAverage) : Document :=
  .table [("one_min", .number l.one), ("five_min", .number l.five),
    ("fifteen_min", .number l.fifteen)]

def interfaceDocument (i : InterfaceStats) : Document :=
  .table [("receive_bytes", nat i.receiveBytes), ("receive_packets", nat i.receivePackets),
    ("receive_errs", nat i.receiveErrors), ("receive_drop", nat i.receiveDropped),
    ("transmit_bytes", nat i.transmitBytes), ("transmit_packets", nat i.transmitPackets),
    ("transmit_errs", nat i.transmitErrors), ("transmit_drop", nat i.transmitDropped)]

def diskDocument (d : DiskStats) : Document :=
  .table [("reads_completed", nat d.readsCompleted), ("reads_merged", nat d.readsMerged),
    ("sectors_read", nat d.sectorsRead), ("time_reading_ms", nat d.timeReadingMs),
    ("writes_completed", nat d.writesCompleted), ("writes_merged", nat d.writesMerged),
    ("sectors_written", nat d.sectorsWritten), ("time_writing_ms", nat d.timeWritingMs),
    ("ios_in_progress", nat d.iosInProgress), ("time_io_ms", nat d.timeIoMs),
    ("weighted_time_io_ms", nat d.weightedTimeIoMs)]

def volumeDocument (v : VolumeUsage) : Document :=
  .table [("device", .text v.mount.device), ("mount_point", .text v.mount.point),
    ("fstype", .text v.mount.fstype), ("size_bytes", nat v.size),
    ("available_bytes", nat v.available), ("used_bytes", nat v.used),
    ("files_total", nat v.filesTotal), ("files_free", nat v.filesFree)]

def unameDocument (u : Uname) : Document :=
  .table [("sysname", .text u.sysname), ("release", .text u.release), ("version", .text u.version),
    ("machine", .text u.machine)]

def factsDocument (f : HostFacts) : Document :=
  .table [("uptime_seconds", .number f.uptime), ("boot_time_seconds", nat f.counters.bootTime),
    ("context_switches_total", nat f.counters.contextSwitches),
    ("forks_total", nat f.counters.forks), ("entropy_available_bits", opt nat f.entropy),
    ("open_fds", opt nat f.openFiles), ("max_fds", opt nat f.maxFiles),
    ("uname", opt unameDocument f.uname)]

def pressureDocument (p : Pressure) : Document :=
  let seconds := opt fun n => .number (Pressure.seconds n)
  .table [("cpu_some_seconds", seconds p.cpu), ("memory_some_seconds", seconds p.memory),
    ("io_some_seconds", seconds p.io)]

def data : Sample → Document
  | cpu cores => byName coreDocument cores
  | memory info => memoryDocument info
  | load averages => loadDocument averages
  | network interfaces => byName interfaceDocument interfaces
  | disk devices => byName diskDocument devices
  | filesystem volumes => .list (volumes.map volumeDocument)
  | thermal sensors => byName .number sensors
  | system facts => factsDocument facts
  | pressure totals => pressureDocument totals

def document (s : Sample) : Document :=
  .table [("kind", .text s.kind.name), ("data", s.data)]

end Sample

namespace MetricKind
open Collecting

def collect : MetricKind → Collecting Sample
  | cpu => .cpu <$> cpuShares
  | memory => do return .memory (← ofExcept (MemoryInfo.parse (← file "/proc/meminfo")))
  | load => do return .load (← ofExcept (LoadAverage.parse (← file "/proc/loadavg")))
  | network => do return .network (InterfaceStats.parse (← file "/proc/net/dev"))
  | disk => do return .disk (DiskStats.parse (← file "/proc/diskstats"))
  | filesystem => .filesystem <$> volumes
  | thermal => .thermal <$> temperatures
  | system => .system <$> facts
  | pressure => .pressure <$> Collecting.pressure

end MetricKind
end HostVitals
