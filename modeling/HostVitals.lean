import HostVitals.Agent
import HostVitals.Cell
import HostVitals.Main
import HostVitals.Proofs.Address
import HostVitals.Proofs.Agent.OneShot
import HostVitals.Proofs.Collect.Baseline
import HostVitals.Proofs.Collect.Overflow
import HostVitals.Proofs.Collect.Recovery
import HostVitals.Proofs.Collect.Sensors
import HostVitals.Proofs.Collect.Volumes
import HostVitals.Proofs.Document.Shown
import HostVitals.Proofs.Host.Openings
import HostVitals.Proofs.Host.Writing
import HostVitals.Proofs.Json.RoundTrip
import HostVitals.Proofs.LastWrite
import HostVitals.Proofs.Measurements
import HostVitals.Proofs.Ownership
import HostVitals.Proofs.Proc.CpuParts
import HostVitals.Proofs.Proc.LineTables
import HostVitals.Proofs.Proc.MemoryLines
import HostVitals.Proofs.Proc.MountPoints
import HostVitals.Proofs.Proc.MountTable
import HostVitals.Proofs.Program.Listening
import HostVitals.Proofs.Program.SettingsFile
import HostVitals.Proofs.Report.Scraping
import HostVitals.Proofs.Report.Status
import HostVitals.Proofs.Schedule.Answering
import HostVitals.Proofs.Schedule.Cadence
import HostVitals.Proofs.Schedule.Freshness
import HostVitals.Proofs.Schedule.Punctuality
import HostVitals.Proofs.Schedule.Registration
import HostVitals.Proofs.Schedule.Separation
import HostVitals.Proofs.Schedule.Shutdown
import HostVitals.Proofs.Schedule.Survival
import HostVitals.Proofs.Settings.Effective
import HostVitals.Proofs.Settings.Formats
import HostVitals.Proofs.Settings.Registration
import HostVitals.Proofs.Settings.RoundTrip
import HostVitals.Proofs.Settings.Shown
import HostVitals.Proofs.Toml.Lines
import HostVitals.Proofs.Toml.RoundTrip
import HostVitals.Proofs.Yaml.Blocks
import HostVitals.Proofs.Yaml.Characters
import HostVitals.Proofs.Yaml.PlainTexts
import HostVitals.Proofs.Yaml.Prose
import HostVitals.Proofs.Yaml.QuotedTexts
import HostVitals.Proofs.Yaml.Remarks
import HostVitals.Proofs.Yaml.RoundTrip
import HostVitals.Proofs.Yaml.Scalars
import HostVitals.Proofs.Yaml.Scanning
import HostVitals.Report.JobTable
import HostVitals.Store
