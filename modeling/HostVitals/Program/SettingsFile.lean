import HostVitals.Format
import HostVitals.Program.Basic
import HostVitals.Settings.Basic

/-! The command that writes a file with the standard settings. -/
namespace HostVitals.Program

def explanation : String :=
  "# Herakles Telemetry Agent Configuration
# ======================================
#
# Server Configuration
# --------------------
# bind: \"0.0.0.0\"              # Bind IP (0.0.0.0 = all interfaces)
# port: 9216                   # HTTP port
#
# Feature Flags
# -------------
# enable_health: true          # Enable /health endpoint
# enable_telemetry: true       # Enable /telemetry endpoint
#
# Logging
# -------
# log_level: \"info\"            # off, error, warn, info, debug, trace
#
# Shutdown
# --------
# shutdown_timeout_seconds: 10 # Wait at most N seconds for collectors to stop
#
# Collectors
# ----------
# Every collector accepts `enabled` and `interval_seconds`.
# Keys: cpu, memory, load, network, disk, filesystem, thermal, system, pressure
#
# collectors:
#   cpu:
#     enabled: true
#     interval_seconds: 5
#   filesystem:
#     interval_seconds: 60
#
# TLS/SSL Configuration
# ---------------------
# enable_tls: false            # Enable HTTPS (default: false)
# tls_cert_path: null          # Path to TLS certificate (PEM format)
# tls_key_path: null           # Path to TLS private key (PEM format)
"

def standardOutput : String := "herakles-telemetry-agent.yaml"

def settingsText (format : Format) (commented : Bool) : String :=
  let text := format.render Settings.standard.document
  if commented && format = .yaml then explanation ++ "\n" ++ text else text

def writeSettings (files : FileTree) (output : Option String) (format : Format)
    (commented : Bool) : Effects :=
  let path := output.getD standardOutput
  let text := settingsText format commented
  if path = "-" then { out := text, files }
  else match files.write path text with
    | .ok files => { out := "✅ Configuration written to: " ++ path ++ "\n", files }
    | .error e => { files, result := .error (.io e) }

end HostVitals.Program
