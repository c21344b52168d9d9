import HostVitals.Document
import HostVitals.MetricKind
import HostVitals.Registry

/-! The settings of the agent. Each may be left out; what is then in effect is told here. -/
namespace HostVitals

inductive LogLevel where
  | off | error | warn | info | debug | trace
deriving DecidableEq, Repr

namespace LogLevel

def all : List LogLevel := [off, error, warn, info, debug, trace]

def name : LogLevel → String
  | off => "off"
  | error => "error"
  | warn => "warn"
  | info => "info"
  | debug => "debug"
  | trace => "trace"

def ofName? (s : String) : Option LogLevel := all.find? fun l => l.name == s

end LogLevel

structure CollectorSettings where
  enabled : Option Bool := none
  /-- Seconds between samples. -/
  interval : Option Nat := none
deriving DecidableEq, Repr

structure Settings where
  port : Option Nat := none
  bind : Option String := none
  health : Option Bool := none
  telemetry : Option Bool := none
  logLevel : Option String := none
  /-- Seconds to wait for the collectors at the end. -/
  shutdownTimeout : Option Nat := none
  tls : Option Bool := none
  certificate : Option String := none
  key : Option String := none
  collectors : MetricKind → CollectorSettings := fun _ => {}

namespace Settings

def defaultPort : Nat := 9216
def defaultBind : String := "0.0.0.0"
def defaultShutdown : Nat := 10

def standard : Settings where
  port := some defaultPort
  bind := some defaultBind
  health := some true
  telemetry := some true
  logLevel := some "info"
  shutdownTimeout := some defaultShutdown
  tls := some false
  collectors k := { enabled := some true, interval := some k.defaultInterval }

def isEnabled (s : Settings) (k : MetricKind) : Bool := (s.collectors k).enabled.getD true

def interval (s : Settings) (k : MetricKind) : Nat :=
  (s.collectors k).interval.getD k.defaultInterval

def shutdownSeconds (s : Settings) : Nat := s.shutdownTimeout.getD defaultShutdown

def enabled (s : Settings) : List MetricKind := MetricKind.all.filter s.isEnabled

def registry {π : Type} (s : Settings) (producer : MetricKind → π) :
    Except RegistryError (Registry π) :=
  s.enabled.foldlM (fun r k => r.register k.name (Span.ofSeconds (s.interval k)) (producer k)) {}

def collectorDocument (c : CollectorSettings) : Document :=
  .table [("enabled", Document.opt .bool c.enabled),
    ("interval_seconds", Document.opt .nat c.interval)]

def document (s : Settings) : Document :=
  .table [("port", Document.opt .nat s.port), ("bind", Document.opt .text s.bind),
    ("enable_health", Document.opt .bool s.health),
    ("enable_telemetry", Document.opt .bool s.telemetry),
    ("log_level", Document.opt .text s.logLevel),
    ("shutdown_timeout_seconds", Document.opt .nat s.shutdownTimeout),
    ("enable_tls", Document.opt .bool s.tls),
    ("tls_cert_path", Document.opt .text s.certificate),
    ("tls_key_path", Document.opt .text s.key),
    ("collectors",
      .table (MetricKind.all.map fun k => (k.name, collectorDocument (s.collectors k))))]

end Settings
end HostVitals
