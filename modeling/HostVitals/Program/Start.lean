import HostVitals.Program.Collection
import HostVitals.Program.SettingsFile
import HostVitals.Settings.Resolution

/-! A start of the program, from its arguments to its end or to the address that it listens on. -/
namespace HostVitals.Program

open CommandLine

structure Exit where
  code : Nat
  out : String := ""
  err : String := ""
  files : FileTree

inductive Start where
  | ended (e : Exit)
  /-- It goes on to take samples and to listen. -/
  | listens (endpoint : Endpoint) (s : Settings)

def errorLine (text : String) : String := "Error: " ++ text ++ "\n"

def Failure.line : Failure → String
  | .io cause => errorLine cause.describe
  | .unknownMetric name => errorLine (Text.quoted (MetricKind.unknownMessage name))
  | .nothingCollected => errorLine (Text.quoted "All collectors failed")
  | .broken fault => fault.message ++ "\n"

def loadLine : LoadFault → String
  | .unreadable cause => errorLine cause.describe
  | .malformed format => "<" ++ format.name ++ " parse error>"

def stopExit (files : FileTree) (s : Stop) : Exit :=
  match s with
  | .help line | .version line => { code := 0, out := line, files }
  | _ => { code := 2, err := s.message, files }

def Failure.code : Failure → Nat
  | .broken _ => 101
  | _ => 1

def Effects.exit (r : Effects) : Exit :=
  match r.result with
  | .ok () => { code := 0, out := r.out, err := r.err, files := r.files }
  | .error f => { code := f.code, out := r.out, err := r.err ++ f.line, files := r.files }

def invalidExit (files : FileTree) (f : SettingsFault) : Exit :=
  { code := 1, err := "❌ Configuration invalid: " ++ f.message ++ "\n", files }

def runCommand (took : MetricKind → String) (probe : Probe) (s : Settings) : Command → Effects
  | .config output format commented => writeSettings probe.files output format commented
  | .collect key format => collect took probe s key format

def endpointText (s : Settings) : String :=
  s.bind.getD Settings.defaultBind ++ ":" ++ toString (s.port.getD Settings.defaultPort)

def listen (files : FileTree) (s : Settings) : Start :=
  match s.validate files with
  | .error f => .ended (invalidExit files f)
  | .ok () =>
    match Endpoint.read (endpointText s).toList with
    | none => .ended { code := 1, err := errorLine "AddrParseError(Socket)", files }
    | some e => .listens e s

def start (took : MetricKind → String) (probe : Probe) (args : List String) : Start :=
  match Arguments.read args with
  | .error s => .ended (stopExit probe.files s)
  | .ok a =>
    let (settings, files) := Settings.resolve probe.files a
    match settings with
    | .error f => .ended { code := 1, err := loadLine f, files }
    | .ok s =>
      if a.checkConfig then
        match s.validate files with
        | .error f => .ended (invalidExit files f)
        | .ok () => .ended { code := 0, out := "✅ Configuration is valid\n", files }
      else if a.showConfig then
        .ended { code := 0, out := a.configFormat.render s.document ++ "\n", files }
      else match a.command with
        | some c => .ended (runCommand took { probe with files } s c).exit
        | none => listen files s

end HostVitals.Program
