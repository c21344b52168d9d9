import HostVitals.CommandLine.Arguments
import HostVitals.Settings.Reader
import HostVitals.Settings.Validation

/-! Which settings a start of the program uses: those of the command line, then those of a file,
then the standard ones. -/
namespace HostVitals

inductive LoadFault where
  | unreadable (cause : IoError)
  | malformed (format : Format)
deriving DecidableEq, Repr

namespace Settings

def standardPaths : List String :=
  ["/etc/herakles/telemetry-agent.yaml", "/etc/herakles/telemetry-agent.yml",
    "/etc/herakles/telemetry-agent.json", "./herakles-telemetry-agent.yaml",
    "./herakles-telemetry-agent.yml", "./herakles-telemetry-agent.json"]

def fileExtension (path : String) : String :=
  match ((FileTree.parts path).filter fun p => p ≠ "" ∧ p ≠ ".").getLast? with
  | none => ""
  | some name =>
    let fromEnd := name.toList.reverse
    let ending := fromEnd.takeWhile (· != '.')
    if fromEnd.length ≤ ending.length + 1 then "" else String.ofList ending.reverse

def formatOfPath (path : String) : Format :=
  match fileExtension path with
  | "json" => .json
  | "toml" => .toml
  | _ => .yaml

def file? (files : FileTree) (given : Option String) : Option String :=
  match given with
  | some path => if files.exists? path then some path else none
  | none => standardPaths.find? files.exists?

def load (files : FileTree) (given : Option String) : Except LoadFault Settings × FileTree :=
  match file? files given with
  | none => (.ok standard, files)
  | some path =>
    let (content, files) := files.read path
    let settings := match content with
      | .error e => .error (.unreadable e)
      | .ok text =>
        let format := formatOfPath path
        match parse format text with
        | some s => .ok s
        | none => .error (.malformed format)
    (settings, files)

def override (s : Settings) (a : CommandLine.Arguments) : Settings :=
  { s with
    bind := (a.bind.map Address.text).or s.bind
    port := a.port.or s.port
    logLevel := (a.logLevel.map LogLevel.name).or s.logLevel
    shutdownTimeout := a.shutdownTimeout.or s.shutdownTimeout
    health := if a.disableHealth then some false else s.health
    telemetry := if a.disableTelemetry then some false else s.telemetry
    tls := if a.enableTls then some true else s.tls
    certificate := a.tlsCert.or s.certificate
    key := a.tlsKey.or s.key }

def resolve (files : FileTree) (a : CommandLine.Arguments) :
    Except LoadFault Settings × FileTree :=
  let (s, files) := if a.noConfig then (.ok standard, files) else load files a.config
  (s.map (·.override a), files)

end Settings
end HostVitals
