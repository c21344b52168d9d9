import HostVitals.Address
import HostVitals.CommandLine.Grammar
import HostVitals.Format
import HostVitals.Settings.Basic

/-! The arguments of the program and of its commands. -/
namespace HostVitals.CommandLine

inductive Command where
  | config (output : Option String) (format : Format) (commented : Bool)
  | collect (key : Option String) (format : Format)
deriving DecidableEq, Repr

structure Arguments where
  command : Option Command := none
  port : Option Nat := none
  bind : Option Address := none
  logLevel : Option LogLevel := none
  config : Option String := none
  noConfig : Bool := false
  showConfig : Bool := false
  configFormat : Format := .yaml
  checkConfig : Bool := false
  shutdownTimeout : Option Nat := none
  disableHealth : Bool := false
  disableTelemetry : Bool := false
  enableTls : Bool := false
  tlsCert : Option String := none
  tlsKey : Option String := none

namespace Value

def port (s : String) : Except ValueFault Nat :=
  match Text.readI64 s.toList with
  | .error e => .error (.rejected e.message)
  | .ok i =>
    if 0 ≤ i ∧ i ≤ 65535 then .ok i.toNat
    else .error (.rejected (toString i ++ " is not in 0..=65535"))

def u64 (s : String) : Except ValueFault Nat :=
  (Text.readU64 s.toList).mapError fun e => .rejected e.message

def address (s : String) : Except ValueFault Address :=
  match Address.read s.toList with
  | some a => .ok a
  | none => .error (.rejected "invalid IP address syntax")

def path (s : String) : Except ValueFault String :=
  if s = "" then .error .missing else .ok s

def choice {β : Type} (all : List β) (name : β → String) (s : String) : Except ValueFault β :=
  match all.find? fun b => name b == s with
  | some b => .ok b
  | none => .error (if s = "" then .missing else .notAChoice)

def logLevel : String → Except ValueFault LogLevel := choice LogLevel.all LogLevel.name

def format : String → Except ValueFault Format := choice Format.all Format.name

end Value

def option {α β : Type} (long valueName : String) (value : String → Except ValueFault β)
    (put : β → α → α) (short : Option Char := none) : Choice α :=
  { long, short, valueName := some valueName, store := fun s a => (value s).map (put · a) }

def flag {α : Type} (long : String) (put : α → α) : Choice α :=
  { long, store := fun _ a => .ok (put a) }

def programName : String := "herakles-telemetry-agent"

def programVersion : String := "0.1.0"

def summaryLine : String :=
  "Host telemetry agent serving the latest CPU, memory, network, disk and thermal samples"

def mainGrammar : Grammar Arguments where
  options := [
    option "port" "PORT" Value.port (fun v a => { a with port := some v }) (some 'p'),
    option "bind" "BIND" Value.address fun v a => { a with bind := some v },
    option "log-level" "LOG_LEVEL" Value.logLevel fun v a => { a with logLevel := some v },
    option "config" "CONFIG" Value.path (fun v a => { a with config := some v }) (some 'c'),
    flag "no-config" fun a => { a with noConfig := true },
    flag "show-config" fun a => { a with showConfig := true },
    option "config-format" "CONFIG_FORMAT" Value.format fun v a => { a with configFormat := v },
    flag "check-config" fun a => { a with checkConfig := true },
    option "shutdown-timeout" "SHUTDOWN_TIMEOUT" Value.u64 fun v a =>
      { a with shutdownTimeout := some v },
    flag "disable-health" fun a => { a with disableHealth := true },
    flag "disable-telemetry" fun a => { a with disableTelemetry := true },
    flag "enable-tls" fun a => { a with enableTls := true },
    option "tls-cert" "TLS_CERT" Value.path fun v a => { a with tlsCert := some v },
    option "tls-key" "TLS_KEY" Value.path fun v a => { a with tlsKey := some v }]
  words := ["config", "collect", "help"]
  help := summaryLine
  longHelp := summaryLine ++ "."
  version := programName ++ " " ++ programVersion

structure ConfigArguments where
  output : Option String := none
  format : Format := .yaml
  commented : Bool := false

def configGrammar : Grammar ConfigArguments where
  options := [
    option "output" "OUTPUT" Value.path (fun v a => { a with output := some v }) (some 'o'),
    option "format" "FORMAT" Value.format fun v a => { a with format := v },
    flag "commented" fun a => { a with commented := true }]
  words := []
  help := "Generate configuration files"
  longHelp := "Generate configuration files"
  version := programName ++ "-config " ++ programVersion

structure CollectArguments where
  key : Option String := none
  format : Format := .yaml

def collectGrammar : Grammar CollectArguments where
  options := [
    option "key" "KEY" Except.ok (fun v a => { a with key := some v }) (some 'k'),
    option "format" "FORMAT" Value.format fun v a => { a with format := v }]
  words := []
  help := "Run every enabled collector once and print the results"
  longHelp := "Run every enabled collector once and print the results"
  version := programName ++ "-collect " ++ programVersion

def readAll {α : Type} (g : Grammar α) (start : α) (args : List String) : Except Stop α := do
  let (r, _) ← g.read args { gathered := start }
  return (← r.settle).gathered

def helpOn : List String → Stop
  | [] => .help mainGrammar.longHelp
  | w :: rest =>
    let line? := match w with
      | "config" => some configGrammar.longHelp
      | "collect" => some collectGrammar.longHelp
      | "help" => some "Print this message or the help of the given subcommand(s)"
      | _ => none
    match line?, rest with
    | none, _ => .noSuchCommand w
    | some line, [] => .help line
    | some _, w :: _ => .noSuchCommand w

def readCommand (word : String) (args : List String) : Except Stop Command :=
  if word = "config" then do
    let a ← readAll configGrammar {} args
    return .config a.output a.format a.commented
  else if word = "collect" then do
    let a ← readAll collectGrammar {} args
    return .collect a.key a.format
  else .error (helpOn args)

/-- Reads a whole command line. A command's own arguments are looked at before a value that the
program's last option has left open. -/
def Arguments.read (args : List String) : Except Stop Arguments := do
  match ← mainGrammar.read args { gathered := {} } with
  | (r, none) => return (← r.settle).gathered
  | (r, some (word, rest)) =>
    let command ← readCommand word rest
    return { (← r.settle).gathered with command := some command }

end HostVitals.CommandLine
