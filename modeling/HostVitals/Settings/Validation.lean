import HostVitals.Host.FileTree
import HostVitals.Settings.Basic

/-! Whether settings can be used. -/
namespace HostVitals

inductive SettingsFault where
  | noCollector
  | zeroInterval (k : MetricKind)
  | zeroShutdown
  | unknownLogLevel (level : String)
  | noTlsFiles
  | noKey
  | noCertificate
  | emptyFile (what path : String)
  | missingFile (what path : String)
  | unreadableFile (what path : String) (cause : IoError)
deriving DecidableEq, Repr

def SettingsFault.message : SettingsFault → String
  | noCollector => "At least one collector must be enabled"
  | zeroInterval k => "collectors." ++ k.name ++ ".interval_seconds must be greater than 0"
  | zeroShutdown => "shutdown_timeout_seconds must be greater than 0"
  | unknownLogLevel level => "Invalid log_level '" ++ level ++
    "', expected off, error, warn, info, debug or trace"
  | noTlsFiles => "TLS is enabled but neither tls_cert_path nor tls_key_path are set"
  | noKey => "TLS is enabled but tls_key_path is not set"
  | noCertificate => "TLS is enabled but tls_cert_path is not set"
  | emptyFile what path => "TLS " ++ what ++ " file is empty: " ++ path
  | missingFile what path => "TLS " ++ what ++ " file not found: " ++ path
  | unreadableFile what path cause =>
    "TLS " ++ what ++ " file is not readable: " ++ path ++ " (" ++ cause.message ++ ")"

def FileEntry.isEmpty : FileEntry → Bool
  | .text s => s.isEmpty
  | .binary n => n = 0
  | .directory => false

namespace Settings

def checkFile (files : FileTree) (what path : String) : Except SettingsFault Unit :=
  match files.find path with
  | .ok e => if e.isEmpty then .error (.emptyFile what path) else .ok ()
  | .error .notFound => .error (.missingFile what path)
  | .error e => .error (.unreadableFile what path e)

def checkTls (files : FileTree) (s : Settings) : Except SettingsFault Unit :=
  if s.tls.getD false then
    match s.certificate, s.key with
    | none, none => .error .noTlsFiles
    | some _, none => .error .noKey
    | none, some _ => .error .noCertificate
    | some c, some k => do
      checkFile files "certificate" c
      checkFile files "private key" k
  else .ok ()

def validate (files : FileTree) (s : Settings) : Except SettingsFault Unit :=
  if s.enabled.isEmpty then .error .noCollector
  else match s.enabled.find? fun k => s.interval k == 0 with
    | some k => .error (.zeroInterval k)
    | none =>
      if s.shutdownTimeout = some 0 then .error .zeroShutdown
      else match s.logLevel with
        | some l => if (LogLevel.ofName? l).isSome then checkTls files s
          else .error (.unknownLogLevel l)
        | none => checkTls files s

end Settings
end HostVitals
