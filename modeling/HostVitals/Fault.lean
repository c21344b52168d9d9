import HostVitals.Binary64.Decimal
import HostVitals.Schedule.Freshness

/-! Why a sample could not be taken. -/
namespace HostVitals

inductive IoError where
  | notFound
  | notDirectory
  | isDirectory
  | nameTooLong
  | nulInName
  | notUtf8
deriving DecidableEq, Repr

def IoError.message : IoError → String
  | .notFound => "No such file or directory (os error 2)"
  | .notDirectory => "Not a directory (os error 20)"
  | .isDirectory => "Is a directory (os error 21)"
  | .nameTooLong => "File name too long (os error 36)"
  | .nulInName => "file name contained an unexpected NUL byte"
  | .notUtf8 => "stream did not contain valid UTF-8"

inductive Fault where
  | unreadable (path : String) (cause : IoError)
  | unlistable (what : String) (cause : IoError)
  | loadFields (found : Nat)
  | loadAverage (window : String) (cause : Binary64.ReadError)
  | memoryField (name : String)
  | noCpu
  | noElapsed
  | lockPoisoned
  | noUptime
  | uptime (cause : Binary64.ReadError)
  | counters
  | noPressure
  | overflow (what : Overflow)
deriving DecidableEq, Repr

namespace Fault

def message : Fault → String
  | unreadable path cause => "Failed to read " ++ path ++ ": " ++ cause.message
  | unlistable what cause => "Failed to read " ++ what ++ " directory: " ++ cause.message
  | loadFields found =>
    "Invalid /proc/loadavg format: expected at least 3 fields, got " ++ toString found
  | loadAverage window cause => "Failed to parse " ++ window ++ " load average: " ++ cause.message
  | memoryField name => "Missing " ++ name ++ " in /proc/meminfo"
  | noCpu => "No CPU statistics found in /proc/stat"
  | noElapsed => "No CPU time elapsed since previous sample"
  | lockPoisoned => "Failed to acquire lock: poisoned lock: another task failed inside"
  | noUptime => "Invalid /proc/uptime format: no fields found"
  | uptime cause => "Failed to parse uptime: " ++ cause.message
  | counters => "Failed to parse all stat counters from /proc/stat"
  | noPressure => "Pressure stall information not available"
  | overflow what => what.message

def breaksOff : Fault → Bool
  | overflow _ => true
  | _ => false

end Fault
end HostVitals
