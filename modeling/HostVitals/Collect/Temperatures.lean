import HostVitals.Host.Probe

/-! Temperatures of thermal zones and of the sensors of monitoring chips. -/
namespace HostVitals.Collecting

def degrees (path : String) : Collecting (Option Binary64) := do
  return (← fileOrNone path).bind fun text =>
    (Text.i64? (Text.trim text)).map fun n => Binary64.div (.ofInt n) (.ofNat 1000)

def sensors (found : Named Binary64) : List (String × String) → Collecting (Named Binary64)
  | [] => return found
  | (name, path) :: rest => do
    match ← degrees path with
    | some t => sensors (found.insert name t) rest
    | none => sensors found rest

def namesFrom (what path start : String) : Collecting (List String) := do
  if !(← get).files.exists? path then return []
  match ← directory path with
  | .ok names => return names.filter fun n => Text.startsWith start.toList n.toList
  | .error e => throw (.unlistable what e)

def thermalZones (base : String) : Collecting (Named Binary64) := do
  let zones ← namesFrom "thermal" base "thermal_zone"
  sensors {} (zones.map fun z => (z, base ++ "/" ++ z ++ "/temp"))

def chipName (directory name : String) : Collecting String := do
  match ← file? (directory ++ "/name") with
  | .ok s => return String.ofList (Text.trim s.toList)
  | .error _ => return name

def isTemperature (file : String) : Bool :=
  Text.startsWith "temp".toList file.toList && Text.endsWith "_input".toList file.toList

def chipSensors (base : String) (found : Named Binary64) :
    List String → Collecting (Named Binary64)
  | [] => return found
  | chip :: rest => do
    let path := base ++ "/" ++ chip
    let name ← chipName path chip
    match ← directory path with
    | .error _ => chipSensors base found rest
    | .ok files =>
      let here := (files.filter isTemperature).map fun f => (name ++ "_" ++ f, path ++ "/" ++ f)
      chipSensors base (← sensors found here) rest

def chips (base : String) : Collecting (Named Binary64) := do
  chipSensors base {} (← namesFrom "hwmon" base "hwmon")

def thermalBase : String := "/sys/class/thermal"

def chipBase : String := "/sys/class/hwmon"

def temperatures : Collecting (Named Binary64) := do
  let zones ← thermalZones thermalBase
  return zones.union (← chips chipBase)

end HostVitals.Collecting
