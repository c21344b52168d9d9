import HostVitals.Fault
import HostVitals.Named
import HostVitals.Text.Blank

/-! Memory sizes, from `/proc/meminfo`. -/
namespace HostVitals

structure MemoryInfo where
  total : Nat
  available : Nat
  cached : Nat
  buffers : Nat
  swapTotal : Nat
  swapFree : Nat
deriving DecidableEq, Repr

namespace MemoryInfo

def fieldNames : List String :=
  ["MemTotal", "MemAvailable", "Cached", "Buffers", "SwapTotal", "SwapFree"]

def bytesOfKilobytes (kb : Nat) : Except Fault Nat :=
  if kb * 1024 ≤ Text.maxU64 then .ok (kb * 1024) else .error (.overflow .multiply)

def fieldOf (line : List Char) : Option (String × Nat) :=
  match Text.words line with
  | name :: value :: _ =>
    let name := String.ofList (Text.dropEndWhile (· == ':') name)
    if fieldNames.contains name then (Text.u64? value).map (name, ·) else none
  | _ => none

def collect : List (List Char) → Named Nat → Except Fault (Named Nat)
  | [], t => .ok t
  | line :: rest, t =>
    match fieldOf line with
    | none => collect rest t
    | some (name, kb) => do
      let t := t.insert name (← bytesOfKilobytes kb)
      if t.size = fieldNames.length then return t else collect rest t

def field (t : Named Nat) (name : String) : Except Fault Nat :=
  match t.find? name with
  | some n => .ok n
  | none => .error (.memoryField name)

def parse (text : List Char) : Except Fault MemoryInfo := do
  let t ← collect (Text.lines text) {}
  let total ← field t "MemTotal"
  let available ← field t "MemAvailable"
  let cached ← field t "Cached"
  let buffers ← field t "Buffers"
  let swapTotal ← field t "SwapTotal"
  let swapFree ← field t "SwapFree"
  return { total, available, cached, buffers, swapTotal, swapFree }

def usedRatio (m : MemoryInfo) : Binary64 :=
  if m.total = 0 then .zero
  else .sub (.ofNat 1) (.div (.ofNat m.available) (.ofNat m.total))

end MemoryInfo
end HostVitals
