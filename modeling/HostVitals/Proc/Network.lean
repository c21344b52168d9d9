import HostVitals.Named
import HostVitals.Text.Blank
import HostVitals.Text.Numeral

/-! Counters of network interfaces, from `/proc/net/dev`. -/
namespace HostVitals

structure InterfaceStats where
  receiveBytes : Nat
  receivePackets : Nat
  receiveErrors : Nat
  receiveDropped : Nat
  transmitBytes : Nat
  transmitPackets : Nat
  transmitErrors : Nat
  transmitDropped : Nat
deriving DecidableEq, Repr

namespace InterfaceStats

def ofLine (line : List Char) : Option (String × InterfaceStats) := do
  let (name, rest) ← Text.cutAt ':' line
  let values := (Text.words rest).map fun w => (Text.u64? w).getD 0
  match values with
  | r0 :: r1 :: r2 :: r3 :: _ :: _ :: _ :: _ :: t0 :: t1 :: t2 :: t3 :: _ :: _ :: _ :: _ :: _ =>
    some (String.ofList (Text.trim name), ⟨r0, r1, r2, r3, t0, t1, t2, t3⟩)
  | _ => none

def parse (text : List Char) : Named InterfaceStats :=
  Named.ofList (((Text.lines text).drop 2).filterMap ofLine)

end InterfaceStats
end HostVitals
