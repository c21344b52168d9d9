import HostVitals.Binary64.Layout

/-! Lengths of time in whole nanoseconds. Instants are counted from the start of the clock. -/
namespace HostVitals

namespace Span

def perSecond : Nat := 1000000000

def perMilli : Nat := 1000000

def ofSeconds (n : Nat) : Nat := n * perSecond

def ofMillis (n : Nat) : Nat := n * perMilli

def wholeSeconds (d : Nat) : Nat := d / perSecond

def subNanos (d : Nat) : Nat := d % perSecond

def wholeMillis (d : Nat) : Nat := d / perMilli

def toSeconds (d : Nat) : Binary64 :=
  .add (.ofNat (wholeSeconds d)) (.div (.ofNat (subNanos d)) (.ofNat perSecond))

def toMillis (d : Nat) : Binary64 := .mul (toSeconds d) (.ofNat 1000)

def decimals (places part : Nat) : String :=
  let digits := toString part
  let all := List.replicate (places - digits.length) '0' ++ digits.toList
  let kept := (all.reverse.dropWhile (· == '0')).reverse
  if kept.isEmpty then "" else "." ++ String.ofList kept

def describe (d : Nat) : String :=
  if perSecond ≤ d then toString (d / perSecond) ++ decimals 9 (d % perSecond) ++ "s"
  else if perMilli ≤ d then toString (d / perMilli) ++ decimals 6 (d % perMilli) ++ "ms"
  else if 1000 ≤ d then toString (d / 1000) ++ decimals 3 (d % 1000) ++ "µs"
  else toString d ++ "ns"

end Span

/-- Instants at or beyond this one cannot be told. -/
def instantLimit : Nat := Span.ofSeconds (UInt64.size / 2)

end HostVitals
