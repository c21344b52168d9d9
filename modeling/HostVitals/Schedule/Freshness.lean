import HostVitals.Store
import HostVitals.Span

/-! How fresh the latest state of a metric is. -/
namespace HostVitals

structure Current (α : Type) where
  state : Option (State α) := none
  scheduleExists : Bool := false
  stateExists : Bool := false
  retryAfter : Nat := 0

def Current.isStale {α : Type} (c : Current α) : Bool := c.stateExists && c.retryAfter == 0

inductive Overflow where
  | add
  | multiply
  | instant
deriving DecidableEq, Repr

def Overflow.message : Overflow → String
  | .add => "attempt to add with overflow"
  | .multiply => "attempt to multiply with overflow"
  | .instant => "overflow when adding duration to instant"

def Current.ofState {α : Type} (interval now : Nat) : Option (State α) →
    Except Overflow (Current α)
  | none => .ok { scheduleExists := true, retryAfter := interval }
  | some s =>
    if s.taken + interval < instantLimit then
      .ok {
        state := some s
        scheduleExists := true
        stateExists := true
        retryAfter := s.taken + interval - now }
    else .error .instant

end HostVitals
