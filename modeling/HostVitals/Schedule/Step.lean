import HostVitals.Schedule.Scheduler

/-! What is done with a schedule from outside, one thing after the other. -/
namespace HostVitals

inductive Step (α : Type) where
  | run
  | advance (span : Nat)
  | cancel
  | wait (span : Nat)
  | query (key : String)
  | save (key : String) (value : α)
  | clear (key : String)

namespace Step
variable {α : Type}

def isRun : Step α → Bool
  | .run => true
  | _ => false

def isCancel : Step α → Bool
  | .cancel => true
  | _ => false

def isWait : Step α → Bool
  | .wait _ => true
  | _ => false

def isOutside : Step α → Bool
  | .save _ _ | .clear _ => true
  | _ => false

def writes (key : String) : Step α → Bool
  | .save k _ | .clear k => k == key
  | _ => false

def concerns (key : String) : Step α → Bool
  | .query k | .save k _ | .clear k => k == key
  | _ => true

theorem writes_of_inside {x : Step α} (h : x.isOutside = false) (key : String) :
    x.writes key = false := by
  cases x <;> first | rfl | cases h

theorem writes_eq_false {x : Step α} {key : String} (hsave : ∀ v, x ≠ .save key v)
    (hclear : x ≠ .clear key) : x.writes key = false := by
  cases x with
  | save k v => exact beq_eq_false_iff_ne.mpr fun hk => hsave v (hk ▸ rfl)
  | clear k => exact beq_eq_false_iff_ne.mpr fun hk => hclear (hk ▸ rfl)
  | _ => rfl

theorem isRun_eq_false {x : Step α} (h : x ≠ .run) : x.isRun = false := by
  cases x <;> first | rfl | exact absurd rfl h

theorem isCancel_eq_false {x : Step α} (h : x ≠ .cancel) : x.isCancel = false := by
  cases x <;> first | rfl | exact absurd rfl h

end Step

namespace Scheduler
variable {σ α : Type}

def step (s : Scheduler σ α) : Step α → Scheduler σ α
  | .run => s.run
  | .advance span => s.advance span
  | .cancel => s.cancel
  | .wait span => (s.wait span).1
  | .query _ => s
  | .save key value => s.save key value
  | .clear key => s.clear key

def after (s : Scheduler σ α) (steps : List (Step α)) : Scheduler σ α := steps.foldl step s

def instantOf? (kind : Step α → Bool) (s : Scheduler σ α) : List (Step α) → Option Nat
  | [] => none
  | x :: xs => if kind x then some s.now else instantOf? kind (s.step x) xs

def answers (key : String) (s : Scheduler σ α) :
    List (Step α) → List (Except Overflow (Current α))
  | [] => []
  | .query k :: xs =>
    if k = key then s.current key :: answers key s xs else answers key s xs
  | x :: xs => answers key (s.step x) xs

end Scheduler
end HostVitals
