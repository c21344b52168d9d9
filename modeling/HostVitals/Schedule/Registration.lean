import HostVitals.Registry
import HostVitals.Schedule.Scheduler

/-! What is handed to a registry, one call after the other: a producer, or work to be done on
another thread. A call that is refused leaves the registry as it was. -/
namespace HostVitals

inductive Ending (α : Type) where
  | value (v : α)
  | failure (message : String)
  | crash (message : String)

def Ending.outcome {α : Type} : Ending α → Outcome α
  | .value v => .value v
  | .failure e => .failure e
  | .crash message => .failure (crashReport message)

structure Work (α : Type) where
  length : Nat := 0
  ending : Ending α

/-- What is to be run for a job. Work knows the number of the call and its surroundings, as a
producer does, but cannot wait for the cancellation. -/
inductive Task (σ α : Type) where
  | producer (p : Producer σ α)
  | work (w : Nat → σ → Work α × σ)

def Task.toProducer {σ α : Type} : Task σ α → Producer σ α
  | .producer p => p
  | .work w => fun calls around =>
    let (done, around) := w calls around
    (.run { length := done.length, outcome := done.ending.outcome }, around)

structure RegistryCall (σ α : Type) where
  key : String
  interval : Nat
  task : Task σ α

namespace Registry
variable {σ α : Type}

def call (r : Registry (Producer σ α)) (c : RegistryCall σ α) :
    Except RegistryError (Registry (Producer σ α)) :=
  r.register c.key c.interval c.task.toProducer

def step (r : Registry (Producer σ α)) (c : RegistryCall σ α) : Registry (Producer σ α) :=
  match r.call c with
  | .ok r => r
  | .error _ => r

def after (r : Registry (Producer σ α)) (calls : List (RegistryCall σ α)) :
    Registry (Producer σ α) := calls.foldl step r

end Registry

structure Ledger (π : Type) where
  jobs : List (String × Job π) := []
  keys : List String := []

namespace Ledger
variable {σ α π : Type}

def enter (l : Ledger π) (key : String) : Bool × Ledger π :=
  if key ∈ l.keys then (false, l) else (true, { l with keys := key :: l.keys })

def register (l : Ledger π) (key : String) (interval : Nat) (producer : π) :
    Except RegistryError Unit × Ledger π :=
  if key = "" then (.error .emptyKey, l)
  else if h : interval = 0 then (.error (.zeroInterval key), l)
  else
    let (new, l) := l.enter key
    if new then
      (.ok (), { l with jobs := l.jobs ++ [(key, ⟨interval, producer, Nat.pos_of_ne_zero h⟩)] })
    else (.error (.duplicateKey key), l)

def contains (l : Ledger π) (key : String) : Bool := decide (key ∈ l.keys)

def size (l : Ledger π) : Nat := l.jobs.length

def call (l : Ledger (Producer σ α)) (c : RegistryCall σ α) :
    Except RegistryError Unit × Ledger (Producer σ α) :=
  l.register c.key c.interval c.task.toProducer

def after (l : Ledger (Producer σ α)) (calls : List (RegistryCall σ α)) : Ledger (Producer σ α) :=
  calls.foldl (fun l c => (l.call c).2) l

end Ledger

def Scheduler.byKey {σ α : Type} (s : Scheduler σ α) : Named (Loop σ α) :=
  Named.ofList (s.loops.map fun l => (l.key, l))
end HostVitals
