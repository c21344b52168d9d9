import HostVitals.RunStats
import HostVitals.Span
import HostVitals.Store
import HostVitals.Text.Quoted

/-! The loop of one job: it waits for a tick, runs its producer to the end, records how the run
ended, and waits for the next tick, until the schedule is cancelled. Ticks lie on a grid from the
start of the schedule, one interval apart. -/
namespace HostVitals

namespace Cadence

def tolerance : Nat := Span.ofMillis 5

/-- When the next tick is due after the one due at `due` has been taken at `now`. After a late one
the grid points that have passed are left out; otherwise the next grid point follows, even if it
has passed as well. -/
def nextDue (interval due now : Nat) : Nat :=
  if due + tolerance < now then now + interval - (now - due) % interval else due + interval

/-- Whether the sum with which the next tick is found is an instant. -/
def hasNext (interval due now : Nat) : Bool :=
  decide ((if due + tolerance < now then now else due) + interval < instantLimit)

end Cadence

inductive Outcome (α : Type) where
  | value (v : α)
  | failure (message : String)
  | crash

def Outcome.value? {α : Type} : Outcome α → Option α
  | .value v => some v
  | _ => none

def Outcome.error? {α : Type} : Outcome α → Option String
  | .value _ => none
  | .failure e => some e
  | .crash => some "producer panicked"

def crashReport (message : String) : String :=
  "task N panicked with message " ++ Text.quoted message

/-- A run that has been started: how long it takes at least, whether it then waits for the
cancellation, and how it ends. -/
structure Run (α : Type) where
  length : Nat := 0
  untilCancel : Bool := false
  outcome : Outcome α

def Run.isOver {α : Type} (r : Run α) (started now : Nat) (cancelled : Bool) : Bool :=
  decide (started + r.length ≤ now) && (!r.untilCancel || cancelled)

inductive Called (α : Type) where
  | run (r : Run α)
  | broken

/-- A producer knows the number of the call and may look at, and change, its surroundings. -/
abbrev Producer (σ α : Type) := Nat → σ → Called α × σ

inductive Phase (α : Type) where
  /-- Waits for the tick due at an instant. -/
  | idle (due : Nat)
  /-- Runs since `started`; the tick after it is already fixed. -/
  | busy (due started : Nat) (run : Run α)
  | ended
  /-- Had a tick to take after which no instant is left for the next one. -/
  | spent

def Phase.ofCall {α : Type} (due now : Nat) : Called α → Phase α
  | .run r => .busy due now r
  | .broken => .ended

structure Execution (α : Type) where
  due : Nat
  started : Nat
  called : Called α
  ended : Option Nat := none

def Execution.closeLatest {α : Type} (now : Nat) : List (Execution α) → List (Execution α)
  | [] => []
  | e :: r => { e with ended := some now } :: r

structure Loop (σ α : Type) where
  key : String
  interval : Nat
  producer : Producer σ α
  slot : Slot
  interval_pos : 0 < interval
  phase : Option (Phase α) := none
  calls : Nat := 0
  stats : RunStats := {}
  /-- The log: every run, the latest first. -/
  history : List (Execution α) := []

structure World (σ α : Type) where
  store : Store α
  around : σ

namespace Loop
variable {σ α : Type}

def start (l : Loop σ α) (due now : Nat) (s : World σ α) : Loop σ α × World σ α :=
  let (called, around) := l.producer l.calls s.around
  ({ l with
      phase := some (.ofCall (Cadence.nextDue l.interval due now) now called)
      calls := l.calls + 1
      history := { due, started := now, called } :: l.history },
    { s with around })

def finish (l : Loop σ α) (due started now : Nat) (outcome : Outcome α) (s : World σ α) :
    Loop σ α × World σ α :=
  let ms := Span.toMillis (now - started)
  ({ l with
      phase := some (.idle due)
      stats := match outcome.error? with
        | none => l.stats.recordSuccess ms
        | some e => l.stats.recordFailure ms e
      history := Execution.closeLatest now l.history },
    match outcome.value? with
    | some v => { s with store := s.store.saveAt l.slot ⟨v, now⟩ }
    | none => s)

/-- The next thing that the loop does at this instant, if any. A cancellation is looked at before a
tick and never during a run. The next tick is found before the producer is called; where there is
none, the loop breaks off. -/
def turn? (l : Loop σ α) (now : Nat) (cancelled : Bool) (s : World σ α) :
    Option (Loop σ α × World σ α) :=
  match l.phase with
  | none | some .ended | some .spent => none
  | some (.idle due) =>
    if cancelled then some ({ l with phase := some .ended }, s)
    else if due ≤ now then
      if Cadence.hasNext l.interval due now then some (l.start due now s)
      else some ({ l with phase := some .spent }, s)
    else none
  | some (.busy due started r) =>
    if r.isOver started now cancelled then some (l.finish due started now r.outcome s) else none

def settle (now : Nat) (cancelled : Bool) : Nat → Loop σ α → World σ α → Loop σ α × World σ α
  | 0, l, s => (l, s)
  | fuel + 1, l, s =>
    match l.turn? now cancelled s with
    | some (l, s) => settle now cancelled fuel l s
    | none => (l, s)

/-- Each tick taken brings the due time at least one forward, and takes two turns. -/
def turnsAt (now : Nat) : Nat := 2 * now + 4

def next? (l : Loop σ α) (cancelled : Bool) : Option Nat :=
  match l.phase with
  | none | some .ended | some .spent => none
  | some (.idle due) => some due
  | some (.busy _ started r) =>
    if r.untilCancel && !cancelled then none else some (started + r.length)

def isAlive (l : Loop σ α) : Bool :=
  match l.phase with
  | none | some .ended | some .spent => false
  | _ => true

end Loop
end HostVitals
