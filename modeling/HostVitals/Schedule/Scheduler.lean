import HostVitals.Registry
import HostVitals.Schedule.Loop
import HostVitals.Schedule.Freshness

/-! All loops of a schedule on one clock. Loops have no business with each other but the store, each
under its own key, and the surroundings of their producers. -/
namespace HostVitals

structure Scheduler (σ α : Type) where
  loops : List (Loop σ α)
  world : World σ α
  now : Nat := 0
  running : Bool := false
  cancelled : Bool := false

namespace Scheduler
variable {σ α : Type}

def loopsOf : List (String × Job (Producer σ α)) → Store α → List (Loop σ α) × Store α
  | [], store => ([], store)
  | (key, job) :: rest, store =>
    let (store, slot) := store.slot key
    let (loops, store) := loopsOf rest store
    ({ key, slot, interval := job.interval, producer := job.producer,
       interval_pos := job.interval_pos } :: loops, store)

def withStore (r : Registry (Producer σ α)) (store : Store α) (around : σ) : Scheduler σ α :=
  let (loops, store) := loopsOf r.jobs.entries store
  { loops, world := { store, around } }

def new (r : Registry (Producer σ α)) (around : σ) : Scheduler σ α := withStore r {} around

def settleLoops (now : Nat) (cancelled : Bool) :
    List (Loop σ α) → World σ α → List (Loop σ α) × World σ α
  | [], s => ([], s)
  | l :: ls, s =>
    let (l, s) := Loop.settle now cancelled (Loop.turnsAt now) l s
    let (ls, s) := settleLoops now cancelled ls s
    (l :: ls, s)

def settle (s : Scheduler σ α) : Scheduler σ α :=
  let (loops, world) := settleLoops s.now s.cancelled s.loops s.world
  { s with loops, world }

def run (s : Scheduler σ α) : Scheduler σ α :=
  if s.running then s
  else settle { s with
    running := true
    loops := s.loops.map fun l => { l with phase := some (.idle s.now) } }

def cancel (s : Scheduler σ α) : Scheduler σ α := settle { s with cancelled := true }

def next? (s : Scheduler σ α) : Option Nat :=
  (s.loops.filterMap (·.next? s.cancelled)).min?

def advanceTo (target : Nat) : Nat → Scheduler σ α → Scheduler σ α
  | 0, s => { s with now := target }
  | fuel + 1, s =>
    match s.next? with
    | none => { s with now := target }
    | some t =>
      if t ≤ target then advanceTo target fuel (settle { s with now := max s.now t })
      else { s with now := target }

def advance (s : Scheduler σ α) (span : Nat) : Scheduler σ α :=
  advanceTo (s.now + span) (span + 1) s

def isDone (s : Scheduler σ α) : Bool := s.running && !s.loops.any (·.isAlive)

/-- Waits for the end of all loops, but not to the instant `limit` or beyond; says whether they
have ended in time. -/
def waitUntil (limit : Nat) : Nat → Scheduler σ α → Scheduler σ α × Bool
  | 0, s => ({ s with now := limit }, false)
  | fuel + 1, s =>
    if s.isDone then (s, true)
    else match s.next? with
      | none => ({ s with now := limit }, false)
      | some t =>
        if t < limit then waitUntil limit fuel (settle { s with now := max s.now t })
        else (settle { s with now := limit }, false)

def wait (s : Scheduler σ α) (span : Nat) : Scheduler σ α × Bool :=
  waitUntil (s.now + span) (span + 1) s

def find? (s : Scheduler σ α) (key : String) : Option (Loop σ α) :=
  s.loops.find? fun l => l.key == key

def contains (s : Scheduler σ α) (key : String) : Bool := (s.find? key).isSome

def interval? (s : Scheduler σ α) (key : String) : Option Nat := (s.find? key).map (·.interval)

def keys (s : Scheduler σ α) : List String := s.loops.map (·.key)

def size (s : Scheduler σ α) : Nat := s.loops.length

def current (s : Scheduler σ α) (key : String) : Except Overflow (Current α) :=
  match s.find? key with
  | none => .ok {}
  | some l => Current.ofState l.interval s.now (s.world.store.stateAt l.slot)

def summaryOf (s : Scheduler σ α) (l : Loop σ α) : JobSummary :=
  l.stats.summary l.key l.interval ((s.world.store.stateAt l.slot).map fun st => s.now - st.taken)

def summaries (s : Scheduler σ α) : List JobSummary := s.loops.map s.summaryOf

def withStoreChanged (s : Scheduler σ α) (f : Store α → Store α) : Scheduler σ α :=
  { s with world := { s.world with store := f s.world.store } }

def save (s : Scheduler σ α) (key : String) (value : α) : Scheduler σ α :=
  s.withStoreChanged (·.save key ⟨value, s.now⟩)

def clear (s : Scheduler σ α) (key : String) : Scheduler σ α := s.withStoreChanged (·.clear key)

end Scheduler
end HostVitals
