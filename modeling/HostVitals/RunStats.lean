import HostVitals.Binary64.Basic

/-! What is known of the runs of a job: how many ended well and how many failed, how long they took,
and the latest failure. Durations are in milliseconds. -/
namespace HostVitals

structure RunningStat where
  count : Nat := 0
  sum : Binary64 := .zero
  min : Binary64 := .zero
  max : Binary64 := .zero
  last : Binary64 := .zero

namespace RunningStat

def add (s : RunningStat) (value : Binary64) : RunningStat :=
  if s.count = 0 then ⟨1, value, value, value, value⟩
  else
    { count := s.count + 1
      sum := s.sum.add value
      min := if value.lt s.min then value else s.min
      max := if s.max.lt value then value else s.max
      last := value }

def avg (s : RunningStat) : Binary64 :=
  if s.count = 0 then .zero else s.sum.div (.ofNat s.count)

end RunningStat

structure RunStats where
  successes : Nat := 0
  failures : Nat := 0
  durations : RunningStat := {}
  lastError : Option String := none

namespace RunStats

def recordSuccess (s : RunStats) (ms : Binary64) : RunStats :=
  { s with successes := s.successes + 1, durations := s.durations.add ms }

def recordFailure (s : RunStats) (ms : Binary64) (error : String) : RunStats :=
  { s with
    failures := s.failures + 1
    durations := s.durations.add ms
    lastError := some error }

def totalRuns (s : RunStats) : Nat := s.successes + s.failures

end RunStats

structure JobSummary where
  key : String
  interval : Nat
  successes : Nat
  failures : Nat
  lastMs : Binary64
  avgMs : Binary64
  maxMs : Binary64
  minMs : Binary64
  lastError : Option String
  age : Option Nat

def RunStats.summary (s : RunStats) (key : String) (interval : Nat) (age : Option Nat) :
    JobSummary where
  key
  interval
  successes := s.successes
  failures := s.failures
  lastMs := s.durations.last
  avgMs := s.durations.avg
  maxMs := s.durations.max
  minMs := s.durations.min
  lastError := s.lastError
  age

end HostVitals
