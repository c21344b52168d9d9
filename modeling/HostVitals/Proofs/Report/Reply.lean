import HostVitals.Report.Pages
import HostVitals.Report.Reply

/-! What a reply tells of an answer, and when there is one. Two sums on the way to a reply have a
limit: the instant at which the next update is due, once there is a state, and the whole seconds
after which to ask again, as long as there is none. -/
namespace HostVitals

def InRange {α : Type} (interval : Nat) : Option (State α) → Prop
  | some st => st.taken + interval < instantLimit
  | none => interval ≤ Span.ofSeconds Text.maxU64

instance {α : Type} (interval : Nat) (shown : Option (State α)) :
    Decidable (InRange interval shown) :=
  match shown with
  | some _ => inferInstanceAs (Decidable (_ < _))
  | none => inferInstanceAs (Decidable (_ ≤ _))

namespace Current
variable {α : Type} {interval : Nat} {shown : Option (State α)} {st : State α}

structure Shows (c : Current α) (interval : Nat) (shown : Option (State α)) : Prop where
  scheduleExists : c.scheduleExists = true
  state : c.state = shown
  stateExists : c.stateExists = shown.isSome
  retryAfter : shown = none → c.retryAfter = interval

theorem ofState_none_shows (α : Type) (interval now : Nat) :
    ∃ c : Current α, ofState interval now none = .ok c ∧ c.Shows interval none :=
  ⟨_, rfl, rfl, rfl, rfl, fun _ => rfl⟩

theorem ofState_some_shows (now : Nat) (h : st.taken + interval < instantLimit) :
    ∃ c, ofState interval now (some st) = .ok c ∧ c.Shows interval (some st) :=
  ⟨_, if_pos h, rfl, rfl, rfl, nofun⟩

theorem ofState_some_of_le (now : Nat) (h : instantLimit ≤ st.taken + interval) :
    ofState interval now (some st) = .error .instant := if_neg (Nat.not_lt.mpr h)

theorem ofState_shows (now : Nat) (h : InRange interval shown) :
    ∃ c, ofState interval now shown = .ok c ∧ c.Shows interval shown := by
  cases shown with
  | none => exact ofState_none_shows α interval now
  | some st => exact ofState_some_shows now h

end Current

namespace Document

def field? (d : Document) (name : String) : Option Document :=
  match d with
  | .table entries => entries.lookup name
  | _ => none

def flag? (d : Document) (name : String) : Option Bool :=
  match d.field? name with
  | some (.bool b) => some b
  | _ => none

end Document

namespace Reply

section retrySeconds
variable {wait : Nat}

/-- The seconds that are rounded up are the least ones not shorter than the wait. -/
theorem wholeSeconds_add_le_iff {n : Nat} :
    Span.wholeSeconds wait + (if Span.subNanos wait = 0 then 0 else 1) ≤ n ↔
      wait ≤ Span.ofSeconds n := by
  unfold Span.wholeSeconds Span.subNanos Span.ofSeconds Span.perSecond
  split <;> omega

theorem retrySeconds_of_le (h : wait ≤ Span.ofSeconds Text.maxU64) :
    ∃ n, retrySeconds wait = .ok n := ⟨_, if_pos (wholeSeconds_add_le_iff.mpr h)⟩

theorem retrySeconds_of_lt (h : Span.ofSeconds Text.maxU64 < wait) :
    retrySeconds wait = .error .add :=
  if_neg fun hle => Nat.not_lt.mpr (wholeSeconds_add_le_iff.mp hle) h

end retrySeconds

def field? (r : Reply) (name : String) : Option Document :=
  match r.body with
  | .json d => d.field? name
  | .text _ => none

structure Repeats (r : Reply) (row : Document) : Prop where
  status : ∃ available, row.flag? "available" = some available ∧
    r.status = if available then 200 else 503
  freshness : r.status = 200 → ∃ stale wait,
    r.field? "stale" = some (.bool stale) ∧ row.field? "stale" = some (.bool stale) ∧
    r.field? "retry_after_seconds" = some (.number wait) ∧
    row.field? "retry_after_seconds" = some (.number wait)

section ofCurrent
variable (clock : Nat → String) (key : String) (every : Nat) {c : Current Sample}
  {interval : Nat} {shown : Option (State Sample)}

@[simp] theorem key_listingRow :
    (listingRow clock key every c).field? "key" = some (.text key) := rfl

@[simp] theorem available_listingRow :
    (listingRow clock key every c).flag? "available" = some c.stateExists := rfl

theorem ofCurrent_of_unknown (h : c.scheduleExists = false) :
    ∃ reply, ofCurrent clock key c = .ok reply ∧ reply.status = 404 := by
  simp [ofCurrent, h, json]

theorem ofCurrent_repeats (hc : c.Shows interval shown) (hrange : InRange interval shown) :
    ∃ reply, ofCurrent clock key c = .ok reply ∧
      reply.Repeats (listingRow clock key every c) := by
  cases shown with
  | some st =>
    refine ⟨_, by rw [ofCurrent, hc.scheduleExists, hc.state]; rfl,
      ⟨true, congrArg some hc.stateExists, rfl⟩, ?_⟩
    exact fun _ => ⟨_, _, rfl, rfl, rfl, rfl⟩
  | none =>
    obtain ⟨n, hn⟩ := retrySeconds_of_le hrange
    rw [← hc.retryAfter rfl] at hn
    refine ⟨_, by simp only [ofCurrent, hc.scheduleExists, hc.state, hn]; rfl,
      ⟨false, congrArg some hc.stateExists, rfl⟩, ?_⟩
    intro hstatus
    cases hstatus

theorem ofCurrent_of_not_inRange (hc : c.Shows interval none)
    (hlong : Span.ofSeconds Text.maxU64 < interval) : ofCurrent clock key c = .error .add := by
  have herror := retrySeconds_of_lt hlong
  rw [← hc.retryAfter rfl] at herror
  simp only [ofCurrent, hc.scheduleExists, hc.state, herror]
  rfl

end ofCurrent

structure TellsHealth (r : Reply) (rows : List Document) : Prop where
  well : r.status = 200 ↔ ∀ row ∈ rows, row.flag? "available" = some true
  unwell : r.status ≠ 200 → r.status = 503 ∧ ∃ rest, r.body = .text (
    toString (rows.countP fun row => row.flag? "available" == some false) ++ " of " ++
      toString rows.length ++ " collectors have no sample yet" ++ ("\n\nUptime: " ++ rest))

theorem healthReply_tells {uptime : Nat} {jobs : List JobSummary} {rows : List Document}
    (hrows : ∀ row ∈ rows, ∃ available, row.flag? "available" = some available)
    (hlength : jobs.length = rows.length)
    (hmissing : Report.missingCount jobs =
      rows.countP fun row => row.flag? "available" == some false) :
    (Report.healthReply uptime jobs).TellsHealth rows := by
  have hnone : Report.missingCount jobs = 0 ↔
      ∀ row ∈ rows, row.flag? "available" = some true := by
    rw [hmissing, List.countP_eq_zero]
    refine forall₂_congr fun row hrow => ?_
    obtain ⟨available, h⟩ := hrows row hrow
    cases available <;> simp [h]
  constructor
  · rw [← hnone]
    unfold Report.healthReply
    by_cases h : Report.missingCount jobs = 0 <;> simp [h, plain]
  · intro hstatus
    have h : Report.missingCount jobs ≠ 0 := by
      intro h
      simp [Report.healthReply, h, plain] at hstatus
    rw [← hmissing, ← hlength]
    refine ⟨by simp [Report.healthReply, h, plain], ?_⟩
    simp only [Report.healthReply, h, if_false, plain, String.append_assoc]
    exact ⟨_, rfl⟩

end Reply
end HostVitals
