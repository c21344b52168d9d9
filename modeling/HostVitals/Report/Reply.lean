import HostVitals.Collect.Sample

/-! Replies to requests for metrics. -/
namespace HostVitals

inductive Reply.Body where
  | json (d : Document)
  | text (s : String)

structure Reply where
  status : Nat
  contentType : String
  /-- Seconds after which to ask again. -/
  retryAfter : Option Nat := none
  body : Reply.Body

namespace Reply

def json (status : Nat) (d : Document) (retryAfter : Option Nat := none) : Reply :=
  { status, contentType := "application/json", retryAfter, body := .json d }

def plain (status : Nat) (s : String) : Reply :=
  { status, contentType := "text/plain; charset=utf-8", body := .text s }

def notFound : Reply := { status := 404, contentType := "", body := .text "" }

def undecodable : Reply := plain 400 "Invalid URL: Invalid UTF-8 in `key`"

def retrySeconds (wait : Nat) : Except Overflow Nat :=
  let n := Span.wholeSeconds wait + (if Span.subNanos wait = 0 then 0 else 1)
  if n ≤ Text.maxU64 then .ok (max n 1) else .error .add

def ofCurrent (clock : Nat → String) (key : String) (c : Current Sample) :
    Except Overflow Reply :=
  if !c.scheduleExists then
    .ok (json 404 (.table [("error", .text ("unknown metric '" ++ key ++ "'"))]))
  else
    match c.state with
    | none => do
      let wait ← retrySeconds c.retryAfter
      return json 503 (.table [("error", .text ("metric '" ++ key ++ "' has no sample yet")),
        ("retry_after_seconds", .nat wait)]) (some wait)
    | some s =>
      .ok (json 200 (.table [("key", .text key), ("value", s.value.document),
        ("updated_at", .text (clock s.taken)),
        ("retry_after_seconds", .number (Span.toSeconds c.retryAfter)),
        ("stale", .bool c.isStale)]))

def listingRow (clock : Nat → String) (key : String) (interval : Nat) (c : Current Sample) :
    Document :=
  .table [("key", .text key), ("interval_seconds", .number (Span.toSeconds interval)),
    ("available", .bool c.stateExists), ("stale", .bool c.isStale),
    ("retry_after_seconds", .number (Span.toSeconds c.retryAfter)),
    ("updated_at", Document.opt (fun s => .text (clock s.taken)) c.state)]

end Reply
end HostVitals
