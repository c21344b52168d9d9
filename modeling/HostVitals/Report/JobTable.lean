import HostVitals.RunStats
import HostVitals.Span

/-! The statistics of all jobs as a plain table, in columns filled up with spaces to a width counted
in characters. -/
namespace HostVitals

namespace Text

def padRight (width : Nat) (s : String) : String :=
  s ++ String.ofList (List.replicate (width - s.length) ' ')

def padLeft (width : Nat) (s : String) : String :=
  String.ofList (List.replicate (width - s.length) ' ') ++ s

end Text

namespace Report
open Text

def row (key interval ok failed age avg lastError : String) : String :=
  String.intercalate " | "
    [padRight 12 key, padLeft 9 interval, padLeft 8 ok, padLeft 8 failed, padLeft 9 age,
      padLeft 10 avg, lastError] ++ "\n"

def jobRow (j : JobSummary) : String :=
  row j.key (toString (Span.wholeSeconds j.interval) ++ "s") (toString j.successes)
    (toString j.failures)
    ((j.age.map fun a => Binary64.fixed 1 (Span.toSeconds a)).getD "-")
    (Binary64.fixed 2 j.avgMs) (j.lastError.getD "-")

def jobTable (jobs : List JobSummary) : String :=
  "COLLECTORS\n==========\n\n" ++
    row "Key" "Interval" "OK" "Failed" "Age (s)" "Avg (ms)" "Last error" ++
    String.ofList (List.replicate 90 '-') ++ "\n" ++ String.join (jobs.map jobRow)

end Report
end HostVitals
