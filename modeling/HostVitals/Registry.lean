import HostVitals.Named
import HostVitals.Span
import HostVitals.Text.Quoted

/-! The jobs of a schedule, in the order in which they were accepted. A producer is of any type;
only the schedule calls it. -/
namespace HostVitals

structure Job (π : Type) where
  interval : Nat
  producer : π
  interval_pos : 0 < interval

inductive RegistryError where
  | emptyKey
  | zeroInterval (key : String)
  | duplicateKey (key : String)
deriving DecidableEq, Repr

def RegistryError.message : RegistryError → String
  | .emptyKey => "metric key must not be empty"
  | .zeroInterval key => "interval for '" ++ key ++ "' must be greater than zero"
  | .duplicateKey key => "metric key '" ++ key ++ "' is already registered"

structure Registry (π : Type) where
  jobs : Named (Job π) := {}

namespace Registry
variable {π : Type}

/-- Accepts a job under a key of its own with a positive interval; of several faults the first
named here is reported: empty key, no interval, key in use. -/
def register (r : Registry π) (key : String) (interval : Nat) (producer : π) :
    Except RegistryError (Registry π) :=
  if key = "" then .error .emptyKey
  else if h : interval = 0 then .error (.zeroInterval key)
  else if r.jobs.contains key then .error (.duplicateKey key)
  else .ok { jobs := r.jobs.insert key ⟨interval, producer, Nat.pos_of_ne_zero h⟩ }

def single (key : String) (job : Job π) : Registry π :=
  { jobs := ({} : Named (Job π)).insert key job }

def contains (r : Registry π) (key : String) : Bool := r.jobs.contains key

def size (r : Registry π) : Nat := r.jobs.size

def isEmpty (r : Registry π) : Bool := r.jobs.isEmpty

def describeJob (key : String) (job : Job π) : String :=
  "Job \x7b key: " ++ Text.quoted key ++ ", interval: " ++ Span.describe job.interval ++ ", .. \x7d"

end Registry
end HostVitals
