import HostVitals.Binary64.Layout
import HostVitals.Text.Numeral

/-! Documents: what is written in any of the text formats, and what the values of a text format offer
to a reader. Each format has values of its own; a reader only asks for the shape of a value, one level
at a time. -/
namespace HostVitals

inductive Document where
  | null
  | bool (b : Bool)
  | int (i : Int)
  | number (x : Binary64)
  | text (s : String)
  | list (items : List Document)
  | table (entries : List (String × Document))

namespace Document

instance : Inhabited Document := ⟨.null⟩

def nat (n : Nat) : Document := .int n

def opt {α : Type} (f : α → Document) : Option α → Document
  | some a => f a
  | none => .null

end Document

structure ScalarShape where
  /-- It stands for nothing where a value may be left out. -/
  absent : Bool := false
  truth : Option Bool := none
  natural : Option Nat := none
  text : Option String := none
  /-- It stands for a record without entries. -/
  bare : Bool := false

inductive Shape (α : Type) where
  | scalar (s : ScalarShape)
  /-- Values in order, which can stand for the fields of a record. -/
  | list (items : List α)
  /-- Entries in order. A key that is not a text is none. -/
  | table (entries : List (Option String × α))
  /-- Nothing can be read from it. -/
  | closed

structure Field (α ρ : Type) where
  names : List String
  take : α → ρ → Option ρ
  spared : Bool := false

namespace Shape
variable {α ρ : Type}

def optional {β : Type} (pick : ScalarShape → Option β) : Shape α → Option (Option β)
  | scalar s => if s.absent then some none else (pick s).map some
  | _ => none

def truth? : Shape α → Option (Option Bool) := optional (·.truth)

def text? : Shape α → Option (Option String) := optional (·.text)

def natural? (limit : Nat) : Shape α → Option (Option Nat) :=
  optional fun s => s.natural.filter (· ≤ limit)

/-- Takes entries in from left to right. Entries with unknown keys are passed over; a field that
comes twice, under any of its names, is refused. -/
def takeEntries (fields : List (Field α ρ)) :
    List Nat → List (Option String × α) → ρ → Option ρ
  | _, [], r => some r
  | seen, (key, value) :: rest, r => do
    let k ← key
    match fields.findIdx? (·.names.contains k) with
    | none => takeEntries fields seen rest r
    | some i =>
      if seen.contains i then none
      else
        let f ← fields[i]?
        takeEntries fields (i :: seen) rest (← f.take value r)

def takeItems : List (Field α ρ) → List α → ρ → Option ρ
  | [], [], r => some r
  | [], _ :: _, _ => none
  | f :: fs, [], r => if f.spared then takeItems fs [] r else none
  | f :: fs, a :: rest, r => do takeItems fs rest (← f.take a r)

def record (fields : List (Field α ρ)) (start : ρ) : Shape α → Option ρ
  | scalar s => if s.bare then some start else none
  | list items => takeItems fields items start
  | table entries => takeEntries fields [] entries start
  | closed => none

end Shape

end HostVitals
