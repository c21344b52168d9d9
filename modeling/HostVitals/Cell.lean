import HostVitals.Named

/-! A cell holds the latest published value. Each publication is told apart from every other one by
its number, also when the values are equal; a reader holds a publication, and a writer gets the one
that it replaces back if nobody holds it. -/
namespace HostVitals

structure Publication (α : Type) where
  number : Nat
  value : α
deriving Repr

structure Cell (α : Type) where
  current : Option (Publication α) := none
  /-- How many publications there have been; the number of the next one. -/
  published : Nat := 0

namespace Cell
variable {α : Type}

instance : Inhabited (Cell α) := ⟨{}⟩

def value? (c : Cell α) : Option α := c.current.map (·.value)

def isPresent (c : Cell α) : Bool := c.current.isSome

def save (c : Cell α) (value : α) : Cell α :=
  { current := some ⟨c.published, value⟩, published := c.published + 1 }

def clear (c : Cell α) : Cell α := { c with current := none }

/-- Publishes a value and hands the replaced one back, unless a reader holds that publication. -/
def saveReclaim (c : Cell α) (isHeld : Nat → Bool) (value : α) : Cell α × Option α :=
  (c.save value, (c.current.filter fun p => !isHeld p.number).map (·.value))

def describe (current : Option Nat) : String :=
  "ValueCell \x7b value: " ++
    (match current with
      | some n => "Some(" ++ toString n ++ ")"
      | none => "None") ++ " \x7d"

end Cell

structure SharedCell (α : Type) where
  cell : Cell α := {}
  readers : Named (Publication α) := {}

namespace SharedCell
variable {α : Type}

def isHeld (s : SharedCell α) (number : Nat) : Bool :=
  s.readers.entries.any fun r => r.2.number == number

def save (s : SharedCell α) (value : α) : SharedCell α := { s with cell := s.cell.save value }

def clear (s : SharedCell α) : SharedCell α := { s with cell := s.cell.clear }

def saveReclaim (s : SharedCell α) (value : α) : SharedCell α × Option α :=
  let (cell, back) := s.cell.saveReclaim s.isHeld value
  ({ s with cell }, back)

def hold (s : SharedCell α) (reader : String) : SharedCell α × Bool :=
  match s.cell.current with
  | some p => ({ s with readers := s.readers.insert reader p }, true)
  | none => (s, false)

def drop (s : SharedCell α) (reader : String) : SharedCell α × Bool :=
  ({ s with readers := s.readers.erase reader }, s.readers.contains reader)

end SharedCell

inductive CellStep (α : Type) where
  | save (value : α)
  | saveReclaim (value : α)
  | clear
  | hold (reader : String)
  | drop (reader : String)

namespace SharedCell
variable {α : Type}

def step (s : SharedCell α) : CellStep α → SharedCell α
  | .save value => s.save value
  | .saveReclaim value => (s.saveReclaim value).1
  | .clear => s.clear
  | .hold reader => (s.hold reader).1
  | .drop reader => (s.drop reader).1

def after (s : SharedCell α) (steps : List (CellStep α)) : SharedCell α := steps.foldl step s

end SharedCell
end HostVitals
