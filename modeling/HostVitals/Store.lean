import HostVitals.Cell

/-! Latest states by key. A key gets its slot on first use and keeps it for good, so that a handle
taken once leads to the same slot as the key does. -/
namespace HostVitals

structure State (α : Type) where
  value : α
  taken : Nat
deriving DecidableEq, Repr

structure Slot where
  index : Nat
deriving DecidableEq, Repr

structure Store (α : Type) where
  slots : Named (Cell (State α)) := {}

namespace Store
variable {α : Type}

instance : Inhabited (Store α) := ⟨{}⟩

def slot (s : Store α) (key : String) : Store α × Slot :=
  match s.slots.position? key with
  | some i => (s, ⟨i⟩)
  | none => ({ slots := s.slots.insert key {} }, ⟨s.slots.size⟩)

def cellAt (s : Store α) (slot : Slot) : Cell (State α) := (s.slots.get? slot.index).getD {}

def modifySlot (s : Store α) (slot : Slot) (f : Cell (State α) → Cell (State α)) : Store α :=
  { slots := s.slots.modifyAt slot.index f }

def stateAt (s : Store α) (slot : Slot) : Option (State α) := (s.cellAt slot).value?

def saveAt (s : Store α) (slot : Slot) (state : State α) : Store α :=
  s.modifySlot slot (·.save state)

def clearAt (s : Store α) (slot : Slot) : Store α := s.modifySlot slot (·.clear)

def save (s : Store α) (key : String) (state : State α) : Store α :=
  let (s, slot) := s.slot key
  s.saveAt slot state

def state? (s : Store α) (key : String) : Option (State α) := (s.slots.find? key).bind (·.value?)

def clear (s : Store α) (key : String) : Store α :=
  match s.slots.position? key with
  | some i => s.clearAt ⟨i⟩
  | none => s

def populated (s : Store α) : Nat := s.slots.entries.countP fun e => e.2.isPresent

end Store

structure SharedStore (α : Type) where
  store : Store α := {}
  readers : Named (Slot × Publication (State α)) := {}

namespace SharedStore
variable {α : Type}

def isHeld (s : SharedStore α) (slot : Slot) (number : Nat) : Bool :=
  s.readers.entries.any fun r => r.2.1 == slot && r.2.2.number == number

def withStore (s : SharedStore α) (store : Store α) : SharedStore α := { s with store }

def reclaimAt (s : SharedStore α) (slot : Slot) (state : State α) :
    SharedStore α × Option (State α) :=
  let (cell, back) := (s.store.cellAt slot).saveReclaim (s.isHeld slot) state
  ({ s with store := s.store.modifySlot slot fun _ => cell }, back)

def hold (s : SharedStore α) (reader key : String) : SharedStore α × Bool :=
  match s.store.slots.position? key with
  | none => (s, false)
  | some i =>
    match (s.store.cellAt ⟨i⟩).current with
    | some p => ({ s with readers := s.readers.insert reader (⟨i⟩, p) }, true)
    | none => (s, false)

def held? (s : SharedStore α) (reader : String) : Option (State α) :=
  (s.readers.find? reader).map (·.2.value)

end SharedStore

inductive StoreStep (α : Type) where
  | save (key : String) (state : State α)
  | clear (key : String)
  | slot (key : String)
  | saveAt (handle : Nat) (state : State α)
  | reclaimAt (handle : Nat) (state : State α)
  | clearAt (handle : Nat)
  /-- A reader gets the state of a key and keeps it. -/
  | hold (reader key : String)

structure StoreInUse (α : Type) where
  shared : SharedStore α := {}
  handles : List Slot := []

namespace StoreInUse
variable {α : Type}

def store (s : StoreInUse α) : Store α := s.shared.store

def withStore (s : StoreInUse α) (store : Store α) : StoreInUse α :=
  { s with shared := s.shared.withStore store }

def through (s : StoreInUse α) (handle : Nat) (f : Slot → SharedStore α) : StoreInUse α :=
  match s.handles[handle]? with
  | some slot => { s with shared := f slot }
  | none => s

def step (s : StoreInUse α) : StoreStep α → StoreInUse α
  | .save key state => s.withStore (s.store.save key state)
  | .clear key => s.withStore (s.store.clear key)
  | .slot key =>
    let (store, slot) := s.store.slot key
    { s.withStore store with handles := s.handles ++ [slot] }
  | .saveAt handle state =>
    s.through handle fun slot => s.shared.withStore (s.store.saveAt slot state)
  | .reclaimAt handle state => s.through handle fun slot => (s.shared.reclaimAt slot state).1
  | .clearAt handle => s.through handle fun slot => s.shared.withStore (s.store.clearAt slot)
  | .hold reader key => { s with shared := (s.shared.hold reader key).1 }

def after (s : StoreInUse α) (steps : List (StoreStep α)) : StoreInUse α := steps.foldl step s

end StoreInUse
end HostVitals
