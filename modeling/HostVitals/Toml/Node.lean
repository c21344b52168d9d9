import HostVitals.Document

/-! Values of a TOML text, and the tree that its headers build. -/
namespace HostVitals.Toml

inductive Node where
  | bool (b : Bool)
  | integer (i : Int)
  | float
  | text (s : String)
  /-- A date or a time. -/
  | moment
  | list (items : List Node)
  /-- A table; a dotted key adds to it only where it was made by a dotted key. -/
  | table (dotted : Bool) (entries : List (String × Node))

namespace Node

instance : Inhabited Node := ⟨.float⟩

def shape : Node → Shape Node
  | bool b => .scalar { truth := some b }
  | integer i => .scalar { natural := if 0 ≤ i then some i.toNat else none }
  | float => .closed
  | text s => .scalar { text := some s }
  | moment => .table []
  | list items => .list items
  | table _ entries => .table (entries.map fun e => (some e.1, e.2))

def addDotted (path : List String) (value : Node) (entries : List (String × Node)) :
    Option (List (String × Node)) :=
  match path with
  | [] => none
  | [key] => some (entries ++ [(key, value)])
  | key :: path =>
    match entries.findIdx? (·.1 == key) with
    | none => (addDotted path value []).map fun inner => entries ++ [(key, .table true inner)]
    | some i =>
      match entries[i]? with
      | some (_, .table true inner) =>
        (addDotted path value inner).map fun inner => entries.set i (key, .table true inner)
      | _ => none

end Node

inductive Outline where
  | table (named : Bool) (entries : List (String × Node)) (below : List (String × Outline))
  /-- A table for each header in double brackets, the latest first. -/
  | tables (latest : Outline) (earlier : List Outline)

namespace Outline

def empty : Outline := .table false [] []

/-- Adds what stands under a header. A table has one header at most, and one name is not both a
table and a list of tables. A path leads through the latest table of a list. -/
def add (array : Bool) (entries : List (String × Node)) : List String → Outline → Option Outline
  | [], _ => none
  | path, .tables latest earlier =>
    (add array entries path latest).map fun latest => .tables latest earlier
  | [key], .table named own below =>
    match below.lookup key with
    | none =>
      let fresh := Outline.table true entries []
      some (.table named own (below ++ [(key, if array then .tables fresh [] else fresh)]))
    | some (.tables latest earlier) =>
      if array then
        some (.table named own (replace key (.tables (.table true entries []) (latest :: earlier))
          below))
      else none
    | some (.table false [] inner) =>
      if array then none
      else some (.table named own (replace key (.table true entries inner) below))
    | some (.table _ _ _) => none
  | key :: next :: path, .table named own below =>
    (add array entries (next :: path) ((below.lookup key).getD empty)).map fun inner =>
      .table named own (replace key inner below)
where
  replace (key : String) (o : Outline) : List (String × Outline) → List (String × Outline)
    | [] => [(key, o)]
    | e :: rest => if e.1 = key then (key, o) :: rest else e :: replace key o rest

mutual
def node : Outline → Node
  | .table _ entries below => .table false (entries ++ nodesBelow below)
  | .tables latest earlier => .list (nodes earlier [node latest])

def nodes : List Outline → List Node → List Node
  | [], done => done
  | o :: rest, done => nodes rest (node o :: done)

def nodesBelow : List (String × Outline) → List (String × Node)
  | [] => []
  | (k, o) :: rest => (k, node o) :: nodesBelow rest
end

end Outline
end HostVitals.Toml
