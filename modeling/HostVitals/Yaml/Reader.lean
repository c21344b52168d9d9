import HostVitals.Document
import HostVitals.Yaml.Node
import HostVitals.Yaml.Plain

/-! YAML texts as settings are read from them: references are followed to what they name, and plain
texts are taken for truth values and numbers. -/
namespace HostVitals.Yaml

structure Linked where
  root : Option (Node Nat)
  /-- The named nodes in the order in which they start. -/
  named : List (Nat × Node Nat)
  /-- Which named node a number leads to; of several entries the last one counts. -/
  targets : List (Nat × Nat)

structure Links where
  numbers : List (String × Nat) := []
  count : Nat := 0
  named : List (Nat × Node Nat) := []
  targets : List (Nat × Nat) := []

namespace Links

/-- Gives a name to the node that starts here. A name's number is how many names were in use before;
a name that is given again loses its old number. -/
def start (l : Links) : Option String → Links
  | none => l
  | some name =>
    let number := l.numbers.length
    let numbers := if (l.numbers.lookup name).isSome then
        l.numbers.map fun e => if e.1 = name then (name, number) else e
      else l.numbers ++ [(name, number)]
    { l with numbers, count := l.count + 1, targets := l.targets ++ [(number, l.count)] }

def keep (l : Links) (anchor : Option String) (place : Nat) (n : Node Nat) : Links :=
  if anchor.isSome then { l with named := (place, n) :: l.named } else l

end Links

mutual
def Node.link (l : Links) : Node String → Option (Node Nat × Links)
  | .alias name => (l.numbers.lookup name).map fun i => (.alias i, l)
  | .scalar a tag style text =>
    let n := Node.scalar a tag style text
    some (n, (l.start a).keep a l.count n)
  | .list a items => do
    let (items, r) ← linkItems (l.start a) items
    return (.list a items, r.keep a l.count (.list a items))
  | .table a entries => do
    let (entries, r) ← linkEntries (l.start a) entries
    return (.table a entries, r.keep a l.count (.table a entries))

def linkItems (l : Links) : List (Node String) → Option (List (Node Nat) × Links)
  | [] => some ([], l)
  | n :: rest => do
    let (n, l) ← Node.link l n
    let (ns, l) ← linkItems l rest
    return (n :: ns, l)

def linkEntries (l : Links) :
    List (Node String × Node String) → Option (List (Node Nat × Node Nat) × Links)
  | [] => some ([], l)
  | (k, v) :: rest => do
    let (k, l) ← Node.link l k
    let (v, l) ← Node.link l v
    let (es, l) ← linkEntries l rest
    return ((k, v) :: es, l)
end

namespace Linked

def target? (d : Linked) (number : Nat) : Option (Node Nat) :=
  (d.targets.reverse.lookup number).bind fun place => d.named.lookup place

def resolve (d : Linked) (n : Node Nat) : Node Nat :=
  match n with
  | .alias i => (d.target? i).getD n
  | n => n

def key? (d : Linked) (n : Node Nat) : Option String :=
  match d.resolve n with
  | .scalar _ _ _ text => some text
  | _ => none

def nullTag : String := "tag:yaml.org,2002:null"
def boolTag : String := "tag:yaml.org,2002:bool"
def intTag : String := "tag:yaml.org,2002:int"

/-- What a text can be taken for. Truth values and numbers are plain, whatever their tag, or a block
of lines with the tag for them. Null is plain and has no tag or the tag for null, and this tag
allows nothing else. -/
def scalarShape (tag : Option String) (style : Style) (text : String) : ScalarShape :=
  let plain := style = .plain
  let typed (t : String) : Bool := plain || (style = .literal && tag == some t)
  let nullTagged := plain && tag == some nullTag
  if nullTagged && !Plain.isNull text then { bare := text = "" }
  else {
    absent := plain && (nullTagged || (tag.isNone && (text = "" || Plain.isNull text)))
    truth := if typed boolTag then Plain.truth? text else none
    natural := if typed intTag then Plain.natural? Text.maxU64 text else none
    text := some text
    bare := plain && text = "" }

def shape (d : Linked) (n : Node Nat) : Shape (Node Nat) :=
  match d.resolve n with
  | .scalar _ tag style text => .scalar (scalarShape tag style text)
  | .table _ entries => .table (entries.map fun e => (d.key? e.1, e.2))
  | _ => .closed

def rootShape (d : Linked) : Shape (Node Nat) :=
  match d.root with
  | some n => d.shape n
  | none => .table []

end Linked

def read (text : List Char) : Option Linked := do
  match ← Node.ofTokens? (← Token.ofText? text) with
  | none => return ⟨none, [], []⟩
  | some n =>
    let (root, l) ← n.link {}
    return ⟨some root, l.named, l.targets⟩

end HostVitals.Yaml
