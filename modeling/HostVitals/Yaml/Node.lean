import HostVitals.Yaml.Token

/-! The value that the tokens of a YAML text describe. A node may carry a name by which another one
refers to it; references are of type `ρ`: the name as it is written, or what it leads to. -/
namespace HostVitals.Yaml

inductive Node (ρ : Type) where
  | alias (target : ρ)
  | scalar (anchor tag : Option String) (style : Style) (text : String)
  | list (anchor : Option String) (items : List (Node ρ))
  | table (anchor : Option String) (entries : List (Node ρ × Node ρ))

namespace Node
variable {ρ : Type}

instance : Inhabited (Node ρ) := ⟨.list none []⟩

def nothing : Node ρ := .scalar none none .plain ""

end Node

structure Given where
  anchor : Option String := none
  tag : Option WrittenTag := none

def takeGiven : List Token → Given × List Token
  | .anchor a :: .tag t :: r => (⟨some a, some t⟩, r)
  | .tag t :: .anchor a :: r => (⟨some a, some t⟩, r)
  | .anchor a :: r => (⟨some a, none⟩, r)
  | .tag t :: r => (⟨none, some t⟩, r)
  | r => ({}, r)

abbrev Handles := List (String × String)

def standardHandles : Handles := [("!", "!"), ("!!", "tag:yaml.org,2002:")]

def WrittenTag.full (handles : Handles) (t : WrittenTag) : Option String :=
  if t.handle = "" then some t.rest
  else (handles.lookup t.handle).map (· ++ t.rest)

/-- Where a node stands: in a block, in a block behind a key or colon, or inside brackets. A list
behind a key need not be indented. -/
inductive Setting where
  | block | blockEntry | bracket
deriving DecidableEq, Repr

namespace Node

def missing : List Token → Bool
  | [] => true
  | t :: _ => t = .key || t = .value || t = .closeBlock

def missingInBrackets (closing : Token) : List Token → Bool
  | [] => true
  | t :: _ => t = .comma || t = closing

mutual
def take (handles : Handles) : Nat → Setting → List Token → Option (Node String × List Token)
  | 0, _, _ => none
  | _ + 1, _, .alias name :: r => some (.alias name, r)
  | fuel + 1, setting, ts => do
    let (given, r) := takeGiven ts
    let tag ← match given.tag with
      | some t => (t.full handles).map some
      | none => some none
    let tag := tag.filter (· ≠ "")
    let block := setting ≠ .bracket
    match r with
    | .item :: _ =>
      if setting = .blockEntry then
        let (items, r) ← takeLooseItems handles fuel r
        return (.list given.anchor items, r)
      else if given.anchor.isSome || tag.isSome then
        return (.scalar given.anchor tag .plain "", r)
      else none
    | .scalar style text :: r =>
      -- a lone exclamation mark before a text says nothing
      return (.scalar given.anchor (tag.filter (· ≠ "!")) style text, r)
    | .openList :: r =>
      let (items, r) ← takeListItems handles fuel true r
      return (.list given.anchor items, r)
    | .openTable :: r =>
      let (entries, r) ← takeTableEntries handles fuel true r
      return (.table given.anchor entries, r)
    | .openBlockList :: t =>
      if block then
        let (items, r) ← takeBlockItems handles fuel t
        return (.list given.anchor items, r)
      else if given.anchor.isSome || tag.isSome then
        return (.scalar given.anchor tag .plain "", r)
      else none
    | .openBlockTable :: t =>
      if block then
        let (entries, r) ← takeBlockEntries handles fuel t
        return (.table given.anchor entries, r)
      else if given.anchor.isSome || tag.isSome then
        return (.scalar given.anchor tag .plain "", r)
      else none
    | _ =>
      if given.anchor.isSome || tag.isSome then
        return (.scalar given.anchor tag .plain "", r)
      else none

def takeBlockItems (handles : Handles) :
    Nat → List Token → Option (List (Node String) × List Token)
  | 0, _ => none
  | fuel + 1, ts =>
    match ts with
    | .closeBlock :: r => some ([], r)
    | .item :: r => do
      let (n, r) ← match r with
        | .item :: _ | .closeBlock :: _ => some (nothing, r)
        | _ => take handles fuel .block r
      let (ns, r) ← takeBlockItems handles fuel r
      return (n :: ns, r)
    | _ => none

def takeLooseItems (handles : Handles) :
    Nat → List Token → Option (List (Node String) × List Token)
  | 0, _ => none
  | fuel + 1, ts =>
    match ts with
    | .item :: r => do
      let loose : Bool := match r with
        | .item :: _ => true
        | r => missing r
      let (n, r) ← if loose then some (nothing, r) else take handles fuel .block r
      let (ns, r) ← takeLooseItems handles fuel r
      return (n :: ns, r)
    | _ => some ([], ts)

def takeBlockEntries (handles : Handles) :
    Nat → List Token → Option (List (Node String × Node String) × List Token)
  | 0, _ => none
  | fuel + 1, ts =>
    match ts with
    | .closeBlock :: r => some ([], r)
    | .key :: r => do
      let (k, r) ← if missing r then some (nothing, r) else take handles fuel .blockEntry r
      let (v, r) ← match r with
        | .value :: r => if missing r then some (nothing, r) else take handles fuel .blockEntry r
        | _ => some (nothing, r)
      let (es, r) ← takeBlockEntries handles fuel r
      return ((k, v) :: es, r)
    | _ => none

def takeListItems (handles : Handles) :
    Nat → Bool → List Token → Option (List (Node String) × List Token)
  | 0, _, _ => none
  | fuel + 1, first, ts =>
    match ts with
    | .closeList :: r => some ([], r)
    | _ => do
      let ts ← if first then some ts else match ts with
        | .comma :: r => some r
        | _ => none
      match ts with
      | .closeList :: r => return ([], r)
      | .key :: r =>
        let (k, r) ←
          if r.head? = some .value ∨ missingInBrackets .closeList r then
            some (nothing, r.drop 1)
          else take handles fuel .bracket r
        let (v, r) ← match r with
          | .value :: r =>
            if missingInBrackets .closeList r then some (nothing, r)
            else take handles fuel .bracket r
          | _ => some (nothing, r)
        let (ns, r) ← takeListItems handles fuel false r
        return (.table none [(k, v)] :: ns, r)
      | _ =>
        let (n, r) ← take handles fuel .bracket ts
        let (ns, r) ← takeListItems handles fuel false r
        return (n :: ns, r)

def takeTableEntries (handles : Handles) :
    Nat → Bool → List Token → Option (List (Node String × Node String) × List Token)
  | 0, _, _ => none
  | fuel + 1, first, ts =>
    match ts with
    | .closeTable :: r => some ([], r)
    | _ => do
      let ts ← if first then some ts else match ts with
        | .comma :: r => some r
        | _ => none
      match ts with
      | .closeTable :: r => return ([], r)
      | .key :: r =>
        let (k, r) ←
          if r.head? = some .value ∨ missingInBrackets .closeTable r then some (nothing, r)
          else take handles fuel .bracket r
        let (v, r) ← match r with
          | .value :: r =>
            if missingInBrackets .closeTable r then some (nothing, r)
            else take handles fuel .bracket r
          | _ => some (nothing, r)
        let (es, r) ← takeTableEntries handles fuel false r
        return ((k, v) :: es, r)
      | _ =>
        let (k, r) ← take handles fuel .bracket ts
        let (es, r) ← takeTableEntries handles fuel false r
        return ((k, nothing) :: es, r)
end

def takeDirectives (version : Bool) (own : Handles) : List Token → Option (Handles × List Token)
  | .directive (.version major minor) :: r =>
    if version ∨ major ≠ 1 ∨ (minor ≠ 1 ∧ minor ≠ 2) then none else takeDirectives true own r
  | .directive (.handle name start) :: r =>
    if (own.lookup name).isSome then none else takeDirectives version (own ++ [(name, start)]) r
  | r => some (own ++ standardHandles, r)

def onlyFinished : List Token → Bool
  | [] => true
  | t :: r => t = .finish && onlyFinished r

def ofTokens? (ts : List Token) : Option (Option (Node String)) :=
  match ts with
  | [] => some none
  | _ => do
    let explicit : Bool := match ts with
      | .directive _ :: _ | .start :: _ => true
      | _ => false
    let (handles, ts) ← takeDirectives false [] ts
    let fuel := 3 * ts.length + 3
    let (root, r) ←
      if explicit then match ts with
        | .start :: r =>
          match r with
          | [] | .directive _ :: _ | .start :: _ | .finish :: _ => some (nothing, r)
          | _ => take handles fuel .block r
        | _ => none
      else take handles fuel .block ts
    if onlyFinished r then return some root else none

end Node
end HostVitals.Yaml
