import HostVitals.Text.Numeral
import HostVitals.Yaml.Cursor

/-! Names that are given to YAML nodes: anchors and tags, and the directives about tags. -/
namespace HostVitals.Yaml

def takeAnchor (c : Cursor) : Option (String × Cursor) :=
  let (name, c) := c.takeWhile isNameChar
  let ended := gapAhead c.text || (c.text.head?.any fun d => "?:,]\x7d%@`".toList.contains d)
  if name.isEmpty ∨ !ended then none else some (String.ofList name, c)

def isTagChar (inside : Bool) (c : Char) : Bool :=
  isNameChar c || ";/?:@&=+$.%!~*'()".toList.contains c ||
    (inside && (c = ',' || c = '[' || c = ']'))

def byteCount (b : Nat) : Option Nat :=
  if b < 0x80 then some 1 else if 0xC0 ≤ b ∧ b < 0xE0 then some 2
  else if 0xE0 ≤ b ∧ b < 0xF0 then some 3 else if 0xF0 ≤ b ∧ b < 0xF8 then some 4 else none

def takeByte : List Char → Option (Nat × List Char)
  | '%' :: a :: b :: r => do
    return ((← Text.digitValue 16 a) * 16 + (← Text.digitValue 16 b), r)
  | _ => none

def takeTail : Nat → Nat → List Char → Option (Nat × List Char)
  | 0, n, s => some (n, s)
  | count + 1, n, s => do
    let (b, s) ← takeByte s
    if 0x80 ≤ b ∧ b < 0xC0 then takeTail count (n * 64 + b % 64) s else none

def takeBytes (s : List Char) : Option (Char × List Char) := do
  let (b, s) ← takeByte s
  let count ← byteCount b
  let lead := if count = 1 then b else b % (128 >>> count)
  let (n, s) ← takeTail (count - 1) lead s
  return (Char.ofNat n, s)

def tagText (inside : Bool) : Nat → List Char → Option (List Char × List Char)
  | 0, _ => none
  | _ + 1, [] => some ([], [])
  | fuel + 1, c :: r =>
    if !isTagChar inside c then some ([], c :: r)
    else do
      let (d, r) ← if c = '%' then takeBytes (c :: r) else some (c, r)
      let (ds, r) ← tagText inside fuel r
      return (d :: ds, r)

def takeTagText (inside : Bool) (c : Cursor) : Option (List Char × Cursor) := do
  let (s, rest) ← tagText inside (c.text.length + 1) c.text
  return (s, c.advance (c.text.length - rest.length))

def takeHandle (c : Cursor) : Option (List Char × Cursor) :=
  match c.text with
  | '!' :: _ =>
    let (name, c) := (c.advance 1).takeWhile isNameChar
    match c.text with
    | '!' :: _ => some ('!' :: name ++ ['!'], c.advance 1)
    | _ => some ('!' :: name, c)
  | _ => none

structure WrittenTag where
  handle : String
  rest : String
deriving DecidableEq, Repr

def tagEnded (flow : Bool) (c : Cursor) : Bool :=
  gapAhead c.text || (flow && c.text.head? == some ',')

def takeTag (flow : Bool) (c : Cursor) : Option (WrittenTag × Cursor) := do
  let (tag, c) ← match c.text with
    | '!' :: '<' :: _ => do
      let (s, c) ← takeTagText true (c.advance 2)
      match c.text with
      | '>' :: _ => if s.isEmpty then none else some (⟨"", String.ofList s⟩, c.advance 1)
      | _ => none
    | _ => do
      let (handle, c) ← takeHandle c
      let (s, c) ← takeTagText false c
      if 1 < handle.length ∧ handle.getLast? = some '!' then
        if s.isEmpty then none
        else some (WrittenTag.mk (String.ofList handle) (String.ofList s), c)
      else
        let rest := handle.drop 1 ++ s
        some (if rest.isEmpty then ⟨"", "!"⟩ else ⟨"!", String.ofList rest⟩, c)
  if tagEnded flow c then some (tag, c) else none

def takeVersionNumber (c : Cursor) : Option (Nat × Cursor) :=
  let (ds, c) := c.takeWhile Char.isDigit
  if ds.isEmpty ∨ 9 < ds.length then none
  else some (ds.foldl (fun n d => n * 10 + (d.toNat - 48)) 0, c)

inductive Directive where
  | version (major minor : Nat)
  | handle (name start : String)
deriving DecidableEq, Repr

def takeDirective (c : Cursor) : Option (Directive × Cursor) := do
  let (name, c) := c.takeWhile isNameChar
  if !gapAhead c.text then none
  let c := c.skipWhile isBlank
  let (d, c) ← match String.ofList name with
    | "YAML" => do
      let (major, c) ← takeVersionNumber c
      match c.text with
      | '.' :: _ =>
        let (minor, c) ← takeVersionNumber (c.advance 1)
        some (Directive.version major minor, c)
      | _ => none
    | "TAG" => do
      let (handle, c) ← takeHandle c
      if 1 < handle.length ∧ handle.getLast? ≠ some '!' then none
      if !(c.text.head?.any isBlank) then none
      let (start, c) ← takeTagText true (c.skipWhile isBlank)
      if start.isEmpty ∨ !gapAhead c.text then none
      some (Directive.handle (String.ofList handle) (String.ofList start), c)
    | _ => none
  return (d, ← c.endLine)

end HostVitals.Yaml
