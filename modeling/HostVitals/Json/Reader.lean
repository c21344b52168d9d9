import HostVitals.Document

/-! JSON texts read strictly: one value, no comments, no comma at the end of a list. Numbers keep
only what can be read from them as naturals. -/
namespace HostVitals.Json

inductive Node where
  | null
  | bool (b : Bool)
  /-- A natural number, if it is written without sign, fraction and exponent. -/
  | number (natural : Option Nat)
  /-- A text; half of a pair of surrogates alone makes it unreadable. -/
  | text (s : Option String)
  | list (items : List Node)
  | table (entries : List (Option String × Node))

namespace Node

def shape : Node → Shape Node
  | null => .scalar { absent := true }
  | bool b => .scalar { truth := some b }
  | number n => .scalar { natural := n.filter (· ≤ Text.maxU64) }
  | text s => .scalar { text := s }
  | list items => .list items
  | table entries => .table entries

end Node

def isSpace (c : Char) : Bool := c = ' ' || c = '\n' || c = '\t' || c = '\r'

def skipSpace (s : List Char) : List Char := s.dropWhile isSpace

def takeHex4 : List Char → Option (Nat × List Char)
  | a :: b :: c :: d :: r => do
    let digit := Text.digitValue 16
    return ((((← digit a) * 16 + (← digit b)) * 16 + (← digit c)) * 16 + (← digit d), r)
  | _ => none

def shortEscape (c : Char) : Option Char :=
  if c = '"' ∨ c = '\\' ∨ c = '/' then some c
  else if c = 'b' then some '\x08' else if c = 'f' then some '\x0c' else if c = 'n' then some '\n'
  else if c = 'r' then some '\r' else if c = 't' then some '\t' else none

inductive Piece where
  | char (c : Char)
  | high (n : Nat)
  | low (n : Nat)

def pieceOfUnit (n : Nat) : Piece :=
  if 0xD800 ≤ n ∧ n < 0xDC00 then .high n
  else if 0xDC00 ≤ n ∧ n < 0xE000 then .low n
  else .char (Char.ofNat n)

def takePieces : Nat → List Char → Option (List Piece × List Char)
  | 0, _ => none
  | _ + 1, [] => none
  | fuel + 1, c :: r =>
    if c = '"' then some ([], r)
    else if c = '\\' then
      match r with
      | 'u' :: r => do
        let (n, r) ← takeHex4 r
        let (ps, r) ← takePieces fuel r
        return (pieceOfUnit n :: ps, r)
      | e :: r => do
        let c ← shortEscape e
        let (ps, r) ← takePieces fuel r
        return (.char c :: ps, r)
      | [] => none
    else if c.toNat < 32 then none
    else do
      let (ps, r) ← takePieces fuel r
      return (.char c :: ps, r)

def joinPieces : List Piece → Option (List Char)
  | [] => some []
  | .char c :: r => (joinPieces r).map (c :: ·)
  | .high h :: .low l :: r =>
    (joinPieces r).map (Char.ofNat (0x10000 + (h - 0xD800) * 0x400 + (l - 0xDC00)) :: ·)
  | _ => none

def takeText (s : List Char) : Option (Option String × List Char) := do
  let (ps, r) ← takePieces (s.length + 1) s
  return ((joinPieces ps).map String.ofList, r)

def takeDigits (s : List Char) : List Char × List Char :=
  (s.takeWhile Char.isDigit, s.dropWhile Char.isDigit)

def takeFraction : List Char → Option (Bool × List Char)
  | '.' :: r =>
    let (ds, r) := takeDigits r
    if ds.isEmpty then none else some (true, r)
  | r => some (false, r)

def takeExponent : List Char → Option (Bool × List Char)
  | c :: r =>
    if c = 'e' ∨ c = 'E' then
      let r := match r with
        | '+' :: t | '-' :: t => t
        | t => t
      let (ds, r) := takeDigits r
      if ds.isEmpty then none else some (true, r)
    else some (false, c :: r)
  | [] => some (false, [])

def takeNumber (negative : Bool) (s : List Char) : Option (Node × List Char) := do
  let (ds, r) := takeDigits s
  if ds.isEmpty ∨ (ds.head? = some '0' ∧ 1 < ds.length) then none
  let (fraction, r) ← takeFraction r
  let (exponent, r) ← takeExponent r
  let natural := if negative || fraction || exponent then none
    else some (ds.foldl (fun n c => n * 10 + (c.toNat - 48)) 0)
  return (.number natural, r)

mutual
def takeValue : Nat → List Char → Option (Node × List Char)
  | 0, _ => none
  | fuel + 1, s =>
    match skipSpace s with
    | 'n' :: 'u' :: 'l' :: 'l' :: r => some (.null, r)
    | 't' :: 'r' :: 'u' :: 'e' :: r => some (.bool true, r)
    | 'f' :: 'a' :: 'l' :: 's' :: 'e' :: r => some (.bool false, r)
    | '-' :: r => takeNumber true r
    | '"' :: r => (takeText r).map fun (t, r) => (.text t, r)
    | '[' :: r =>
      match skipSpace r with
      | ']' :: r => some (.list [], r)
      | r => (takeItems fuel r).map fun (items, r) => (.list items, r)
    | '\x7b' :: r =>
      match skipSpace r with
      | '\x7d' :: r => some (.table [], r)
      | r => (takeEntries fuel r).map fun (entries, r) => (.table entries, r)
    | r => takeNumber false r

def takeItems : Nat → List Char → Option (List Node × List Char)
  | 0, _ => none
  | fuel + 1, s => do
    let (v, r) ← takeValue fuel s
    match skipSpace r with
    | ',' :: r =>
      let (vs, r) ← takeItems fuel r
      return (v :: vs, r)
    | ']' :: r => return ([v], r)
    | _ => none

def takeEntries : Nat → List Char → Option (List (Option String × Node) × List Char)
  | 0, _ => none
  | fuel + 1, s =>
    match skipSpace s with
    | '"' :: r => do
      let (key, r) ← takeText r
      match skipSpace r with
      | ':' :: r =>
        let (v, r) ← takeValue fuel r
        match skipSpace r with
        | ',' :: r =>
          let (es, r) ← takeEntries fuel r
          return ((key, v) :: es, r)
        | '\x7d' :: r => return ([(key, v)], r)
        | _ => none
      | _ => none
    | _ => none
end

/-- Reads a whole text. Each step into a value takes at least one character, so the fuel does not
run out before the text does. -/
def read (s : List Char) : Option Node := do
  let (v, r) ← takeValue (2 * s.length + 2) s
  if (skipSpace r).isEmpty then some v else none

end HostVitals.Json
