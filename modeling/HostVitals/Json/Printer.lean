import HostVitals.Document

/-! Documents written as JSON, on one line or with two spaces for each level. -/
namespace HostVitals.Json

/-- A number is written without an exponent from `1e-5` to below `1e16`, and whole numbers get a
point. Infinities and what is not a number become null before this layout is asked. -/
def numberLayout : Binary64.Layout :=
  ⟨fun place => -5 < place && place ≤ 16, ".0", "null", "null", false⟩

def hexDigits (width n : Nat) : String :=
  let digits := Nat.toDigits 16 n
  String.ofList (List.replicate (width - digits.length) '0' ++ digits)

def escapedChar (c : Char) : String :=
  if c = '"' then "\\\"" else if c = '\\' then "\\\\" else if c = '\n' then "\\n"
  else if c = '\r' then "\\r" else if c = '\t' then "\\t"
  else if c.toNat = 8 then "\\b" else if c.toNat = 12 then "\\f"
  else if c.toNat < 32 then "\\u" ++ hexDigits 4 c.toNat
  else String.ofList [c]

def stringText (s : String) : String := "\"" ++ String.join (s.toList.map escapedChar) ++ "\""

def numberText (x : Binary64) : String :=
  if x.isNaN || x.isInfinite then "null" else numberLayout.render x

mutual
def compact : Document → String
  | .null => "null"
  | .bool b => if b then "true" else "false"
  | .int i => toString i
  | .number x => numberText x
  | .text s => stringText s
  | .list items => "[" ++ String.intercalate "," (compactItems items) ++ "]"
  | .table entries => "\x7b" ++ String.intercalate "," (compactEntries entries) ++ "\x7d"

def compactItems : List Document → List String
  | [] => []
  | d :: r => compact d :: compactItems r

def compactEntries : List (String × Document) → List String
  | [] => []
  | (k, d) :: r => (stringText k ++ ":" ++ compact d) :: compactEntries r
end

def margin (level : Nat) : String := String.ofList (List.replicate (2 * level) ' ')

def bracketed (opening closing : String) (level : Nat) (parts : List String) : String :=
  if parts.isEmpty then opening ++ closing
  else opening ++ "\n" ++ String.intercalate ",\n" (parts.map (margin (level + 1) ++ ·)) ++ "\n" ++
    margin level ++ closing

mutual
def prettyAt (level : Nat) : Document → String
  | .list items => bracketed "[" "]" level (prettyItems (level + 1) items)
  | .table entries => bracketed "\x7b" "\x7d" level (prettyEntries (level + 1) entries)
  | d => compact d

def prettyItems (level : Nat) : List Document → List String
  | [] => []
  | d :: r => prettyAt level d :: prettyItems level r

def prettyEntries (level : Nat) : List (String × Document) → List String
  | [] => []
  | (k, d) :: r => (stringText k ++ ": " ++ prettyAt level d) :: prettyEntries level r
end

def pretty (d : Document) : String := prettyAt 0 d

end HostVitals.Json
