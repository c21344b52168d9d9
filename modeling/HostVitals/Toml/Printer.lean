import HostVitals.Document

/-! Documents written as TOML. Tables get a header each, lists of tables a header for each table;
what is null is left out. -/
namespace HostVitals.Toml

def numberLayout : Binary64.Layout := ⟨fun _ => true, ".0", "nan", "inf", true⟩

def isBareKeyChar (c : Char) : Bool :=
  ('a' ≤ c && c ≤ 'z') || ('A' ≤ c && c ≤ 'Z') || c.isDigit || c = '-' || c = '_'

def hex4 (n : Nat) : List Char :=
  let ds := (Nat.toDigits 16 n).map Char.toUpper
  List.replicate (4 - ds.length) '0' ++ ds

def isControl (c : Char) : Bool := c.toNat < 32 || c.toNat = 127

def escapedChar (several : Bool) (c : Char) : List Char :=
  if c = '\x08' then ['\\', 'b'] else if c = '\t' then ['\\', 't']
  else if c = '\n' then if several then ['\n'] else ['\\', 'n']
  else if c = '\x0c' then ['\\', 'f'] else if c = '\r' then ['\\', 'r']
  else if c = '"' then ['\\', '"'] else if c = '\\' then ['\\', '\\']
  else if isControl c then '\\' :: 'u' :: hex4 c.toNat
  else [c]

def hasTripleQuote : List Char → Bool
  | [] => false
  | c :: r => (c = '\'' && r.take 2 == ['\'', '\'']) || hasTripleQuote r

def literalFits (s : List Char) : Bool :=
  s.all (fun c => !isControl c || c = '\t' || c = '\n') && !hasTripleQuote s &&
    !(s.getLast? == some '\'')

def textChars (s : String) : List Char :=
  let cs := s.toList
  let several := cs.contains '\n'
  let triple (q : Char) (body : List Char) : List Char :=
    [q, q, q] ++ (if several then ['\n'] else []) ++ body ++ [q, q, q]
  if literalFits cs then
    if several || cs.contains '\'' then triple '\'' cs else '\'' :: cs ++ ['\'']
  else
    let body := cs.flatMap (escapedChar several)
    if several then triple '"' body else '"' :: body ++ ['"']

def keyText (key : String) : String :=
  if key ≠ "" ∧ key.toList.all isBareKeyChar then key
  else String.ofList ('"' :: key.toList.flatMap (escapedChar false) ++ ['"'])

def pathText (path : List String) : String := String.intercalate "." (path.map keyText)

def header (spaced array : Bool) (path : List String) : String :=
  let name := pathText path
  (if spaced then "\n" else "") ++ (if array then "[[" ++ name ++ "]]" else "[" ++ name ++ "]") ++
    "\n"

mutual
def valueText : Document → String
  | .bool b => if b then "true" else "false"
  | .int i => toString i
  | .number x => numberLayout.render x
  | .text s => String.ofList (textChars s)
  | .list items =>
    match valueTexts items with
    | [] => "[]"
    | [t] => "[" ++ t ++ "]"
    | ts => "[\n" ++ String.join (ts.map fun t => "    " ++ t ++ ",\n") ++ "]"
  | .null | .table _ => ""

def valueTexts : List Document → List String
  | [] => []
  | d :: ds => valueText d :: valueTexts ds
end

mutual
def entriesText (path : List String) (start : String) :
    Bool → List (String × Document) → String
  | written, [] => if written then "" else start
  | written, (key, value) :: rest =>
    match value with
    | .null => entriesText path start written rest
    | .table es =>
      let inner := path ++ [key]
      entriesText inner (header written false inner) false es ++ entriesText path start true rest
    | .list (.table es :: ds) =>
      itemsText (path ++ [key]) written (.table es :: ds) ++ entriesText path start true rest
    | d =>
      (if written then "" else start) ++ keyText key ++ " = " ++ valueText d ++ "\n" ++
        entriesText path start true rest

def itemsText (path : List String) : Bool → List Document → String
  | _, [] => ""
  | spaced, d :: ds =>
    (match d with
      | .table es => entriesText path (header spaced true path) false es
      | _ => "") ++ itemsText path true ds
end

def render : Document → String
  | .table es => entriesText [] "" false es
  | d => valueText d

end HostVitals.Toml
