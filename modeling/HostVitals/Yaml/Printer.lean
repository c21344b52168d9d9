import HostVitals.Document
import HostVitals.Yaml.Chars
import HostVitals.Yaml.Plain

/-! Documents written as YAML: an entry on each line, tables two columns further in than their key,
lists as far in as their key. -/
namespace HostVitals.Yaml

def numberLayout : Binary64.Layout :=
  ⟨fun place => -5 < place && place ≤ 16, ".0", ".nan", ".inf", false⟩

def margin (column : Nat) : List Char := List.replicate column ' '

/-! How a text is written. -/

def anyPair (p : Char → Char → Bool) : List Char → Bool
  | a :: b :: r => p a b || anyPair p (b :: r)
  | _ => false

def hasInnerMark : List Char → Bool
  | [] => false
  | c :: r => (c = ':' && gapAhead r) || (isGap c && r.head? == some '#') || hasInnerMark r

def hasMarks (s : List Char) : Bool :=
  let start := match s with
    | '-' :: '-' :: '-' :: _ => true
    | '.' :: '.' :: '.' :: _ => true
    | c :: r => "#,[]\x7b\x7d&*!|>'\"%@`".toList.contains c ||
        ((c = '?' || c = ':' || c = '-') && gapAhead r)
    | [] => false
  start || hasInnerMark s

def isEdge (c : Char) : Bool := c = ' ' || isBreak c

def plainFits (s : List Char) : Bool :=
  s.all isShown && !s.any isBreak && !(s.head?.any isEdge) && !(s.getLast?.any isEdge) &&
    !hasMarks s

def singleFits (s : List Char) : Bool :=
  s.all isShown && !anyPair (fun a b => (isBreak a && b = ' ') || (a = ' ' && isBreak b)) s

def blockFits (s : List Char) : Bool :=
  s.all isShown && !(s.getLast? == some ' ') && !anyPair (fun a b => a = ' ' && isBreak b) s

def singleBody (column : Nat) : Bool → List Char → List Char
  | broken, [] => if broken then margin column else []
  | broken, c :: r =>
    if isBreak c then c :: singleBody column true r
    else (if broken then margin column else []) ++ (if c = '\'' then ['\'', '\''] else [c]) ++
      singleBody column false r

def upperHex (width n : Nat) : List Char :=
  let ds := (Nat.toDigits 16 n).map Char.toUpper
  List.replicate (width - ds.length) '0' ++ ds

def escapeLetter (c : Char) : Option Char :=
  match c.toNat with
  | 0 => some '0'
  | 7 => some 'a'
  | 8 => some 'b'
  | 9 => some 't'
  | 10 => some 'n'
  | 11 => some 'v'
  | 12 => some 'f'
  | 13 => some 'r'
  | 27 => some 'e'
  | 34 => some '"'
  | 92 => some '\\'
  | 0x85 => some 'N'
  | 0xA0 => some '_'
  | 0x2028 => some 'L'
  | 0x2029 => some 'P'
  | _ => none

def doubleChar (c : Char) : List Char :=
  if isShown c && !isBreak c && c ≠ '"' && c ≠ '\\' then [c]
  else match escapeLetter c with
    | some l => ['\\', l]
    | none =>
      let n := c.toNat
      if n ≤ 0xFF then '\\' :: 'x' :: upperHex 2 n
      else if n ≤ 0xFFFF then '\\' :: 'u' :: upperHex 4 n
      else '\\' :: 'U' :: upperHex 8 n

def blockBody (column : Nat) : Bool → List Char → List Char
  | _, [] => []
  | broken, c :: r =>
    if isBreak c then c :: blockBody column true r
    else (if broken then margin column else []) ++ c :: blockBody column false r

def blockMarks (s : List Char) : List Char :=
  (if s.head?.any isEdge then ['2'] else []) ++
    (match s.reverse with
      | a :: b :: _ => if !isBreak a then ['-'] else if isBreak b then ['+'] else []
      | [a] => if isBreak a then ['+'] else ['-']
      | [] => ['-'])

inductive Place where
  /-- At the start of a line. -/
  | fresh
  /-- At the end of a line. -/
  | ended
  /-- Behind a sign that leaves room for one blank. -/
  | inside
deriving DecidableEq, Repr

def Place.lead (p : Place) (column : Nat) : List Char :=
  match p with
  | fresh => margin column
  | ended => '\n' :: margin column
  | inside => [' ']

def textChars (column : Nat) (s : String) : List Char × Place :=
  let cs := s.toList
  let double := ('"' :: cs.flatMap doubleChar ++ ['"'], Place.ended)
  if cs.contains '\n' then
    if blockFits cs then
      ('|' :: blockMarks cs ++ '\n' :: blockBody column true cs,
        if cs.getLast?.any isBreak then .fresh else .ended)
    else double
  else if !Plain.isTaken s && plainFits cs then (cs, .ended)
  else if singleFits cs then ('\'' :: singleBody column false cs ++ ['\''], .ended)
  else double

def scalarChars (column : Nat) : Document → List Char × Place
  | .bool b => ((if b then "true" else "false").toList, .ended)
  | .int i => ((toString i).toList, .ended)
  | .number x => ((numberLayout.render x).toList, .ended)
  | .text s => textChars column s
  | _ => ("null".toList, .ended)

def isSimpleKey (key : String) : Bool :=
  !(key.toList.any isBreak) && key.utf8ByteSize ≤ 128

def keyChars (column : Nat) (key : String) : List Char × Bool :=
  let (text, place) := textChars (column + 2) key
  if isSimpleKey key then (text ++ [':'], true)
  else ('?' :: ' ' :: text ++ place.lead column ++ [':'], false)

mutual
def valueChars (column : Nat) (behindKey : Bool) : Document → List Char × Place
  | .table [] => (" \x7b\x7d".toList, .ended)
  | .list [] => (" []".toList, .ended)
  | .table (e :: es) =>
    entriesChars (column + 2) (if behindKey then .ended else .inside) (e :: es)
  | .list (d :: ds) =>
    if behindKey then itemsChars column .ended (d :: ds)
    else itemsChars (column + 2) .inside (d :: ds)
  | d =>
    let (text, place) := scalarChars (column + 2) d
    (' ' :: text, place)

def entriesChars (column : Nat) (place : Place) : List (String × Document) → List Char × Place
  | [] => ([], place)
  | (key, value) :: rest =>
    let (start, simple) := keyChars column key
    let (text, next) := valueChars column simple value
    let (texts, last) := entriesChars column next rest
    (place.lead column ++ start ++ text ++ texts, last)

def itemsChars (column : Nat) (place : Place) : List Document → List Char × Place
  | [] => ([], place)
  | d :: rest =>
    let (text, next) := valueChars column false d
    let (texts, last) := itemsChars column next rest
    (place.lead column ++ '-' :: text ++ texts, last)
end

def render (d : Document) : String :=
  let (text, place) := match d with
    | .table (e :: es) => entriesChars 0 .fresh (e :: es)
    | .list (i :: is) => itemsChars 0 .fresh (i :: is)
    | .table [] => ("\x7b\x7d".toList, .ended)
    | .list [] => ("[]".toList, .ended)
    | d => scalarChars 2 d
  String.ofList (text ++ (if place = .fresh then [] else ['\n']))

end HostVitals.Yaml
