import HostVitals.Binary64.Decimal
import HostVitals.Toml.Node

/-! TOML texts. Keys, values and headers are read character by character; carriage returns before
newlines and a byte order mark at the start are dropped first. -/
namespace HostVitals.Toml

def foldBreaks : List Char → List Char
  | '\r' :: '\n' :: r => '\n' :: foldBreaks r
  | c :: r => c :: foldBreaks r
  | [] => []

def isBlank (c : Char) : Bool := c = ' ' || c = '\t'

def skipBlanks (s : List Char) : List Char := s.dropWhile isBlank

def isBare (c : Char) : Bool :=
  ('a' ≤ c && c ≤ 'z') || ('A' ≤ c && c ≤ 'Z') || c.isDigit || c = '-' || c = '_'

def takeBare (s : List Char) : Option (List Char × List Char) :=
  let word := s.takeWhile isBare
  if word.isEmpty then none else some (word, s.dropWhile isBare)

def isShown (c : Char) : Bool := c = '\t' || 32 ≤ c.toNat

def endLine (s : List Char) : Option (List Char) :=
  let rest := match s with
    | '#' :: r => r.dropWhile isShown
    | r => r
  match rest with
  | [] => some []
  | '\n' :: r => some r
  | _ => none

/-! Texts in quotes. -/

def isPlain (c : Char) : Bool := isShown c && c.toNat ≠ 127

def takeCode (width : Nat) (s : List Char) : Option (Char × List Char) :=
  let digits := s.take width
  if digits.length = width ∧ digits.all fun c => (Text.digitValue 16 c).isSome then
    let n := digits.foldl (fun n c => n * 16 + (Text.digitValue 16 c).getD 0) 0
    if n < 0xD800 ∨ (0xE000 ≤ n ∧ n < 0x110000) then some (Char.ofNat n, s.drop width) else none
  else none

def takeEscape (several : Bool) (s : List Char) : Option (List Char × List Char) :=
  match s with
  | '"' :: r => some (['"'], r)
  | '\\' :: r => some (['\\'], r)
  | 'b' :: r => some (['\x08'], r)
  | 'f' :: r => some (['\x0c'], r)
  | 'n' :: r => some (['\n'], r)
  | 'r' :: r => some (['\r'], r)
  | 't' :: r => some (['\t'], r)
  | 'u' :: r => (takeCode 4 r).map fun (c, r) => ([c], r)
  | 'U' :: r => (takeCode 8 r).map fun (c, r) => ([c], r)
  | c :: r =>
    if several ∧ (isBlank c ∨ c = '\n') then
      match skipBlanks (c :: r) with
      | '\n' :: r => some ([], r.dropWhile fun c => isBlank c || c = '\n')
      | [] => some ([], [])
      | _ => none
    else none
  | [] => none

def closeSeveral (quote : Char) (r : List Char) : List Char × List Char :=
  let extra := (r.take 2).takeWhile (· == quote)
  (extra, r.drop extra.length)

def takeQuoted (quote : Char) (several : Bool) : Nat → List Char → Option (List Char × List Char)
  | 0, _ => none
  | _ + 1, [] => none
  | fuel + 1, c :: r =>
    if c = quote ∧ !several then some ([], r)
    else if c = quote ∧ r.take 2 = [quote, quote] then some (closeSeveral quote (r.drop 2))
    else do
      let (start, r) ←
        if c = '\n' then if several then some (['\n'], r) else none
        else if c = '\\' ∧ quote = '"' then takeEscape several r
        else if isPlain c then some ([c], r)
        else none
      let (cs, r) ← takeQuoted quote several fuel r
      return (start ++ cs, r)

def takeText (quote : Char) (s : List Char) : Option (Bool × String × List Char) :=
  let finish (several : Bool) (s : List Char) : Option (Bool × String × List Char) :=
    (takeQuoted quote several (s.length + 1) s).map fun (cs, r) => (several, String.ofList cs, r)
  if s.take 2 = [quote, quote] then
    match s.drop 2 with
    | '\n' :: r => finish true r
    | r => finish true r
  else finish false s

/-! Keys. -/

def takeKey : List Char → Option (String × List Char)
  | '"' :: r => (takeText '"' r).bind fun (several, k, r) => if several then none else some (k, r)
  | '\'' :: r => (takeText '\'' r).bind fun (several, k, r) => if several then none else some (k, r)
  | s => (takeBare s).map fun (k, r) => (String.ofList k, r)

def takePath : Nat → List Char → Option (List String × List Char)
  | 0, _ => none
  | fuel + 1, s => do
    let (key, r) ← takeKey s
    match skipBlanks r with
    | '.' :: r =>
      let (path, r) ← takePath fuel (skipBlanks r)
      return (key :: path, r)
    | r => return ([key], r)

/-! Numbers, dates and times. -/

def takeInteger (signs zeros : Bool) (base : Nat) (word : List Char) :
    Option (List Char × List Char) :=
  match word with
  | c :: r =>
    if signs ∧ (c = '+' ∨ c = '-') then (go true false false r).map fun (ds, r) => (c :: ds, r)
    else go true false false (c :: r)
  | [] => none
where
  go (first leadingZero underscore : Bool) : List Char → Option (List Char × List Char)
    | [] => if first || underscore then none else some ([], [])
    | c :: r =>
      if c = '0' ∧ first then (go false true underscore r).map fun (ds, t) => (c :: ds, t)
      else if (Text.digitValue base c).isSome then
        if !first && leadingZero && !zeros then none
        else (go false leadingZero false r).map fun (ds, t) => (c :: ds, t)
      else if c = '_' ∧ first then none
      else if c = '_' ∧ !underscore then
        (go false leadingZero true r).map fun (ds, t) => (c :: ds, t)
      else if first || underscore then none
      else some ([], c :: r)

def withoutUnderscores (s : List Char) : List Char := s.filter (· != '_')

def integer (base : Nat) (word : List Char) : Option Node := do
  let (digits, rest) ← takeInteger (base = 10) (base ≠ 10) base word
  if rest.isEmpty then
    ((Text.readInteger base Text.maxI64 (withoutUnderscores digits)).toOption).map .integer
  else none

def takeExponent (marked : List Char) (r : List Char) : Option (List Char × List Char) :=
  if marked.isEmpty then do
    let r := match r with
      | '+' :: t => t
      | t => t
    let (word, r) ← takeBare r
    let (digits, rest) ← takeInteger false true 10 word
    if rest.isEmpty then some (digits, r) else none
  else do
    let (digits, rest) ← takeInteger true true 10 marked
    if rest.isEmpty then some (digits, r) else none

def takeFloat (word : List Char) (fraction : Option (List Char)) (r : List Char) :
    Option (Node × List Char) := do
  let (whole, rest) ← takeInteger true false 10 word
  let (digits, rest) ← match fraction with
    | none => some (whole, rest)
    | some f =>
      if rest.isEmpty then
        (takeInteger false true 10 f).map fun (ds, rest) => (whole ++ '.' :: ds, rest)
      else none
  let (digits, r) ← match rest with
    | [] => some (digits, r)
    | c :: marked =>
      if c = 'e' ∨ c = 'E' then
        (takeExponent marked r).map fun (e, r) => (digits ++ 'E' :: e, r)
      else none
  let x ← (Binary64.read (withoutUnderscores digits)).toOption
  if x.isInfinite then none else some (.float, r)

def takeNumber (word r : List Char) : Option (Node × List Char) :=
  match word with
  | '0' :: 'x' :: ds => (integer 16 ds).map (·, r)
  | '0' :: 'o' :: ds => (integer 8 ds).map (·, r)
  | '0' :: 'b' :: ds => (integer 2 ds).map (·, r)
  | _ =>
    if word.contains 'e' || word.contains 'E' then takeFloat word none r
    else match r with
      | '.' :: r => do
        let (fraction, r) ← takeBare r
        takeFloat word (some fraction) r
      | r =>
        if ["inf", "-inf", "nan", "-nan"].contains (String.ofList word) then some (.float, r)
        else (integer 10 word).map (·, r)

def takeMarked (mark : Char) : List Char → Option (List Char)
  | [] => some []
  | c :: r => if c = mark then (takeBare r).map Prod.snd else some (c :: r)

def takeMoment (colonRead : Bool) (r : List Char) : Option (Node × List Char) := do
  let r := match r with
    | ' ' :: t => ((takeBare t).map Prod.snd).getD r
    | _ => r
  let minutes? := if colonRead then some r else match r with
    | ':' :: t => some t
    | _ => none
  match minutes? with
  | none => return (.moment, r)
  | some r =>
    let (_, r) ← takeBare r
    let r ← match r with
      | ':' :: t => (takeBare t).map Prod.snd
      | _ => none
    let r ← takeMarked '.' r
    let r ← takeMarked '+' r
    let r ← takeMarked ':' r
    return (.moment, r)

def looksLikeMoment (word : List Char) : Bool :=
  word.contains 'T' || word.contains 't' ||
    ((word.drop 1).contains '-' && !holds 'e' word && !holds 'E' word)
where
  holds (mark : Char) : List Char → Bool
    | c :: r => (c = mark && r.head? == some '-') || holds mark r
    | [] => false

def takeWordValue (word r : List Char) : Option (Node × List Char) :=
  match String.ofList word with
  | "true" => some (.bool true, r)
  | "false" => some (.bool false, r)
  | s =>
    let first := word.headD ' '
    if s = "inf" ∨ s = "nan" ∨ first = '-' ∨ first.isDigit then
      if looksLikeMoment word then takeMoment false r
      else match r with
        | ':' :: r => takeMoment true r
        | r => takeNumber word r
    else none

/-! Values. -/

def skipLines : Nat → List Char → Option (List Char)
  | 0, _ => none
  | fuel + 1, s =>
    match skipBlanks s with
    | '\n' :: r => skipLines fuel r
    | '#' :: r => (endLine ('#' :: r)).bind (skipLines fuel)
    | r => some r

mutual
def takeValue : Nat → List Char → Option (Node × List Char)
  | 0, _ => none
  | _ + 1, [] => none
  | fuel + 1, c :: r =>
    if c = '"' ∨ c = '\'' then (takeText c r).map fun (_, s, r) => (.text s, r)
    else if c = '\x7b' then
      match skipBlanks r with
      | '\x7d' :: r => some (.table false [], r)
      | r => (takeEntries fuel [] r).map fun (es, r) => (.table false es, r)
    else if c = '[' then (takeItems fuel r).map fun (items, r) => (.list items, r)
    else if c = '+' then do
      let (word, r) ← takeBare r
      takeNumber word r
    else do
      let (word, r) ← takeBare (c :: r)
      takeWordValue word r

def takeItems : Nat → List Char → Option (List Node × List Char)
  | 0, _ => none
  | fuel + 1, s => do
    let s ← skipLines (s.length + 1) s
    match s with
    | ']' :: r => return ([], r)
    | s =>
      let (v, r) ← takeValue fuel s
      let r ← skipLines (r.length + 1) r
      match r with
      | ',' :: r =>
        let (vs, r) ← takeItems fuel r
        return (v :: vs, r)
      | ']' :: r => return ([v], r)
      | _ => none

def takeEntries : Nat → List (String × Node) → List Char →
    Option (List (String × Node) × List Char)
  | 0, _, _ => none
  | fuel + 1, done, s => do
    let (path, r) ← takePath (s.length + 1) s
    match skipBlanks r with
    | '=' :: r =>
      let (v, r) ← takeValue fuel (skipBlanks r)
      let done ← Node.addDotted path v done
      match skipBlanks r with
      | '\x7d' :: r => return (done, r)
      | ',' :: r => takeEntries fuel done (skipBlanks r)
      | _ => none
    | _ => none
end

/-! Lines. -/

def takeHeader (r : List Char) : Option ((Bool × List String) × List Char) := do
  let (array, r) := match r with
    | '[' :: t => (true, t)
    | t => (false, t)
  let (path, r) ← takePath (r.length + 1) (skipBlanks r)
  let r ← match array, r with
    | false, ']' :: r => some r
    | true, ']' :: ']' :: r => some r
    | _, _ => none
  return ((array, path), ← endLine (skipBlanks r))

def takeEntry (s : List Char) : Option ((List String × Node) × List Char) := do
  let (path, r) ← takePath (s.length + 1) s
  match r with
  | '=' :: r =>
    let (v, r) ← takeValue (2 * r.length + 2) (skipBlanks r)
    return ((path, v), ← endLine (skipBlanks r))
  | _ => none

structure Section where
  array : Bool := false
  path : List String := []
  entries : List (String × Node) := []

def readSections : Nat → Section → List Char → Option (List Section)
  | 0, _, _ => none
  | fuel + 1, current, s => do
    match ← skipLines (s.length + 1) s with
    | [] => return [current]
    | '[' :: r =>
      let ((array, path), r) ← takeHeader r
      return current :: (← readSections fuel { array, path } r)
    | s =>
      let ((path, value), r) ← takeEntry s
      let entries ← Node.addDotted path value current.entries
      readSections fuel { current with entries } r

def outline (start : Section) (sections : List Section) : Option Outline :=
  sections.foldlM (fun o s => Outline.add s.array s.entries s.path o) (.table true start.entries [])

def read (s : List Char) : Option Node := do
  let s := foldBreaks s
  let s := if s.head? = some '\uFEFF' then s.drop 1 else s
  match ← readSections (s.length + 1) {} s with
  | start :: sections => return (← outline start sections).node
  | [] => none

end HostVitals.Toml
