import HostVitals.Text.Numeral
import HostVitals.Yaml.Cursor

/-! The texts of a YAML document as they are written: plain, in quotes, or as a block of lines. -/
namespace HostVitals.Yaml

/-! Plain texts. -/

def isFlowMark (c : Char) : Bool := c = ',' || c = '[' || c = ']' || c = '\x7b' || c = '\x7d'

def plainWord (flow : Bool) : List Char → Option (List Char)
  | [] => some []
  | c :: r =>
    if isGap c then some []
    else if flow && c = ':' && (r.head?.any fun d => isFlowMark d || d = '?') then none
    else if (c = ':' && gapAhead r) || (flow && isFlowMark c) then some []
    else (plainWord flow r).map (c :: ·)

def takePlain (flow : Bool) (indent : Nat) :
    Nat → List Char → Gap → Cursor → Option (List Char × Bool × Cursor)
  | 0, _, _, _ => none
  | fuel + 1, done, gap, c =>
    if c.atDocumentMark || c.text.head? == some '#' then some (done, gap.first.isSome, c)
    else do
      let word ← plainWord flow c.text
      let c := c.advance word.length
      let (done, gap) := if word.isEmpty then (done, gap) else (done ++ gap.text ++ word, {})
      match c.text with
      | [] => return (done, gap.first.isSome, c)
      | d :: _ =>
        if !isGap d then return (done, gap.first.isSome, c)
        else
          let (gap, c) ← gap.read indent (c.text.length + 1) c
          if !flow && c.column < indent then return (done, gap.first.isSome, c)
          else takePlain flow indent fuel done gap c

/-! Texts in quotes. -/

def shortEscape (c : Char) : Option Char :=
  if c = '0' then some '\x00' else if c = 'a' then some '\x07' else if c = 'b' then some '\x08'
  else if c = 't' ∨ c = '\t' then some '\t' else if c = 'n' then some '\n'
  else if c = 'v' then some '\x0b' else if c = 'f' then some '\x0c' else if c = 'r' then some '\r'
  else if c = 'e' then some '\x1b' else if c = ' ' ∨ c = '"' ∨ c = '/' ∨ c = '\\' then some c
  else if c = 'N' then some '\u0085' else if c = '_' then some '\u00A0'
  else if c = 'L' then some '\u2028' else if c = 'P' then some '\u2029' else none

def codeWidth (c : Char) : Option Nat :=
  if c = 'x' then some 2 else if c = 'u' then some 4 else if c = 'U' then some 8 else none

def takeCode (width : Nat) (s : List Char) : Option (Char × List Char) :=
  let digits := s.take width
  if digits.length = width ∧ digits.all fun c => (Text.digitValue 16 c).isSome then
    let n := digits.foldl (fun n c => n * 16 + (Text.digitValue 16 c).getD 0) 0
    if n < 0xD800 ∨ (0xE000 ≤ n ∧ n < 0x110000) then some (Char.ofNat n, s.drop width) else none
  else none

inductive RunEnd where
  | quote
  | gap
  /-- A backslash right before a line break. -/
  | takenBack
deriving DecidableEq, Repr

def quotedRun (single : Bool) : Nat → List Char → Option (List Char × RunEnd × List Char)
  | 0, _ => none
  | _ + 1, [] => some ([], .gap, [])
  | fuel + 1, c :: r =>
    let after (d : Char) (r : List Char) : Option (List Char × RunEnd × List Char) :=
      (quotedRun single fuel r).map fun (ds, e, r) => (d :: ds, e, r)
    if isGap c then some ([], .gap, c :: r)
    else if single then
      if c = '\'' then
        match r with
        | '\'' :: r => after '\'' r
        | r => some ([], .quote, r)
      else after c r
    else if c = '"' then some ([], .quote, r)
    else if c = '\\' then
      match r with
      | [] => none
      | e :: r =>
        if isBreak e then some ([], .takenBack, e :: r)
        else match shortEscape e, codeWidth e with
          | some d, _ => after d r
          | none, some width => (takeCode width r).bind fun (d, r) => after d r
          | none, none => none
    else after c r

def takeQuoted (single : Bool) : Nat → List Char → Cursor → Option (List Char × Cursor)
  | 0, _, _ => none
  | fuel + 1, done, c =>
    if c.atDocumentMark || c.text.isEmpty then none
    else do
      let (run, ending, rest) ← quotedRun single (c.text.length + 1) c.text
      let c := c.advance (c.text.length - rest.length)
      match ending with
      | .quote => return (done ++ run, c)
      | .gap =>
        let (gap, c) ← Gap.read 0 (c.text.length + 1) {} c
        takeQuoted single fuel (done ++ run ++ gap.text) c
      | .takenBack =>
        let (gap, c) ← Gap.read 0 (c.text.length + 1) { first := some [] } c.nextLine
        takeQuoted single fuel (done ++ run ++ gap.text) c

/-! Blocks of lines. -/

inductive Chomp where
  | strip | clip | keep
deriving DecidableEq, Repr

def chompMark (c : Char) : Option Chomp :=
  if c = '-' then some .strip else if c = '+' then some .keep else none

def indentMark (c : Char) : Option Nat :=
  if c.isDigit ∧ c ≠ '0' then some (c.toNat - 48) else none

def takeMarks (s : List Char) : Option (Chomp × Option Nat × Nat) :=
  match s with
  | a :: b :: _ =>
    match chompMark a, indentMark a, chompMark b, indentMark b with
    | some k, _, _, some n => some (k, some n, 2)
    | some k, _, _, none => if b = '0' then none else some (k, none, 1)
    | none, some n, some k, _ => some (k, some n, 2)
    | none, some n, none, _ => some (.clip, some n, 1)
    | none, none, _, _ => if a = '0' then none else some (.clip, none, 0)
  | [a] =>
    match chompMark a, indentMark a with
    | some k, _ => some (k, none, 1)
    | none, some n => some (.clip, some n, 1)
    | none, none => if a = '0' then none else some (.clip, none, 0)
  | [] => some (.clip, none, 0)

def skipIndent (indent : Option Nat) :
    Nat → List Char → Nat → Cursor → Option (List Char × Nat × Cursor)
  | 0, _, _, _ => none
  | fuel + 1, breaks, widest, c =>
    let room : Nat := match indent with
      | none => c.text.length
      | some n => n - c.column
    let c := c.advance ((c.text.take room).takeWhile (· == ' ')).length
    let widest := max widest c.column
    let short : Bool := match indent with
      | none => true
      | some n => decide (c.column < n)
    match c.text with
    | d :: _ =>
      if short && d = '\t' then none
      else if isBreak d then skipIndent indent fuel (breaks ++ [keptBreak d]) widest c.nextLine
      else some (breaks, widest, c)
    | [] => some (breaks, widest, c)

def takeBreak (c : Cursor) : List Char × Cursor :=
  match c.text with
  | [] => ([], c)
  | b :: _ => ([keptBreak b], c.nextLine)

/-- The lines of a block at its indentation. `pending` is the break before this line and `breaks`
the empty lines between; in a folded block a single break between two lines that do not start with
a blank becomes a blank. -/
def takeLines (literal : Bool) (indent : Nat) (chomp : Chomp) :
    Nat → List Char → Bool → List Char → List Char → Cursor → Option (List Char × Cursor)
  | 0, _, _, _, _, _ => none
  | fuel + 1, done, blankBefore, pending, breaks, c =>
    if c.column ≠ indent ∨ c.text.isEmpty then
      some (done ++ (if chomp = .strip then [] else pending) ++
        (if chomp = .keep then breaks else []), c)
    else do
      let blankHere := c.text.head?.any isBlank
      let joint :=
        if !literal && pending == ['\n'] && !blankBefore && !blankHere then
          if breaks.isEmpty then [' '] else []
        else pending
      let (line, c) := c.takeWhile fun d => !isBreak d
      let (pending, c) := takeBreak c
      let (newBreaks, _, c) ← skipIndent (some indent) (c.text.length + 1) [] 0 c
      takeLines literal indent chomp fuel (done ++ joint ++ breaks ++ line) blankHere pending
        newBreaks c

def takeBlock (literal : Bool) (outer : Option Nat) (c : Cursor) : Option (List Char × Cursor) := do
  let (chomp, mark, width) ← takeMarks c.text
  let c ← (c.advance width).endLine
  let least := match outer with
    | some n => n + 1
    | none => 0
  let fixed := mark.map fun n => (outer.getD 0) + n
  let (breaks, widest, c) ← skipIndent fixed (c.text.length + 1) [] 0 c
  let indent := fixed.getD (max (max widest least) 1)
  takeLines literal indent chomp (c.text.length + 1) [] false [] breaks c

end HostVitals.Yaml
