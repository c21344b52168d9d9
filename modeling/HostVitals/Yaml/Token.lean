import HostVitals.Yaml.Tag
import HostVitals.Yaml.Written

/-! The tokens of a YAML text. Whether a text is a key only shows at the colon behind it: until then
it is a pending key, and the tokens for it are put in front of it later. -/
namespace HostVitals.Yaml

inductive Style where
  | plain | single | double | literal | folded
deriving DecidableEq, Repr

inductive Token where
  | directive (d : Directive)
  /-- Three dashes. -/
  | start
  /-- Three points. -/
  | finish
  | openBlockList
  | openBlockTable
  | closeBlock
  | openList
  | closeList
  | openTable
  | closeTable
  | item
  | comma
  | key
  | value
  | alias (name : String)
  | anchor (name : String)
  | tag (t : WrittenTag)
  | scalar (style : Style) (text : String)
deriving DecidableEq, Repr

structure PendingKey where
  /-- How many tokens stand before it. -/
  position : Nat
  /-- It stands where a table's next key has to stand. -/
  required : Bool
  line : Nat
  index : Nat
  column : Nat

structure Scanner where
  place : Cursor
  /-- Tokens so far, the latest first. -/
  tokens : List Token := []
  /-- The column of the innermost block; outside of all it is minus one. -/
  indent : Int := -1
  outer : List Int := []
  /-- The pending key outside brackets and inside each pair of brackets, the innermost first. -/
  pending : List (Option PendingKey) := [none]
  keyAllowed : Bool := true

namespace Scanner

def flow (s : Scanner) : Bool := 1 < s.pending.length

def emit (s : Scanner) (t : Token) : Scanner := { s with tokens := t :: s.tokens }

def emitBefore (s : Scanner) (position : Nat) (t : Token) : Scanner :=
  let later := s.tokens.length - position
  { s with tokens := s.tokens.take later ++ t :: s.tokens.drop later }

def dropStale (s : Scanner) : Option Scanner := do
  let stale (k : PendingKey) : Bool := k.line < s.place.line || k.index + 1024 < s.place.index
  let pending ← s.pending.mapM fun p => match p with
    | some k => if stale k then if k.required then none else some none else some (some k)
    | none => some none
  return { s with pending }

def dropPending (s : Scanner) : Option Scanner :=
  match s.pending with
  | some k :: rest => if k.required then none else some { s with pending := none :: rest }
  | _ => some s

def notePending (s : Scanner) : Option Scanner :=
  if !s.keyAllowed then some s
  else do
    let s ← s.dropPending
    let c := s.place
    let key : PendingKey := {
      position := s.tokens.length, line := c.line, index := c.index, column := c.column
      required := !s.flow && s.indent == (c.column : Int) }
    return { s with pending := some key :: s.pending.drop 1 }

def openBlock (s : Scanner) (column : Nat) (t : Token) (position : Option Nat := none) : Scanner :=
  if s.flow ∨ (column : Int) ≤ s.indent then s
  else
    let s := { s with indent := column, outer := s.indent :: s.outer }
    match position with
    | some p => s.emitBefore p t
    | none => s.emit t

def closeBlocks (column : Int) : Nat → Scanner → Scanner
  | 0, s => s
  | fuel + 1, s =>
    if s.flow ∨ s.indent ≤ column then s
    else closeBlocks column fuel { s.emit .closeBlock with
      indent := s.outer.headD (-1), outer := s.outer.drop 1 }

def closeTo (s : Scanner) (column : Int) : Scanner :=
  closeBlocks column (s.outer.length + 1) s

def takeSign (s : Scanner) (width : Nat) (t : Token) : Scanner :=
  { s.emit t with place := s.place.advance width }

def takeDocumentMark (s : Scanner) (t : Token) : Option Scanner := do
  let s ← (s.closeTo (-1)).dropPending
  return { s.takeSign 3 t with keyAllowed := false }

def takeOpening (s : Scanner) (t : Token) : Option Scanner := do
  let s ← s.notePending
  return { s.takeSign 1 t with pending := none :: s.pending, keyAllowed := true }

def takeClosing (s : Scanner) (t : Token) : Option Scanner := do
  let s ← s.dropPending
  let pending := match s.pending with
    | _ :: p :: rest => p :: rest
    | ps => ps
  return { s.takeSign 1 t with pending, keyAllowed := false }

def takeComma (s : Scanner) : Option Scanner := do
  let s ← s.dropPending
  return { s.takeSign 1 .comma with keyAllowed := true }

def takeDash (s : Scanner) : Option Scanner := do
  if !s.flow && !s.keyAllowed then none
  let s ← (s.openBlock s.place.column .openBlockList).dropPending
  return { s.takeSign 1 .item with keyAllowed := true }

def takeQuestion (s : Scanner) : Option Scanner := do
  if !s.flow && !s.keyAllowed then none
  let s ← (s.openBlock s.place.column .openBlockTable).dropPending
  return { s.takeSign 1 .key with keyAllowed := !s.flow }

def takeColon (s : Scanner) : Option Scanner :=
  match s.pending with
  | some k :: rest =>
    let s := (s.emitBefore k.position .key).openBlock k.column .openBlockTable (some k.position)
    some { s.takeSign 1 .value with pending := none :: rest, keyAllowed := false }
  | _ => do
    if !s.flow && !s.keyAllowed then none
    let s := s.openBlock s.place.column .openBlockTable
    return { s.takeSign 1 .value with keyAllowed := !s.flow }

def takeNamed (s : Scanner) (read : Cursor → Option (Token × Cursor)) : Option Scanner := do
  let s ← s.notePending
  let (t, c) ← read s.place
  return { s.emit t with place := c, keyAllowed := false }

def takeQuotedText (s : Scanner) (single : Bool) : Option Scanner :=
  s.takeNamed fun c => do
    let c := c.advance 1
    let (text, c) ← takeQuoted single (c.text.length + 1) [] c
    return (.scalar (if single then .single else .double) (String.ofList text), c)

def takePlainText (s : Scanner) : Option Scanner := do
  let s ← s.notePending
  let indent := (s.indent + 1).toNat
  let (text, newLine, c) ← takePlain s.flow indent (s.place.text.length + 1) [] {} s.place
  return { s.emit (.scalar .plain (String.ofList text)) with place := c, keyAllowed := newLine }

def takeBlockText (s : Scanner) (literal : Bool) : Option Scanner := do
  let s ← s.dropPending
  let outer := if s.indent < 0 then none else some s.indent.toNat
  let (text, c) ← takeBlock literal outer (s.place.advance 1)
  return { s.emit (.scalar (if literal then .literal else .folded) (String.ofList text)) with
    place := c, keyAllowed := true }

def takeDirectiveLine (s : Scanner) : Option Scanner := do
  let s ← (s.closeTo (-1)).dropPending
  let (d, c) ← takeDirective (s.place.advance 1)
  return { s.emit (.directive d) with place := c, keyAllowed := false }

def isSign (c : Char) : Bool := "-?:,[]\x7b\x7d#&*!|>'\"%@`".toList.contains c

def plainAhead (s : Scanner) (c : Char) (r : List Char) : Bool :=
  (!isSign c && !isBlank c) || (c = '-' && !(r.head?.any isBlank)) ||
    (!s.flow && (c = '?' || c = ':') && !gapAhead r)

def takeToken (s : Scanner) (c : Char) (r : List Char) : Option Scanner :=
  if s.place.column = 0 ∧ c = '%' then s.takeDirectiveLine
  else if s.place.atDocumentMark then s.takeDocumentMark (if c = '-' then .start else .finish)
  else if c = '[' then s.takeOpening .openList
  else if c = '\x7b' then s.takeOpening .openTable
  else if c = ']' then s.takeClosing .closeList
  else if c = '\x7d' then s.takeClosing .closeTable
  else if c = ',' then s.takeComma
  else if c = '-' ∧ gapAhead r then s.takeDash
  else if c = '?' ∧ (s.flow ∨ gapAhead r) then s.takeQuestion
  else if c = ':' ∧ (s.flow ∨ gapAhead r) then s.takeColon
  else if c = '*' then
    s.takeNamed fun c => (takeAnchor (c.advance 1)).map fun (n, c) => (.alias n, c)
  else if c = '&' then
    s.takeNamed fun c => (takeAnchor (c.advance 1)).map fun (n, c) => (.anchor n, c)
  else if c = '!' then s.takeNamed fun c => (takeTag s.flow c).map fun (t, c) => (.tag t, c)
  else if c = '|' ∧ !s.flow then s.takeBlockText true
  else if c = '>' ∧ !s.flow then s.takeBlockText false
  else if c = '\'' then s.takeQuotedText true
  else if c = '"' then s.takeQuotedText false
  else if s.plainAhead c r then s.takePlainText
  else none

def takeTokens : Nat → Scanner → Option (List Token)
  | 0, _ => none
  | fuel + 1, s => do
    let (c, keyAllowed) := s.place.toToken s.flow (s.place.text.length + 1) s.keyAllowed
    let s ← { s with place := c, keyAllowed }.dropStale
    let s := s.closeTo (c.column : Int)
    match c.text with
    | [] =>
      return (← (s.closeTo (-1)).dropPending).tokens.reverse
    | d :: r => takeTokens fuel (← s.takeToken d r)

end Scanner

/-- The tokens of a text, which may start with a byte order mark. Each token but those for blocks
takes at least one character. -/
def Token.ofText? (text : List Char) : Option (List Token) :=
  let text := if text.head? = some '\uFEFF' then text.drop 1 else text
  if text.all isAllowed then
    Scanner.takeTokens (text.length + 1) { place := { text } }
  else none

end HostVitals.Yaml
