import HostVitals.Yaml.Chars

/-! A place in a YAML text, and what stands between two words. -/
namespace HostVitals.Yaml

structure Cursor where
  text : List Char
  index : Nat := 0
  line : Nat := 0
  column : Nat := 0

namespace Cursor

def advance (c : Cursor) (n : Nat) : Cursor :=
  { c with text := c.text.drop n, index := c.index + n, column := c.column + n }

def takeWhile (c : Cursor) (p : Char → Bool) : List Char × Cursor :=
  let taken := c.text.takeWhile p
  (taken, c.advance taken.length)

def skipWhile (c : Cursor) (p : Char → Bool) : Cursor := (c.takeWhile p).2

def nextLine (c : Cursor) : Cursor :=
  match c.text with
  | [] => c
  | b :: r =>
    let rest := afterBreak b r
    { text := rest, index := c.index + 1 + (r.length - rest.length), line := c.line + 1 }

def skipComment (c : Cursor) : Cursor :=
  match c.text with
  | '#' :: _ => c.skipWhile fun d => !isBreak d
  | _ => c

def endLine (c : Cursor) : Option Cursor :=
  let c := (c.skipWhile isBlank).skipComment
  match c.text with
  | [] => some c
  | b :: _ => if isBreak b then some c.nextLine else none

def atDocumentMark (c : Cursor) : Bool := c.column = 0 && documentMark c.text

/-- To the next token. Tabs count as blanks only where no key may start. Outside brackets a new line
may start a key; the flag says whether one may start where the next token stands. -/
def toToken (flow : Bool) : Nat → Bool → Cursor → Cursor × Bool
  | 0, keyAllowed, c => (c, keyAllowed)
  | fuel + 1, keyAllowed, c =>
    let c := if c.index = 0 ∧ c.text.head? = some '\uFEFF' then c.advance 1 else c
    let c := (c.skipWhile fun d => d = ' ' || ((flow || !keyAllowed) && d = '\t')).skipComment
    match c.text with
    | b :: _ =>
      if isBreak b then toToken flow fuel (keyAllowed || !flow) c.nextLine else (c, keyAllowed)
    | [] => (c, keyAllowed)

end Cursor

structure Gap where
  blanks : List Char := []
  /-- The first line break; empty if it was taken back by a backslash. -/
  first : Option (List Char) := none
  more : List Char := []

namespace Gap

def text (g : Gap) : List Char :=
  match g.first with
  | none => g.blanks
  | some first =>
    if first = ['\n'] then if g.more.isEmpty then [' '] else g.more
    else first ++ g.more

def addBreak (g : Gap) (b : Char) : Gap :=
  match g.first with
  | none => { first := some [keptBreak b] }
  | some _ => { g with more := g.more ++ [keptBreak b] }

def read (indent : Nat) : Nat → Gap → Cursor → Option (Gap × Cursor)
  | 0, _, _ => none
  | fuel + 1, g, c =>
    match c.text with
    | d :: _ =>
      if isBlank d then
        if g.first.isSome then
          if d = '\t' ∧ c.column < indent then none else read indent fuel g (c.advance 1)
        else read indent fuel { g with blanks := g.blanks ++ [d] } (c.advance 1)
      else if isBreak d then read indent fuel (g.addBreak d) c.nextLine
      else some (g, c)
    | [] => some (g, c)

end Gap
end HostVitals.Yaml
