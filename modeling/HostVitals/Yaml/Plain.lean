import HostVitals.Binary64.Decimal
import HostVitals.Text.Numeral

/-! What a text without quotes stands for in YAML, besides itself. -/
namespace HostVitals.Yaml.Plain

open Text

def isNull (s : String) : Bool := s = "null" || s = "Null" || s = "NULL" || s = "~"

def truth? (s : String) : Option Bool :=
  if s = "true" ∨ s = "True" ∨ s = "TRUE" then some true
  else if s = "false" ∨ s = "False" ∨ s = "FALSE" then some false
  else none

def startsWithSign : List Char → Bool
  | c :: _ => c = '+' || c = '-'
  | [] => false

def isPadded (s : List Char) : Bool :=
  let digits := match s with
    | '+' :: r => r
    | '-' :: r => r
    | r => r
  match digits with
  | '0' :: c :: r => (c :: r).all Char.isDigit
  | _ => false

def readMarked (limit : Nat) (mark : Char) (base : Nat) (s : List Char) : Option Nat :=
  match s with
  | '0' :: c :: r => if c = mark then (readNatural base limit r).toOption else none
  | _ => none

def natural? (limit : Nat) (s : String) : Option Nat :=
  let cs := s.toList
  let r := match cs with
    | '+' :: t => t
    | t => t
  let marked := match r with
    | '0' :: _ :: t => if startsWithSign t then none
      else (readMarked limit 'x' 16 r).or ((readMarked limit 'o' 8 r).or (readMarked limit 'b' 2 r))
    | _ => none
  match marked with
  | some n => some n
  | none =>
    if startsWithSign r ∨ isPadded cs then none else (readNatural 10 limit r).toOption

def isNegative (limit : Nat) (s : String) : Bool :=
  let marked (mark : Char) (base : Nat) (r : List Char) : Bool :=
    match r with
    | '0' :: c :: t => c = mark && (readInteger base limit ('-' :: t)).isOk
    | _ => false
  match s.toList with
  | '-' :: r =>
    marked 'x' 16 r || marked 'o' 8 r || marked 'b' 2 r ||
      (!isPadded ('-' :: r) && (readInteger 10 limit ('-' :: r)).isOk)
  | _ => false

def isFloat (s : String) : Bool :=
  let cs := s.toList
  let r := match cs with
    | '+' :: t => t
    | t => t
  if cs.head? = some '+' ∧ startsWithSign r then false
  else
    let word := String.ofList r
    [".inf", ".Inf", ".INF"].contains word || ["-.inf", "-.Inf", "-.INF"].contains s ||
      [".nan", ".NaN", ".NAN"].contains s ||
      (match Binary64.read r with
        | .ok x => !x.isNaN && !x.isInfinite
        | .error _ => false)

def signedBound : Nat := UInt64.size * (UInt64.size / 2)

def isTaken (s : String) : Bool :=
  s = "" || isNull s || (truth? s).isSome || (natural? (2 * signedBound - 1) s).isSome ||
    isNegative (signedBound - 1) s || isPadded s.toList || isFloat s

end HostVitals.Yaml.Plain
