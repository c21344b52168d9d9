import HostVitals.Text.Numeral
import HostVitals.Binary64.Basic

/-! Doubles and decimals: the double nearest to a decimal, the fewest digits that read back,
rounding to a fixed number of places, and the decimal texts that are read. -/
namespace HostVitals.Binary64

def magnitudeOfDecimal (digits : Nat) (exponent : Int) : Nat :=
  if 0 ≤ exponent then roundMagnitude (digits * Nat.pow 10 exponent.toNat * unit) 1
  else roundMagnitude (digits * unit) (Nat.pow 10 (-exponent).toNat)

def digitCount (n : Nat) : Nat := if n = 0 then 0 else (Nat.toDigits 10 n).length

def ofDecimal (negative : Bool) (digits : Nat) (exponent : Int) : Binary64 :=
  let place := (digitCount digits : Int) + exponent
  if digits = 0 ∨ place < -330 then ofMagnitude negative 0
  else if 330 < place then infinity negative
  else ofMagnitude negative (magnitudeOfDecimal digits exponent)

structure Decimal where
  digits : Nat
  exponent : Int
deriving DecidableEq, Repr

def leadingPlace (num den : Nat) : Int :=
  if den ≤ num then (digitCount (num / den) : Int) - 1
  else -(digitCount ((den + num - 1) / num - 1) : Int)

def floorAt (num den : Nat) (exponent : Int) : Nat :=
  if 0 ≤ exponent then num / (den * Nat.pow 10 exponent.toNat)
  else num * Nat.pow 10 (-exponent).toNat / den

def lowerIsNearer (num den a : Nat) (exponent : Int) : Bool :=
  if 0 ≤ exponent then decide (2 * num ≤ (2 * a + 1) * (den * Nat.pow 10 exponent.toNat))
  else decide (2 * (num * Nat.pow 10 (-exponent).toNat) ≤ (2 * a + 1) * den)

def readsBack (magnitude : Nat) (exponent : Int) : Option Decimal :=
  let num := numerator magnitude
  let a := floorAt num unit exponent
  let low := decide (magnitudeOfDecimal a exponent = magnitude)
  let high := decide (magnitudeOfDecimal (a + 1) exponent = magnitude)
  if low && (!high || lowerIsNearer num unit a exponent) then some ⟨a, exponent⟩
  else if high then some ⟨a + 1, exponent⟩
  else none

def Decimal.normal (d : Decimal) : Nat → Decimal
  | 0 => d
  | fuel + 1 =>
    if d.digits ≠ 0 ∧ d.digits % 10 = 0 then Decimal.normal ⟨d.digits / 10, d.exponent + 1⟩ fuel
    else d

/-- The fewest digits that read back as a positive finite magnitude: grids are tried from the
coarsest, and seventeen digits always suffice. -/
def shortest (magnitude : Nat) : Decimal :=
  let top := leadingPlace (numerator magnitude) unit
  (go top 0 17).normal 20
where
  go (top : Int) (count : Nat) : Nat → Decimal
    | 0 => ⟨floorAt (numerator magnitude) unit (top - 16), top - 16⟩
    | fuel + 1 =>
      match readsBack magnitude (top - count) with
      | some d => d
      | none => go top (count + 1) fuel

def atPlaces (places : Nat) (magnitude : Nat) : Nat :=
  divideNearest (numerator magnitude * Nat.pow 10 places) unit

inductive ReadError where
  | empty
  | invalid
deriving DecidableEq, Repr

def ReadError.message : ReadError → String
  | .empty => "cannot parse float from empty string"
  | .invalid => "invalid float literal"

def takeDigits (value count : Nat) : List Char → Nat × Nat × List Char
  | [] => (value, count, [])
  | c :: r =>
    match Text.digitValue 10 c with
    | some d => takeDigits (value * 10 + d) (count + 1) r
    | none => (value, count, c :: r)

def readExponent : List Char → Option Int
  | [] => some 0
  | c :: r =>
    if c = 'e' ∨ c = 'E' then
      let (negative, s) := match r with
        | '-' :: t => (true, t)
        | '+' :: t => (false, t)
        | t => (false, t)
      match takeDigits 0 0 s with
      | (_, 0, _) => none
      | (n, _, []) => some (if negative then -(n : Int) else n)
      | _ => none
    else none

def readUnsigned (negative : Bool) (s : List Char) : Except ReadError Binary64 :=
  let word := s.map Char.toLower
  if word = "inf".toList ∨ word = "infinity".toList then .ok (infinity negative)
  else if word = "nan".toList then .ok (if negative then neg nan else nan)
  else
    let (whole, n, r) := takeDigits 0 0 s
    let (digits, m, r) := match r with
      | '.' :: t => takeDigits whole 0 t
      | t => (whole, 0, t)
    if n + m = 0 then .error .invalid
    else match readExponent r with
      | some e => .ok (ofDecimal negative digits (e - m))
      | none => .error .invalid

def read : List Char → Except ReadError Binary64
  | [] => .error .empty
  | '-' :: r => readUnsigned true r
  | '+' :: r => readUnsigned false r
  | s => readUnsigned false s

end HostVitals.Binary64
