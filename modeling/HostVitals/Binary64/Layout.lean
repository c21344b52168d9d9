import HostVitals.Binary64.Decimal

/-! The text of a double: its shortest digits set out by the rules of a format, or a fixed number
of places. -/
namespace HostVitals.Binary64

/-- What a format decides about the text of a number. The point's place is the number of digits
before it, negative when zeros follow it. -/
structure Layout where
  /-- Whether a number with its point at this place is written without an exponent. -/
  positional : Int → Bool
  /-- What follows the digits of a whole number without an exponent. -/
  wholeMark : String
  nan : String
  infinity : String
  /-- Whether a sign is shown on what is not a number. -/
  signedNaN : Bool

def zeros (n : Nat) : String := String.ofList (List.replicate n '0')

def Layout.write (l : Layout) (digits : String) (place : Int) : String :=
  let n := digits.length
  if l.positional place then
    if place ≤ 0 then "0." ++ zeros (-place).toNat ++ digits
    else if (n : Int) ≤ place then digits ++ zeros (place.toNat - n) ++ l.wholeMark
    else
      let cs := digits.toList
      String.ofList (cs.take place.toNat) ++ "." ++ String.ofList (cs.drop place.toNat)
  else
    let e := toString (place - 1)
    match digits.toList with
    | [] => ""
    | [c] => String.ofList [c] ++ "e" ++ e
    | c :: r => String.ofList (c :: '.' :: r) ++ "e" ++ e

def Layout.render (l : Layout) (x : Binary64) : String :=
  let sign := if x.negative then "-" else ""
  if x.isNaN then if l.signedNaN then sign ++ l.nan else l.nan
  else if x.isInfinite then sign ++ l.infinity
  else if x.isZero then sign ++ "0" ++ l.wholeMark
  else
    let d := shortest x.magnitude
    let digits := toString d.digits
    sign ++ l.write digits (d.exponent + digits.length)

def fixed (places : Nat) (x : Binary64) : String :=
  let sign := if x.negative then "-" else ""
  if x.isNaN then "NaN"
  else if x.isInfinite then sign ++ "inf"
  else
    let n := atPlaces places x.magnitude
    let whole := toString (n / Nat.pow 10 places)
    if places = 0 then sign ++ whole
    else
      let part := toString (n % Nat.pow 10 places)
      sign ++ whole ++ "." ++ zeros (places - part.length) ++ part

def plain : Layout := ⟨fun _ => true, "", "NaN", "inf", false⟩

end HostVitals.Binary64
