/-! Double-precision numbers as words of 64 bits. A finite one is a natural number over `2 ^ 1074`
with a sign; each operation is exact on these and then rounded to nearest, ties to even. -/
namespace HostVitals

structure Binary64 where
  bits : UInt64
deriving DecidableEq, Repr

namespace Binary64

def signWord : Nat := UInt64.size / 2

def leadingBit : Nat := Nat.pow 2 52

def infinityWord : Nat := 2047 * leadingBit

def negative (x : Binary64) : Bool := decide (signWord ≤ x.bits.toNat)

def magnitude (x : Binary64) : Nat := x.bits.toNat % signWord

def ofMagnitude (negative : Bool) (magnitude : Nat) : Binary64 :=
  ⟨UInt64.ofNat (if negative then signWord + magnitude else magnitude)⟩

def isNaN (x : Binary64) : Bool := decide (infinityWord < x.magnitude)

def isInfinite (x : Binary64) : Bool := decide (x.magnitude = infinityWord)

def isZero (x : Binary64) : Bool := decide (x.magnitude = 0)

def nan : Binary64 := ofMagnitude false (infinityWord + leadingBit / 2)

def infinity (negative : Bool) : Binary64 := ofMagnitude negative infinityWord

def zero : Binary64 := ofMagnitude false 0

instance : Inhabited Binary64 := ⟨zero⟩

def unit : Nat := Nat.pow 2 1074

def numerator (magnitude : Nat) : Nat :=
  let step := magnitude / leadingBit
  if step = 0 then magnitude else (magnitude % leadingBit + leadingBit) * Nat.pow 2 (step - 1)

def divideNearest (num den : Nat) : Nat :=
  let q := num / den
  let r := num % den
  if den < 2 * r ∨ (2 * r = den ∧ q % 2 = 1) then q + 1 else q

/-- The magnitude nearest to `num / den` over `unit`; infinity from the middle between the greatest
finite number and the next power of two on. A quotient of 53 binary places at step `s` is the word
`s * leadingBit + q`, and a quotient rounded up to 54 places runs over into the next step. -/
def roundMagnitude (num den : Nat) : Nat :=
  let low := num.log2 - den.log2 - 53
  let step := if 2 * leadingBit * (den * Nat.pow 2 low) ≤ num then low + 1 else low
  min infinityWord (step * leadingBit + divideNearest num (den * Nat.pow 2 step))

def ofRatio (negative : Bool) (num den : Nat) : Binary64 :=
  ofMagnitude negative (roundMagnitude (num * unit) den)

def ofNat (n : Nat) : Binary64 := ofRatio false n 1

def ofInt (i : Int) : Binary64 := ofRatio (decide (i < 0)) i.natAbs 1

def signed (x : Binary64) : Int :=
  if x.negative then -(numerator x.magnitude : Int) else numerator x.magnitude

def neg (x : Binary64) : Binary64 := ofMagnitude (!x.negative) x.magnitude

def add (x y : Binary64) : Binary64 :=
  if x.isNaN || y.isNaN then nan
  else if x.isInfinite then
    if y.isInfinite && x.negative != y.negative then nan else x
  else if y.isInfinite then y
  else
    let sum := x.signed + y.signed
    if sum = 0 then ofMagnitude (x.negative && y.negative) 0
    else ofMagnitude (decide (sum < 0)) (roundMagnitude sum.natAbs 1)

def sub (x y : Binary64) : Binary64 := add x (neg y)

def mul (x y : Binary64) : Binary64 :=
  let sign := x.negative != y.negative
  if x.isNaN || y.isNaN then nan
  else if x.isInfinite || y.isInfinite then
    if x.isZero || y.isZero then nan else infinity sign
  else ofMagnitude sign (roundMagnitude (numerator x.magnitude * numerator y.magnitude) unit)

def div (x y : Binary64) : Binary64 :=
  let sign := x.negative != y.negative
  if x.isNaN || y.isNaN then nan
  else if x.isInfinite then if y.isInfinite then nan else infinity sign
  else if y.isInfinite then ofMagnitude sign 0
  else if y.isZero then if x.isZero then nan else infinity sign
  else ofMagnitude sign (roundMagnitude (numerator x.magnitude * unit) (numerator y.magnitude))

def rank (x : Binary64) : Int := if x.negative then -(x.magnitude : Int) else x.magnitude

def lt (x y : Binary64) : Bool := !x.isNaN && !y.isNaN && decide (x.rank < y.rank)

end Binary64
end HostVitals
