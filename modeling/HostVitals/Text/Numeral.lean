/-! Whole numbers written in decimal, read into a bounded range. -/
namespace HostVitals.Text

inductive NumeralError where
  | empty
  | invalidDigit
  | tooLarge
  | tooSmall
deriving DecidableEq, Repr

def NumeralError.message : NumeralError → String
  | .empty => "cannot parse integer from empty string"
  | .invalidDigit => "invalid digit found in string"
  | .tooLarge => "number too large to fit in target type"
  | .tooSmall => "number too small to fit in target type"

def digitValue (base : Nat) (c : Char) : Option Nat :=
  let n := c.toNat
  let v :=
    if 48 ≤ n ∧ n ≤ 57 then some (n - 48)
    else if 97 ≤ n ∧ n ≤ 122 then some (n - 87)
    else if 65 ≤ n ∧ n ≤ 90 then some (n - 55)
    else none
  v.filter (· < base)

def readDigits (base limit : Nat) (excess : NumeralError) (value : Nat) :
    List Char → Except NumeralError Nat
  | [] => .ok value
  | c :: r =>
    match digitValue base c with
    | none => .error .invalidDigit
    | some d =>
      if value * base + d ≤ limit then readDigits base limit excess (value * base + d) r
      else .error excess

def readNatural (base limit : Nat) : List Char → Except NumeralError Nat
  | [] => .error .empty
  | ['+'] => .error .invalidDigit
  | '+' :: r => readDigits base limit .tooLarge 0 r
  | s => readDigits base limit .tooLarge 0 s

def readInteger (base limit : Nat) : List Char → Except NumeralError Int
  | [] => .error .empty
  | ['+'] => .error .invalidDigit
  | ['-'] => .error .invalidDigit
  | '+' :: r => (readDigits base limit .tooLarge 0 r).map Int.ofNat
  | '-' :: r => (readDigits base (limit + 1) .tooSmall 0 r).map fun n => -(n : Int)
  | s => (readDigits base limit .tooLarge 0 s).map Int.ofNat

def maxU16 : Nat := UInt16.size - 1
def maxU64 : Nat := UInt64.size - 1
def maxI64 : Nat := UInt64.size / 2 - 1

def readU64 (s : List Char) : Except NumeralError Nat := readNatural 10 maxU64 s

def readI64 (s : List Char) : Except NumeralError Int := readInteger 10 maxI64 s

def u64? (s : List Char) : Option Nat := (readU64 s).toOption

def i64? (s : List Char) : Option Int := (readI64 s).toOption

end HostVitals.Text
