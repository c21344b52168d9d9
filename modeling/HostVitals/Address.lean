import HostVitals.Text.Numeral

/-! Internet addresses: four octets, or eight groups of sixteen bits. -/
namespace HostVitals

inductive Address where
  | v4 (a b c d : Nat)
  /-- Eight groups. -/
  | v6 (groups : List Nat)
deriving DecidableEq, Repr

namespace Address

def takeNumber (base most : Nat) (zeroPrefix : Bool) (s : List Char) : Option (Nat × List Char) :=
  let digits := s.takeWhile fun c => (Text.digitValue base c).isSome
  let n := digits.foldl (fun n c => n * base + (Text.digitValue base c).getD 0) 0
  if digits.isEmpty ∨ most < digits.length then none
  else if !zeroPrefix ∧ digits.head? = some '0' ∧ 1 < digits.length then none
  else some (n, s.drop digits.length)

def takeChar (c : Char) : List Char → Option (List Char)
  | [] => none
  | d :: r => if d = c then some r else none

def takeOctet (s : List Char) : Option (Nat × List Char) :=
  (takeNumber 10 3 false s).filter fun r => r.1 ≤ 255

def takeV4 (s : List Char) : Option ((Nat × Nat × Nat × Nat) × List Char) := do
  let (a, s) ← takeOctet s
  let (b, s) ← takeOctet (← takeChar '.' s)
  let (c, s) ← takeOctet (← takeChar '.' s)
  let (d, s) ← takeOctet (← takeChar '.' s)
  return ((a, b, c, d), s)

def takeGroups (limit : Nat) (first : Bool) (s : List Char) : List Nat × Bool × List Char :=
  match limit with
  | 0 => ([], false, s)
  | n + 1 =>
    let start := if first then some s else takeChar ':' s
    let octets := if n = 0 then none else start.bind takeV4
    match octets with
    | some ((a, b, c, d), r) => ([a * 256 + b, c * 256 + d], true, r)
    | none =>
      match start.bind (takeNumber 16 4 true) with
      | some (g, r) =>
        let (gs, ended, r) := takeGroups n false r
        (g :: gs, ended, r)
      | none => ([], false, s)

def takeV6 (s : List Char) : Option (List Nat × List Char) :=
  let (head, ended, r) := takeGroups 8 true s
  if head.length = 8 then some (head, r)
  else if ended then none
  else do
    let r ← takeChar ':' (← takeChar ':' r)
    let (tail, _, r) := takeGroups (7 - head.length) true r
    return (head ++ List.replicate (8 - head.length - tail.length) 0 ++ tail, r)

def read (s : List Char) : Option Address :=
  match takeV4 s with
  | some ((a, b, c, d), []) => some (v4 a b c d)
  | _ =>
    match takeV6 s with
    | some (gs, []) => some (v6 gs)
    | _ => none

def v4Text (a b c d : Nat) : String :=
  String.intercalate "." [toString a, toString b, toString c, toString d]

def groupText (g : Nat) : String := String.ofList (Nat.toDigits 16 g)

def groupsText (gs : List Nat) : String := String.intercalate ":" (gs.map groupText)

def longestZeros (gs : List Nat) : Nat × Nat :=
  let run (i : Nat) : Nat := ((gs.drop i).takeWhile (· == 0)).length
  (List.range gs.length).foldl (fun best i => if best.2 < run i then (i, run i) else best) (0, 0)

def text : Address → String
  | v4 a b c d => v4Text a b c d
  | v6 [0, 0, 0, 0, 0, 0xFFFF, x, y] =>
    "::ffff:" ++ v4Text (x / 256) (x % 256) (y / 256) (y % 256)
  | v6 gs =>
    let (start, length) := longestZeros gs
    if 1 < length then
      groupsText (gs.take start) ++ "::" ++ groupsText (gs.drop (start + length))
    else groupsText gs

end Address

structure Endpoint where
  address : Address
  port : Nat
deriving DecidableEq, Repr

namespace Endpoint

def readPort (s : List Char) : Option Nat := do
  let digits ← Address.takeChar ':' s
  if digits.isEmpty ∨ !digits.all Char.isDigit then none
  (Text.readDigits 10 Text.maxU16 .tooLarge 0 digits).toOption

def read (s : List Char) : Option Endpoint :=
  match Address.takeV4 s with
  | some ((a, b, c, d), r) => (readPort r).map (⟨.v4 a b c d, ·⟩)
  | none => do
    let (gs, r) ← Address.takeV6 (← Address.takeChar '[' s)
    let r ← match r with
      | '%' :: scope =>
        let digits := scope.takeWhile Char.isDigit
        if digits.isEmpty then none
        else (Text.readDigits 10 (UInt32.size - 1) .tooLarge 0 digits).toOption.map fun _ =>
          scope.drop digits.length
      | _ => some r
    let port ← readPort (← Address.takeChar ']' r)
    return ⟨.v6 gs, port⟩

end Endpoint
end HostVitals
