/-! Blank characters, and the cuts of a text that they make: words, trimmed texts and lines. -/
namespace HostVitals.Text

/-- The characters with the Unicode property `White_Space`. -/
def isBlank (c : Char) : Bool :=
  let n := c.toNat
  (9 ≤ n && n ≤ 13) || n == 32 || n == 0x85 || n == 0xA0 || n == 0x1680 ||
    (0x2000 ≤ n && n ≤ 0x200A) || n == 0x2028 || n == 0x2029 || n == 0x202F ||
    n == 0x205F || n == 0x3000

def consHead (c : Char) : List (List Char) → List (List Char)
  | [] => [[c]]
  | w :: ws => (c :: w) :: ws

def words : List Char → List (List Char)
  | [] => []
  | c :: r =>
    if isBlank c then words r
    else match r with
      | [] => [[c]]
      | d :: _ => if isBlank d then [c] :: words r else consHead c (words r)

def trimStart (s : List Char) : List Char := s.dropWhile isBlank

def dropEndWhile (p : Char → Bool) (s : List Char) : List Char :=
  (s.reverse.dropWhile p).reverse

def trimEnd (s : List Char) : List Char := dropEndWhile isBlank s

def trim (s : List Char) : List Char := trimEnd (trimStart s)

def chomp : List Char → List Char
  | [] => []
  | ['\r'] => []
  | c :: r => c :: chomp r

def splitNewlines : List Char → List (List Char)
  | [] => [[]]
  | c :: r => if c = '\n' then [] :: splitNewlines r else consHead c (splitNewlines r)

/-- Lines end in a newline or in a carriage return and a newline; the last one may have neither.
A text that ends in a newline has no empty line after it. -/
def lines (s : List Char) : List (List Char) :=
  go (splitNewlines s)
where
  go : List (List Char) → List (List Char)
    | [] => []
    | [last] => if last.isEmpty then [] else [last]
    | l :: ls => chomp l :: go ls

def stripStart (pre s : List Char) : Option (List Char) :=
  match pre, s with
  | [], s => some s
  | _ :: _, [] => none
  | p :: ps, c :: cs => if p = c then stripStart ps cs else none

def startsWith (pre s : List Char) : Bool := (stripStart pre s).isSome

def endsWith (post s : List Char) : Bool := startsWith post.reverse s.reverse

def cutAt (c : Char) : List Char → Option (List Char × List Char)
  | [] => none
  | x :: r => if x = c then some ([], r) else (cutAt c r).map fun (a, b) => (x :: a, b)

end HostVitals.Text
