import HostVitals.Fault
import HostVitals.Named
import HostVitals.Text.Blank

/-! Files by path. Absolute paths name what the host shows of itself, relative ones files in the
working directory. Directories above a file exist without being listed. -/
namespace HostVitals

inductive FileEntry where
  | text (content : String)
  /-- So many bytes that are not UTF-8. -/
  | binary (size : Nat)
  | directory
deriving DecidableEq, Repr

/-- Each opening of a path takes the next content; the last one stays. -/
structure FileTree where
  files : Named (List FileEntry) := {}

namespace FileTree

instance : Inhabited FileTree := ⟨{}⟩

def resolveParts (absolute : Bool) : List String → List String → List String
  | [], done => done.reverse
  | "" :: r, done => resolveParts absolute r done
  | "." :: r, done => resolveParts absolute r done
  | ".." :: r, done =>
    match done with
    | [] => resolveParts absolute r (if absolute then [] else [".."])
    | ".." :: _ => resolveParts absolute r (".." :: done)
    | _ :: up => resolveParts absolute r up
  | p :: r, done => resolveParts absolute r (p :: done)

def splitSlashes (s : List Char) : List (List Char) :=
  match s with
  | [] => [[]]
  | c :: r =>
    if c = '/' then [] :: splitSlashes r
    else match splitSlashes r with
      | [] => [[c]]
      | w :: ws => (c :: w) :: ws

def parts (path : String) : List String := (splitSlashes path.toList).map String.ofList

def isAbsolute (path : String) : Bool := path.toList.head? == some '/'

def joinParts (absolute : Bool) (ps : List String) : String :=
  (if absolute then "/" else "") ++ String.intercalate "/" ps

def normal (path : String) : String :=
  joinParts (isAbsolute path) (resolveParts (isAbsolute path) (parts path) [])

def ofList (l : List (String × List FileEntry)) : FileTree :=
  { files := Named.ofList (l.map fun e => (normal e.1, e.2)) }

def below (directory : String) : String :=
  if directory = "" ∨ directory = "/" then directory else directory ++ "/"

def names (t : FileTree) (directory : String) : List String :=
  let pre := (below directory).toList
  let found := t.files.keys.filterMap fun k => do
    let rest ← Text.stripStart pre k.toList
    if directory = "" ∧ isAbsolute k then none
    let name := (splitSlashes rest).headD []
    if name.isEmpty then none else some (String.ofList name)
  found.eraseDups.mergeSort fun a b => decide (a ≤ b)

def lookup (t : FileTree) (path : String) : Option FileEntry :=
  match t.files.find? path with
  | some (e :: _) => some e
  | _ =>
    if (parts path).all (fun p => p = "" || p = "..") || !(t.names path).isEmpty then some .directory
    else none

def walk (t : FileTree) (absolute : Bool) (done : List String) :
    List String → Except IoError FileEntry
  | [] => match t.lookup (joinParts absolute done) with
    | some e => .ok e
    | none => .error .notFound
  | p :: rest =>
    match t.lookup (joinParts absolute done) with
    | none => .error .notFound
    | some .directory =>
      if 255 < p.utf8ByteSize then .error .nameTooLong
      else walk t absolute (resolveParts absolute (done ++ [p]) []) rest
    | some _ => .error (if absolute then .notFound else .notDirectory)

def find (t : FileTree) (path : String) : Except IoError FileEntry :=
  if path.toList.contains '\x00' then .error .nulInName
  else if path = "" then .error .notFound
  else
    let absolute := isAbsolute path
    let ps := parts path
    match t.walk absolute [] (ps.filter fun p => p ≠ "" ∧ p ≠ ".") with
    | .error e => .error e
    | .ok .directory => .ok .directory
    | .ok e =>
      if ps.getLast? = some "" ∨ ps.getLast? = some "." then .error .notDirectory else .ok e

def exists? (t : FileTree) (path : String) : Bool :=
  match t.find path with
  | .ok _ => true
  | .error _ => false

def opened (t : FileTree) (path : String) : FileTree :=
  match t.files.find? path with
  | some (_ :: e :: es) => { files := t.files.insert path (e :: es) }
  | _ => t

def read (t : FileTree) (path : String) : Except IoError String × FileTree :=
  match t.find path with
  | .error e => (.error e, t)
  | .ok e =>
    (match e with
      | .text s => .ok s
      | .binary _ => .error .notUtf8
      | .directory => .error .isDirectory,
    t.opened (normal path))

def list (t : FileTree) (path : String) : Except IoError (List String) :=
  match t.find path with
  | .error e => .error e
  | .ok .directory => .ok (t.names (normal path))
  | .ok _ => .error .notDirectory

def write (t : FileTree) (path content : String) : Except IoError FileTree :=
  let target := { t with files := t.files.insert (normal path) [.text content] }
  let absolute := isAbsolute path
  let ps := (parts path).filter fun p => p ≠ "" ∧ p ≠ "."
  let slash : Bool := (parts path).getLast? = some ""
  let dot : Bool := ((parts path).filter (· ≠ "")).getLast? = some "."
  match t.find path with
  | .ok .directory => .error .isDirectory
  | .ok _ => .ok target
  | .error .notFound =>
    if ps = [] ∨ dot then .error .notFound
    else match t.walk absolute [] ps.dropLast with
      | .ok .directory => if slash then .error .isDirectory else .ok target
      | .ok _ => .error .notDirectory
      | .error e => .error e
  | .error .notDirectory =>
    match t.walk absolute [] ps with
    | .ok _ => .error (if dot then .notDirectory else .isDirectory)
    | .error e => .error e
  | .error e => .error e

end FileTree
end HostVitals
