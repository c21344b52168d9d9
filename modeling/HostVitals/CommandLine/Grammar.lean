import HostVitals.Named

/-! Command lines: options with one value each, flags, and words that lead on to another command.
An option's value may stand behind an equals sign, right behind a short letter, or in the next
argument; then it is only looked at when the following option has been read. -/
namespace HostVitals.CommandLine

inductive ValueFault where
  | missing
  | notAChoice
  | rejected (reason : String)
deriving DecidableEq, Repr

inductive Stop where
  | valueMissing (option : String)
  | notAChoice (value option : String)
  | rejected (value option reason : String)
  | unexpected (argument : String)
  | noSuchCommand (word : String)
  | valueUnneeded (value option : String)
  | repeated (option : String)
  | help (line : String)
  | version (line : String)
deriving DecidableEq, Repr

def Stop.message : Stop → String
  | valueMissing o => "error: a value is required for '" ++ o ++ "' but none was supplied"
  | notAChoice v o => "error: invalid value '" ++ v ++ "' for '" ++ o ++ "'"
  | rejected v o r => "error: invalid value '" ++ v ++ "' for '" ++ o ++ "': " ++ r
  | unexpected a => "error: unexpected argument '" ++ a ++ "' found"
  | noSuchCommand w => "error: unrecognized subcommand '" ++ w ++ "'"
  | valueUnneeded v o =>
    "error: unexpected value '" ++ v ++ "' for '" ++ o ++ "' found; no more were expected"
  | repeated o => "error: the argument '" ++ o ++ "' cannot be used multiple times"
  | help line | version line => line

structure Choice (α : Type) where
  long : String
  short : Option Char := none
  valueName : Option String := none
  store : String → α → Except ValueFault α

def Choice.shown {α : Type} (o : Choice α) : String :=
  "--" ++ o.long ++ (match o.valueName with
    | some v => " <" ++ v ++ ">"
    | none => "")

structure Grammar (α : Type) where
  options : List (Choice α)
  words : List String
  help : String
  longHelp : String
  version : String

structure Reading (α : Type) where
  gathered : α
  /-- Options that have been taken in. -/
  seen : List String := []
  /-- An option whose value, if it has come, has not been looked at yet. -/
  pending : Option (Choice α × Option String) := none

namespace Reading
variable {α : Type}

def take (r : Reading α) (o : Choice α) (value : String) : Except Stop (Reading α) :=
  if r.seen.contains o.long then .error (.repeated o.shown)
  else
    match o.store value r.gathered with
    | .ok gathered => .ok { r with gathered, seen := o.long :: r.seen }
    | .error .missing => .error (.valueMissing o.shown)
    | .error .notAChoice => .error (.notAChoice value o.shown)
    | .error (.rejected reason) => .error (.rejected value o.shown reason)

def settle (r : Reading α) : Except Stop (Reading α) :=
  match r.pending with
  | none => .ok r
  | some (o, none) => .error (.valueMissing o.shown)
  | some (o, some v) => { r with pending := none }.take o v

def awaitsValue (r : Reading α) : Bool :=
  match r.pending with
  | some (_, none) => true
  | _ => false

def meet (r : Reading α) (o : Choice α) (attached : Option String) : Except Stop (Reading α) :=
  match o.valueName, attached with
  | none, some v => .error (.valueUnneeded v o.shown)
  | none, none => do (← r.settle).take o "true"
  | some _, some v => do (← r.settle).take o v
  | some _, none => do return { (← r.settle) with pending := some (o, none) }

end Reading

namespace Grammar
variable {α : Type}

def tell (r : Reading α) (s : Stop) : Except Stop (Reading α) := do
  let _ ← r.settle
  .error s

def long (g : Grammar α) (name : String) (attached : Option String) (r : Reading α) :
    Except Stop (Reading α) :=
  match g.options.find? (·.long == name), attached with
  | some o, v => r.meet o v
  | none, v =>
    if name = "help" ∨ name = "version" then
      match v with
      | some v => .error (.valueUnneeded v ("--" ++ name))
      | none => tell r (if name = "help" then .help g.longHelp else .version g.version)
    else .error (.unexpected ("--" ++ name))

def short (g : Grammar α) : List Char → Reading α → Except Stop (Reading α)
  | [], r => .ok r
  | c :: rest, r =>
    match g.options.find? (·.short == some c) with
    | some o =>
      if o.valueName.isNone then do short g rest (← r.meet o none)
      else
        r.meet o (match rest with
          | [] => none
          | '=' :: v => some (String.ofList v)
          | v => some (String.ofList v))
    | none =>
      if c = 'h' then tell r (.help g.help)
      else if c = 'V' then tell r (.version g.version)
      else .error (.unexpected ("-" ++ String.ofList [c]))

def strayWord (g : Grammar α) (afterDashes : Bool) (w : String) : Stop :=
  if g.words.isEmpty ∨ (afterDashes ∧ g.words.contains w) then .unexpected w
  else .noSuchCommand w

def read (g : Grammar α) : List String → Reading α →
    Except Stop (Reading α × Option (String × List String))
  | [], r => .ok (r, none)
  | a :: rest, r =>
    if !r.awaitsValue && g.words.contains a then .ok (r, some (a, rest))
    else
      match a.toList with
      | ['-', '-'] =>
        match rest with
        | [] => .ok (r, none)
        | w :: _ => .error (g.strayWord true w)
      | '-' :: '-' :: name =>
        let whole := String.ofList (name.takeWhile (· != '='))
        let attached := if name.contains '=' then
            some (String.ofList ((name.dropWhile (· != '=')).drop 1))
          else none
        do read g rest (← g.long whole attached r)
      | '-' :: c :: letters => do read g rest (← g.short (c :: letters) r)
      | _ =>
        match r.pending with
        | some (o, none) => read g rest { r with pending := some (o, some a) }
        | _ => .error (g.strayWord false a)

end Grammar
end HostVitals.CommandLine
