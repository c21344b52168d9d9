import HostVitals.Fault
import HostVitals.Host.FileTree
import HostVitals.Text.Quoted

/-! What a command of the program leaves behind. -/
namespace HostVitals

def IoError.describe : IoError → String
  | .notFound => numbered 2 "NotFound" "No such file or directory"
  | .notDirectory => numbered 20 "NotADirectory" "Not a directory"
  | .isDirectory => numbered 21 "IsADirectory" "Is a directory"
  | .nameTooLong => numbered 36 "InvalidFilename" "File name too long"
  | .nulInName => named "InvalidInput" (IoError.message .nulInName)
  | .notUtf8 => named "InvalidData" (IoError.message .notUtf8)
where
  numbered (code : Nat) (kind message : String) : String :=
    "Os \x7b code: " ++ toString code ++ ", kind: " ++ kind ++ ", message: " ++
      Text.quoted message ++ " \x7d"
  named (kind message : String) : String :=
    "Error \x7b kind: " ++ kind ++ ", message: " ++ Text.quoted message ++ " \x7d"

namespace Program

inductive Failure where
  | io (cause : IoError)
  | unknownMetric (name : String)
  | nothingCollected
  /-- The command broke off in the middle. -/
  | broken (fault : Fault)
deriving DecidableEq, Repr

structure Effects where
  out : String := ""
  err : String := ""
  files : FileTree
  result : Except Failure Unit := .ok ()

end Program
end HostVitals
