import HostVitals.Text.Blank
import HostVitals.Text.Numeral

/-! What a request asks for. Its path leads to a page; the key of a metric is one segment of the path,
in which a byte may stand as a percent sign and two hexadecimal digits. -/
namespace HostVitals

inductive Page where
  | root
  | metrics
  | metric (key : String)
  | health
  | config
  | telemetry
deriving DecidableEq, Repr

/-- The page at a path whose segments have not been looked at: all that follows the second slash is
taken for the key. -/
def Page.ofPath? (path : String) : Option Page :=
  match path with
  | "/" => some .root
  | "/metrics" => some .metrics
  | "/health" => some .health
  | "/config" => some .config
  | "/telemetry" => some .telemetry
  | p => (Text.stripStart "/metrics/".toList p.toList).map fun key => .metric (String.ofList key)

namespace Request

def percentDecode : List Char → List UInt8
  | '%' :: a :: b :: r =>
    match Text.digitValue 16 a, Text.digitValue 16 b with
    | some x, some y => UInt8.ofNat (16 * x + y) :: percentDecode r
    | _, _ => String.utf8EncodeChar '%' ++ percentDecode (a :: b :: r)
  | c :: r => String.utf8EncodeChar c ++ percentDecode r
  | [] => []

def decodeKey (segment : String) : Option String :=
  String.fromUTF8? ⟨(percentDecode segment.toList).toArray⟩

inductive Target where
  | page (p : Page)
  | undecodable
  | nowhere
deriving DecidableEq, Repr

def target (path : String) : Target :=
  match Page.ofPath? path with
  | none => .nowhere
  | some (.metric segment) =>
    if segment = "" ∨ '/' ∈ segment.toList then .nowhere
    else match decodeKey segment with
      | some key => .page (.metric key)
      | none => .undecodable
  | some page => .page page

end Request
end HostVitals
