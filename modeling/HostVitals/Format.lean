import HostVitals.Json.Printer
import HostVitals.Toml.Printer
import HostVitals.Yaml.Printer

/-! The text formats of settings and samples. -/
namespace HostVitals

inductive Format where
  | yaml | json | toml
deriving DecidableEq, Repr

namespace Format

def all : List Format := [yaml, json, toml]

def name : Format → String
  | yaml => "yaml"
  | json => "json"
  | toml => "toml"

def render : Format → Document → String
  | yaml => Yaml.render
  | json => Json.pretty
  | toml => Toml.render

end Format
end HostVitals
